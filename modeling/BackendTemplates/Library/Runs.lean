import Mathlib.Data.List.Induction

namespace BackendTemplates.Runs

/-- A system taken action by action. A disabled action has no next state. -/
structure Machine (State Action : Type*) where
  start : State
  step : State → Action → Option State

variable {State Action : Type*}

/-- The state after a list of actions, if each of them was enabled in turn. -/
def Machine.exec (m : Machine State Action) : State → List Action → Option State
  | s, [] => some s
  | s, a :: as => (m.step s a).bind (fun t => m.exec t as)

/-- A run from the start. The list is the schedule chosen by the environment. -/
def Machine.Reaches (m : Machine State Action) (as : List Action) (s : State) : Prop :=
  m.exec m.start as = some s

/-- Every action of the run is taken in a state which meets the condition. -/
def Machine.Meets (m : Machine State Action) (ok : State → Action → Prop) :
    State → List Action → Prop
  | _, [] => True
  | s, a :: as => ok s a ∧ ∀ t, m.step s a = some t → m.Meets ok t as

/-- A condition that can be checked in each state can be checked along a run. -/
def Machine.decidableMeets (m : Machine State Action) (ok : State → Action → Prop)
    [∀ s a, Decidable (ok s a)] : ∀ s as, Decidable (m.Meets ok s as)
  | _, [] => isTrue trivial
  | s, a :: as =>
    match h : m.step s a with
    | none => decidable_of_iff (ok s a) (by simp [Machine.Meets, h])
    | some t =>
      have := m.decidableMeets ok t as
      decidable_of_iff (ok s a ∧ m.Meets ok t as) (by simp [Machine.Meets, h])

instance (m : Machine State Action) (ok : State → Action → Prop) [∀ s a, Decidable (ok s a)]
    (s : State) (as : List Action) : Decidable (m.Meets ok s as) := m.decidableMeets ok s as

variable {m : Machine State Action}

@[simp] theorem exec_nil (s : State) : m.exec s [] = some s := rfl

theorem exec_cons (s : State) (a : Action) (as : List Action) :
    m.exec s (a :: as) = (m.step s a).bind (fun t => m.exec t as) := rfl

theorem exec_append (s : State) (as bs : List Action) :
    m.exec s (as ++ bs) = (m.exec s as).bind (fun t => m.exec t bs) := by
  induction as generalizing s with
  | nil => rfl
  | cons a as ih =>
    simp only [List.cons_append, exec_cons]
    cases m.step s a with
    | none => rfl
    | some t => exact ih t

/-- A run ending in one more action splits at the state before that action. -/
theorem exec_snoc {s u : State} {as : List Action} {a : Action} :
    m.exec s (as ++ [a]) = some u ↔ ∃ t, m.exec s as = some t ∧ m.step t a = some u := by
  rw [exec_append]
  cases m.exec s as with
  | none => simp
  | some t => simp [exec_cons]

theorem Machine.Reaches.append {as bs : List Action} {s t : State}
    (h : m.Reaches as s) (hs : m.exec s bs = some t) : m.Reaches (as ++ bs) t := by
  unfold Machine.Reaches at *
  rw [exec_append, h]
  exact hs

/-- A schedule that runs to the end, seen through what is observed there. -/
theorem Machine.reaches_of_map {Obs : Type*} {as : List Action} {f : State → Obs} {o : Obs}
    (h : (m.exec m.start as).map f = some o) : ∃ s, m.Reaches as s ∧ f s = o :=
  Option.map_eq_some_iff.mp h

theorem meets_append {ok : State → Action → Prop} {s : State} {as bs : List Action} :
    m.Meets ok s (as ++ bs) ↔
      m.Meets ok s as ∧ ∀ t, m.exec s as = some t → m.Meets ok t bs := by
  induction as generalizing s with
  | nil => simp [Machine.Meets]
  | cons a as ih =>
    simp only [List.cons_append, Machine.Meets, ih, exec_cons]
    constructor
    · intro hx
      obtain ⟨ha, hr⟩ := hx
      refine ⟨⟨ha, fun t ht => (hr t ht).1⟩, ?_⟩
      intro u hu
      obtain ⟨t, ht, he⟩ := Option.bind_eq_some_iff.mp hu
      exact (hr t ht).2 u he
    · intro hx
      obtain ⟨⟨ha, hr⟩, hl⟩ := hx
      refine ⟨ha, fun t ht => ⟨hr t ht, ?_⟩⟩
      intro u hu
      exact hl u (by simp [ht, hu])

theorem meets_snoc {ok : State → Action → Prop} {s : State} {as : List Action} {a : Action} :
    m.Meets ok s (as ++ [a]) ↔
      m.Meets ok s as ∧ ∀ t, m.exec s as = some t → ok t a := by
  simp [meets_append, Machine.Meets]

theorem meets_and {ok ok' : State → Action → Prop} {s : State} {as : List Action} :
    m.Meets (fun s a => ok s a ∧ ok' s a) s as ↔ m.Meets ok s as ∧ m.Meets ok' s as := by
  induction as generalizing s with
  | nil => simp [Machine.Meets]
  | cons a as ih =>
    simp only [Machine.Meets, ih]
    constructor
    · intro h
      obtain ⟨⟨ha, ha'⟩, hr⟩ := h
      exact ⟨⟨ha, fun t ht => (hr t ht).1⟩, ha', fun t ht => (hr t ht).2⟩
    · intro h
      obtain ⟨⟨ha, hr⟩, ha', hr'⟩ := h
      exact ⟨⟨ha, ha'⟩, fun t ht => ⟨hr t ht, hr' t ht⟩⟩

theorem meets_trivial (s : State) (as : List Action) : m.Meets (fun _ _ => True) s as := by
  induction as generalizing s with
  | nil => trivial
  | cons a as ih => exact ⟨trivial, fun t _ => ih t⟩

/-- A condition on the actions alone, along a run that was enabled. -/
theorem meets_action {ok : Action → Prop} {s t : State} {as : List Action}
    (h : m.exec s as = some t) : m.Meets (fun _ a => ok a) s as ↔ ∀ a ∈ as, ok a := by
  induction as generalizing s with
  | nil => simp [Machine.Meets]
  | cons a as ih =>
    rw [exec_cons] at h
    obtain ⟨u, hu, h⟩ := Option.bind_eq_some_iff.mp h
    simp only [Machine.Meets, hu, Option.some.injEq, forall_eq', ih h, List.forall_mem_cons]

/-- What holds in some state of a run, and is kept by the steps that meet a condition, holds
to the end of it. -/
theorem exec_invariant_of_meets {ok : State → Action → Prop} {I : State → Prop}
    (next : ∀ s a t, I s → ok s a → m.step s a = some t → I t) {s t : State} {as : List Action}
    (hs : I s) (h : m.exec s as = some t) (hm : m.Meets ok s as) : I t := by
  induction as generalizing s with
  | nil =>
    cases h
    exact hs
  | cons a as ih =>
    rw [exec_cons] at h
    obtain ⟨u, hu, h⟩ := Option.bind_eq_some_iff.mp h
    exact ih (next s a u hs hm.1 hu) h (hm.2 u hu)

/-- Induction on a run from its start, with the schedule so far in view. -/
theorem Machine.Reaches.induct {P : List Action → State → Prop} (start : P [] m.start)
    (next : ∀ as s a t, m.Reaches as s → P as s → m.step s a = some t → P (as ++ [a]) t)
    {as : List Action} {s : State} (h : m.Reaches as s) : P as s := by
  induction as using List.reverseRecOn generalizing s with
  | nil =>
    cases h
    exact start
  | append_singleton as a ih =>
    obtain ⟨t, ht, hs⟩ := exec_snoc.mp h
    exact next as t a s ht (ih ht) hs

/-- The same from the start. -/
theorem Machine.Reaches.invariant_of_meets {ok : State → Action → Prop} {I : State → Prop}
    (start : I m.start) (next : ∀ s a t, I s → ok s a → m.step s a = some t → I t)
    {as : List Action} {s : State} (h : m.Reaches as s) (hm : m.Meets ok m.start as) : I s :=
  exec_invariant_of_meets next start h hm

/-- The same with the run so far in view. -/
theorem Machine.Reaches.induct_of_meets {ok : State → Action → Prop} {I : State → Prop}
    (start : I m.start)
    (next : ∀ as s a t, m.Reaches as s → m.Meets ok m.start as → I s → ok s a →
      m.step s a = some t → I t)
    {as : List Action} {s : State} (h : m.Reaches as s) (hm : m.Meets ok m.start as) : I s := by
  refine h.induct (P := fun as s => m.Meets ok m.start as → I s) (fun _ => start) ?_ hm
  intro as s a t hs ih ht hm
  obtain ⟨hbefore, hlast⟩ := meets_snoc.mp hm
  exact next as s a t hs hbefore (ih hbefore) (hlast s hs) ht

/-- Where a step keeps a property exactly under a condition, a run has the property
throughout exactly if every step of it meets the condition. -/
theorem Machine.Reaches.throughout_iff {ok : State → Action → Prop} {I : State → Prop}
    (start : I m.start)
    (next : ∀ as s a t, m.Reaches as s → I s → m.step s a = some t → (I t ↔ ok s a))
    {as : List Action} {s : State} (h : m.Reaches as s) :
    (∀ bs t, bs <+: as → m.Reaches bs t → I t) ↔ m.Meets ok m.start as := by
  induction as using List.reverseRecOn generalizing s with
  | nil =>
    refine iff_of_true ?_ trivial
    intro bs t hb ht
    obtain rfl := List.prefix_nil.mp hb
    cases ht
    exact start
  | append_singleton as a ih =>
    obtain ⟨u, hu, hs⟩ := exec_snoc.mp h
    rw [meets_snoc, ← ih hu]
    constructor
    · intro hall
      have hbefore : ∀ bs t, bs <+: as → m.Reaches bs t → I t :=
        fun bs t hb => hall bs t (hb.trans (List.prefix_append as [a]))
      refine ⟨hbefore, ?_⟩
      intro t ht
      obtain rfl : u = t := Option.some.inj (hu.symm.trans ht)
      exact (next as u a s hu (hbefore as u List.prefix_rfl hu) hs).mp
        (hall _ s List.prefix_rfl h)
    · intro hx
      obtain ⟨hbefore, hone⟩ := hx
      intro bs t hb ht
      rcases List.prefix_concat_iff.mp hb with rfl | hb
      · obtain rfl : s = t := Option.some.inj (h.symm.trans ht)
        exact (next as u a s hu (hbefore as u List.prefix_rfl hu) hs).mpr (hone u hu)
      · exact hbefore bs t hb ht

end BackendTemplates.Runs
