import BackendTemplates.Library.Runs

namespace BackendTemplates.Runs

variable {S A X : Type*} {m : Machine S A} {ok : S → A → Prop} {s t : S} {P Q : S → Prop}

/-- Some run of steps that meet the condition leads from the state to one with the property. -/
def Machine.CanReach (m : Machine S A) (ok : S → A → Prop) (s : S) (P : S → Prop) : Prop :=
  ∃ as t, m.exec s as = some t ∧ m.Meets ok s as ∧ P t

namespace Machine.CanReach

theorem here (h : P s) : m.CanReach ok s P := ⟨[], s, rfl, trivial, h⟩

theorem step {a : A} (ha : ok s a) (hs : m.step s a = some t) (h : m.CanReach ok t P) :
    m.CanReach ok s P := by
  obtain ⟨as, u, hu, hm, hP⟩ := h
  refine ⟨a :: as, u, by rw [exec_cons, hs]; exact hu, ⟨ha, ?_⟩, hP⟩
  intro t' ht
  obtain rfl : t = t' := Option.some.inj (hs.symm.trans ht)
  exact hm

theorem trans (h : m.CanReach ok s P) (next : ∀ t, P t → m.CanReach ok t Q) :
    m.CanReach ok s Q := by
  obtain ⟨as, t, ht, hm, hP⟩ := h
  obtain ⟨bs, u, hu, hm', hQ⟩ := next t hP
  refine ⟨as ++ bs, u, by rw [exec_append, ht]; exact hu, meets_append.mpr ⟨hm, ?_⟩, hQ⟩
  intro t' ht'
  obtain rfl : t = t' := Option.some.inj (ht.symm.trans ht')
  exact hm'

theorem mono (h : m.CanReach ok s P) (hPQ : ∀ t, P t → Q t) : m.CanReach ok s Q :=
  h.trans fun t ht => here (hPQ t ht)

/-- What the steps keep holds where they lead. -/
theorem keep {I : S → Prop} (next : ∀ s a t, I s → ok s a → m.step s a = some t → I t) (hs : I s)
    (h : m.CanReach ok s P) : m.CanReach ok s fun t => I t ∧ P t := by
  obtain ⟨as, t, ht, hm, hP⟩ := h
  exact ⟨as, t, ht, hm, exec_invariant_of_meets next hs ht hm, hP⟩

/-- Things that can be done one at a time, and stay done, can all be done. -/
theorem each {I : S → Prop} {D : X → S → Prop}
    (next : ∀ x s, I s →
      m.CanReach ok s fun t => I t ∧ D x t ∧ ∀ y, D y s → D y t)
    (xs : List X) (hs : I s) : m.CanReach ok s fun t => I t ∧ ∀ x ∈ xs, D x t := by
  have all : m.CanReach ok s fun t =>
      I t ∧ (∀ x ∈ xs, D x t) ∧ ∀ y, D y s → D y t := by
    induction xs generalizing s with
    | nil => exact here ⟨hs, by simp, fun _ hy => hy⟩
    | cons x xs ih =>
      refine (next x s hs).trans ?_
      intro t ht
      obtain ⟨ht, hx, hkeep⟩ := ht
      refine (ih ht).mono ?_
      intro u hu
      obtain ⟨hu, hxs, hkeep'⟩ := hu
      exact ⟨hu, List.forall_mem_cons.mpr ⟨hkeep' x hx, hxs⟩, fun y hy => hkeep' y (hkeep y hy)⟩
  exact all.mono fun t ht => ⟨ht.1, ht.2.1⟩

/-- What can always be made smaller can be brought to nothing. -/
theorem descend {I : S → Prop} (μ : S → Nat)
    (next : ∀ s, I s → μ s ≠ 0 → m.CanReach ok s fun t => I t ∧ μ t < μ s) (hs : I s) :
    m.CanReach ok s fun t => I t ∧ μ t = 0 := by
  induction hn : μ s using Nat.strongRecOn generalizing s with
  | ind n ih =>
    by_cases hz : μ s = 0
    · exact here ⟨hs, hz⟩
    · refine (next s hs hz).trans ?_
      intro t ht
      exact ih (μ t) (hn ▸ ht.2) ht.1 rfl

end Machine.CanReach
end BackendTemplates.Runs
