import BackendTemplates.Library.Runs

namespace BackendTemplates.Runs

/-- One machine seen as a run of another: what a step does is some actions of it. -/
structure View {S A T B : Type*} (m : Machine S A) (n : Machine T B) where
  of : S → T
  start : of m.start = n.start
  step : ∀ s a t, m.step s a = some t → ∃ bs, n.exec (of s) bs = some (of t)

theorem meets_of_forall {S A : Type*} {m : Machine S A} {ok : S → A → Prop} {s : S} {as : List A}
    (h : ∀ a ∈ as, ∀ s, ok s a) : m.Meets ok s as := by
  induction as generalizing s with
  | nil => trivial
  | cons a as ih => exact ⟨h a (by simp) s, fun t _ => ih (fun b hb => h b (by simp [hb]))⟩

namespace View

variable {S A T B : Type*} {m : Machine S A} {n : Machine T B}

/-- The steps of a run together, each of them under the condition where the invariant of the
whole machine grants it. -/
theorem reaches_meeting (v : View m n) {ok : T → B → Prop} {okay : S → A → Prop} {I : S → Prop}
    (start : I m.start) (next : ∀ s a t, I s → okay s a → m.step s a = some t → I t)
    (grant : ∀ s a t, I s → okay s a → m.step s a = some t →
      ∃ bs, n.exec (v.of s) bs = some (v.of t) ∧ n.Meets ok (v.of s) bs)
    {as : List A} {s : S} (h : m.Reaches as s) (hm : m.Meets okay m.start as) :
    ∃ bs, n.Reaches bs (v.of s) ∧ n.Meets ok n.start bs := by
  have run : ∀ (as : List A) (s t : S), I s → m.exec s as = some t → m.Meets okay s as →
      ∃ bs, n.exec (v.of s) bs = some (v.of t) ∧ n.Meets ok (v.of s) bs := by
    intro as
    induction as with
    | nil =>
      intro s t _ h _
      cases h
      exact ⟨[], rfl, trivial⟩
    | cons a as ih =>
      intro s t hI h hm
      rw [exec_cons] at h
      obtain ⟨u, hu, h⟩ := Option.bind_eq_some_iff.mp h
      obtain ⟨bs, hb, hbm⟩ := grant s a u hI hm.1 hu
      obtain ⟨cs, hc, hcm⟩ := ih u t (next s a u hI hm.1 hu) h (hm.2 u hu)
      refine ⟨bs ++ cs, by rw [exec_append, hb]; exact hc, meets_append.mpr ⟨hbm, ?_⟩⟩
      intro x hx
      obtain rfl : v.of u = x := Option.some.inj (hb.symm.trans hx)
      exact hcm
  obtain ⟨bs, hb, hbm⟩ := run as m.start s start h hm
  rw [v.start] at hb hbm
  exact ⟨bs, hb, hbm⟩

/-- What a run of the machine is for the part of it that is seen. -/
theorem reaches (v : View m n) {as : List A} {s : S} (h : m.Reaches as s) :
    ∃ bs, n.Reaches bs (v.of s) := by
  obtain ⟨bs, hb, _⟩ := v.reaches_meeting (I := fun _ => True) trivial (fun _ _ _ _ _ _ => trivial)
    (fun s a t _ _ hs => by
      obtain ⟨bs, hb⟩ := v.step s a t hs
      exact ⟨bs, hb, meets_trivial _ _⟩) h (meets_trivial _ _)
  exact ⟨bs, hb⟩

/-- What holds in every reachable state of the part holds of the part in the whole. -/
theorem holds (v : View m n) {I : T → Prop} (hI : ∀ bs t, n.Reaches bs t → I t)
    {as : List A} {s : S} (h : m.Reaches as s) : I (v.of s) := by
  obtain ⟨bs, hb⟩ := v.reaches h
  exact hI bs _ hb

end View
end BackendTemplates.Runs
