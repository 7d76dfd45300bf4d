import Mathlib.Data.List.Induction

namespace BackendTemplates

section
variable {α : Type*} {need : α → List α → Prop}

/-- Every entry of the log finds what it needs among the earlier ones. -/
def Justified (need : α → List α → Prop) (log : List α) : Prop :=
  ∀ pre e post, log = pre ++ e :: post → need e pre

theorem Justified.nil : Justified need [] := by
  intro pre e post h
  simp at h

theorem justified_snoc {log : List α} {e : α} :
    Justified need (log ++ [e]) ↔ Justified need log ∧ need e log := by
  constructor
  · intro h
    exact ⟨fun pre x post hx => h pre x (post ++ [e]) (by simp [hx]), h log e [] rfl⟩
  · intro hboth pre x post hx
    obtain ⟨h, he⟩ := hboth
    rcases List.eq_nil_or_concat post with rfl | ⟨post', y, rfl⟩
    · obtain ⟨rfl, hxe⟩ := List.append_inj' hx rfl
      cases hxe
      exact he
    · have hx' : log ++ [e] = (pre ++ x :: post') ++ [y] := by simpa using hx
      exact h pre x post' (List.append_inj' hx' rfl).1

/-- Entries that need nothing can be appended. -/
theorem Justified.append {log es : List α} (h : Justified need log)
    (hes : ∀ e ∈ es, ∀ l, need e l) : Justified need (log ++ es) := by
  induction es using List.reverseRecOn with
  | nil => simpa using h
  | append_singleton es e ih =>
    rw [← List.append_assoc]
    exact justified_snoc.mpr ⟨ih (fun x hx => hes x (by simp [hx])), hes e (by simp) _⟩

/-- The entries of a log that are visible in another form inherit what they need. -/
theorem Justified.filterMap {β : Type*} {f : α → Option β} {need' : β → List β → Prop}
    {log : List α} (h : Justified need log)
    (hn : ∀ e b pre, f e = some b → need e pre → need' b (pre.filterMap f)) :
    Justified need' (log.filterMap f) := by
  intro pre b post hb
  obtain ⟨l, r, rfl, hl, hr⟩ := List.filterMap_eq_append_iff.mp hb
  obtain ⟨l₂, e, r₂, rfl, hnone, he, _⟩ := List.filterMap_eq_cons_iff.mp hr
  have hpre : (l ++ l₂).filterMap f = pre := by
    rw [List.filterMap_append, hl, List.filterMap_eq_nil_iff.mpr hnone, List.append_nil]
  rw [← hpre]
  exact hn e b _ he (h (l ++ l₂) e r₂ (by simp))

end
end BackendTemplates
