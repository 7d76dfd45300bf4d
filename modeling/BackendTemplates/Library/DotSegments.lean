import Mathlib.Data.List.Induction

namespace BackendTemplates.DotSegments

/-- What one segment of a path asks for: to go up, to stay, or to enter a name. -/
inductive Segment (α : Type*) where
  | up
  | stay
  | name (a : α)
  deriving DecidableEq

section
variable {α : Type*}

/-- One segment, with the names entered so far on a stack. The root has nothing above it. -/
def advance : List α → Segment α → List α
  | names, .up => names.tail
  | names, .stay => names
  | names, .name a => a :: names

/-- The names that a path leads to, the last one on top. -/
def resolve (path : List (Segment α)) : List α := path.foldl advance []

def ups (path : List (Segment α)) : Nat :=
  path.countP fun
    | .up => true
    | _ => false

def names (path : List (Segment α)) : Nat :=
  path.countP fun
    | .name _ => true
    | _ => false

@[simp] theorem ups_append (p q : List (Segment α)) : ups (p ++ q) = ups p + ups q :=
  List.countP_append

@[simp] theorem names_append (p q : List (Segment α)) : names (p ++ q) = names p + names q :=
  List.countP_append

@[simp] theorem ups_up : ups [(.up : Segment α)] = 1 := rfl
@[simp] theorem ups_stay : ups [(.stay : Segment α)] = 0 := rfl
@[simp] theorem ups_name (a : α) : ups [.name a] = 0 := rfl
@[simp] theorem names_up : names [(.up : Segment α)] = 0 := rfl
@[simp] theorem names_stay : names [(.stay : Segment α)] = 0 := rfl
@[simp] theorem names_name (a : α) : names [.name a] = 1 := rfl
@[simp] theorem ups_nil : ups ([] : List (Segment α)) = 0 := rfl
@[simp] theorem names_nil : names ([] : List (Segment α)) = 0 := rfl

/-- Every way to end here climbs as far as it enters. -/
def Cancelled (path : List (Segment α)) : Prop := ∀ q, q <:+ path → names q ≤ ups q

/-- Never further up than entered since the beginning. -/
def Within (path : List (Segment α)) : Prop := ∀ q, q <+: path → ups q ≤ names q

theorem resolve_append (p : List (Segment α)) (s : Segment α) :
    resolve (p ++ [s]) = advance (resolve p) s := by
  simp [resolve]

/-- The ends of a path with one more segment: the empty one, and those that it extends. -/
theorem forall_suffix_snoc {P : List (Segment α) → Prop} {path : List (Segment α)}
    {s : Segment α} :
    (∀ q, q <:+ path ++ [s] → P q) ↔ P [] ∧ ∀ q, q <:+ path → P (q ++ [s]) := by
  constructor
  · intro h
    refine ⟨h [] List.nil_suffix, ?_⟩
    intro q hq
    exact h _ (List.suffix_concat_iff.mpr (.inr ⟨q, rfl, hq⟩))
  · intro h q hq
    rcases List.suffix_concat_iff.mp hq with rfl | ⟨r, rfl, hr⟩
    · exact h.1
    · exact h.2 r hr

/-- How deep a path ends is the most that one of its ends enters without climbing back. -/
theorem resolve_length_le_iff {path : List (Segment α)} {n : Nat} :
    (resolve path).length ≤ n ↔ ∀ q, q <:+ path → names q ≤ ups q + n := by
  induction path using List.reverseRecOn generalizing n with
  | nil => simp [resolve]
  | append_singleton path s ih =>
    rw [resolve_append, forall_suffix_snoc]
    cases s with
    | up =>
      have hdeeper : ((resolve path).tail.length ≤ n) ↔ (resolve path).length ≤ n + 1 := by
        rw [List.length_tail]
        omega
      simp only [advance, hdeeper, ih, names_append, ups_append, names_up, ups_up, names_nil]
      constructor
      · intro h
        refine ⟨Nat.zero_le _, ?_⟩
        intro q hq
        have := h q hq
        omega
      · intro h q hq
        have := h.2 q hq
        omega
    | stay =>
      simp [advance, ih]
    | name a =>
      simp only [advance, List.length_cons, names_append, ups_append, names_name, ups_name,
        names_nil]
      cases n with
      | zero =>
        apply iff_of_false (Nat.not_succ_le_zero _)
        intro h
        exact absurd (h.2 [] List.nil_suffix) (by simp)
      | succ n =>
        rw [Nat.add_le_add_iff_right, ih]
        constructor
        · intro h
          refine ⟨Nat.zero_le _, ?_⟩
          intro q hq
          have := h q hq
          omega
        · intro h q hq
          have := h.2 q hq
          omega

theorem resolve_eq_nil_iff {path : List (Segment α)} : resolve path = [] ↔ Cancelled path := by
  rw [← List.length_eq_zero_iff, ← Nat.le_zero, resolve_length_le_iff]
  rfl

theorem Within.of_snoc {path : List (Segment α)} {s : Segment α} (h : Within (path ++ [s])) :
    Within path ∧ ups path + ups [s] ≤ names path + names [s] := by
  constructor
  · intro q hq
    exact h q (hq.trans (List.prefix_append path [s]))
  · simpa using h _ List.prefix_rfl

theorem Within.snoc {path : List (Segment α)} {s : Segment α} (h : Within path)
    (hs : ups path + ups [s] ≤ names path + names [s]) : Within (path ++ [s]) := by
  intro q hq
  rcases List.prefix_concat_iff.mp hq with rfl | hq
  · simpa using hs
  · exact h q hq

/-- A path that stays within where it begins leaves the name it begins at in place. -/
theorem Within.keeps {path : List (Segment α)} (h : Within path) (a : α) :
    ∃ above, path.foldl advance [a] = above ++ [a] ∧ above.length + ups path = names path := by
  induction path using List.reverseRecOn with
  | nil => exact ⟨[], rfl, rfl⟩
  | append_singleton path s ih =>
    obtain ⟨hbefore, hnow⟩ := h.of_snoc
    obtain ⟨above, hfold, hlen⟩ := ih hbefore
    rw [List.foldl_append, hfold]
    simp only [names_append, ups_append]
    cases s with
    | up =>
      cases above with
      | nil =>
        simp at hnow hlen
        omega
      | cons b above =>
        refine ⟨above, rfl, ?_⟩
        simp at hlen ⊢
        omega
    | stay => exact ⟨above, rfl, hlen⟩
    | name b =>
      refine ⟨b :: above, rfl, ?_⟩
      simp at hlen ⊢
      omega

/-- What a path leads to, where it enters a name from the root and does not leave it. -/
theorem resolve_entered {pre post : List (Segment α)} (hpre : Cancelled pre) (hpost : Within post)
    (a : α) : ∃ above, resolve (pre ++ .name a :: post) = above ++ [a] ∧
      above.length + ups post = names post := by
  obtain ⟨above, hfold, hlen⟩ := hpost.keeps a
  refine ⟨above, ?_, hlen⟩
  have hroot : pre.foldl advance [] = [] := resolve_eq_nil_iff.mpr hpre
  rw [resolve, List.foldl_append, hroot]
  exact hfold

/-- The name right under the root after a path is one that the path enters from the root and
never climbs out of again. -/
theorem resolve_getLast_iff {path : List (Segment α)} {a : α} :
    (resolve path).getLast? = some a ↔
      ∃ pre post, path = pre ++ .name a :: post ∧ Cancelled pre ∧ Within post := by
  constructor
  · intro h
    induction path using List.reverseRecOn with
    | nil => simp [resolve] at h
    | append_singleton path s ih =>
      rw [resolve_append] at h
      cases s with
      | up =>
        cases hr : resolve path with
        | nil => simp [hr, advance] at h
        | cons b below =>
          -- the name that is left is not the one under the root, which stays
          have hbelow : below.getLast? = some a := by simpa [hr, advance] using h
          have hlast : (resolve path).getLast? = some a := by
            rw [hr, List.getLast?_cons, hbelow]
            rfl
          obtain ⟨pre, post, hpath, hpre, hpost⟩ := ih hlast
          obtain ⟨above, habove, hlen⟩ := resolve_entered hpre hpost a
          refine ⟨pre, post ++ [.up], by simp [hpath], hpre, hpost.snoc ?_⟩
          have hdeep : below ≠ [] := by
            intro hnil
            simp [hr, hnil, advance] at h
          have hlong : below.length + 1 = above.length + 1 := by
            have := congrArg List.length (hr.symm.trans (hpath ▸ habove))
            simpa using this
          have := List.length_pos_iff.mpr hdeep
          simp only [ups_up, names_up]
          omega
      | stay =>
        obtain ⟨pre, post, hpath, hpre, hpost⟩ := ih h
        refine ⟨pre, post ++ [.stay], by simp [hpath], hpre, hpost.snoc ?_⟩
        exact hpost post List.prefix_rfl
      | name b =>
        cases hr : resolve path with
        | nil =>
          obtain rfl : b = a := by simpa [hr, advance] using h
          refine ⟨path, [], rfl, resolve_eq_nil_iff.mp hr, ?_⟩
          intro q hq
          rw [List.prefix_nil.mp hq]
          exact Nat.le_refl _
        | cons c below =>
          have hlast : (resolve path).getLast? = some a := by
            rw [hr]
            simpa [hr, advance] using h
          obtain ⟨pre, post, hpath, hpre, hpost⟩ := ih hlast
          refine ⟨pre, post ++ [.name b], by simp [hpath], hpre, hpost.snoc ?_⟩
          have := hpost post List.prefix_rfl
          simp only [ups_name, names_name]
          omega
  · intro h
    obtain ⟨pre, post, rfl, hpre, hpost⟩ := h
    obtain ⟨above, habove, -⟩ := resolve_entered hpre hpost a
    rw [habove, List.getLast?_concat]

end
end BackendTemplates.DotSegments
