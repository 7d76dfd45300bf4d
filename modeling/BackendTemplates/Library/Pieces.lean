import Mathlib.Data.List.Basic

namespace BackendTemplates

section
variable {α : Type*}

/-- The text of a list of pieces, each with its terminator. -/
def terminate (sep : α) (ls : List (List α)) : List α := (ls.map (fun p => p ++ [sep])).flatten

/-- How long that text is. -/
def size : List (List α) → Nat
  | [] => 0
  | p :: ls => p.length + 1 + size ls

theorem terminate_append {sep : α} (ls ms : List (List α)) :
    terminate sep (ls ++ ms) = terminate sep ls ++ terminate sep ms := by
  simp [terminate]

theorem terminate_length {sep : α} (ls : List (List α)) : (terminate sep ls).length = size ls := by
  induction ls with
  | nil => rfl
  | cons p ls ih =>
    change (p ++ [sep] ++ terminate sep ls).length = p.length + 1 + size ls
    simp only [List.length_append, List.length_singleton, ih]

theorem size_append (ls ms : List (List α)) : size (ls ++ ms) = size ls + size ms := by
  induction ls with
  | nil => simp [size]
  | cons p ls ih => simp only [List.cons_append, size, ih, Nat.add_assoc]

theorem length_le_size (ls : List (List α)) : ls.length ≤ size ls := by
  induction ls with
  | nil => exact Nat.zero_le _
  | cons p ls ih =>
    change ls.length + 1 ≤ p.length + 1 + size ls
    omega

end

section
variable {α : Type*} [DecidableEq α]

/-- The pieces of a text which a separator terminates, and what follows the last one. -/
def pieces (sep : α) : List α → List (List α) × List α
  | [] => ([], [])
  | x :: xs =>
    if x = sep then ([] :: (pieces sep xs).1, (pieces sep xs).2)
    else match pieces sep xs with
      | ([], rest) => ([], x :: rest)
      | (piece :: complete, rest) => ((x :: piece) :: complete, rest)

def complete (sep : α) (xs : List α) : List (List α) := (pieces sep xs).1

def rest (sep : α) (xs : List α) : List α := (pieces sep xs).2

variable {sep : α}

/-- The text is the terminated pieces followed by the rest. -/
theorem pieces_join (xs : List α) :
    ((complete sep xs).map (fun piece => piece ++ [sep])).flatten ++ rest sep xs = xs := by
  induction xs with
  | nil => rfl
  | cons x xs ih =>
    unfold complete rest at *
    simp only [pieces]
    split
    · rename_i h
      subst x
      simpa using ih
    · split
      · rename_i r hp
        simpa [hp] using ih
      · rename_i piece cs r hp
        simpa [hp] using ih

/-- A text read in two parts: the second part continues the rest of the first. -/
theorem pieces_append (sep : α) (xs ys : List α) :
    pieces sep (xs ++ ys) =
      (complete sep xs ++ complete sep (rest sep xs ++ ys), rest sep (rest sep xs ++ ys)) := by
  induction xs with
  | nil => rfl
  | cons x xs ih =>
    rcases hp : pieces sep xs with ⟨cs, r⟩
    simp only [complete, rest, hp] at ih ⊢
    simp only [List.cons_append, pieces, ih, hp]
    by_cases h : x = sep
    · simp [h]
    · cases cs with
      | nil => simp [h, pieces]
      | cons piece cs => simp [h]

theorem complete_append (xs ys : List α) :
    complete sep (xs ++ ys) = complete sep xs ++ complete sep (rest sep xs ++ ys) := by
  have h := congrArg Prod.fst (pieces_append sep xs ys)
  exact h

theorem rest_append (xs ys : List α) : rest sep (xs ++ ys) = rest sep (rest sep xs ++ ys) := by
  have h := congrArg Prod.snd (pieces_append sep xs ys)
  exact h

theorem sep_not_mem_rest (xs : List α) : sep ∉ rest sep xs := by
  induction xs with
  | nil => simp [rest, pieces]
  | cons x xs ih =>
    rcases hp : pieces sep xs with ⟨cs, r⟩
    simp only [rest, pieces, hp] at ih ⊢
    by_cases h : x = sep
    · simpa [h] using ih
    · cases cs with
      | nil => simpa [h, Ne.symm h] using ih
      | cons piece cs => simpa [h] using ih

/-- A text without the separator is all rest. -/
theorem pieces_of_not_mem {xs : List α} (h : sep ∉ xs) : pieces sep xs = ([], xs) := by
  induction xs with
  | nil => rfl
  | cons x xs ih =>
    simp only [List.mem_cons, not_or] at h
    simp [pieces, Ne.symm h.1, ih h.2]

theorem rest_of_not_mem {xs : List α} (h : sep ∉ xs) : rest sep xs = xs := by
  simp [rest, pieces_of_not_mem h]

/-- Terminating a text without separators makes it one piece. -/
theorem pieces_snoc {xs : List α} (h : sep ∉ xs) : pieces sep (xs ++ [sep]) = ([xs], []) := by
  induction xs with
  | nil => simp [pieces]
  | cons x xs ih =>
    simp only [List.mem_cons, not_or] at h
    simp [pieces, Ne.symm h.1, ih h.2]

/-- Nothing is left over exactly when the text is empty or ends with a separator. -/
theorem rest_eq_nil_iff {xs : List α} :
    rest sep xs = [] ↔ xs = [] ∨ xs.getLast? = some sep := by
  rcases List.eq_nil_or_concat xs with rfl | ⟨ys, y, rfl⟩
  · simp [rest, pieces]
  · rw [List.concat_eq_append, rest_append]
    by_cases h : y = sep
    · subst y
      have hp : rest sep (rest sep ys ++ [sep]) = [] :=
        congrArg Prod.snd (pieces_snoc (sep_not_mem_rest ys))
      simp [hp]
    · have hn : sep ∉ rest sep ys ++ [y] := by
        simp [sep_not_mem_rest ys, Ne.symm h]
      simp [rest_of_not_mem hn, h]

/-- The end of a text without a rest has none either. -/
theorem rest_of_append {xs ys : List α} (h : rest sep (xs ++ ys) = []) : rest sep ys = [] := by
  apply rest_eq_nil_iff.mpr
  rcases List.eq_nil_or_concat ys with rfl | ⟨zs, z, rfl⟩
  · exact .inl rfl
  · rw [rest_eq_nil_iff] at h
    right
    simpa using h

theorem rest_suffix (xs : List α) : ∃ ys, xs = ys ++ rest sep xs :=
  ⟨_, (pieces_join xs).symm⟩

theorem complete_length (xs : List α) : (complete sep xs).length = xs.count sep := by
  induction xs with
  | nil => rfl
  | cons x xs ih =>
    rcases hp : pieces sep xs with ⟨cs, r⟩
    simp only [complete, pieces, hp, List.count_cons] at ih ⊢
    by_cases h : x = sep
    · simp [h, ih]
    · cases cs with
      | nil => simp [h, ← ih]
      | cons piece cs => simpa [h] using ih

/-- Text before the first separator only makes the first piece longer. -/
theorem complete_extend {r : List α} (h : sep ∉ r) (xs : List α) :
    complete sep (r ++ xs) = match complete sep xs with
      | [] => []
      | piece :: cs => (r ++ piece) :: cs := by
  induction r with
  | nil =>
    simp only [List.nil_append]
    cases complete sep xs with
    | nil => rfl
    | cons p cs => rfl
  | cons x r ih =>
    simp only [List.mem_cons, not_or] at h
    have ih := ih h.2
    rcases hp : pieces sep (r ++ xs) with ⟨cs, t⟩
    simp only [complete, hp] at ih
    simp only [complete, List.cons_append, pieces, hp, Ne.symm h.1, if_false, ih]
    cases (pieces sep xs).1 <;> rfl

theorem terminate_complete (xs : List α) : terminate sep (complete sep xs) ++ rest sep xs = xs :=
  pieces_join xs

theorem sep_not_mem_complete {xs p : List α} (h : p ∈ complete sep xs) : sep ∉ p := by
  induction xs generalizing p with
  | nil => cases h
  | cons x xs ih =>
    rcases hp : pieces sep xs with ⟨cs, r⟩
    simp only [complete, pieces, hp] at ih h
    by_cases hx : x = sep
    · simp only [hx, if_true, List.mem_cons] at h
      rcases h with rfl | h
      · simp
      · exact ih h
    · cases cs with
      | nil => simp [hx] at h
      | cons q cs =>
        simp only [hx, if_false, List.mem_cons] at h
        rcases h with rfl | h
        · simp [Ne.symm hx, ih (List.mem_cons_self)]
        · exact ih (List.mem_cons_of_mem _ h)

/-- Terminated pieces are cut where they were joined. -/
theorem pieces_terminate {ls : List (List α)} (h : ∀ p ∈ ls, sep ∉ p) {r : List α}
    (hr : sep ∉ r) : pieces sep (terminate sep ls ++ r) = (ls, r) := by
  induction ls with
  | nil => exact pieces_of_not_mem hr
  | cons p ls ih =>
    have hp := pieces_snoc (h p (by simp))
    have hrest : rest sep (p ++ [sep]) = [] := congrArg Prod.snd hp
    have hcomplete : complete sep (p ++ [sep]) = [p] := congrArg Prod.fst hp
    have ih := ih (fun q hq => h q (by simp [hq]))
    change pieces sep (p ++ [sep] ++ terminate sep ls ++ r) = _
    rw [List.append_assoc, pieces_append, hcomplete, hrest, List.nil_append]
    simp [complete, rest, ih]

/-- All pieces, the unterminated one last. -/
def split (sep : α) (xs : List α) : List (List α) := complete sep xs ++ [rest sep xs]

/-- The last position of an element. -/
def rfind (x : α) : List α → Option Nat
  | [] => none
  | y :: ys => match rfind x ys with
    | some i => some (i + 1)
    | none => if y = x then some 0 else none

theorem complete_of_rfind_none {xs : List α} (h : rfind sep xs = none) : complete sep xs = [] := by
  induction xs with
  | nil => rfl
  | cons x xs ih =>
    simp only [rfind] at h
    cases hf : rfind sep xs with
    | some i => simp [hf] at h
    | none =>
      simp only [hf, ite_eq_right_iff, reduceCtorEq, imp_false] at h
      have hc : (pieces sep xs).1 = [] := ih hf
      rcases hp : pieces sep xs with ⟨cs, r⟩
      simp only [hp] at hc
      subst cs
      simp [complete, pieces, hp, h]

/-- The text through the last separator is what its pieces were cut from. -/
theorem take_rfind {xs : List α} {i : Nat} (h : rfind sep xs = some i) :
    xs.take (i + 1) = terminate sep (complete sep xs) := by
  induction xs generalizing i with
  | nil => cases h
  | cons x xs ih =>
    simp only [rfind] at h
    cases hf : rfind sep xs with
    | some j =>
      simp only [hf, Option.some.injEq] at h
      subst h
      have ih := ih hf
      rcases hp : pieces sep xs with ⟨cs, r⟩
      simp only [complete, hp] at ih
      rw [List.take_succ_cons, ih]
      by_cases hx : x = sep
      · simp [complete, pieces, hp, hx, terminate]
      · cases cs with
        | nil =>
          have hnil : xs = [] := by simpa [terminate] using ih
          simp [hnil, rfind] at hf
        | cons p cs => simp [complete, pieces, hp, hx, terminate]
    | none =>
      have hc : (pieces sep xs).1 = [] := complete_of_rfind_none hf
      rcases hp : pieces sep xs with ⟨cs, r⟩
      simp only [hp] at hc
      subst cs
      by_cases hx : x = sep
      · simp only [hf, hx, if_true, Option.some.injEq] at h
        subst h
        simp [complete, pieces, hp, hx, terminate]
      · simp [hf, hx] at h

/-- Text that ends with a separator splits into its pieces and an empty one. -/
theorem split_terminate {ls : List (List α)} (h : ∀ p ∈ ls, sep ∉ p) :
    split sep (terminate sep ls) = ls ++ [[]] := by
  have hp := pieces_terminate h (@List.not_mem_nil _ sep)
  rw [List.append_nil] at hp
  simp [split, complete, rest, hp]

/-- In a text seen from some position on, all pieces but the first are those of the whole. -/
theorem complete_drop (a b : List α) {k : Nat} (hk : 1 ≤ k) :
    (complete sep (a ++ b)).drop ((complete sep a).length + k) = (complete sep b).drop k := by
  rw [complete_append, complete_extend (sep_not_mem_rest a), List.drop_append]
  obtain ⟨k, rfl⟩ := Nat.exists_eq_add_of_le hk
  cases complete sep b with
  | nil => simp
  | cons p cs => simp [Nat.add_comm 1 k]

theorem complete_length_append (a b : List α) :
    (complete sep (a ++ b)).length = (complete sep a).length + (complete sep b).length := by
  simp [complete_length]

/-- The bytes before a piece are those before the position and those seen before it. -/
theorem size_take (a b : List α) {k : Nat} (hk : 1 ≤ k) (hb : k ≤ (complete sep b).length) :
    size ((complete sep (a ++ b)).take ((complete sep a).length + k)) =
      a.length + size ((complete sep b).take k) := by
  have ha := congrArg List.length (@terminate_complete _ _ sep a)
  rw [List.length_append, terminate_length] at ha
  rw [complete_append, complete_extend (sep_not_mem_rest a), List.take_append]
  obtain ⟨k, rfl⟩ := Nat.exists_eq_add_of_le hk
  cases hc : complete sep b with
  | nil => simp [hc] at hb
  | cons p cs =>
    simp only [Nat.add_comm 1 k, Nat.add_sub_cancel_left, List.take_succ_cons, size_append,
      List.take_of_length_le (Nat.le_add_right _ _)]
    simp only [size, List.length_append]
    omega

/-- The pieces, and what follows the last one where it is not empty. -/
def segments (sep : α) (xs : List α) : List (List α) :=
  if rest sep xs = [] then complete sep xs else split sep xs

theorem split_segments (xs : List α) :
    (if (split sep xs).getLast? = some [] then (split sep xs).dropLast else split sep xs) =
      segments sep xs := by
  simp [segments, split]

/-- Before the torn one the segments are the pieces. -/
theorem segments_take {xs : List α} {k : Nat} (hk : k ≤ (complete sep xs).length) :
    (segments sep xs).take k = (complete sep xs).take k := by
  unfold segments split
  split
  · rfl
  · rw [List.take_append_of_le_length hk]

theorem segments_length_le (xs : List α) :
    (segments sep xs).length ≤ (complete sep xs).length + 1 := by
  unfold segments split
  split <;> simp

/-- Whole pieces are the segments of their text. -/
theorem segments_terminate {ls : List (List α)} (h : ∀ p ∈ ls, sep ∉ p) :
    segments sep (terminate sep ls) = ls := by
  have hp := pieces_terminate h (@List.not_mem_nil _ sep)
  rw [List.append_nil] at hp
  have hrest : rest sep (terminate sep ls) = [] := congrArg Prod.snd hp
  rw [segments, if_pos hrest]
  exact congrArg Prod.fst hp

/-- Text before a separator leaves the rest as it is. -/
theorem rest_extend {xs : List α} (h : complete sep xs ≠ []) (as : List α) :
    rest sep (as ++ xs) = rest sep xs := by
  induction as with
  | nil => rfl
  | cons a as ih =>
    have hne : complete sep (as ++ xs) ≠ [] := by
      intro hnil
      have hlen := congrArg List.length hnil
      rw [complete_length_append, List.length_nil] at hlen
      exact h (List.length_eq_zero_iff.mp (by omega))
    rcases hp : pieces sep (as ++ xs) with ⟨cs, r⟩
    simp only [complete, rest, hp] at hne ih
    simp only [rest, List.cons_append, pieces, hp]
    split
    · exact ih
    · obtain ⟨p, cs, rfl⟩ := List.exists_cons_of_ne_nil hne
      exact ih

/-- In a text seen from some position on, the torn last piece is that of the whole. -/
theorem segments_append (as : List α) {xs : List α} (h : complete sep xs ≠ []) :
    ∃ torn : List (List α), torn.length ≤ 1 ∧ segments sep xs = complete sep xs ++ torn ∧
      segments sep (as ++ xs) = complete sep (as ++ xs) ++ torn := by
  have hr := rest_extend h as
  by_cases ht : rest sep xs = []
  · exact ⟨[], Nat.zero_le 1, by simp [segments, ht], by simp [segments, hr, ht]⟩
  · exact ⟨[rest sep xs], Nat.le_refl 1, by simp [segments, split, ht],
      by simp [segments, split, hr, ht]⟩

end
end BackendTemplates
