import BackendTemplates.Library.JsonOrder

namespace BackendTemplates.Json

section
variable (number : NumText → Option NumText) (text : String → Bool)

mutual
/-- The value with its numbers replaced. There is none if a number has no replacement, or a
text, which may be a key, is refused. -/
def revise : Json → Option Json
  | .null => some .null
  | .bool b => some (.bool b)
  | .num n => (number n).map .num
  | .str s => if text s then some (.str s) else none
  | .arr items => (reviseItems items).map .arr
  | .obj members => (reviseMembers members).map .obj

def reviseItems : List Json → Option (List Json)
  | [] => some []
  | j :: items => (revise j).bind (fun j' => (reviseItems items).map (fun items' => j' :: items'))

def reviseMembers : List (String × Json) → Option (List (String × Json))
  | [] => some []
  | (k, j) :: members =>
    if text k then
      (revise j).bind (fun j' => (reviseMembers members).map (fun members' => (k, j') :: members'))
    else none
end

mutual
/-- Every number, at every depth, is its own replacement. -/
def Kept : Json → Prop
  | .num n => number n = some n
  | .arr items => KeptItems items
  | .obj members => KeptMembers members
  | _ => True

def KeptItems : List Json → Prop
  | [] => True
  | j :: items => Kept j ∧ KeptItems items

def KeptMembers : List (String × Json) → Prop
  | [] => True
  | (_, j) :: members => Kept j ∧ KeptMembers members
end

end

section
variable {number : NumText → Option NumText} {text : String → Bool}
  {r : String → String → Prop} [DecidableRel r]

theorem keptItems_iff {items : List Json} :
    KeptItems number items ↔ ∀ j ∈ items, Kept number j := by
  induction items with
  | nil => simp [KeptItems]
  | cons j items ih => rw [KeptItems, ih, List.forall_mem_cons]

theorem keptMembers_iff {members : List (String × Json)} :
    KeptMembers number members ↔ ∀ m ∈ members, Kept number m.2 := by
  induction members with
  | nil => simp [KeptMembers]
  | cons m members ih => rw [KeptMembers, ih, List.forall_mem_cons]

theorem reviseItems_cons {j : Json} {items ys : List Json}
    (h : reviseItems number text (j :: items) = some ys) :
    ∃ j' items', revise number text j = some j' ∧ reviseItems number text items = some items' ∧
      ys = j' :: items' := by
  rw [reviseItems] at h
  obtain ⟨j', hj, h⟩ := Option.bind_eq_some_iff.mp h
  obtain ⟨items', hi, rfl⟩ := Option.map_eq_some_iff.mp h
  exact ⟨j', items', hj, hi, rfl⟩

theorem reviseMembers_cons {k : String} {j : Json} {members ys : List (String × Json)}
    (h : reviseMembers number text ((k, j) :: members) = some ys) :
    ∃ j' members', revise number text j = some j' ∧
      reviseMembers number text members = some members' ∧ ys = (k, j') :: members' := by
  rw [reviseMembers] at h
  obtain ⟨-, h⟩ := Option.ite_none_right_eq_some.mp h
  obtain ⟨j', hj, h⟩ := Option.bind_eq_some_iff.mp h
  obtain ⟨members', hm, rfl⟩ := Option.map_eq_some_iff.mp h
  exact ⟨j', members', hj, hm, rfl⟩

theorem reviseMembers_keys {members ys : List (String × Json)}
    (h : reviseMembers number text members = some ys) :
    ys.map Prod.fst = members.map Prod.fst := by
  induction members generalizing ys with
  | nil =>
    cases h
    rfl
  | cons m members ih =>
    obtain ⟨j', members', -, hm, rfl⟩ := reviseMembers_cons h
    simp [ih hm]

theorem revised_items_iff {items ys : List Json}
    (h : ∀ j ∈ items, ∀ j', revise number text j = some j' →
      (arrange r j' = j ↔ Arranged r j ∧ Kept number j))
    (hys : reviseItems number text items = some ys) :
    arrangeItems r ys = items ↔ ArrangedItems r items ∧ KeptItems number items := by
  induction items generalizing ys with
  | nil =>
    cases hys
    simp [arrangeItems, ArrangedItems, KeptItems]
  | cons j items ih =>
    obtain ⟨j', items', hj, hi, rfl⟩ := reviseItems_cons hys
    simp only [arrangeItems, ArrangedItems, KeptItems, List.cons.injEq]
    rw [h j List.mem_cons_self j' hj, ih (fun x hx => h x (List.mem_cons_of_mem _ hx)) hi]
    exact and_and_and_comm

theorem revised_members_iff {members ys : List (String × Json)}
    (h : ∀ m ∈ members, ∀ j', revise number text m.2 = some j' →
      (arrange r j' = m.2 ↔ Arranged r m.2 ∧ Kept number m.2))
    (hys : reviseMembers number text members = some ys) :
    arrangeMembers r ys = members ↔ ArrangedMembers r members ∧ KeptMembers number members := by
  induction members generalizing ys with
  | nil =>
    cases hys
    simp [arrangeMembers, ArrangedMembers, KeptMembers]
  | cons m members ih =>
    obtain ⟨k, j⟩ := m
    obtain ⟨j', members', hj, hm, rfl⟩ := reviseMembers_cons hys
    simp only [arrangeMembers, ArrangedMembers, KeptMembers, List.cons.injEq, Prod.mk.injEq,
      true_and]
    rw [h (k, j) List.mem_cons_self j' hj, ih (fun x hx => h x (List.mem_cons_of_mem _ hx)) hm]
    exact and_and_and_comm

/-- A revised value, its members sorted, is the one it came from exactly when that was sorted
and every number is its own replacement. -/
theorem arrange_revise_eq_iff [Std.Total r] [IsTrans String r] {j j' : Json}
    (h : revise number text j = some j') :
    arrange r j' = j ↔ Arranged r j ∧ Kept number j := by
  induction j using ind generalizing j' with
  | null =>
    cases h
    simp [arrange, Arranged, Kept]
  | bool b =>
    cases h
    simp [arrange, Arranged, Kept]
  | num n =>
    obtain ⟨m, hm, rfl⟩ := Option.map_eq_some_iff.mp h
    simp [arrange, Arranged, Kept, hm]
  | str s =>
    obtain ⟨-, h⟩ := Option.ite_none_right_eq_some.mp h
    cases h
    simp [arrange, Arranged, Kept]
  | arr items ih =>
    obtain ⟨ys, hys, rfl⟩ := Option.map_eq_some_iff.mp h
    simp only [arrange, Arranged, Kept, arr.injEq]
    exact revised_items_iff (fun j hj j' => ih j hj) hys
  | obj members ih =>
    obtain ⟨ys, hys, rfl⟩ := Option.map_eq_some_iff.mp h
    have hmembers := @revised_members_iff number text r _ members ys
      (fun m hm j' => ih m hm) hys
    have hkeys : (arrangeMembers r ys).Pairwise (byKey r) ↔ members.Pairwise (byKey r) := by
      have hp (ms : List (String × Json)) :
          ms.Pairwise (byKey r) ↔ (ms.map Prod.fst).Pairwise r := by rw [List.pairwise_map]
      rw [hp, hp, arrangeMembers_keys, reviseMembers_keys hys]
    simp only [arrange, Arranged, Kept, obj.injEq]
    rw [and_assoc, ← hmembers]
    constructor
    · intro he
      have hs : members.Pairwise (byKey r) := he ▸ List.pairwise_insertionSort (byKey r) _
      rw [List.Pairwise.insertionSort_eq (hkeys.mpr hs)] at he
      exact ⟨hs, he⟩
    · intro hboth
      obtain ⟨hs, he⟩ := hboth
      rw [List.Pairwise.insertionSort_eq (hkeys.mpr hs), he]

end
end BackendTemplates.Json
