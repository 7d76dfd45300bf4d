import BackendTemplates.Library.JsonOrder

namespace BackendTemplates.Json

/-- No object, at any depth, has a key twice. -/
inductive Keyed : Json → Prop
  | null : Keyed .null
  | bool (b : Bool) : Keyed (.bool b)
  | num (n : NumText) : Keyed (.num n)
  | str (s : String) : Keyed (.str s)
  | arr {items : List Json} (h : ∀ j ∈ items, Keyed j) : Keyed (.arr items)
  | obj {members : List (String × Json)} (hk : (members.map Prod.fst).Nodup)
      (h : ∀ m ∈ members, Keyed m.2) : Keyed (.obj members)

/-- Equal as JSON values: the members of an object are compared key by key. -/
inductive Same : Json → Json → Prop
  | null : Same .null .null
  | bool (b : Bool) : Same (.bool b) (.bool b)
  | num (n : NumText) : Same (.num n) (.num n)
  | str (s : String) : Same (.str s) (.str s)
  | arr {xs ys : List Json} (h : List.Forall₂ Same xs ys) : Same (.arr xs) (.arr ys)
  | obj {ms ns : List (String × Json)}
      (h : ∀ k, Option.Rel Same (ms.lookup k) (ns.lookup k)) : Same (.obj ms) (.obj ns)

theorem Same.str_eq {s t : String} (h : Same (.str s) (.str t)) : s = t := by
  cases h
  rfl

theorem lookup_eq_some {members : List (String × Json)} (hk : (members.map Prod.fst).Nodup)
    {k : String} {j : Json} : members.lookup k = some j ↔ (k, j) ∈ members := by
  induction members with
  | nil => simp
  | cons m members ih =>
    obtain ⟨k', j'⟩ := m
    simp only [List.map_cons, List.nodup_cons] at hk
    rw [List.lookup_cons]
    by_cases he : k = k'
    · subst he
      have hn : (k, j) ∉ members := fun hm => hk.1 (List.mem_map.mpr ⟨_, hm, rfl⟩)
      simp [hn, eq_comm]
    · have hb : (k == k') = false := beq_eq_false_iff_ne.mpr he
      simp [hb, he, ih hk.2]

theorem lookup_perm {ms ns : List (String × Json)} (h : ms.Perm ns)
    (hk : (ms.map Prod.fst).Nodup) (k : String) : ms.lookup k = ns.lookup k := by
  have hk' : (ns.map Prod.fst).Nodup := (h.map Prod.fst).nodup_iff.mp hk
  apply Option.ext
  intro j
  rw [lookup_eq_some hk, lookup_eq_some hk']
  exact h.mem_iff

section
variable {r : String → String → Prop} [DecidableRel r]

theorem lookup_arrangeMembers (members : List (String × Json)) (k : String) :
    (arrangeMembers r members).lookup k = (members.lookup k).map (arrange r) := by
  induction members with
  | nil => rfl
  | cons m members ih =>
    obtain ⟨k', j⟩ := m
    simp only [arrangeMembers, List.lookup_cons, ih]
    cases k == k' <;> rfl

/-- Sorting the members leaves every key the value it had, with its own members sorted. -/
theorem lookup_arranged {members : List (String × Json)} (hk : (members.map Prod.fst).Nodup)
    (k : String) : ((arrangeMembers r members).insertionSort (byKey r)).lookup k =
      (members.lookup k).map (arrange r) := by
  rw [← lookup_arrangeMembers]
  apply lookup_perm (List.perm_insertionSort _ _)
  rw [((List.perm_insertionSort _ _).map Prod.fst).nodup_iff, arrangeMembers_keys]
  exact hk

theorem arrangeItems_eq_iff {xs ys : List Json} (h : ∀ x ∈ xs, ∀ y ∈ ys,
    arrange r x = arrange r y ↔ Same x y) :
    arrangeItems r xs = arrangeItems r ys ↔ List.Forall₂ Same xs ys := by
  induction xs generalizing ys with
  | nil => cases ys <;> simp [arrangeItems]
  | cons x xs ih =>
    cases ys with
    | nil => simp [arrangeItems]
    | cons y ys =>
      simp only [arrangeItems, List.cons.injEq, List.forall₂_cons]
      rw [h x (by simp) y (by simp),
        ih (fun a ha b hb => h a (by simp [ha]) b (by simp [hb]))]

variable [Std.Total r] [IsTrans String r] [Std.Antisymm r]

/-- Two lists of members with the same value for every key are sorted into the same list. -/
theorem sorted_eq_of_lookup {ms ns : List (String × Json)} (hm : (ms.map Prod.fst).Nodup)
    (hn : (ns.map Prod.fst).Nodup) (h : ∀ k, ms.lookup k = ns.lookup k) :
    ms.insertionSort (byKey r) = ns.insertionSort (byKey r) := by
  have hmem (x : String × Json) : x ∈ ms ↔ x ∈ ns := by
    obtain ⟨k, j⟩ := x
    rw [← lookup_eq_some hm, ← lookup_eq_some hn, h]
  have hp : ms.Perm ns :=
    (List.perm_ext_iff_of_nodup (List.Nodup.of_map _ hm) (List.Nodup.of_map _ hn)).mpr hmem
  apply List.Perm.eq_of_pairwise _ (List.pairwise_insertionSort (byKey r) ms)
    (List.pairwise_insertionSort (byKey r) ns)
    ((List.perm_insertionSort _ _).trans (hp.trans (List.perm_insertionSort _ _).symm))
  intro x y hx hy hxy hyx
  -- a key occurs once, so members that neither precede nor follow each other are the same
  have hk : x.1 = y.1 := Std.Antisymm.antisymm _ _ hxy hyx
  have hx' : ms.lookup x.1 = some x.2 := (lookup_eq_some hm).mpr (List.mem_insertionSort _ |>.mp hx)
  have hy' : ns.lookup y.1 = some y.2 := (lookup_eq_some hn).mpr (List.mem_insertionSort _ |>.mp hy)
  rw [h, hk, hy'] at hx'
  exact Prod.ext hk (Option.some.inj hx').symm

/-- Sorted members are equal exactly when every key has the same value in both lists. -/
theorem arranged_members_eq_iff {ms ns : List (String × Json)} (hm : (ms.map Prod.fst).Nodup)
    (hn : (ns.map Prod.fst).Nodup)
    (h : ∀ m ∈ ms, ∀ n ∈ ns, arrange r m.2 = arrange r n.2 ↔ Same m.2 n.2) :
    (arrangeMembers r ms).insertionSort (byKey r) =
        (arrangeMembers r ns).insertionSort (byKey r) ↔
      ∀ k, Option.Rel Same (ms.lookup k) (ns.lookup k) := by
  constructor
  · intro he k
    have hl := congrArg (List.lookup k) he
    rw [lookup_arranged hm, lookup_arranged hn] at hl
    cases hx : ms.lookup k with
    | none =>
      rw [hx, Option.map_none, eq_comm, Option.map_eq_none_iff] at hl
      rw [hl]
      exact .none
    | some x =>
      rw [hx, Option.map_some, eq_comm, Option.map_eq_some_iff] at hl
      obtain ⟨y, hy, he⟩ := hl
      rw [hy]
      exact .some ((h _ ((lookup_eq_some hm).mp hx) _ ((lookup_eq_some hn).mp hy)).mp he.symm)
  · intro hs
    apply sorted_eq_of_lookup (by rwa [arrangeMembers_keys]) (by rwa [arrangeMembers_keys])
    intro k
    rw [lookup_arrangeMembers, lookup_arrangeMembers]
    have hk := hs k
    cases hx : ms.lookup k with
    | none =>
      rw [hx] at hk
      cases hy : ns.lookup k with
      | none => rfl
      | some y => rw [hy] at hk; cases hk
    | some x =>
      rw [hx] at hk
      cases hy : ns.lookup k with
      | none => rw [hy] at hk; cases hk
      | some y =>
        rw [hy] at hk
        cases hk with
        | some hsame =>
          have hmem := h _ ((lookup_eq_some hm).mp hx) _ ((lookup_eq_some hn).mp hy)
          exact congrArg some (hmem.mpr hsame)

/-- Values are the same exactly when sorting the members at every depth makes them equal. -/
theorem arrange_eq_iff {j j' : Json} (hj : Keyed j) (hj' : Keyed j') :
    arrange r j = arrange r j' ↔ Same j j' := by
  induction j using ind generalizing j' with
  | null =>
    constructor
    · intro h
      cases j' <;> simp [arrange] at h
      exact .null
    · intro h
      cases h
      rfl
  | bool b =>
    constructor
    · intro h
      cases j' <;> simp [arrange] at h
      exact h ▸ .bool b
    · intro h
      cases h
      rfl
  | num n =>
    constructor
    · intro h
      cases j' <;> simp [arrange] at h
      exact h ▸ .num n
    · intro h
      cases h
      rfl
  | str s =>
    constructor
    · intro h
      cases j' <;> simp [arrange] at h
      exact h ▸ .str s
    · intro h
      cases h
      rfl
  | arr items ih =>
    obtain - | - | - | - | hitems | - := hj
    have hiff {items' : List Json} (hj' : Keyed (.arr items')) :
        arrangeItems r items = arrangeItems r items' ↔ List.Forall₂ Same items items' := by
      obtain - | - | - | - | hitems' | - := hj'
      exact arrangeItems_eq_iff fun x hx y hy => ih x hx (hitems x hx) (hitems' y hy)
    constructor
    · intro h
      cases j' <;> simp [arrange] at h
      exact .arr ((hiff hj').mp h)
    · intro h
      cases h with
      | arr h => exact congrArg Json.arr ((hiff hj').mpr h)
  | obj members ih =>
    obtain - | - | - | - | - | ⟨hk, hm⟩ := hj
    have hiff {members' : List (String × Json)} (hj' : Keyed (.obj members')) :
        (arrangeMembers r members).insertionSort (byKey r) =
            (arrangeMembers r members').insertionSort (byKey r) ↔
          ∀ k, Option.Rel Same (members.lookup k) (members'.lookup k) := by
      obtain - | - | - | - | - | ⟨hk', hm'⟩ := hj'
      exact arranged_members_eq_iff hk hk' fun x hx y hy => ih x hx (hm x hx) (hm' y hy)
    constructor
    · intro h
      cases j' <;> simp only [arrange, reduceCtorEq, obj.injEq] at h
      exact .obj ((hiff hj').mp h)
    · intro h
      cases h with
      | obj h => exact congrArg Json.obj ((hiff hj').mpr h)

end
end BackendTemplates.Json
