import Mathlib.Data.List.Sort

namespace BackendTemplates.Keyset

section
variable {α κ : Type*} [LinearOrder κ]

/-- Strictly below a position, if there is one. -/
def Below (after : Option κ) (k : κ) : Prop := ∀ a ∈ after, k < a

instance (after : Option κ) (k : κ) : Decidable (Below after k) := by
  unfold Below
  infer_instance

/-- The greatest items below a position, in descending order. -/
def page (key : α → κ) (after : Option κ) (limit : Nat) (items : List α) : List α :=
  ((items.filter (fun x => Below after (key x))).insertionSort
    (fun x y => key y ≤ key x)).take limit

variable {key : α → κ} {after : Option κ} {limit : Nat} {items : List α}

theorem mem_of_mem_page {x : α} (h : x ∈ page key after limit items) :
    x ∈ items ∧ Below after (key x) := by
  have hx := (List.mem_insertionSort _).mp (List.mem_of_mem_take h)
  simpa using List.mem_filter.mp hx

/-- Items with distinct keys are sorted strictly. -/
theorem sorted_strictly (hd : (items.map key).Nodup) :
    (items.insertionSort (fun x y => key y ≤ key x)).Pairwise (fun x y => key y < key x) := by
  have : Std.Total (fun x y : α => key y ≤ key x) := ⟨fun x y => le_total (key y) (key x)⟩
  have : IsTrans α (fun x y => key y ≤ key x) := ⟨fun _ _ _ hxy hyz => le_trans hyz hxy⟩
  have hs := List.pairwise_insertionSort (fun x y => key y ≤ key x) items
  have hn : ((items.insertionSort (fun x y => key y ≤ key x)).map key).Nodup :=
    ((List.perm_insertionSort _ items).map key).nodup_iff.mpr hd
  have hne := List.pairwise_map.mp hn
  exact (hs.and hne).imp (fun h => lt_of_le_of_ne h.1 (Ne.symm h.2))

theorem page_descending (hd : (items.map key).Nodup) :
    (page key after limit items).Pairwise (fun x y => key y < key x) := by
  apply List.Pairwise.take
  apply sorted_strictly
  exact hd.sublist (List.Sublist.map key List.filter_sublist)

/-- An item below the position is on the page, or the page is full of greater ones. -/
theorem page_complete (hd : (items.map key).Nodup) {x : α} (hx : x ∈ items)
    (hb : Below after (key x)) : x ∈ page key after limit items ∨
      (page key after limit items).length = limit ∧
        ∀ y ∈ page key after limit items, key x < key y := by
  have hs := sorted_strictly (hd.sublist (List.Sublist.map key
    (List.filter_sublist (p := fun x => decide (Below after (key x))))))
  have hmem : x ∈ (items.filter (fun x => decide (Below after (key x)))).insertionSort
      (fun x y => key y ≤ key x) := by
    rw [List.mem_insertionSort]
    exact List.mem_filter.mpr ⟨hx, by simpa using hb⟩
  unfold page
  generalize (items.filter (fun x => decide (Below after (key x)))).insertionSort
    (fun x y => key y ≤ key x) = sorted at hs hmem ⊢
  rw [← List.take_append_drop limit sorted] at hs hmem
  rcases List.mem_append.mp hmem with h | h
  · exact .inl h
  · right
    have hlong := List.length_pos_of_mem h
    rw [List.length_drop] at hlong
    constructor
    · exact List.length_take_of_le (by omega)
    · intro y hy
      exact (List.pairwise_append.mp hs).2.2 y hy x h

end
end BackendTemplates.Keyset
