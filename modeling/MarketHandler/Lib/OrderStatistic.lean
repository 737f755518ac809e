import Mathlib.Data.List.Count

/-!
# Order statistics

`IsRank le l i x` says that `x` is an element of `l` that can stand at place `i` when `l` is sorted:
at most `i` elements are below it and more than `i` are not above it. `le` is a total preorder.

* `isRank_mergeSort`: the element at place `i` of the sorted list is one.
* `IsRank.mono`: a later place has no smaller element.
* `IsRank.le_last`: no element is above the one at the last place.
-/

namespace MarketHandler.Lib

variable {α : Type} {le : α → α → Bool} {l : List α} {i j : Nat} {x y : α}

/-- `x` has rank `i` in `l`. -/
structure IsRank (le : α → α → Bool) (l : List α) (i : Nat) (x : α) : Prop where
  mem : x ∈ l
  below : l.countP (fun a => !le x a) ≤ i
  upto : i < l.countP fun a => le a x

theorem IsRank.perm {l' : List α} (h : IsRank le l i x) (hp : l.Perm l') : IsRank le l' i x where
  mem := hp.mem_iff.mp h.mem
  below := hp.countP_eq _ ▸ h.below
  upto := hp.countP_eq _ ▸ h.upto

theorem IsRank.le_last (h : IsRank le l (l.length - 1) x) : ∀ a ∈ l, le a x = true := by
  have hcount := h.upto
  have hle := List.countP_le_length (p := fun a => le a x) (l := l)
  exact List.countP_eq_length.mp (by omega)

section Preorder

variable (htrans : ∀ a b c, le a b = true → le b c = true → le a c = true)
include htrans

/-- **Ranks are monotone.** -/
theorem IsRank.mono (h : IsRank le l i x) (h' : IsRank le l j y) (hij : i ≤ j) :
    le x y = true := by
  by_contra hxy
  have hle : l.countP (fun a => le a y) ≤ l.countP fun a => !le x a := by
    refine List.countP_mono_left fun a _ ha => ?_
    rw [Bool.not_eq_true', Bool.eq_false_iff]
    exact fun hxa => hxy (htrans x a y hxa ha)
  have := h.below
  have := h'.upto
  omega

variable (htotal : ∀ a b, (le a b || le b a) = true)
include htotal

omit htrans in
/-- In a sorted list the elements before a place are not above, those after it not below. -/
theorem isRank_of_sorted {xs ys : List α}
    (h : (xs ++ x :: ys).Pairwise fun a b => le a b = true) :
    IsRank le (xs ++ x :: ys) xs.length x := by
  have hself : le x x = true := by simpa using htotal x x
  rw [List.pairwise_append, List.pairwise_cons] at h
  obtain ⟨-, ⟨hafter, -⟩, hbefore⟩ := h
  have hnone : (x :: ys).countP (fun a => !le x a) = 0 := by
    refine List.countP_eq_zero.mpr fun a ha => ?_
    rcases List.mem_cons.mp ha with rfl | ha
    · simp [hself]
    · simp [hafter a ha]
  have hall : xs.countP (fun a => le a x) = xs.length :=
    List.countP_eq_length.mpr fun a ha => hbefore a ha x List.mem_cons_self
  refine ⟨List.mem_append_right _ List.mem_cons_self, ?_, ?_⟩
  · rw [List.countP_append, hnone]
    exact List.countP_le_length
  · have hpos : 0 < (x :: ys).countP fun a => le a x :=
      List.countP_pos_iff.mpr ⟨x, List.mem_cons_self, hself⟩
    rw [List.countP_append, hall]
    omega

/-- **The element at a place of the sorted list has that rank.** -/
theorem isRank_mergeSort (hx : (l.mergeSort le)[i]? = some x) : IsRank le l i x := by
  have hsorted := List.pairwise_mergeSort htrans htotal l
  have hperm := List.mergeSort_perm l le
  obtain ⟨hi, rfl⟩ := List.getElem?_eq_some_iff.mp hx
  generalize l.mergeSort le = l' at hi hx hsorted hperm
  have hsplit : l'.take i ++ l'[i] :: l'.drop (i + 1) = l' := by
    rw [← List.drop_eq_getElem_cons hi, List.take_append_drop]
  have hrank := isRank_of_sorted htotal (hsplit ▸ hsorted)
  rw [hsplit, List.length_take_of_le (Nat.le_of_lt hi)] at hrank
  exact hrank.perm hperm

end Preorder

end MarketHandler.Lib
