import Mathlib.Algebra.GroupWithZero.Nat
import Mathlib.Algebra.Order.BigOperators.Group.List
import Mathlib.Algebra.Order.Group.Nat
import Mathlib.Data.List.Nodup

/-!
# Serving claims in turn

A supply `q` is given to the claims of a list in turn, each as much as it asks for while the supply
lasts. `left amount l q a` is what the claim `a` is still short of, in closed form: its amount less
what the supply has left once the claims ahead of it are served.

* `left_cons_self`, `left_cons_of_ne`: the closed form is the recursion on the list.
* `left_eq_zero_of_touched`: a claim is served only once those ahead of it are.
* `partial_unique`: at most one claim is served in part.
-/

namespace MarketHandler.Lib

variable {α : Type} [DecidableEq α] {amount : α → Nat} {l l₁ l₂ : List α} {q : Nat} {a b : α}

/-- What the claim `a` is short of once `l` is served in turn from the supply `q`. -/
def left (amount : α → Nat) (l : List α) (q : Nat) (a : α) : Nat :=
  if a ∈ l then amount a - min (amount a) (q - ((l.takeWhile (· ≠ a)).map amount).sum)
  else amount a

theorem left_of_not_mem (h : a ∉ l) : left amount l q a = amount a := if_neg h

theorem left_cons_self : left amount (a :: l) q a = amount a - min (amount a) q := by
  unfold left
  rw [if_pos List.mem_cons_self, List.takeWhile_cons_of_neg (by simp)]
  simp

theorem left_cons_of_ne (h : b ≠ a) : left amount (a :: l) q b = left amount l (q - amount a) b := by
  unfold left
  simp only [List.mem_cons, h, false_or]
  split_ifs
  · rw [List.takeWhile_cons_of_pos (by simpa using h.symm), List.map_cons, List.sum_cons]
    omega
  · rfl

theorem left_zero : left amount l 0 a = amount a := by
  unfold left
  simp

/-- The claims ahead are served first. -/
theorem left_append (h : b ∉ l₁) :
    left amount (l₁ ++ l₂) q b = left amount l₂ (q - (l₁.map amount).sum) b := by
  induction l₁ generalizing q with
  | nil => simp
  | cons a l₁ ih =>
    obtain ⟨hne, hnot⟩ := not_or.mp (mt List.mem_cons.mpr h)
    rw [List.cons_append, left_cons_of_ne hne, ih hnot, List.map_cons, List.sum_cons, Nat.sub_sub]

/-- **None is served while a claim ahead of it is short.** -/
theorem left_eq_zero_of_touched (hn : (l₁ ++ a :: l₂).Nodup) (hb : b ∈ l₂)
    (h : left amount (l₁ ++ a :: l₂) q b ≠ amount b) : left amount (l₁ ++ a :: l₂) q a = 0 := by
  obtain ⟨-, hn₂, hdis⟩ := List.nodup_append.mp hn
  have hba : b ≠ a := ne_of_mem_of_not_mem hb (List.nodup_cons.mp hn₂).1
  have ha₁ : a ∉ l₁ := fun hm => hdis a hm a List.mem_cons_self rfl
  have hb₁ : b ∉ l₁ := fun hm => hdis b hm b (List.mem_cons_of_mem a hb) rfl
  rw [left_append hb₁, left_cons_of_ne hba] at h
  rw [left_append ha₁, left_cons_self]
  by_contra hne
  refine h ?_
  rw [Nat.sub_eq_zero_of_le (by omega), left_zero]

/-- **At most one claim is served in part.** -/
theorem partial_unique (hn : l.Nodup) (ha : a ∈ l) (hb : b ∈ l)
    (ha0 : 0 < left amount l q a) (ha1 : left amount l q a < amount a)
    (hb0 : 0 < left amount l q b) (hb1 : left amount l q b < amount b) : a = b := by
  by_contra hne
  obtain ⟨l₁, l₂, rfl⟩ := List.append_of_mem ha
  rcases List.mem_append.mp hb with hb | hb
  · obtain ⟨l₃, l₄, rfl⟩ := List.append_of_mem hb
    rw [List.append_assoc, List.cons_append] at hn ha1 hb0
    have := left_eq_zero_of_touched hn (List.mem_append_right _ List.mem_cons_self) (Nat.ne_of_lt ha1)
    omega
  · have hb := (List.mem_cons.mp hb).resolve_left fun e => hne e.symm
    have := left_eq_zero_of_touched hn hb (Nat.ne_of_lt hb1)
    omega

end MarketHandler.Lib
