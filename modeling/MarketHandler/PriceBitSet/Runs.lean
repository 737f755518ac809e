import MarketHandler.PriceBitSet

/-!
# `PriceBitSet` refines a finite set of prices

Sequences of `set` and `clear` calls from the zero-initialised bitmap, for every `MAX_TICKS` that
three levels of 64-bit words can cover.

* `lastSet calls`: the prices whose last call was `set`.
* `Holds.apply`: each call keeps the bitmap in step with the set.
* `refines_set`: **no call faults, the two scans find the extremes of the set, and every summary bit
  says whether its word is zero**.
-/

namespace MarketHandler.PriceBitSet

open Lib

variable {maxTicks : Nat}

/-- A call of one of the two updates. -/
inductive Call where
  | set (price : Nat)
  | clear (price : Nat)
  deriving DecidableEq, Repr

/-- The price a call names. -/
def Call.price : Call → Nat
  | .set price => price
  | .clear price => price

/-- Run one call. -/
def apply (s : PriceBitSet maxTicks) : Call → Exec (PriceBitSet maxTicks)
  | .set price => s.set price
  | .clear price => s.clear price

/-- The calls in turn. -/
def run (s : PriceBitSet maxTicks) (calls : List Call) : Exec (PriceBitSet maxTicks) :=
  calls.foldlM apply s

/-- The prices whose last call was `set`. -/
def lastSet (calls : List Call) : Set Nat :=
  {p | (calls.filter (·.price = p)).getLast? = some (.set p)}

variable {s : PriceBitSet maxTicks} {calls : List Call} {c : Call} {p : Nat}

theorem run_snoc (calls : List Call) (c : Call) :
    s.run (calls ++ [c]) = s.run calls >>= fun s' => s'.apply c := by
  unfold run
  rw [List.foldlM_append]
  exact bind_congr fun s' => bind_pure _

/-- Only the price a call names changes its last call. -/
theorem mem_lastSet_snoc :
    p ∈ lastSet (calls ++ [c]) ↔ if c.price = p then c = .set p else p ∈ lastSet calls := by
  unfold lastSet
  rw [Set.mem_ofPred_eq, Set.mem_ofPred_eq, List.filter_append]
  split_ifs with h
  · rw [List.filter_cons_of_pos (by simpa using h), List.filter_nil, List.getLast?_append,
      List.getLast?_singleton, Option.some_or, Option.some.injEq]
  · rw [List.filter_cons_of_neg (by simpa using h), List.filter_nil, List.append_nil]

theorem lastSet_nil : lastSet [] = ∅ := Set.eq_empty_of_forall_notMem fun _ hp => nomatch hp

theorem lastSet_set : lastSet (calls ++ [.set p]) = insert p (lastSet calls) := by
  ext p'
  rw [mem_lastSet_snoc, Set.mem_insert_iff, Call.price]
  split_ifs with h
  · exact iff_of_true (h ▸ rfl) (Or.inl h.symm)
  · exact (or_iff_right fun he => h he.symm).symm

theorem lastSet_clear : lastSet (calls ++ [.clear p]) = lastSet calls \ {p} := by
  ext p'
  rw [mem_lastSet_snoc, Set.mem_sdiff, Set.mem_singleton_iff, Call.price]
  split_ifs with h
  · exact iff_of_false nofun fun hp => hp.2 h.symm
  · exact (and_iff_left fun he => h he.symm).symm

/-- Each call keeps the bitmap in step with the set. -/
theorem Holds.apply (hmax : maxTicks ≤ 262144) (h : s.Holds (lastSet calls))
    (hc : c.price < maxTicks) :
    ∃ s', s.apply c = .ok s' ∧ s'.Holds (lastSet (calls ++ [c])) := by
  cases c with
  | set price =>
    rw [lastSet_set]
    exact set_spec hmax h hc
  | clear price =>
    rw [lastSet_clear]
    exact clear_spec hmax h hc

theorem run_spec (hmax : maxTicks ≤ 262144) (calls : List Call)
    (h : ∀ c ∈ calls, c.price < maxTicks) :
    ∃ s : PriceBitSet maxTicks, empty.run calls = .ok s ∧ s.Holds (lastSet calls) := by
  induction calls using List.reverseRecOn with
  | nil => exact ⟨empty, rfl, lastSet_nil ▸ holds_empty⟩
  | append_singleton calls c ih =>
    obtain ⟨s, hs, hS⟩ := ih fun c' hc' => h c' (List.mem_append_left _ hc')
    obtain ⟨s', hs', hS'⟩ := hS.apply hmax (h c (List.mem_append_right _ List.mem_cons_self))
    exact ⟨s', by rw [run_snoc, hs, ok_bind, hs'], hS'⟩

/-- **`PriceBitSet` refines a finite set of prices** after every sequence of calls below `MAX_TICKS`;
no access is out of range and no shift too large. -/
theorem refines_set (hmax : maxTicks ≤ 262144) (calls : List Call)
    (h : ∀ c ∈ calls, c.price < maxTicks) :
    ∃ s : PriceBitSet maxTicks, empty.run calls = .ok s ∧
      (∃ p, s.getHighest = .ok p ∧ (lastSet calls = ∅ ∧ p = 0 ∨ IsGreatest (lastSet calls) p)) ∧
      (∃ p, s.getLowest = .ok p ∧
        (lastSet calls = ∅ ∧ p = uint32Max ∨ IsLeast (lastSet calls) p)) ∧
      (∀ i j, j < 64 → ((s.l1 i).getLsbD j = true ↔ s.l0 (i * 64 + j) ≠ 0)) ∧
      ∀ i, i < 64 → (s.l2.getLsbD i = true ↔ s.l1 i ≠ 0) := by
  obtain ⟨s, hs, hS⟩ := run_spec hmax calls h
  exact ⟨s, hs, getHighest_spec hmax hS, getLowest_spec hmax hS, hS.sum1, hS.sum2⟩

/-- The largest capacity, with its top price set and cleared again. -/
theorem refines_set_top : ∃ s : PriceBitSet 262144,
    empty.run [.set 262143, .set 5, .clear 262143] = .ok s ∧ s.getHighest = .ok 5 := by
  obtain ⟨s, hs, ⟨p, hp, hmax⟩, -⟩ := refines_set (le_refl 262144)
    [.set 262143, .set 5, .clear 262143] (by decide)
  have hS : lastSet [.set 262143, .set 5, .clear 262143] = {5} := by
    change lastSet ((([] ++ [Call.set 262143]) ++ [.set 5]) ++ [.clear 262143]) = {5}
    rw [lastSet_clear, lastSet_set, lastSet_set, lastSet_nil]
    ext p
    simp only [Set.mem_sdiff, Set.mem_insert_iff, Set.mem_singleton_iff, Set.mem_empty_iff_false,
      or_false]
    omega
  rw [hS] at hmax
  rcases hmax with ⟨hempty, -⟩ | ⟨hmem, -⟩
  · exact absurd hempty (Set.singleton_ne_empty 5)
  · exact ⟨s, hs, hp.trans (congrArg Except.ok hmem)⟩

end MarketHandler.PriceBitSet
