import Mathlib.Algebra.Group.Int.Defs
import Mathlib.Algebra.Group.Nat.Defs
import Mathlib.Data.Set.Finite.Basic
import Mathlib.Order.Bounds.Basic
import MarketHandler.Lib.Exec

/-!
# `PriceBitSet`: a set of prices as a three-level bitmap

Model of `include/PriceBitSet.h`. Level 0 has one bit per price, level 1 one bit per word of level
0, level 2 one bit per word of level 1. Words are `BitVec 64`; `std::countl_zero` and
`std::countr_zero` are `BitVec.clz` and `BitVec.ctz`. Array indices are checked against the array
sizes and the shift amount of every `1ULL << n` against 64.

`Holds s S` says that `s` represents the set `S`, with both summaries exact. The operations refine
those of finite sets:
* `set_spec`, `clear_spec`: insertion and removal, without a fault;
* `getHighest_spec`, `getLowest_spec`: the greatest and the least element, or the sentinel (`0`,
  `UINT32_MAX`) on the empty set.
-/

namespace MarketHandler

open Lib

/-- `UINT32_MAX`. -/
def uint32Max : Nat := 2 ^ 32 - 1

/-- Conversion of an `int` to `size_t`. -/
def toSizeT (i : Int) : Nat := (i % 2 ^ 64).toNat

/-- Conversion of an integer to `uint32_t`. -/
def toUint32 (i : Int) : Nat := (i % 2 ^ 32).toNat

/-- `1ULL << n`. -/
def shl1 (n : Nat) : Exec (BitVec 64) := if n < 64 then .ok (1#64 <<< n) else .error .badShift

def countlZero (x : BitVec 64) : Nat := x.clz.toNat

def countrZero (x : BitVec 64) : Nat := x.ctz.toNat

/-- `PriceBitSet<MAX_TICKS>`. -/
structure PriceBitSet (maxTicks : Nat) where
  l0 : Nat → BitVec 64
  l1 : Nat → BitVec 64
  l2 : BitVec 64

namespace PriceBitSet

/-- `L0_SIZE`. -/
def l0Size (maxTicks : Nat) : Nat := maxTicks / 64 + 1

/-- `L1_SIZE`. -/
def l1Size (maxTicks : Nat) : Nat := l0Size maxTicks / 64 + 1

variable {maxTicks : Nat}

/-- The zero-initialised bitmap. -/
def empty : PriceBitSet maxTicks := ⟨fun _ => 0, fun _ => 0, 0⟩

/-- `set`. -/
def set (s : PriceBitSet maxTicks) (price : Nat) : Exec (PriceBitSet maxTicks) := do
  let l0Index := price / 64
  let l1Index := l0Index / 64
  let w0 ← index (l0Size maxTicks) s.l0 l0Index
  let m0 ← shl1 (price % 64)
  let w1 ← index (l1Size maxTicks) s.l1 l1Index
  let m1 ← shl1 (l0Index % 64)
  let m2 ← shl1 l1Index
  return ⟨Function.update s.l0 l0Index (w0 ||| m0), Function.update s.l1 l1Index (w1 ||| m1),
    s.l2 ||| m2⟩

/-- `clear`: each summary bit goes when the word it summarises has become zero. -/
def clear (s : PriceBitSet maxTicks) (price : Nat) : Exec (PriceBitSet maxTicks) := do
  let l0Index := price / 64
  let l1Index := l0Index / 64
  let w0 ← index (l0Size maxTicks) s.l0 l0Index
  let m0 ← shl1 (price % 64)
  let l0 := Function.update s.l0 l0Index (w0 &&& ~~~m0)
  if w0 &&& ~~~m0 = 0 then
    let w1 ← index (l1Size maxTicks) s.l1 l1Index
    let m1 ← shl1 (l0Index % 64)
    let l1 := Function.update s.l1 l1Index (w1 &&& ~~~m1)
    if w1 &&& ~~~m1 = 0 then
      let m2 ← shl1 l1Index
      return ⟨l0, l1, s.l2 &&& ~~~m2⟩
    else return ⟨l0, l1, s.l2⟩
  else return ⟨l0, s.l1, s.l2⟩

/-- `get_highest`. -/
def getHighest (s : PriceBitSet maxTicks) : Exec Nat :=
  if s.l2 = 0 then return 0
  else do
    let l2Bit : Int := 63 - countlZero s.l2
    let w1 ← index (l1Size maxTicks) s.l1 (toSizeT l2Bit)
    let l1Bit : Int := 63 - countlZero w1
    let l0Idx := toSizeT (l2Bit * 64 + l1Bit)
    let w0 ← index (l0Size maxTicks) s.l0 l0Idx
    let l0Bit : Int := 63 - countlZero w0
    return toUint32 (l0Idx * 64 + l0Bit)

/-- `get_lowest`. -/
def getLowest (s : PriceBitSet maxTicks) : Exec Nat :=
  if s.l2 = 0 then return uint32Max
  else do
    let l2Bit := countrZero s.l2
    let w1 ← index (l1Size maxTicks) s.l1 l2Bit
    let l1Bit := countrZero w1
    let l0Idx := l2Bit * 64 + l1Bit
    let w0 ← index (l0Size maxTicks) s.l0 l0Idx
    let l0Bit := countrZero w0
    return toUint32 (l0Idx * 64 + l0Bit)

/-- The bit of `price` in level 0. -/
def test (s : PriceBitSet maxTicks) (price : Nat) : Bool :=
  (s.l0 (price / 64)).getLsbD (price % 64)

/-! ## Words -/

theorem shl1_of_lt {n : Nat} (h : n < 64) : shl1 n = .ok (1#64 <<< n) := if_pos h

theorem getLsbD_setBit (x : BitVec 64) {k : Nat} (hk : k < 64) (i : Nat) :
    (x ||| 1#64 <<< k).getLsbD i = (x.getLsbD i || decide (i = k)) := by
  simp only [BitVec.getLsbD_or, BitVec.getLsbD_shiftLeft, BitVec.getLsbD_one]
  grind

theorem getLsbD_clearBit (x : BitVec 64) (k i : Nat) :
    (x &&& ~~~(1#64 <<< k)).getLsbD i = (x.getLsbD i && decide (i ≠ k)) := by
  have := BitVec.getLsbD_of_ge x i
  simp only [BitVec.getLsbD_and, BitVec.getLsbD_not, BitVec.getLsbD_shiftLeft, BitVec.getLsbD_one]
  grind

/-- A word is nonzero when it has a bit. -/
theorem ne_zero_iff {x : BitVec 64} : x ≠ 0 ↔ ∃ i, i < 64 ∧ x.getLsbD i = true := by
  constructor
  · intro h
    by_contra hc
    refine h (BitVec.eq_of_getLsbD_eq fun i hi => ?_)
    have : ¬ x.getLsbD i = true := fun hb => hc ⟨i, hi, hb⟩
    simpa using this
  · rintro ⟨i, -, hb⟩ rfl
    simp at hb

theorem setBit_ne_zero (x : BitVec 64) {k : Nat} (hk : k < 64) : x ||| 1#64 <<< k ≠ 0 :=
  ne_zero_iff.mpr ⟨k, hk, by rw [getLsbD_setBit x hk]; simp⟩

/-- `63 - countl_zero(x)` is the highest bit of a nonzero word. -/
theorem countlZero_spec {x : BitVec 64} (h : x ≠ 0) :
    countlZero x ≤ 63 ∧ x.getLsbD (63 - countlZero x) = true ∧
      ∀ i, x.getLsbD i = true → i ≤ 63 - countlZero x := by
  have hlt : x.clz.toNat < 64 := by
    have := BitVec.clz_lt_iff_ne_zero.mpr h
    simpa [BitVec.lt_def] using this
  refine ⟨by unfold countlZero; omega, BitVec.getLsbD_true_clz_of_ne_zero (by decide) h,
    fun i hi => ?_⟩
  have h1 := Nat.ge_two_pow_of_testBit hi
  have h2 := BitVec.toNat_lt_two_pow_sub_clz (x := x)
  have := (Nat.pow_lt_pow_iff_right (by decide : 1 < 2)).mp (Nat.lt_of_le_of_lt h1 h2)
  unfold countlZero
  omega

/-- `countr_zero(x)` is the lowest bit of a nonzero word. -/
theorem countrZero_spec {x : BitVec 64} (h : x ≠ 0) :
    countrZero x ≤ 63 ∧ x.getLsbD (countrZero x) = true ∧
      ∀ i, x.getLsbD i = true → countrZero x ≤ i := by
  have hlt : x.ctz.toNat < 64 := by
    have := BitVec.ctz_lt_iff_ne_zero.mpr h
    simpa [BitVec.lt_def] using this
  refine ⟨by unfold countrZero; omega, BitVec.getLsbD_true_ctz_of_ne_zero h, fun i hi => ?_⟩
  by_contra hc
  have := BitVec.getLsbD_false_of_lt_ctz (x := x) (i := i) (by unfold countrZero at hc; omega)
  rw [this] at hi
  cases hi

/-! ## The represented set -/

/-- `s` represents `S`: level 0 lists its members, and each summary bit is set iff the word it
summarises is not zero. -/
structure Holds (s : PriceBitSet maxTicks) (S : Set Nat) : Prop where
  mem : ∀ p, s.test p = true ↔ p ∈ S
  sum1 : ∀ i j, j < 64 → ((s.l1 i).getLsbD j = true ↔ s.l0 (i * 64 + j) ≠ 0)
  sum2 : ∀ i, i < 64 → (s.l2.getLsbD i = true ↔ s.l1 i ≠ 0)
  lt : ∀ p ∈ S, p < maxTicks

variable {s : PriceBitSet maxTicks} {S : Set Nat} {p : Nat}

theorem holds_empty : (empty : PriceBitSet maxTicks).Holds ∅ where
  mem p := by simp [empty, test]
  sum1 i j _ := by simp [empty]
  sum2 i _ := by simp [empty]
  lt p hp := absurd hp (Set.notMem_empty p)

/-- The word and the bit of a position. -/
theorem word_bit {k : Nat} (hk : k < 64) (i : Nat) : (i * 64 + k) / 64 = i ∧ (i * 64 + k) % 64 = k := by
  omega

/-- A bit of a word of level 0 stands for a price. -/
theorem test_word {k : Nat} (hk : k < 64) (i : Nat) : s.test (i * 64 + k) = (s.l0 i).getLsbD k := by
  rw [test, (word_bit hk i).1, (word_bit hk i).2]

/-- A word of level 0 is nonzero iff some price of its block is a member. -/
theorem Holds.l0_ne_zero (h : s.Holds S) (i : Nat) : s.l0 i ≠ 0 ↔ ∃ p ∈ S, p / 64 = i := by
  rw [ne_zero_iff]
  constructor
  · rintro ⟨k, hk, hb⟩
    exact ⟨i * 64 + k, (h.mem _).mp (by rwa [test_word hk]), (word_bit hk i).1⟩
  · rintro ⟨p, hp, rfl⟩
    exact ⟨p % 64, by omega, (h.mem p).mpr hp⟩

/-- A word of level 1 is nonzero iff some price of its block is a member. -/
theorem Holds.l1_ne_zero (h : s.Holds S) (i : Nat) : s.l1 i ≠ 0 ↔ ∃ p ∈ S, p / 64 / 64 = i := by
  rw [ne_zero_iff]
  constructor
  · rintro ⟨j, hj, hb⟩
    obtain ⟨p, hp, he⟩ := (h.l0_ne_zero _).mp ((h.sum1 i j hj).mp hb)
    exact ⟨p, hp, by omega⟩
  · rintro ⟨p, hp, rfl⟩
    refine ⟨p / 64 % 64, by omega, (h.sum1 _ _ (by omega)).mpr ((h.l0_ne_zero _).mpr ⟨p, hp, ?_⟩)⟩
    omega

/-- **The set determines the bitmap.** -/
theorem Holds.unique {s' : PriceBitSet maxTicks} (h : s.Holds S) (h' : s'.Holds S) : s = s' := by
  have hl0 : s.l0 = s'.l0 := by
    funext i
    refine BitVec.eq_of_getLsbD_eq fun k hk => ?_
    rw [← test_word hk, ← test_word hk, Bool.eq_iff_iff, h.mem, h'.mem]
  have hl1 : s.l1 = s'.l1 := by
    funext i
    refine BitVec.eq_of_getLsbD_eq fun j hj => ?_
    rw [Bool.eq_iff_iff, h.sum1 i j hj, h'.sum1 i j hj, hl0]
  have hl2 : s.l2 = s'.l2 := by
    refine BitVec.eq_of_getLsbD_eq fun i hi => ?_
    rw [Bool.eq_iff_iff, h.sum2 i hi, h'.sum2 i hi, hl1]
  cases s
  cases s'
  cases hl0
  cases hl1
  cases hl2
  rfl

theorem l0_lt (hp : p < maxTicks) : p / 64 < l0Size maxTicks := by
  unfold l0Size
  omega

theorem l1_lt (hp : p < maxTicks) : p / 64 / 64 < l1Size maxTicks := by
  unfold l1Size l0Size
  omega

/-- The price of a bit of level 0 is a member, and the words on the way to it are in their arrays. -/
theorem Holds.of_bit (h : s.Holds S) {i j k : Nat} (hj : j < 64) (hk : k < 64)
    (hb : (s.l0 (i * 64 + j)).getLsbD k = true) :
    (i * 64 + j) * 64 + k ∈ S ∧ i * 64 + j < l0Size maxTicks ∧ i < l1Size maxTicks := by
  have hmem : (i * 64 + j) * 64 + k ∈ S := (h.mem _).mp (by rwa [test_word hk])
  have hl0 := l0_lt (h.lt _ hmem)
  have hl1 := l1_lt (h.lt _ hmem)
  rw [(word_bit hk _).1] at hl0 hl1
  rw [(word_bit hj _).1] at hl1
  exact ⟨hmem, hl0, hl1⟩

theorem test_update (l1 : Nat → BitVec 64) (l2 : BitVec 64) (w : BitVec 64) (q : Nat) :
    test (⟨Function.update s.l0 (p / 64) w, l1, l2⟩ : PriceBitSet maxTicks) q =
      if q / 64 = p / 64 then w.getLsbD (q % 64) else s.test q := by
  unfold test
  split_ifs with h
  · simp only [h, Function.update_self]
  · simp only [Function.update_of_ne h]

/-- A word that loses a bit and stays nonzero leaves every word as zero or nonzero as it was. -/
theorem update_and_ne_zero {words : Nat → BitVec 64} {x : Nat} {mask : BitVec 64}
    (h : words x &&& mask ≠ 0) (n : Nat) :
    Function.update words x (words x &&& mask) n ≠ 0 ↔ words n ≠ 0 := by
  rcases eq_or_ne n x with rfl | hn
  · rw [Function.update_self]
    refine iff_of_true h fun hz => h ?_
    rw [hz]
    exact BitVec.zero_and
  · rw [Function.update_of_ne hn]

/-- Level 0 after the bit of `p` is cleared. -/
theorem Holds.mem_clear (h : s.Holds S) (l1 : Nat → BitVec 64) (l2 : BitVec 64) (q : Nat) :
    test (⟨Function.update s.l0 (p / 64) (s.l0 (p / 64) &&& ~~~(1#64 <<< (p % 64))), l1, l2⟩ :
      PriceBitSet maxTicks) q = true ↔ q ∈ S \ {p} := by
  rw [test_update, Set.mem_sdiff, Set.mem_singleton_iff, ← h.mem q, getLsbD_clearBit]
  split_ifs with hq
  · rw [← hq]
    unfold test
    grind
  · grind

/-- Level 1 after the bit of an emptied word is cleared. -/
theorem Holds.sum1_clear (h : s.Holds S)
    (hw0 : s.l0 (p / 64) &&& ~~~(1#64 <<< (p % 64)) = 0) (i j : Nat) (hj : j < 64) :
    (Function.update s.l1 (p / 64 / 64)
      (s.l1 (p / 64 / 64) &&& ~~~(1#64 <<< (p / 64 % 64))) i).getLsbD j = true ↔
    Function.update s.l0 (p / 64) (s.l0 (p / 64) &&& ~~~(1#64 <<< (p % 64))) (i * 64 + j) ≠ 0 := by
  rcases eq_or_ne (i * 64 + j) (p / 64) with hij | hij
  · obtain rfl : i = p / 64 / 64 := by omega
    obtain rfl : j = p / 64 % 64 := by omega
    simp only [hij, Function.update_self, getLsbD_clearBit, hw0]
    simp
  · rw [Function.update_of_ne hij, ← h.sum1 i j hj]
    rcases eq_or_ne i (p / 64 / 64) with rfl | hi
    · have : j ≠ p / 64 % 64 := by omega
      rw [Function.update_self, getLsbD_clearBit]
      simp [this]
    · rw [Function.update_of_ne hi]

section Capacity

variable (hmax : maxTicks ≤ 262144)
include hmax

/-- **`set` inserts**, and faults nowhere below `MAX_TICKS`. -/
theorem set_spec (h : s.Holds S) (hp : p < maxTicks) :
    ∃ s', s.set p = .ok s' ∧ s'.Holds (insert p S) := by
  have hsh : p / 64 / 64 < 64 := by omega
  have h0 : p % 64 < 64 := Nat.mod_lt _ (by decide)
  have h1 : p / 64 % 64 < 64 := Nat.mod_lt _ (by decide)
  have heq : s.set p = .ok ⟨Function.update s.l0 (p / 64) (s.l0 (p / 64) ||| 1#64 <<< (p % 64)),
      Function.update s.l1 (p / 64 / 64) (s.l1 (p / 64 / 64) ||| 1#64 <<< (p / 64 % 64)),
      s.l2 ||| 1#64 <<< (p / 64 / 64)⟩ := by
    unfold set
    simp only [index_of_lt (l0_lt hp), index_of_lt (l1_lt hp), shl1_of_lt h0, shl1_of_lt h1,
      shl1_of_lt hsh, ok_bind, pure_eq_ok]
  refine ⟨_, heq, ⟨fun q => ?_, fun i j hj => ?_, fun i hi => ?_, fun q hq => ?_⟩⟩
  · have hm := h.mem q
    rw [test_update, Set.mem_insert_iff, ← hm, getLsbD_setBit _ h0]
    split_ifs with hq
    · rw [← hq]
      unfold test
      grind
    · grind
  · rcases eq_or_ne (i * 64 + j) (p / 64) with hij | hij
    · obtain rfl : i = p / 64 / 64 := by omega
      obtain rfl : j = p / 64 % 64 := by omega
      simp only [hij, Function.update_self, getLsbD_setBit _ h1]
      exact iff_of_true (by simp) (setBit_ne_zero _ h0)
    · dsimp only
      rw [Function.update_of_ne hij, ← h.sum1 i j hj]
      rcases eq_or_ne i (p / 64 / 64) with rfl | hi
      · have : j ≠ p / 64 % 64 := by omega
        simp [getLsbD_setBit _ h1, this]
      · rw [Function.update_of_ne hi]
  · dsimp only
    rw [getLsbD_setBit _ hsh]
    rcases eq_or_ne i (p / 64 / 64) with rfl | hi'
    · rw [Function.update_self]
      exact iff_of_true (by simp) (setBit_ne_zero _ h1)
    · rw [Function.update_of_ne hi', ← h.sum2 i hi]
      simp [hi']
  · rcases hq with rfl | hq
    · exact hp
    · exact h.lt q hq

/-- **`clear` removes**, and faults nowhere below `MAX_TICKS`. -/
theorem clear_spec (h : s.Holds S) (hp : p < maxTicks) :
    ∃ s', s.clear p = .ok s' ∧ s'.Holds (S \ {p}) := by
  have hsh : p / 64 / 64 < 64 := by omega
  have h0 : p % 64 < 64 := Nat.mod_lt _ (by decide)
  have h1 : p / 64 % 64 < 64 := Nat.mod_lt _ (by decide)
  have hlt : ∀ q ∈ S \ {p}, q < maxTicks := fun q hq => h.lt q hq.1
  unfold clear
  simp only [index_of_lt (l0_lt hp), index_of_lt (l1_lt hp), shl1_of_lt h0, shl1_of_lt h1,
    shl1_of_lt hsh, ok_bind, pure_eq_ok]
  by_cases hw0 : s.l0 (p / 64) &&& ~~~(1#64 <<< (p % 64)) = 0
  swap
  -- the level-0 word keeps another price, so no summary changes
  · rw [if_neg hw0]
    refine ⟨_, rfl, ⟨h.mem_clear _ _, fun i j hj => ?_, h.sum2, hlt⟩⟩
    exact (h.sum1 i j hj).trans (update_and_ne_zero hw0 _).symm
  rw [if_pos hw0]
  by_cases hw1 : s.l1 (p / 64 / 64) &&& ~~~(1#64 <<< (p / 64 % 64)) = 0
  · rw [if_pos hw1]
    refine ⟨_, rfl, ⟨h.mem_clear _ _, h.sum1_clear hw0, fun i hi => ?_, hlt⟩⟩
    dsimp only
    rw [getLsbD_clearBit]
    rcases eq_or_ne i (p / 64 / 64) with rfl | hi'
    · simp [hw1]
    · rw [Function.update_of_ne hi', ← h.sum2 i hi]
      simp [hi']
  · rw [if_neg hw1]
    refine ⟨_, rfl, ⟨h.mem_clear _ _, h.sum1_clear hw0, fun i hi => ?_, hlt⟩⟩
    exact (h.sum2 i hi).trans (update_and_ne_zero hw1 i).symm

/-- Level 2 is zero iff the set is empty. -/
theorem Holds.l2_eq_zero (h : s.Holds S) : s.l2 = 0 ↔ S = ∅ := by
  rw [← not_iff_not, ← ne_eq, ne_zero_iff, ← ne_eq, ← Set.nonempty_iff_ne_empty]
  constructor
  · rintro ⟨i, hi, hb⟩
    obtain ⟨p, hp, -⟩ := (h.l1_ne_zero i).mp ((h.sum2 i hi).mp hb)
    exact ⟨p, hp⟩
  · rintro ⟨p, hp⟩
    have := h.lt p hp
    exact ⟨p / 64 / 64, by omega, (h.sum2 _ (by omega)).mpr ((h.l1_ne_zero _).mpr ⟨p, hp, rfl⟩)⟩

/-- **`get_highest` is the greatest member**, `0` on the empty set. -/
theorem getHighest_spec (h : s.Holds S) :
    ∃ p, s.getHighest = .ok p ∧ (S = ∅ ∧ p = 0 ∨ IsGreatest S p) := by
  unfold getHighest
  by_cases hz : s.l2 = 0
  · exact ⟨0, by rw [if_pos hz]; rfl, Or.inl ⟨(h.l2_eq_zero hmax).mp hz, rfl⟩⟩
  rw [if_neg hz]
  -- the three dependent lookups: block of blocks `i`, block `i * 64 + j`, price
  obtain ⟨hi, hib, himax⟩ := countlZero_spec hz
  set i := 63 - countlZero s.l2 with hi_def
  have hw1 := (h.sum2 i (by omega)).mp hib
  obtain ⟨hj, hjb, hjmax⟩ := countlZero_spec hw1
  set j := 63 - countlZero (s.l1 i) with hj_def
  have hw0 := (h.sum1 i j (by omega)).mp hjb
  obtain ⟨hk, hkb, hkmax⟩ := countlZero_spec hw0
  set k := 63 - countlZero (s.l0 (i * 64 + j)) with hk_def
  obtain ⟨hmem, hl0, hl1⟩ := h.of_bit (j := j) (k := k) (by omega) (by omega) hkb
  have e1 : toSizeT (63 - (countlZero s.l2 : Int)) = i := by unfold toSizeT; omega
  have e2 : toSizeT ((63 - (countlZero s.l2 : Int)) * 64 + (63 - (countlZero (s.l1 i) : Int))) =
      i * 64 + j := by unfold toSizeT; omega
  have e3 : toUint32 (((i * 64 + j : Nat) : Int) * 64 +
      (63 - (countlZero (s.l0 (i * 64 + j)) : Int))) = (i * 64 + j) * 64 + k := by
    unfold toUint32; omega
  refine ⟨(i * 64 + j) * 64 + k, ?_, Or.inr ⟨hmem, fun q hq => ?_⟩⟩
  · simp only [e1, e2, e3, index_of_lt hl1, index_of_lt hl0, ok_bind, pure_eq_ok]
  · have hqlt := h.lt q hq
    have g2 : q / 64 / 64 ≤ i := himax _ ((h.sum2 _ (by omega)).mpr ((h.l1_ne_zero _).mpr ⟨q, hq, rfl⟩))
    by_cases c2 : q / 64 / 64 < i
    · omega
    have g1 : q / 64 % 64 ≤ j := by
      refine hjmax _ ((h.sum1 _ _ (by omega)).mpr ((h.l0_ne_zero _).mpr ⟨q, hq, ?_⟩))
      omega
    by_cases c1 : q / 64 % 64 < j
    · omega
    have g0 : q % 64 ≤ k := by
      have hword : i * 64 + j = q / 64 := by omega
      exact hkmax _ (hword ▸ (h.mem q).mpr hq)
    omega

/-- **`get_lowest` is the least member**, `UINT32_MAX` on the empty set. -/
theorem getLowest_spec (h : s.Holds S) :
    ∃ p, s.getLowest = .ok p ∧ (S = ∅ ∧ p = uint32Max ∨ IsLeast S p) := by
  unfold getLowest
  by_cases hz : s.l2 = 0
  · exact ⟨uint32Max, by rw [if_pos hz]; rfl, Or.inl ⟨(h.l2_eq_zero hmax).mp hz, rfl⟩⟩
  rw [if_neg hz]
  obtain ⟨hi, hib, himin⟩ := countrZero_spec hz
  set i := countrZero s.l2
  have hw1 := (h.sum2 i (by omega)).mp hib
  obtain ⟨hj, hjb, hjmin⟩ := countrZero_spec hw1
  set j := countrZero (s.l1 i)
  have hw0 := (h.sum1 i j (by omega)).mp hjb
  obtain ⟨hk, hkb, hkmin⟩ := countrZero_spec hw0
  set k := countrZero (s.l0 (i * 64 + j))
  obtain ⟨hmem, hl0, hl1⟩ := h.of_bit (j := j) (k := k) (by omega) (by omega) hkb
  have e3 : toUint32 (((i * 64 + j : Nat) : Int) * 64 + (k : Int)) = (i * 64 + j) * 64 + k := by
    unfold toUint32; omega
  refine ⟨(i * 64 + j) * 64 + k, ?_, Or.inr ⟨hmem, fun q hq => ?_⟩⟩
  · simp only [index_of_lt hl1, ok_bind, pure_eq_ok]
    rw [index_of_lt hl0, ok_bind, e3]
  · have hqlt := h.lt q hq
    have g2 : i ≤ q / 64 / 64 := himin _ ((h.sum2 _ (by omega)).mpr ((h.l1_ne_zero _).mpr ⟨q, hq, rfl⟩))
    by_cases c2 : i < q / 64 / 64
    · omega
    have g1 : j ≤ q / 64 % 64 := by
      refine hjmin _ ((h.sum1 _ _ (by omega)).mpr ((h.l0_ne_zero _).mpr ⟨q, hq, ?_⟩))
      omega
    by_cases c1 : j < q / 64 % 64
    · omega
    have g0 : k ≤ q % 64 := by
      have hword : i * 64 + j = q / 64 := by omega
      exact hkmin _ (hword ▸ (h.mem q).mpr hq)
    omega

end Capacity

end PriceBitSet

end MarketHandler
