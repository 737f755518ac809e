import Mathlib.Algebra.Order.Group.Nat

/-!
# Windows of a ring

Positions of a ring of `c` slots grow without bound; position `j` stands for slot `j % c`. In a window
of `c` consecutive positions every slot occurs (`exists_mod_of_window`) exactly once
(`mod_inj_of_window`).

A counter of `w` bits holds a position modulo `2 ^ w`. Positions less than `2 ^ w` apart are told apart
(`ofNat_eq_iff_of_window`) and subtracted (`toNat_ofNat_sub`) as if the counter did not wrap, and the
slot of a ring of `2 ^ k` is its low `k` bits (`toNat_ofNat_and_mask`).
-/

namespace MarketHandler.Lib

variable {p c i j : Nat}

theorem mod_inj_of_window (hi : p ≤ i) (hi' : i < p + c) (hj : p ≤ j) (hj' : j < p + c)
    (h : i % c = j % c) : i = j := by
  have h1 := Nat.sub_mod_eq_zero_of_mod_eq h
  have h2 := Nat.sub_mod_eq_zero_of_mod_eq h.symm
  rw [Nat.mod_eq_of_lt (by omega)] at h1 h2
  omega

theorem exists_mod_of_window (p : Nat) (hi : i < c) : ∃ j, p ≤ j ∧ j < p + c ∧ i = j % c := by
  have hlt := Nat.mod_lt p (Nat.zero_lt_of_lt hi)
  have hsplit : p + (i + (c - p % c)) = i + c * (p / c + 1) := by
    have := Nat.div_add_mod p c
    rw [Nat.mul_add]
    omega
  refine ⟨p + (i + (c - p % c)) % c, Nat.le_add_right _ _, ?_, ?_⟩
  · exact Nat.add_lt_add_left (Nat.mod_lt _ (Nat.zero_lt_of_lt hi)) p
  · rw [Nat.add_mod_mod, hsplit, Nat.add_mul_mod_self_left, Nat.mod_eq_of_lt hi]

/-! ## Counters of `w` bits -/

variable {w k a b : Nat}

theorem toNat_ofNat_sub (h : a ≤ b) (hlt : b - a < 2 ^ w) :
    (BitVec.ofNat w b - BitVec.ofNat w a).toNat = b - a := by
  obtain ⟨d, rfl⟩ := Nat.exists_eq_add_of_le' h
  rw [Nat.add_sub_cancel] at hlt ⊢
  rw [BitVec.ofNat_add, BitVec.add_sub_cancel, BitVec.toNat_ofNat, Nat.mod_eq_of_lt hlt]

theorem ofNat_eq_iff_of_window (h : a ≤ b) (hlt : b - a < 2 ^ w) :
    BitVec.ofNat w b = BitVec.ofNat w a ↔ b = a := by
  constructor
  · intro he
    have hsub := toNat_ofNat_sub h hlt
    rw [he, BitVec.sub_self, BitVec.toNat_zero] at hsub
    omega
  · exact fun he => he ▸ rfl

theorem toNat_ofNat_two_pow (h : k < w) : (BitVec.ofNat w (2 ^ k)).toNat = 2 ^ k := by
  rw [BitVec.toNat_ofNat, Nat.mod_eq_of_lt (Nat.pow_lt_pow_right (by decide) h)]

theorem toNat_ofNat_and_mask (h : k < w) (a : Nat) :
    (BitVec.ofNat w a &&& (BitVec.ofNat w (2 ^ k) - 1)).toNat = a % 2 ^ k := by
  have hpos := Nat.two_pow_pos k
  have hmask : (BitVec.ofNat w (2 ^ k) - 1).toNat = 2 ^ k - 1 :=
    toNat_ofNat_sub (a := 1) hpos
      (Nat.lt_of_le_of_lt (Nat.sub_le _ _) (Nat.pow_lt_pow_right (by decide) h))
  rw [BitVec.toNat_and, hmask, Nat.and_two_pow_sub_one_eq_mod, BitVec.toNat_ofNat,
    Nat.mod_mod_of_dvd _ (Nat.pow_dvd_pow 2 h.le)]

end MarketHandler.Lib
