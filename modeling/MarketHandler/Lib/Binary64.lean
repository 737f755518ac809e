import Mathlib

/-!
# Rounding of normal binary64 numbers

What the logical model of `Float` does to positive normal numbers, in terms of the nearest multiple
of a power of two.

* `Nearest`: a nearest multiple, and what it is compared with the other multiples.
* `nearest_roundedMantissa`: dropping bits of a mantissa rounds to a nearest multiple.
* `exists_round`: so `roundWithAccuracy` is normal, with the value of a nearest multiple.
* `unpack_pack`: packing a normal number loses nothing.
* `toUInt64_finite`: the conversion to an integer truncates.
* `toFloat_unpack`: an integer below `2 ^ 53` is its own value.
-/

namespace MarketHandler.Lib

open Float.Model Float.Model.UnpackedFloat

/-! ## Nearest multiples -/

/-- `y * d` is a nearest multiple of `d` to `m`. -/
structure Nearest (d m y : Nat) : Prop where
  le : 2 * (y * d) ≤ 2 * m + d
  ge : 2 * m ≤ 2 * (y * d) + d

namespace Nearest

variable {d m x y j : Nat}

/-- A multiple that is not above is not above the nearest one. -/
theorem mul_le (h : Nearest d m y) (hx : x * d ≤ m) : x * d ≤ y * d := by
  by_contra hlt
  have hxy : y + 1 ≤ x := by
    by_contra hle
    exact hlt (Nat.mul_le_mul_right d (by omega))
  have hmul : (y + 1) * d ≤ x * d := Nat.mul_le_mul_right d hxy
  rw [Nat.add_mul, Nat.one_mul] at hmul
  have := h.ge
  omega

/-- A multiple that is not below is not below the nearest one. -/
theorem le_mul (h : Nearest d m y) (hx : m ≤ x * d) : y * d ≤ x * d := by
  by_contra hlt
  have hxy : x + 1 ≤ y := by
    by_contra hle
    exact hlt (Nat.mul_le_mul_right d (by omega))
  have hmul : (x + 1) * d ≤ y * d := Nat.mul_le_mul_right d hxy
  rw [Nat.add_mul, Nat.one_mul] at hmul
  have := h.le
  omega

/-- A multiple less than half a step above is the nearest one. -/
theorem mul_eq (h : Nearest d m y) (hx : x * d = m + j) (hj : 2 * j < d) : y * d = x * d := by
  have hge : y ≤ x := by
    by_contra hlt
    have hmul : (x + 1) * d ≤ y * d := Nat.mul_le_mul_right d (by omega)
    rw [Nat.add_mul, Nat.one_mul] at hmul
    have := h.le
    omega
  have hle : x ≤ y := by
    by_contra hlt
    have hmul : (y + 1) * d ≤ x * d := Nat.mul_le_mul_right d (by omega)
    rw [Nat.add_mul, Nat.one_mul] at hmul
    have := h.ge
    omega
  rw [Nat.le_antisymm hge hle]

end Nearest

/-! ## Mantissas -/

variable {m s x : Nat} {e : Int} {sign : Sign}

/-- The bits dropped from a mantissa, as the round bit and the sticky bit tell them. -/
structure Shifted (m s : Nat) (em : ExtendedMantissa) : Prop where
  mantissa : em.mantissa = m / 2 ^ s
  round : em.roundBit = true ↔ 2 ^ s ≤ 2 * (m % 2 ^ s)
  sticky : em.stickyBit = true ↔ 2 * (m % 2 ^ s) ≠ 0 ∧ 2 * (m % 2 ^ s) ≠ 2 ^ s

theorem shifted (m s : Nat) :
    Shifted m s (ExtendedMantissa.ofMantissaAndAccuracy m .exact >>> s) := by
  induction s with
  | zero =>
    have hzero : ExtendedMantissa.ofMantissaAndAccuracy m .exact >>> 0 = ⟨m, false, false⟩ := rfl
    rw [hzero]
    exact ⟨by simp, by simp [Nat.mod_one], by simp [Nat.mod_one]⟩
  | succ s ih =>
    have hstep : ExtendedMantissa.ofMantissaAndAccuracy m .exact >>> (s + 1) =
      (ExtendedMantissa.ofMantissaAndAccuracy m .exact >>> s).shiftRightOne := rfl
    rw [hstep]
    have hpos : 0 < 2 ^ s := Nat.two_pow_pos s
    have hlt := Nat.mod_lt m hpos
    have hmod : m % 2 ^ (s + 1) = m % 2 ^ s + 2 ^ s * (m / 2 ^ s % 2) := by
      rw [Nat.pow_succ, Nat.mod_mul]
    have hbit := Nat.mod_two_eq_zero_or_one (m / 2 ^ s)
    obtain ⟨h1, h2, h3⟩ := ih
    refine ⟨?_, ?_, ?_⟩
    · show _ / 2 = _
      rw [h1, Nat.div_div_eq_div_mul, Nat.pow_succ]
    · show (_ != 0) = true ↔ _
      rw [h1, hmod, Nat.pow_succ, bne_iff_ne]
      rcases hbit with hb | hb <;> rw [hb] <;> omega
    · show (_ || _) = true ↔ _
      rw [Bool.or_eq_true, h2, h3, hmod, Nat.pow_succ]
      rcases hbit with hb | hb <;> rw [hb] <;> omega

/-- **Dropping bits rounds to a nearest multiple.** -/
theorem Shifted.nearest {em : ExtendedMantissa} (h : Shifted m s em) :
    Nearest (2 ^ s) m em.roundedMantissa := by
  have hdiv := Nat.div_add_mod m (2 ^ s)
  have hlt := Nat.mod_lt m (Nat.two_pow_pos s)
  rw [Nat.mul_comm] at hdiv
  have hdown : em.roundedMantissa = m / 2 ^ s → 2 * (m % 2 ^ s) ≤ 2 ^ s →
      Nearest (2 ^ s) m em.roundedMantissa := fun he hr => by
    rw [he]
    exact ⟨by omega, by omega⟩
  have hup : em.roundedMantissa = m / 2 ^ s + 1 → 2 ^ s ≤ 2 * (m % 2 ^ s) →
      Nearest (2 ^ s) m em.roundedMantissa := fun he hr => by
    rw [he]
    refine ⟨?_, ?_⟩ <;> rw [Nat.add_mul, Nat.one_mul] <;> omega
  obtain ⟨mantissa, roundBit, stickyBit⟩ := em
  obtain ⟨h1, h2, h3⟩ := h
  dsimp only at h1 h2 h3
  subst h1
  cases roundBit <;> cases stickyBit
  · exact hdown rfl (by simp at h2; omega)
  · exact hdown rfl (by simp at h2; omega)
  · have hodd := Nat.mod_two_eq_zero_or_one (m / 2 ^ s)
    have hhalf : 2 * (m % 2 ^ s) = 2 ^ s := by simp at h2 h3; omega
    rcases hodd with he | he
    · exact hdown (congrArg (m / 2 ^ s + ·) he) hhalf.le
    · exact hup (congrArg (m / 2 ^ s + ·) he) hhalf.ge
  · exact hup rfl (by simp at h2; omega)

/-! ## Normal numbers -/

/-- Shifting to the exponent of a mantissa with at least 53 bits. -/
theorem shiftToTargetExponent_eq (hm : 2 ^ 52 ≤ m) (he : -1074 ≤ e) :
    shiftToTargetExponent .binary64 m e .exact =
      (ExtendedMantissa.ofMantissaAndAccuracy m .exact >>> (m.log2 - 52),
        e + (m.log2 - 52 : Nat)) := by
  have hlog : 52 ≤ m.log2 := (Nat.le_log2 (by omega)).mpr hm
  have htarget : Format.targetExponent .binary64 (totalExponent m e) = m.log2 + e - 52 := by
    simp only [Format.targetExponent, totalExponent, Format.mantissaBits, Format.minExponent]
    omega
  have hamount : (Format.targetExponent .binary64 (totalExponent m e) - e).toNat = m.log2 - 52 := by
    omega
  unfold shiftToTargetExponent shiftToExponent
  dsimp only
  rw [hamount]

/-- **Rounding a long mantissa gives a normal number, with the value of a nearest multiple.** -/
theorem exists_round (hm : 2 ^ 52 ≤ m) (he : -1074 ≤ e) (sign : Sign) :
    ∃ (x t y : Nat) (hx : 0 < x), 2 ^ 52 ≤ x ∧ x < 2 ^ 53 ∧ t ≤ m.log2 - 51 ∧
      Nearest (2 ^ (m.log2 - 52)) m y ∧ x * 2 ^ t = y * 2 ^ (m.log2 - 52) ∧
      roundWithAccuracy .binary64 sign m e .exact = .finite sign x (e + t) hx := by
  have hlog : 52 ≤ m.log2 := (Nat.le_log2 (by omega)).mpr hm
  obtain ⟨s, hs⟩ : ∃ s, s = m.log2 - 52 := ⟨_, rfl⟩
  have hfirst := shiftToTargetExponent_eq hm he
  have hnear := (shifted m s).nearest
  rw [← hs] at hfirst ⊢
  generalize hem : ExtendedMantissa.ofMantissaAndAccuracy m .exact >>> s = em at hfirst hnear
  -- the rounded mantissa has 53 bits, or is `2 ^ 53`
  have hlow : 2 ^ 52 ≤ em.roundedMantissa := by
    have hle := hnear.mul_le (x := 2 ^ 52) (by
      rw [← pow_add, hs, Nat.add_sub_cancel' hlog]
      exact Nat.log2_self_le (by omega))
    exact Nat.le_of_mul_le_mul_right hle (Nat.two_pow_pos s)
  have hhigh : em.roundedMantissa ≤ 2 ^ 53 := by
    have hle := hnear.le_mul (x := 2 ^ 53) (by
      have hlt := Nat.lt_log2_self (n := m)
      rw [← pow_add, show 53 + s = m.log2 + 1 by omega]
      exact hlt.le)
    exact Nat.le_of_mul_le_mul_right hle (Nat.two_pow_pos s)
  have hsecond := shiftToTargetExponent_eq (e := e + s) hlow (by omega)
  have hround : ∀ (x t : Nat) (hx : 0 < x), (ExtendedMantissa.ofMantissaAndAccuracy
      em.roundedMantissa .exact >>> (em.roundedMantissa.log2 - 52)).mantissa = x →
      s + (em.roundedMantissa.log2 - 52) = t →
      roundWithAccuracy .binary64 sign m e .exact = .finite sign x (e + t) hx := by
    rintro x t hx rfl rfl
    unfold roundWithAccuracy
    rw [hfirst]
    dsimp only
    rw [hsecond]
    dsimp only
    rw [dif_neg (by omega), Nat.cast_add, add_assoc]
  by_cases hfit : em.roundedMantissa < 2 ^ 53
  · have hlog' : em.roundedMantissa.log2 = 52 :=
      (Nat.log2_eq_iff (by omega)).mpr ⟨hlow, hfit⟩
    refine ⟨em.roundedMantissa, s, em.roundedMantissa, by omega, hlow, hfit, by omega, hnear, rfl,
      hround _ _ _ ?_ (by omega)⟩
    rw [hlog']
    rfl
  · have hmax : em.roundedMantissa = 2 ^ 53 := by omega
    refine ⟨2 ^ 52, s + 1, em.roundedMantissa, by omega, le_refl _, by omega, by omega, hnear, ?_,
      hround _ _ _ ?_ ?_⟩
    · rw [hmax, pow_succ 2 s]
      ring
    · rw [hmax]
      decide
    · rw [hmax, Nat.log2_two_pow]

/-! ## Bits -/

theorem unpackSign_packComponents {spec : Format} {exponent mantissa} :
    Sign.ofBitVec (unpackSign (packComponents spec sign exponent mantissa)) = sign := by
  have hsign : unpackSign (packComponents spec sign exponent mantissa) = sign.toBitVec := by
    ext i hi
    have hindex : spec.mantissaBitsWithoutImplicit + spec.exponentBits + i -
      spec.mantissaBitsWithoutImplicit - spec.exponentBits = i := by omega
    simp only [unpackSign, packComponents, BitVec.getElem_cast, BitVec.getElem_extract,
      BitVec.getLsbD_append]
    rw [if_neg (by omega), if_neg (by omega), hindex, BitVec.getLsbD_eq_getElem]
  rw [hsign]
  cases sign <;> rfl

/-- **Packing a normal number loses nothing.** -/
theorem unpack_pack {hx : 0 < x} (hlow : 2 ^ 52 ≤ x) (hhigh : x < 2 ^ 53) (he : -1074 ≤ e)
    (he' : e ≤ 971) : (Float.Model.pack (.finite sign x e hx)).unpack = .finite sign x e hx := by
  have hlog : x.log2 + 1 = Format.mantissaBits .binary64 :=
    congrArg (· + 1) ((Nat.log2_eq_iff (by omega)).mpr ⟨hlow, hhigh⟩)
  obtain ⟨biased, hbiased⟩ : ∃ n : Nat, (n : Int) = e + 1075 := ⟨(e + 1075).toNat, by omega⟩
  have hpack : UnpackedFloat.pack .binary64 (.finite sign x e hx) =
      packComponents .binary64 sign (BitVec.ofNat 11 biased) (BitVec.ofNat 52 x) := by
    have hexponent : (e + (Format.exponentBias .binary64 : Nat) + (52 : Nat)).toNat = biased := by
      simp only [Format.exponentBias]
      omega
    simp only [UnpackedFloat.pack, hexponent]
    rw [if_neg (by omega), if_pos hlog]
  have hexp : BitVec.ofNat 11 biased ≠ -1#11 ∧ BitVec.ofNat 11 biased ≠ 0#11 := by
    constructor <;> intro h <;> have h := congrArg BitVec.toNat h <;>
      simp only [BitVec.toNat_ofNat] at h <;> simp at h <;> omega
  unfold Float.Model.unpack Float.Model.pack
  simp only [hpack, UnpackedFloat.unpack, unpackExponent_packComponents,
    unpackMantissa_packComponents, unpackSign_packComponents]
  rw [if_neg hexp.1, if_neg hexp.2]
  have hmantissa : (1#1 ++ BitVec.ofNat 52 x).toNat = x := by
    rw [BitVec.toNat_append, BitVec.toNat_ofNat, BitVec.toNat_ofNat,
      ← Nat.shiftLeft_add_eq_or_of_lt (Nat.mod_lt x (Nat.two_pow_pos 52)), Nat.shiftLeft_eq]
    omega
  have he : ((BitVec.ofNat 11 biased).toNat : Int) -
      ((Format.exponentBias .binary64 : Nat) + (52 : Nat)) = e := by
    rw [BitVec.toNat_ofNat, Nat.mod_eq_of_lt (by omega)]
    simp only [Format.exponentBias]
    omega
  simp only [hmantissa, he]

/-! ## Integers -/

/-- **The conversion to an integer truncates.** -/
theorem toUInt64_finite {c : Nat} {hx : 0 < x} (hhigh : x < 2 ^ 64) :
    (UnpackedFloat.toUInt64 (.finite .positive x (-(c : Int)) hx)).toNat = x / 2 ^ c := by
  have hdec : decreaseExponent x (-(c : Int)) 0 = (x, -(c : Int)) := by
    have hamount : (-(c : Int) - 0).toNat = 0 := by omega
    unfold decreaseExponent
    dsimp only
    rw [hamount, Nat.shiftLeft_zero, Int.natCast_zero, sub_zero]
  have hint : UnpackedFloat.toInt 0 (UInt64.size - 1) (.finite .positive x (-(c : Int)) hx) =
      (x / 2 ^ c : Nat) := by
    have hamount : (0 - -(c : Int)).toNat = c := by omega
    show roundToInt .positive x (-(c : Int)) = _
    unfold roundToInt
    rw [hdec]
    unfold shiftToExponent
    dsimp only
    rw [hamount, (shifted x c).mantissa]
    rfl
  have hlt : x / 2 ^ c < UInt64.size := Nat.lt_of_le_of_lt (Nat.div_le_self _ _) hhigh
  unfold UnpackedFloat.toUInt64
  rw [hint, Int.toNat_natCast, UInt64.ofNatClamp, dif_pos hlt, UInt64.toNat_ofNatLT]

/-- **An integer below `2 ^ 53` is its own value.** -/
theorem toFloat_unpack {n : Nat} (h0 : 0 < n) (hn : n < 2 ^ 53) :
    ∃ k hx, k + n.log2 = 52 ∧ 2 ^ 52 ≤ n * 2 ^ k ∧ n * 2 ^ k < 2 ^ 53 ∧
      (UInt64.ofNat n).toFloat.toModel.unpack = .finite .positive (n * 2 ^ k) (-(k : Int)) hx := by
  obtain ⟨k, hk⟩ : ∃ k, k = 52 - n.log2 := ⟨_, rfl⟩
  have hlog : n.log2 < 53 := (Nat.log2_lt (by omega)).mpr hn
  have hlow : 2 ^ 52 ≤ n * 2 ^ k := by
    have hle := Nat.mul_le_mul_right (2 ^ k) (Nat.log2_self_le (n := n) (by omega))
    rwa [← pow_add, show n.log2 + k = 52 by omega] at hle
  have hhigh : n * 2 ^ k < 2 ^ 53 := by
    have hlt := Nat.mul_lt_mul_of_pos_right (Nat.lt_log2_self (n := n)) (Nat.two_pow_pos k)
    rwa [← pow_add, show n.log2 + 1 + k = 53 by omega] at hlt
  have hlog' : (n * 2 ^ k).log2 = 52 := (Nat.log2_eq_iff (by omega)).mpr ⟨hlow, hhigh⟩
  have hround : roundWithAccuracy .binary64 .positive (n * 2 ^ k) (-(k : Int)) .exact =
      .finite .positive (n * 2 ^ k) (-(k : Int)) (by omega) := by
    obtain ⟨x, t, y, hx, hx1, hx2, ht, hnear, hvalue, hround⟩ :=
      exists_round (e := -(k : Int)) hlow (by omega) .positive
    rw [hlog'] at hnear hvalue ht
    have hy : y = n * 2 ^ k := by
      have h1 := hnear.le
      have h2 := hnear.ge
      simp only [Nat.sub_self, pow_zero, Nat.mul_one] at h1 h2
      omega
    have ht0 : t = 0 := by
      by_contra hne
      obtain rfl : t = 1 := by omega
      simp only [Nat.sub_self, pow_zero, Nat.mul_one, pow_one] at hvalue
      omega
    subst ht0
    obtain rfl : x = n * 2 ^ k := by simpa [hy] using hvalue
    rw [hround]
    simp
  have hmodel : (UInt64.ofNat n).toFloat.toModel =
      Float.Model.pack (.finite .positive (n * 2 ^ k) (-(k : Int)) (by omega)) := by
    have htoNat : (UInt64.ofNat n).toNat = n := UInt64.toNat_ofNat_of_lt' (hn.trans (by decide))
    have hpos : compare (n : Int) 0 = .gt := compare_gt_iff_gt.mpr (by omega)
    have htarget : (0 - Format.targetExponent .binary64 (totalExponent n 0)).toNat = k := by
      simp only [Format.targetExponent, totalExponent, Format.mantissaBits, Format.minExponent]
      omega
    rw [← hround]
    show Float.Model.pack (UnpackedFloat.normalize .binary64 ((UInt64.ofNat n).toNat : Int) 0 .positive) = _
    unfold UnpackedFloat.normalize
    rw [htoNat, hpos]
    dsimp only
    unfold UnpackedFloat.round decreaseExponent
    dsimp only
    rw [Int.toNat_natCast, htarget, Nat.shiftLeft_eq, zero_sub]
  exact ⟨k, by omega, by omega, hlow, hhigh, hmodel ▸ unpack_pack hlow hhigh (by omega) (by omega)⟩

/-- **The integer part of a product** is that of a nearest multiple to the product of the
mantissas. -/
theorem toUInt64_mul {a b : Float} {m₁ m₂ c₁ c₂ : Nat} {h₁ : 0 < m₁} {h₂ : 0 < m₂}
    (ha : a.toModel.unpack = .finite .positive m₁ (-(c₁ : Int)) h₁)
    (hb : b.toModel.unpack = .finite .positive m₂ (-(c₂ : Int)) h₂)
    (hm₁ : 2 ^ 52 ≤ m₁ ∧ m₁ < 2 ^ 53) (hm₂ : 2 ^ 52 ≤ m₂ ∧ m₂ < 2 ^ 53) (hc : 54 ≤ c₁ + c₂)
    (hc' : c₁ + c₂ ≤ 1074) :
    ∃ s y, 52 ≤ s ∧ s ≤ 53 ∧ Nearest (2 ^ s) (m₁ * m₂) y ∧
      (a * b).toUInt64.toNat = y * 2 ^ s / 2 ^ (c₁ + c₂) := by
  have hlow : 2 ^ 52 * 2 ^ 52 ≤ m₁ * m₂ := Nat.mul_le_mul hm₁.1 hm₂.1
  have hhigh : m₁ * m₂ < 2 ^ 53 * 2 ^ 53 := Nat.mul_lt_mul_of_lt_of_lt hm₁.2 hm₂.2
  rw [← pow_add] at hlow hhigh
  have hlog : 104 ≤ (m₁ * m₂).log2 := (Nat.le_log2 (by omega)).mpr hlow
  have hlog' : (m₁ * m₂).log2 < 106 := (Nat.log2_lt (by omega)).mpr hhigh
  obtain ⟨x, t, y, hx, hx1, hx2, ht, hnear, hvalue, hround⟩ :=
    exists_round (m := m₁ * m₂) (e := -(c₁ : Int) + -(c₂ : Int)) (by omega) (by omega) .positive
  obtain ⟨c, hct⟩ : ∃ c, c + t = c₁ + c₂ := ⟨c₁ + c₂ - t, by omega⟩
  refine ⟨_, y, by omega, by omega, hnear, ?_⟩
  have hmul : (a * b).toModel.unpack = .finite .positive x (-(c : Int)) hx := by
    show (Float.Model.pack
      (UnpackedFloat.mul .binary64 a.toModel.unpack b.toModel.unpack)).unpack = _
    rw [ha, hb]
    show (Float.Model.pack (roundWithAccuracy .binary64 .positive (m₁ * m₂) _ .exact)).unpack = _
    rw [hround, show (-(c₁ : Int) + -(c₂ : Int) + t) = -(c : Int) by omega]
    exact unpack_pack hx1 hx2 (by omega) (by omega)
  show (UnpackedFloat.toUInt64 (a * b).toModel.unpack).toNat = _
  rw [hmul, toUInt64_finite (hx2.trans (by decide)), ← hvalue, ← hct, pow_add,
    Nat.mul_div_mul_right _ _ (Nat.two_pow_pos t)]

end MarketHandler.Lib
