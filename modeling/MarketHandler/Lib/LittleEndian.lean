import Mathlib.Data.Nat.Digits.Defs

/-!
# Little-endian integers

* `leBytes n v`: the `n` low bytes of `v`, least significant first.
* `ofDigits_leBytes`: reading them back gives `v` modulo `256 ^ n`.
-/

namespace MarketHandler.Lib

/-- The `n` low bytes of `v`, least significant first. -/
def leBytes : Nat → Nat → List UInt8
  | 0, _ => []
  | n + 1, v => v.toUInt8 :: leBytes n (v / 256)

@[simp] theorem length_leBytes : ∀ n v, (leBytes n v).length = n
  | 0, _ => rfl
  | n + 1, v => congrArg (· + 1) (length_leBytes n (v / 256))

theorem ofDigits_leBytes : ∀ n v, Nat.ofDigits 256 ((leBytes n v).map UInt8.toNat) = v % 256 ^ n
  | 0, v => by rw [pow_zero, Nat.mod_one]; rfl
  | n + 1, v => by
    rw [leBytes, List.map_cons, Nat.ofDigits_cons, ofDigits_leBytes n, pow_succ', Nat.mod_mul]
    rfl

theorem ofDigits_leBytes_of_lt {n v : Nat} (h : v < 256 ^ n) :
    Nat.ofDigits 256 ((leBytes n v).map UInt8.toNat) = v := by
  rw [ofDigits_leBytes, Nat.mod_eq_of_lt h]

end MarketHandler.Lib
