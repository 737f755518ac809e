import Mathlib.Logic.Function.Basic
import Mathlib.Tactic.Common

/-!
# Executions that may fault

A call returns a value (`.ok`), commits an access the language leaves undefined (an index past a
vector's size, a shift by the word's width or more, a null dereference, a use of storage outside the
lifetime of an element), makes a subtraction that wraps where it was asked to check, or has not
returned within the bound `fuel` on its loop iterations.

* `index`, `store`: `v[i]` and `v[i] = a` on a vector of a given size, a total function with every
  access checked.
* `Safe x Q`: `x` makes no access out of range and no oversized shift, and a value it returns
  satisfies `Q`. A call still running is safe: `Safe` speaks about the accesses made so far.
* `x ⊑ y` (`Approx`): more fuel changes nothing once `x` has returned or faulted. With
  `Approx.bind` a definition by recursion on its fuel is monotone, so its value is unique
  (`Approx.ok_unique`).
-/

namespace MarketHandler.Lib

/-- Why an execution has no value. -/
inductive Fault where
  | outOfRange
  | badShift
  | nullDeref
  | wrapped
  | lifetime
  | fuel
  deriving DecidableEq, Repr

abbrev Exec (α : Type) := Except Fault α

variable {α β : Type}

/-- `v[i]` on a vector or array of `size` cells. -/
def index (size : Nat) (v : Nat → α) (i : Nat) : Exec α :=
  if i < size then .ok (v i) else .error .outOfRange

/-- `v[i] = a` on a vector or array of `size` cells. -/
def store (size : Nat) (v : Nat → α) (i : Nat) (a : α) : Exec (Nat → α) :=
  if i < size then .ok (Function.update v i a) else .error .outOfRange

theorem index_of_lt {size i : Nat} (h : i < size) (v : Nat → α) : index size v i = .ok (v i) :=
  if_pos h

theorem store_of_lt {size i : Nat} (h : i < size) (v : Nat → α) (a : α) :
    store size v i a = .ok (Function.update v i a) :=
  if_pos h

@[simp] theorem ok_bind (a : α) (f : α → Exec β) : (Except.ok a >>= f) = f a := rfl

@[simp] theorem error_bind (e : Fault) (f : α → Exec β) : (Except.error e >>= f) = .error e := rfl

@[simp] theorem pure_eq_ok (a : α) : (pure a : Exec α) = .ok a := rfl

theorem bind_eq_ok {x : Exec α} {f : α → Exec β} {b : β} :
    (x >>= f) = .ok b ↔ ∃ a, x = .ok a ∧ f a = .ok b := by
  cases x <;> simp

/-- A check that evaluates an execution. -/
theorem exists_ok_of_any {x : Exec α} {P : α → Bool} (h : x.toOption.any P = true) :
    ∃ a, x = .ok a ∧ P a = true := by
  cases x with
  | ok a => exact ⟨a, rfl, h⟩
  | error e => cases h

/-! ## Safety -/

/-- No access out of range, no oversized shift, and a returned value satisfies `Q`. -/
def Safe (x : Exec α) (Q : α → Prop) : Prop :=
  match x with
  | .ok a => Q a
  | .error e => e ≠ .outOfRange ∧ e ≠ .badShift

variable {x y z : Exec α} {f g : α → Exec β} {P Q : α → Prop} {R : β → Prop}

@[simp] theorem safe_fuel : Safe (.error .fuel : Exec α) Q := ⟨by decide, by decide⟩

@[simp] theorem safe_nullDeref : Safe (.error .nullDeref : Exec α) Q := ⟨by decide, by decide⟩

theorem Safe.bind (hx : Safe x P) (hf : ∀ a, P a → Safe (f a) R) : Safe (x >>= f) R := by
  cases x with
  | ok a => exact hf a hx
  | error e => exact hx

theorem safe_index {size i : Nat} {v : Nat → α} (h : i < size) (hQ : Q (v i)) :
    Safe (index size v i) Q := by
  rw [index_of_lt h]
  exact hQ

/-! ## Fuel -/

/-- `x ⊑ y`: `x` ran out of fuel, or the two agree. -/
def Approx (x y : Exec α) : Prop := x = .error .fuel ∨ x = y

theorem Approx.refl (x : Exec α) : Approx x x := Or.inr rfl

theorem Approx.fuel (x : Exec α) : Approx (.error .fuel) x := Or.inl rfl

theorem Approx.trans (h : Approx x y) (h' : Approx y z) : Approx x z := by
  rcases h with h | rfl
  · exact Or.inl h
  · exact h'

theorem Approx.bind (hx : Approx x y) (hf : ∀ a, Approx (f a) (g a)) :
    Approx (x >>= f) (y >>= g) := by
  rcases hx with rfl | rfl
  · exact Approx.fuel _
  · cases x with
    | ok a => exact hf a
    | error e => exact Approx.refl _

theorem Approx.eq_of_ok {a : α} (h : Approx x y) (hx : x = .ok a) : y = .ok a := by
  rcases h with rfl | rfl
  · cases hx
  · exact hx

/-- A family that grows with its fuel, at any two amounts. -/
theorem Approx.le {F : Nat → Exec α} (hF : ∀ n, Approx (F n) (F (n + 1))) (n k : Nat) :
    Approx (F n) (F (n + k)) := by
  induction k with
  | zero => exact Approx.refl _
  | succ k ih => exact ih.trans (hF (n + k))

/-- A family that grows with its fuel has at most one value. -/
theorem Approx.ok_unique {F : Nat → Exec α} (hF : ∀ n, Approx (F n) (F (n + 1))) {m n : Nat}
    {a b : α} (hm : F m = .ok a) (hn : F n = .ok b) : a = b := by
  have ha := (Approx.le hF m n).eq_of_ok hm
  have hb := (Approx.le hF n m).eq_of_ok hn
  rw [Nat.add_comm, ha] at hb
  exact Except.ok.inj hb

end MarketHandler.Lib
