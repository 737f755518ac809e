import Mathlib.Algebra.Order.BigOperators.Group.List
import Mathlib.Algebra.Order.Monoid.Defs
import MarketHandler.Lib.Exec
import MarketHandler.Lib.Run

/-!
# Loops and what they cost

`Loop guard body s as s'`: the iterations of a `while` loop that lead from `s` to `s'`, where the
guard fails, each labelled with what it yields. A loop that does not end is related to no state.

* `Loop.iff_fuel`: a function by recursion on its fuel that checks the guard, runs the body and calls
  itself returns exactly what the loop ends in.
* `Loop.amortized`, `Run.amortized`: the potential method. An iteration that is paid for by what it
  takes off a potential is paid for over the whole loop; so is a run whose steps are given credit.
-/

namespace MarketHandler.Lib

variable {σ τ α M : Type}

inductive Loop (guard : σ → Prop) (body : σ → α → σ → Prop) : σ → List α → σ → Prop
  | stop {s : σ} : ¬ guard s → Loop guard body s [] s
  | step {s s₁ s' : σ} {a : α} {as : List α} :
      guard s → body s a s₁ → Loop guard body s₁ as s' → Loop guard body s (a :: as) s'

variable {guard : σ → Prop} {body : σ → α → σ → Prop} {s s' : σ} {as : List α}

/-! ## Loops with a bound on their iterations -/

section Fuel

variable {F : Nat → σ → Exec τ} {B : Nat → σ → Exec σ} {f : σ → τ}

/-- A loop with a bound on its iterations grows with the bound. -/
theorem Loop.approx (h0 : ∀ s, F 0 s = .error .fuel)
    (hstop : ∀ n s, ¬ guard s → F (n + 1) s = .ok (f s))
    (hstep : ∀ n s, guard s → F (n + 1) s = B n s >>= F n)
    (hB : ∀ n s, Approx (B n s) (B (n + 1) s)) (n : Nat) :
    ∀ s, Approx (F n s) (F (n + 1) s) := by
  induction n with
  | zero =>
    intro s
    rw [h0]
    exact Approx.fuel _
  | succ n ih =>
    intro s
    by_cases hg : guard s
    · rw [hstep n s hg, hstep (n + 1) s hg]
      exact Approx.bind (hB n s) ih
    · rw [hstop n s hg, hstop (n + 1) s hg]
      exact Approx.refl _

/-- **A loop with a bound on its iterations returns, under some bound, exactly what the loop ends
in**; its body may use the bound for loops of its own. -/
theorem Loop.iff_fuel (h0 : ∀ s, F 0 s = .error .fuel)
    (hstop : ∀ n s, ¬ guard s → F (n + 1) s = .ok (f s))
    (hstep : ∀ n s, guard s → F (n + 1) s = B n s >>= F n)
    (hB : ∀ n s, Approx (B n s) (B (n + 1) s))
    (hbody : ∀ {s s₁}, (∃ n, B n s = .ok s₁) ↔ ∃ a, body s a s₁) {t : τ} :
    (∃ n, F n s = .ok t) ↔ ∃ as s', Loop guard body s as s' ∧ f s' = t := by
  constructor
  · rintro ⟨n, hn⟩
    induction n generalizing s with
    | zero =>
      rw [h0] at hn
      cases hn
    | succ n ih =>
      by_cases hg : guard s
      · rw [hstep n s hg] at hn
        obtain ⟨s₁, hs₁, hn⟩ := bind_eq_ok.mp hn
        obtain ⟨a, ha⟩ := hbody.mp ⟨n, hs₁⟩
        obtain ⟨as, s', hloop, ht⟩ := ih hn
        exact ⟨a :: as, s', .step hg ha hloop, ht⟩
      · rw [hstop n s hg] at hn
        exact ⟨[], s, .stop hg, Except.ok.inj hn⟩
  · rintro ⟨as, s', hloop, rfl⟩
    induction hloop with
    | stop hg => exact ⟨1, hstop 0 _ hg⟩
    | @step s s₁ s' a as hg ha _ ih =>
      obtain ⟨m, hm⟩ := ih
      obtain ⟨k, hk⟩ := hbody.mpr ⟨a, ha⟩
      have hk' := (Approx.le (fun n => hB n s) k m).eq_of_ok hk
      have hm' := (Approx.le (fun n => Loop.approx h0 hstop hstep hB n s₁) m k).eq_of_ok hm
      refine ⟨k + m + 1, ?_⟩
      rw [hstep _ s hg, hk', ok_bind, Nat.add_comm k m]
      exact hm'

end Fuel

/-! ## The potential method -/

section Potential

variable [AddCommMonoid M] [PartialOrder M] [IsOrderedAddMonoid M] {c d : α → M} {f : σ → M}

/-- **An iteration that costs no more than it takes off the potential is paid for by the potential
at the start.** -/
theorem Loop.amortized (h : Loop guard body s as s')
    (hstep : ∀ {s a s₁}, guard s → body s a s₁ → c a + f s₁ ≤ f s) :
    (as.map c).sum + f s' ≤ f s := by
  induction h with
  | stop => rw [List.map_nil, List.sum_nil, zero_add]
  | @step s s₁ s' a as hg ha _ ih =>
    rw [List.map_cons, List.sum_cons, add_assoc]
    exact (add_le_add_right ih _).trans (hstep hg ha)

/-- **Each step's cost is met by the credit `d` it is given and by what it takes off the potential;
so the run's cost is met by all its credit and the potential at the start.** -/
theorem Run.amortized {step : σ → α → σ → Prop} {s₀ : σ} (h : Run step s₀ as s)
    (hstep : ∀ {s a s'}, step s a s' → c a + f s' ≤ f s + d a) :
    (as.map c).sum + f s ≤ f s₀ + (as.map d).sum := by
  induction h with
  | nil => rw [List.map_nil, List.sum_nil, zero_add, List.map_nil, List.sum_nil, add_zero]
  | @snoc as s s' a _ hs ih =>
    rw [List.map_append, List.sum_append, List.map_singleton, List.sum_singleton, add_assoc,
      List.map_append, List.sum_append, List.map_singleton, List.sum_singleton, ← add_assoc (f s₀)]
    calc (as.map c).sum + (c a + f s')
        ≤ (as.map c).sum + (f s + d a) := add_le_add_right (hstep hs) _
      _ = (as.map c).sum + f s + d a := (add_assoc _ _ _).symm
      _ ≤ f s₀ + (as.map d).sum + d a := add_le_add_left ih _

end Potential

end MarketHandler.Lib
