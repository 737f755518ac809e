import Mathlib.Logic.Basic
import Mathlib.Tactic.Common

/-!
# Runs of a transition relation

`Run step s₀ as s`: the steps labelled `as` lead from `s₀` to `s`. Steps are added at the end, so an
induction on a run is an induction on its length with the last step in hand.

* `Run.history`, `Run.invariant`: what holds at the start and is kept by every step holds at the
  end, of the state and its history or of the state alone.
* `Run.append`, `Run.split`: a run in two parts.
* `Run.simulation`, `Run.follow`: a relation to another state space that every step maintains, and one
  to a system that follows with steps of its own.
-/

namespace MarketHandler.Lib

variable {σ τ α : Type}

inductive Run (step : σ → α → σ → Prop) (s₀ : σ) : List α → σ → Prop
  | nil : Run step s₀ [] s₀
  | snoc {as : List α} {s s' : σ} {a : α} :
      Run step s₀ as s → step s a s' → Run step s₀ (as ++ [a]) s'

variable {step step' : σ → α → σ → Prop} {s₀ s s' : σ} {as : List α}

/-- A step before a run. -/
theorem Run.cons {a : α} (hs : step s₀ a s') (h : Run step s' as s) : Run step s₀ (a :: as) s := by
  induction h with
  | nil => exact Run.nil.snoc hs
  | snoc _ hs' ih => exact ih.snoc hs'

/-- Two runs, one after the other. -/
theorem Run.append {bs : List α} (h : Run step s₀ as s') (h' : Run step s' bs s) :
    Run step s₀ (as ++ bs) s := by
  induction h' with
  | nil => rwa [List.append_nil]
  | snoc _ hs ih =>
    rw [← List.append_assoc]
    exact ih.snoc hs

/-- The last step of a run. -/
theorem Run.snoc_inv {a : α} (h : Run step s₀ (as ++ [a]) s) :
    ∃ s', Run step s₀ as s' ∧ step s' a s := by
  generalize has : as ++ [a] = bs at h
  cases h with
  | nil => exact absurd has (by simp)
  | snoc hrun hs =>
    obtain ⟨rfl, he⟩ := List.append_inj' has rfl
    obtain rfl := (List.cons.inj he).1
    exact ⟨_, hrun, hs⟩

/-- The state between two parts of a run. -/
theorem Run.split {bs : List α} (h : Run step s₀ (as ++ bs) s) :
    ∃ s', Run step s₀ as s' ∧ Run step s' bs s := by
  induction bs generalizing as with
  | nil => exact ⟨s, List.append_nil as ▸ h, Run.nil⟩
  | cons b bs ih =>
    rw [List.append_cons] at h
    obtain ⟨s₁, h₁, hrest⟩ := ih h
    obtain ⟨s', hrun, hs⟩ := h₁.snoc_inv
    exact ⟨s', hrun, hrest.cons hs⟩

/-- A run of no steps. -/
theorem Run.nil_inv (h : Run step s₀ [] s) : s = s₀ := by
  generalize has : ([] : List α) = as at h
  cases h with
  | nil => rfl
  | snoc _ _ => exact absurd has (by simp)

/-- The first step of a run. -/
theorem Run.cons_inv {a : α} (h : Run step s₀ (a :: as) s) :
    ∃ s', step s₀ a s' ∧ Run step s' as s := by
  obtain ⟨s', hrun, hrest⟩ := Run.split (List.singleton_append ▸ h : Run step s₀ ([a] ++ as) s)
  obtain ⟨s₁, hnil, hs⟩ := Run.snoc_inv (List.nil_append [a] ▸ hrun : Run step s₀ ([] ++ [a]) s')
  exact ⟨s', hnil.nil_inv ▸ hs, hrest⟩

/-- What holds of the start and the empty history, and is kept by every step. -/
theorem Run.history {I : List α → σ → Prop} (h : Run step s₀ as s) (h0 : I [] s₀)
    (hstep : ∀ {as s a s'}, I as s → step s a s' → I (as ++ [a]) s') : I as s := by
  induction h with
  | nil => exact h0
  | snoc _ hs ih => exact hstep ih hs

theorem Run.invariant {I : σ → Prop} (h : Run step s₀ as s) (h0 : I s₀)
    (hstep : ∀ {s a s'}, I s → step s a s' → I s') : I s :=
  h.history (I := fun _ s => I s) h0 hstep

/-- The simulating state follows the labels. -/
theorem Run.simulation {R : List α → σ → τ → Prop} {t₀ : τ} (h : Run step s₀ as s)
    (h0 : R [] s₀ t₀)
    (hstep : ∀ {as s t a s'}, R as s t → step s a s' → ∃ t', R (as ++ [a]) s' t') :
    ∃ t, R as s t :=
  h.history (I := fun as s => ∃ t, R as s t) ⟨t₀, h0⟩ fun ⟨_, ht⟩ hs => hstep ht hs

/-- The simulating system takes steps of its own, any number for each label. -/
theorem Run.follow {β : Type} {step' : τ → β → τ → Prop} {R : List α → List β → σ → τ → Prop}
    {t₀ : τ} (h : Run step s₀ as s) (h0 : R [] [] s₀ t₀)
    (hstep : ∀ {as bs s t a s'}, R as bs s t → step s a s' →
      ∃ cs t', Run step' t cs t' ∧ R (as ++ [a]) (bs ++ cs) s' t') :
    ∃ bs t, Run step' t₀ bs t ∧ R as bs s t := by
  induction h with
  | nil => exact ⟨[], t₀, Run.nil, h0⟩
  | snoc _ hs ih =>
    obtain ⟨bs, t, hrun, hr⟩ := ih
    obtain ⟨cs, t', hrest, hr'⟩ := hstep hr hs
    exact ⟨bs ++ cs, t', hrun.append hrest, hr'⟩

theorem Run.mono (h : Run step s₀ as s) (hstep : ∀ {s a s'}, step s a s' → step' s a s') :
    Run step' s₀ as s := by
  induction h with
  | nil => exact Run.nil
  | snoc _ hs ih => exact ih.snoc (hstep hs)

/-! ## What one more label adds to a history -/

theorem filterMap_snoc {β : Type} (f : α → Option β) (as : List α) (a : α) :
    (as ++ [a]).filterMap f = as.filterMap f ++ (f a).toList := by
  rw [List.filterMap_append]
  cases hf : f a <;> simp [hf]

theorem filterMap_snoc_none {β : Type} {f : α → Option β} {a : α} (h : f a = none) (as : List α) :
    (as ++ [a]).filterMap f = as.filterMap f := by
  rw [filterMap_snoc, h, Option.toList_none, List.append_nil]

theorem countP_snoc (p : α → Bool) (as : List α) (a : α) :
    (as ++ [a]).countP p = as.countP p + (p a).toNat := by
  rw [List.countP_append]
  cases hp : p a <;> simp [hp]

theorem countP_snoc_false {p : α → Bool} {a : α} (h : p a = false) (as : List α) :
    (as ++ [a]).countP p = as.countP p := by
  rw [countP_snoc, h, Bool.toNat_false, Nat.add_zero]

end MarketHandler.Lib
