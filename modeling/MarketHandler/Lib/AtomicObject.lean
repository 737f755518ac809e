import Mathlib.Logic.Function.Basic
import MarketHandler.Lib.Run

/-!
# Atomic objects

A sequential object is a state and what each operation does to it and returns. Shared by parties
whose calls overlap, it is atomic if every call seems to take effect at one moment between its
invocation and its return. `SeqObject.Step` is that behaviour as a machine: a party calls, its call
takes effect on the state of the object, it returns what the effect gave.

* `SeqObject.Linearizable h`: the machine has a run in which the calls and returns are `h`.
* `SeqObject.linearizable_of_simulation`: an implementation all of whose steps the machine can follow
  has linearizable histories only.
-/

namespace MarketHandler.Lib

/-- A sequential object with operations `ι` and results `ρ`. -/
structure SeqObject (σ ι ρ : Type) where
  init : σ
  apply : σ → ι → σ × ρ

/-- Where a party stands in a call. -/
inductive Phase (ι ρ : Type) where
  | idle
  | called (op : ι)
  | done (result : ρ)

/-- What a caller sees. -/
inductive Event (κ ι ρ : Type) where
  | call (party : κ) (op : ι)
  | ret (party : κ) (result : ρ)

/-- A step of the atomic object: an event, or the effect of a call. -/
inductive AtomicAct (κ ι ρ : Type) where
  | event (e : Event κ ι ρ)
  | effect (party : κ) (op : ι) (result : ρ)

namespace AtomicAct

variable {κ ι ρ : Type}

def event? : AtomicAct κ ι ρ → Option (Event κ ι ρ)
  | .event e => some e
  | .effect _ _ _ => none

end AtomicAct

/-- The object and the calls that are open. -/
structure Shared (κ σ ι ρ : Type) where
  state : σ
  phase : κ → Phase ι ρ

namespace Shared

variable {κ σ ι ρ : Type} [DecidableEq κ] (s : Shared κ σ ι ρ) (x : σ) (party : κ)
  (phase : Phase ι ρ)

/-- The object is in the state `x`, and the call of `party` as far as `phase`. -/
def move : Shared κ σ ι ρ := ⟨x, Function.update s.phase party phase⟩

@[simp] theorem move_phase : (s.move x party phase).phase party = phase := by
  unfold move
  exact Function.update_self party phase s.phase

theorem move_phase_of_ne {other : κ} (h : other ≠ party) :
    (s.move x party phase).phase other = s.phase other := by
  unfold move
  exact Function.update_of_ne h phase s.phase

theorem move_self {phase : Phase ι ρ} (h : s.phase party = phase) :
    s.move s.state party phase = s := by
  rw [move, ← h, Function.update_eq_self]

theorem move_move (y : σ) (phase' : Phase ι ρ) :
    (s.move x party phase).move y party phase' = s.move y party phase' := by
  unfold move
  rw [Function.update_idem]

end Shared

namespace SeqObject

variable {κ σ ι ρ : Type} [DecidableEq κ] (O : SeqObject σ ι ρ)

/-- No call is open. -/
def start : Shared κ σ ι ρ := ⟨O.init, fun _ => .idle⟩

/-- One step of the atomic object. -/
inductive Step : Shared κ σ ι ρ → AtomicAct κ ι ρ → Shared κ σ ι ρ → Prop
  | call {s : Shared κ σ ι ρ} (party : κ) (op : ι) : s.phase party = .idle →
      Step s (.event (.call party op)) (s.move s.state party (.called op))
  | effect {s : Shared κ σ ι ρ} (party : κ) {op : ι} {x : σ} {result : ρ} :
      s.phase party = .called op → O.apply s.state op = (x, result) →
      Step s (.effect party op result) (s.move x party (.done result))
  | ret {s : Shared κ σ ι ρ} (party : κ) {result : ρ} : s.phase party = .done result →
      Step s (.event (.ret party result)) (s.move s.state party .idle)

/-- The history is one of the atomic object. -/
def Linearizable (h : List (Event κ ι ρ)) : Prop :=
  ∃ as s, Run O.Step O.start as s ∧ as.filterMap AtomicAct.event? = h

variable {O}

/-- A call takes effect and returns. -/
theorem run_effect_ret {s : Shared κ σ ι ρ} {party : κ} {op : ι} {x : σ} {result : ρ}
    (h : s.phase party = .called op) (happly : O.apply s.state op = (x, result)) :
    Run O.Step s [.effect party op result, .event (.ret party result)] (s.move x party .idle) := by
  have hret := Step.ret (O := O) party (s.move_phase x party (.done result))
  rw [Shared.move_move] at hret
  exact .cons (.effect party h happly) (.cons hret .nil)

/-- **An implementation that the atomic object can follow is linearizable**: `R` relates its states
to those of the object, and every step of it is matched by steps with the same events. -/
theorem linearizable_of_simulation {τ α : Type} {step : τ → α → τ → Prop} {t₀ t : τ} {as : List α}
    {event? : α → Option (Event κ ι ρ)} {R : τ → Shared κ σ ι ρ → Prop} (h : Run step t₀ as t)
    (h0 : R t₀ O.start)
    (hstep : ∀ {t s a t'}, R t s → step t a t' → ∃ bs s', Run O.Step s bs s' ∧
      bs.filterMap AtomicAct.event? = (event? a).toList ∧ R t' s') :
    O.Linearizable (as.filterMap event?) := by
  have hfollow : ∃ bs s, Run O.Step O.start bs s ∧
      bs.filterMap AtomicAct.event? = as.filterMap event? ∧ R t s := by
    refine h.follow (R := fun as bs t s => bs.filterMap AtomicAct.event? = as.filterMap event? ∧ R t s)
      ⟨rfl, h0⟩ ?_
    rintro as bs t s a t' ⟨he, hr⟩ hs
    obtain ⟨cs, s', hcs, hev, hr'⟩ := hstep hr hs
    refine ⟨cs, s', hcs, ?_, hr'⟩
    rw [List.filterMap_append, filterMap_snoc, he, hev]
  obtain ⟨bs, s, hrun, he, -⟩ := hfollow
  exact ⟨bs, s, hrun, he⟩

end SeqObject

end MarketHandler.Lib
