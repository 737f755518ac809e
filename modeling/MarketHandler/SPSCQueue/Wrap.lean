import MarketHandler.Lib.Window
import MarketHandler.SPSCQueue

/-!
# When cursor wrap-around is unobservable

`SPSCQueue` between calls, with cursors of `w` bits that are never reduced: `WrappingQueue`. A call
runs as a whole; its tests are the source's, on wrapped values. `BoundedFifo` is what a queue of a
given capacity does to the list of values it holds.

`full` and `size` subtract the cursors (`difference`). An operand narrower than a 32-bit `int` is
promoted to it first, and the difference of two such cursors is negative while they lie on two sides
of a multiple of `2 ^ w`; the constructor's, the index's and the increment's arithmetic is the same
either way.

The invariant `Window` gives each cursor an unbounded position: the values held are the slots from
the pop position on, and the cached cursors are stale positions. When a narrow push cursor passes
`2 ^ w` the cached pop cursor is at most a capacity below, and makes no later test true
(`Cached.passed`): it is not refreshed any more, and the queue refuses no further push.

* `push_spec`, `pop_spec`: one call does what the bounded list does, wherever the cursors stand,
  unless it is a push on a full ring past the wrap (`push_overfills`).
* `wrap_unobservable`: **a sequence of calls returns what the bounded list returns, and the
  difference of the cursors is its length, exactly when the cursors are no narrower than `int` or
  the wrap goes unmet** (`BoundedFifo.Unwrapped`).
* `wrap_observable`: cursors of 8 bits overwrite a value the ring holds.
-/

namespace MarketHandler

open Lib

/-- `SPSCQueue` with a `size_type` of `w` bits. -/
structure WrappingQueue (w : Nat) (T : Type) where
  ring : Nat → Cell T
  pushCursor : BitVec w
  popCursor : BitVec w
  pushCursorCached : BitVec w
  popCursorCached : BitVec w

/-- A call. -/
inductive QueueCall (T : Type) where
  | push (value : T)
  | pop
  deriving DecidableEq, Repr

/-- What a call returns; `none` for a `pop` that returns false. -/
inductive QueueResult (T : Type) where
  | pushed (returned : Bool)
  | popped (value : Option T)
  deriving DecidableEq, Repr

namespace WrappingQueue

variable {w : Nat} {T : Type}

/-- An empty queue with all its cursors at `c`. -/
def init (c : BitVec w) : WrappingQueue w T := ⟨fun _ => .raw, c, c, c, c⟩

section Calls

variable (capacity : BitVec w)

/-- `_index_mask`. -/
def indexMask : BitVec w := if 0 < capacity then capacity - 1 else 0

/-- `push_cursor - pop_cursor`. Operands narrower than `int` are promoted to it, so their difference
keeps its sign; from 32 bits on it is taken modulo `2 ^ w`. -/
def difference (pushCursor popCursor : BitVec w) : Int :=
  if w < 32 then pushCursor.toNat - popCursor.toNat else (pushCursor - popCursor).toNat

/-- `size`. -/
def size (q : WrappingQueue w T) : Int := difference q.pushCursor q.popCursor

/-- `full(push_cursor, pop_cursor)`. -/
def full (pushCursor popCursor : BitVec w) : Bool :=
  (capacity.toNat : Int) ≤ difference pushCursor popCursor

/-- `empty(push_cursor, pop_cursor)`. -/
def empty (pushCursor popCursor : BitVec w) : Bool := pushCursor = popCursor

/-- The end of `push`: the slot is constructed, whatever it holds, and published. -/
def construct (q : WrappingQueue w T) (value : T) : Exec (WrappingQueue w T × Bool) := do
  let idx := (q.pushCursor &&& indexMask capacity).toNat
  let _ ← index capacity.toNat q.ring idx
  return ({ q with
    ring := Function.update q.ring idx (.live value), pushCursor := q.pushCursor + 1 }, true)

/-- `push`. -/
def push (q : WrappingQueue w T) (value : T) : Exec (WrappingQueue w T × Bool) :=
  if capacity = 0 then return (q, false)
  else if full capacity q.pushCursor q.popCursorCached then
    let q := { q with popCursorCached := q.popCursor }
    if full capacity q.pushCursor q.popCursorCached then return (q, false)
    else q.construct capacity value
  else q.construct capacity value

/-- The end of `pop`: the slot is moved from, destroyed and released. -/
def take (q : WrappingQueue w T) : Exec (WrappingQueue w T × Option T) := do
  let idx := (q.popCursor &&& indexMask capacity).toNat
  match ← index capacity.toNat q.ring idx with
  | .live value => return ({ q with
      ring := Function.update q.ring idx .raw, popCursor := q.popCursor + 1 }, some value)
  | _ => .error .lifetime

/-- `pop`. -/
def pop (q : WrappingQueue w T) : Exec (WrappingQueue w T × Option T) :=
  if empty q.pushCursorCached q.popCursor then
    let q := { q with pushCursorCached := q.pushCursor }
    if empty q.pushCursorCached q.popCursor then return (q, none)
    else q.take capacity
  else q.take capacity

/-- Run one call. -/
def apply (q : WrappingQueue w T) : QueueCall T → Exec (WrappingQueue w T × QueueResult T)
  | .push value => do
    let (q, returned) ← q.push capacity value
    return (q, .pushed returned)
  | .pop => do
    let (q, value) ← q.pop capacity
    return (q, .popped value)

/-- The calls in turn, and what they return. -/
def run (q : WrappingQueue w T) :
    List (QueueCall T) → Exec (WrappingQueue w T × List (QueueResult T))
  | [] => return (q, [])
  | call :: calls => do
    let (q, result) ← q.apply capacity call
    let (q, results) ← q.run calls
    return (q, result :: results)

end Calls

end WrappingQueue

/-! ## The bounded list -/

namespace BoundedFifo

variable {T : Type} (capacity : Nat)

/-- One call on the values held. -/
def apply (held : List T) : QueueCall T → List T × QueueResult T
  | .push value =>
    if held.length < capacity then (held ++ [value], .pushed true) else (held, .pushed false)
  | .pop =>
    match held with
    | [] => ([], .popped none)
    | value :: held => (held, .popped (some value))

/-- The calls in turn, and what they return. -/
def run (held : List T) : List (QueueCall T) → List T × List (QueueResult T)
  | [] => (held, [])
  | call :: calls =>
    let (held, result) := apply capacity held call
    let (held, results) := run held calls
    (held, result :: results)

/-- Where a call moves a pop cursor at position `p`. -/
def advance (p : Nat) (held : List T) : QueueCall T → Nat
  | .push _ => p
  | .pop => p + min 1 held.length

/-- A push meets a full list, and the push cursor has passed `2 ^ w`. -/
def Overfills (w p : Nat) (held : List T) : QueueCall T → Prop
  | .push _ => held.length = capacity ∧ 2 ^ w ≤ p + held.length
  | .pop => False

instance (w p : Nat) (held : List T) :
    (call : QueueCall T) → Decidable (Overfills capacity w p held call)
  | .push _ => inferInstanceAs (Decidable (_ ∧ _))
  | .pop => inferInstanceAs (Decidable False)

/-- No call overfills, and at the end both cursors are in one lap of `2 ^ w`. -/
def Unwrapped (w : Nat) : Nat → List T → List (QueueCall T) → Prop
  | p, held, [] => p / 2 ^ w = (p + held.length) / 2 ^ w
  | p, held, call :: calls =>
    ¬ Overfills capacity w p held call ∧
      Unwrapped w (advance p held call) (apply capacity held call).1 calls

instance decUnwrapped (w : Nat) : ∀ (p : Nat) (held : List T) (calls : List (QueueCall T)),
    Decidable (Unwrapped capacity w p held calls)
  | p, held, [] => inferInstanceAs (Decidable (p / 2 ^ w = (p + held.length) / 2 ^ w))
  | p, held, call :: calls =>
    have := decUnwrapped w (advance p held call) (apply capacity held call).1 calls
    inferInstanceAs (Decidable (¬ Overfills capacity w p held call ∧
      Unwrapped capacity w (advance p held call) (apply capacity held call).1 calls))

end BoundedFifo

namespace WrappingQueue

variable {w k : Nat} {T : Type} {q : WrappingQueue w T} {held : List T} {p : Nat}

/-- What a cached pop cursor at position `a` still says about a push cursor at position `b`. -/
inductive Cached (w k a b : Nat) : Prop where
  /-- It is at most a capacity behind, and the difference does not show the promotion. -/
  | current (hle : b ≤ a + 2 ^ k) (hlap : 32 ≤ w ∨ b < 2 ^ w)
  /-- It was in the last capacity below `2 ^ w` when the push cursor wrapped: no test says full. -/
  | passed (hw : w < 32) (ha : a < 2 ^ w) (hle : 2 ^ w ≤ a + 2 ^ k) (hb : 2 ^ w ≤ b)

/-- The push cursor at `b` is a capacity ahead of a pop cursor at `a`, and a test can tell. -/
def SeenFull (w k a b : Nat) : Prop := b = a + 2 ^ k ∧ (32 ≤ w ∨ b < 2 ^ w)

/-- The queue holds `held`, and its pop cursor stands at position `p`. -/
structure Window (k : Nat) (q : WrappingQueue w T) (held : List T) (p : Nat) : Prop where
  length_le : held.length ≤ 2 ^ k
  pop_eq : q.popCursor = BitVec.ofNat w p
  push_eq : q.pushCursor = BitVec.ofNat w (p + held.length)
  popCached : ∃ a, q.popCursorCached = BitVec.ofNat w a ∧ a ≤ p ∧ Cached w k a (p + held.length)
  pushCached : ∃ n, q.pushCursorCached = BitVec.ofNat w (p + n) ∧ n ≤ held.length
  ring_eq : ∀ j, p ≤ j → j < p + 2 ^ k →
    q.ring (j % 2 ^ k) = (held[j - p]?).elim .raw .live

/-- The test against the cached pop cursor lets a push through. -/
def Passes (k : Nat) (q : WrappingQueue w T) (held : List T) (p : Nat) : Prop :=
  ∃ a, q.popCursorCached = BitVec.ofNat w a ∧ a ≤ p ∧ Cached w k a (p + held.length) ∧
    ¬ SeenFull w k a (p + held.length)

theorem window_init (k : Nat) (hp : p < 2 ^ w) :
    (init (BitVec.ofNat w p) : WrappingQueue w T).Window k [] p where
  length_le := Nat.zero_le _
  pop_eq := rfl
  push_eq := rfl
  popCached := ⟨p, rfl, le_refl _, .current (Nat.le_add_right _ _) (.inr hp)⟩
  pushCached := ⟨0, rfl, le_refl _⟩
  ring_eq _ _ _ := rfl

/-! ## Tests on wrapped values -/

/-- From 32 bits on, and within one lap at any width, the difference is the distance. -/
theorem difference_eq {a b : Nat} (h : a ≤ b) (hlt : b - a < 2 ^ w) (hlap : 32 ≤ w ∨ b < 2 ^ w) :
    difference (BitVec.ofNat w b) (BitVec.ofNat w a) = (b - a : Nat) := by
  unfold difference
  split_ifs with hw
  · have hb : b < 2 ^ w := hlap.resolve_left (Nat.not_le.mpr hw)
    rw [BitVec.toNat_ofNat, BitVec.toNat_ofNat, Nat.mod_eq_of_lt hb,
      Nat.mod_eq_of_lt (Nat.lt_of_le_of_lt h hb), Int.ofNat_sub h]
  · rw [toNat_ofNat_sub h hlt]

section Tests

variable (hk : k < w)
include hk

theorem two_pow_lt : 2 ^ k < 2 ^ w := Nat.pow_lt_pow_right (by decide) hk

theorem capacity_ne_zero : BitVec.ofNat w (2 ^ k) ≠ 0 := fun h => by
  have := toNat_ofNat_two_pow hk
  rw [h, BitVec.ofNat_eq_ofNat, BitVec.toNat_zero] at this
  exact Nat.ne_of_lt (Nat.two_pow_pos k) this

theorem toNat_and_indexMask (a : Nat) :
    (BitVec.ofNat w a &&& indexMask (BitVec.ofNat w (2 ^ k))).toNat = a % 2 ^ k := by
  have hpos : 0 < BitVec.ofNat w (2 ^ k) := by
    rw [BitVec.lt_def, toNat_ofNat_two_pow hk, BitVec.ofNat_eq_ofNat, BitVec.toNat_zero]
    exact Nat.two_pow_pos k
  rw [indexMask, if_pos hpos, toNat_ofNat_and_mask hk]

/-- A test against the cached cursor says full when the push cursor is a capacity ahead, but for a
narrow cursor that has wrapped. -/
theorem Cached.full_iff {a b : Nat} (hc : Cached w k a b) (h : a ≤ b) :
    full (BitVec.ofNat w (2 ^ k)) (BitVec.ofNat w b) (BitVec.ofNat w a) = true ↔
      SeenFull w k a b := by
  have hlt := two_pow_lt hk
  unfold full SeenFull
  rw [decide_eq_true_eq, toNat_ofNat_two_pow hk]
  cases hc with
  | current hle hlap =>
    rw [difference_eq h (by omega) hlap, Int.ofNat_le]
    omega
  | passed hw ha hle hb =>
    have hmod := Nat.mod_lt b (Nat.two_pow_pos w)
    rw [difference, if_pos hw, BitVec.toNat_ofNat, BitVec.toNat_ofNat, Nat.mod_eq_of_lt ha]
    omega

theorem empty_iff {a n : Nat} (h : n ≤ 2 ^ k) :
    empty (BitVec.ofNat w (a + n)) (BitVec.ofNat w a) = true ↔ n = 0 := by
  have hlt := two_pow_lt hk
  unfold empty
  rw [decide_eq_true_eq, ofNat_eq_iff_of_window (Nat.le_add_right _ _) (by omega)]
  omega

end Tests

/-- A push that a test against the cached cursor lets through leaves it cached. -/
theorem Cached.advance {a b : Nat} (hc : Cached w k a b) (h : a ≤ b)
    (hfull : ¬ SeenFull w k a b) : Cached w k a (b + 1) := by
  cases hc with
  | current hle hlap =>
    have hlt : b < a + 2 ^ k := Nat.lt_of_le_of_ne hle fun he => hfull ⟨he, hlap⟩
    by_cases hlap' : 32 ≤ w ∨ b + 1 < 2 ^ w
    · exact .current hlt hlap'
    -- this push wraps the push cursor
    · exact .passed (by omega) (by omega) (by omega) (by omega)
  | passed hw ha hle hb => exact .passed hw ha hle (Nat.le_succ_of_le hb)

/-! ## One call -/

/-- Constructing at the push cursor returns true, whatever the slot holds. -/
theorem construct_eq (hk : k < w) (h : q.Window k held p) (value : T) :
    q.construct (BitVec.ofNat w (2 ^ k)) value = .ok ({ q with
      ring := Function.update q.ring ((p + held.length) % 2 ^ k) (.live value)
      pushCursor := q.pushCursor + 1 }, true) := by
  unfold construct
  dsimp only
  rw [toNat_ofNat_two_pow hk, h.push_eq, toNat_and_indexMask hk,
    index_of_lt (Nat.mod_lt _ (Nat.two_pow_pos k))]
  rfl

/-- With room left the slot of the push cursor is raw, and constructing it appends. -/
theorem Window.construct (hk : k < w) (h : q.Window k held p) (hpass : q.Passes k held p)
    (hroom : held.length < 2 ^ k) (value : T) :
    ∃ q', q.construct (BitVec.ofNat w (2 ^ k)) value = .ok (q', true) ∧
      q'.Window k (held ++ [value]) p := by
  refine ⟨_, construct_eq hk h value, ?_⟩
  obtain ⟨a, ha, hle, hc, hfull⟩ := hpass
  obtain ⟨n, hn, hn'⟩ := h.pushCached
  have hlen : (held ++ [value]).length = held.length + 1 := List.length_append
  refine ⟨hlen ▸ hroom, h.pop_eq, ?_, ⟨a, ha, hle, ?_⟩, ⟨n, hn, by omega⟩, fun j hj hj' => ?_⟩
  · rw [hlen, ← Nat.add_assoc, BitVec.ofNat_add, ← h.push_eq]
    rfl
  · rw [hlen, ← Nat.add_assoc]
    exact hc.advance (by omega) hfull
  · dsimp only
    by_cases he : j = p + held.length
    · subst he
      rw [Function.update_self, Nat.add_sub_cancel_left, List.getElem?_concat_length]
      rfl
    · have hne : j % 2 ^ k ≠ (p + held.length) % 2 ^ k := fun hm =>
        he (mod_inj_of_window hj hj' (by omega) (by omega) hm)
      rw [Function.update_of_ne hne, h.ring_eq j hj hj', List.getElem?_append]
      split_ifs with hin
      · rfl
      · rw [List.getElem?_eq_none (by omega), List.getElem?_eq_none (by simp; omega)]

/-- A push is refused by a ring that is seen to be full, and constructs otherwise. -/
theorem push_cases (hk : k < w) (h : q.Window k held p) (value : T) :
    (SeenFull w k p (p + held.length) ∧ ∃ q' : WrappingQueue w T, q'.Window k held p ∧
      q.push (BitVec.ofNat w (2 ^ k)) value = .ok (q', false)) ∨
    ∃ q' : WrappingQueue w T, q'.Window k held p ∧ q'.Passes k held p ∧
      q.push (BitVec.ofNat w (2 ^ k)) value = q'.construct (BitVec.ofNat w (2 ^ k)) value := by
  have hlen := h.length_le
  obtain ⟨a, ha, hle, hc⟩ := h.popCached
  have hfull : full (BitVec.ofNat w (2 ^ k)) q.pushCursor q.popCursorCached = true ↔
      SeenFull w k a (p + held.length) := by
    rw [h.push_eq, ha]
    exact hc.full_iff hk (by omega)
  rw [push, if_neg (capacity_ne_zero hk)]
  by_cases hcached : SeenFull w k a (p + held.length)
  · have hc' : Cached w k p (p + held.length) := .current (by omega) hcached.2
    have hfull' : full (BitVec.ofNat w (2 ^ k)) q.pushCursor q.popCursor = true ↔
        SeenFull w k p (p + held.length) := by
      rw [h.push_eq, h.pop_eq]
      exact hc'.full_iff hk (Nat.le_add_right _ _)
    have h' : Window k { q with popCursorCached := q.popCursor } held p :=
      { h with popCached := ⟨p, h.pop_eq, le_refl _, hc'⟩ }
    rw [if_pos (hfull.mpr hcached)]
    dsimp only
    by_cases hfresh : SeenFull w k p (p + held.length)
    · exact .inl ⟨hfresh, _, h', if_pos (hfull'.mpr hfresh)⟩
    -- the cached cursor says full, the cursor itself does not
    · exact .inr ⟨_, h', ⟨p, h.pop_eq, le_refl _, hc', hfresh⟩,
        if_neg fun hf => hfresh (hfull'.mp hf)⟩
  · exact .inr ⟨q, h, ⟨a, ha, hle, hc, hcached⟩, if_neg fun hf => hcached (hfull.mp hf)⟩

/-- A push that does not meet a full ring past the wrap does what the bounded list does. -/
theorem push_spec (hk : k < w) (h : q.Window k held p)
    (hlap : held.length = 2 ^ k → 32 ≤ w ∨ p + held.length < 2 ^ w) (value : T) :
    ∃ q', q.push (BitVec.ofNat w (2 ^ k)) value = .ok (q', decide (held.length < 2 ^ k)) ∧
      q'.Window k (BoundedFifo.apply (2 ^ k) held (.push value)).1 p := by
  have hlen := h.length_le
  rw [BoundedFifo.apply]
  obtain ⟨⟨hheld, -⟩, q', h', hpush⟩ | ⟨q', h', hpass, hpush⟩ := push_cases hk h value
  · have hroom : ¬ held.length < 2 ^ k := by omega
    rw [if_neg hroom, decide_eq_false hroom]
    exact ⟨q', hpush, h'⟩
  · have hroom : held.length < 2 ^ k := by
      refine Nat.lt_of_le_of_ne hlen fun he => ?_
      obtain ⟨a, -, hle, hc, hfull⟩ := hpass
      -- the cached cursor of a full ring is the pop cursor itself
      cases hc with
      | current hle' hlap' => exact hfull ⟨by omega, hlap'⟩
      | passed hw _ _ hb => exact absurd (hlap he) (by omega)
    rw [if_pos hroom, decide_eq_true hroom, hpush]
    exact h'.construct hk hpass hroom value

/-- **Narrower than `int`, once the push cursor has wrapped, a push on a full ring goes through.** -/
theorem push_overfills (hk : k < w) (h : q.Window k held p) (hw : w < 32)
    (hb : 2 ^ w ≤ p + held.length) (value : T) :
    ∃ q', q.push (BitVec.ofNat w (2 ^ k)) value = .ok (q', true) := by
  obtain ⟨⟨-, hlap⟩, -⟩ | ⟨q', h', -, hpush⟩ := push_cases hk h value
  · exact absurd hlap (by omega)
  · exact ⟨_, hpush.trans (construct_eq hk h' value)⟩

/-- The slot of the pop cursor holds the oldest value, and taking it drops it. -/
theorem Window.take (hk : k < w) {value : T} (h : q.Window k (value :: held) p) {n : Nat}
    (hn : q.pushCursorCached = BitVec.ofNat w (p + (n + 1))) (hle : n ≤ held.length) :
    ∃ q', q.take (BitVec.ofNat w (2 ^ k)) = .ok (q', some value) ∧ q'.Window k held (p + 1) := by
  have hpos := Nat.two_pow_pos k
  have hlive : q.ring (p % 2 ^ k) = .live value := by
    rw [h.ring_eq p (le_refl _) (by omega), Nat.sub_self]
    rfl
  refine ⟨{ q with
    ring := Function.update q.ring (p % 2 ^ k) .raw, popCursor := q.popCursor + 1 }, ?_, ?_⟩
  · unfold WrappingQueue.take
    dsimp only
    rw [toNat_ofNat_two_pow hk, h.pop_eq, toNat_and_indexMask hk,
      index_of_lt (Nat.mod_lt _ hpos), hlive]
    rfl
  · obtain ⟨a, ha, h1, hc⟩ := h.popCached
    have hlen : (value :: held).length = held.length + 1 := rfl
    have hmax : held.length + 1 ≤ 2 ^ k := h.length_le
    have hb : p + (value :: held).length = p + 1 + held.length := by
      rw [hlen]
      omega
    refine ⟨Nat.le_of_succ_le hmax, ?_, ?_, ⟨a, ha, Nat.le_succ_of_le h1, hb ▸ hc⟩,
      ⟨n, ?_, hle⟩, fun j hj hj' => ?_⟩
    · rw [BitVec.ofNat_add, ← h.pop_eq]
      rfl
    · rw [← hb]
      exact h.push_eq
    · rw [Nat.add_assoc, Nat.add_comm 1]
      exact hn
    · dsimp only
      by_cases he : j = p + 2 ^ k
      -- the slot given back is the last of the new window
      · subst he
        rw [Nat.add_mod_right, Function.update_self, List.getElem?_eq_none (by omega)]
        rfl
      · have hne : j % 2 ^ k ≠ p % 2 ^ k := fun hm => by
          have := mod_inj_of_window (p := p) (c := 2 ^ k) (by omega) (by omega) (le_refl p)
            (by omega) hm
          omega
        rw [Function.update_of_ne hne, h.ring_eq j (by omega) (by omega),
          show j - p = j - (p + 1) + 1 by omega, List.getElem?_cons_succ]

theorem pop_spec (hk : k < w) (h : q.Window k held p) :
    ∃ q', q.pop (BitVec.ofNat w (2 ^ k)) = .ok (q', held.head?) ∧
      q'.Window k held.tail (p + min 1 held.length) := by
  have hlen := h.length_le
  obtain ⟨n, hn, hle⟩ := h.pushCached
  have hempty : empty q.pushCursorCached q.popCursor = true ↔ n = 0 := by
    rw [hn, h.pop_eq]
    exact empty_iff hk (by omega)
  have hempty' : empty q.pushCursor q.popCursor = true ↔ held.length = 0 := by
    rw [h.push_eq, h.pop_eq]
    exact empty_iff hk hlen
  have h' : Window k { q with pushCursorCached := q.pushCursor } held p :=
    { h with pushCached := ⟨held.length, h.push_eq, le_refl _⟩ }
  unfold pop
  cases held with
  | nil =>
    obtain rfl := Nat.le_zero.mp hle
    rw [if_pos (hempty.mpr rfl)]
    exact ⟨_, if_pos (hempty'.mpr rfl), h'⟩
  | cons value held =>
    have hone : p + 1 = p + min 1 (value :: held).length := by
      rw [List.length_cons, Nat.min_eq_left (Nat.le_add_left _ _)]
    cases n with
    -- the cached cursor says empty, the cursor itself does not
    | zero =>
      rw [if_pos (hempty.mpr rfl)]
      dsimp only
      rw [if_neg fun hf => Nat.succ_ne_zero _ (hempty'.mp hf)]
      obtain ⟨q', hq', hw'⟩ := h'.take hk h.push_eq (le_refl _)
      exact ⟨q', hq', hone ▸ hw'⟩
    | succ n =>
      rw [if_neg fun hf => Nat.succ_ne_zero _ (hempty.mp hf)]
      obtain ⟨q', hq', hw'⟩ := h.take hk hn (Nat.le_of_succ_le_succ hle)
      exact ⟨q', hq', hone ▸ hw'⟩

/-- A call that does not overfill does what the bounded list does. -/
theorem apply_spec (hk : k < w) (h : q.Window k held p) (call : QueueCall T)
    (hcall : 32 ≤ w ∨ ¬ BoundedFifo.Overfills (2 ^ k) w p held call) :
    ∃ q', q.apply (BitVec.ofNat w (2 ^ k)) call =
        .ok (q', (BoundedFifo.apply (2 ^ k) held call).2) ∧
      q'.Window k (BoundedFifo.apply (2 ^ k) held call).1 (BoundedFifo.advance p held call) := by
  cases call with
  | push value =>
    have hlap : held.length = 2 ^ k → 32 ≤ w ∨ p + held.length < 2 ^ w := fun hlen =>
      hcall.imp_right fun hn => Nat.not_le.mp fun hb => hn ⟨hlen, hb⟩
    obtain ⟨q', hq', hw'⟩ := push_spec hk h hlap value
    refine ⟨q', ?_, hw'⟩
    simp only [apply, hq', ok_bind, pure_eq_ok, BoundedFifo.apply]
    split_ifs with hlt
    · rw [decide_eq_true hlt]
    · rw [decide_eq_false hlt]
  | pop =>
    obtain ⟨q', hq', hw'⟩ := pop_spec hk h
    refine ⟨q', ?_, ?_⟩
    · simp only [apply, hq', ok_bind, pure_eq_ok, BoundedFifo.apply]
      cases held <;> rfl
    · cases held <;> exact hw'

/-- A call that overfills narrow cursors returns what the bounded list does not. -/
theorem apply_overfills (hk : k < w) (h : q.Window k held p) {call : QueueCall T} (hw : w < 32)
    (hcall : BoundedFifo.Overfills (2 ^ k) w p held call) :
    ∃ q' r, q.apply (BitVec.ofNat w (2 ^ k)) call = .ok (q', r) ∧
      r ≠ (BoundedFifo.apply (2 ^ k) held call).2 := by
  cases call with
  | push value =>
    obtain ⟨hlen, hb⟩ := hcall
    obtain ⟨q', hq'⟩ := push_overfills hk h hw hb value
    refine ⟨q', .pushed true, ?_, ?_⟩
    · rw [apply, hq', ok_bind]
      rfl
    · rw [BoundedFifo.apply, if_neg (by omega)]
      simp
  | pop => exact hcall.elim

/-- Modulo `2 ^ w` the cursors differ by the number of values held. -/
theorem Window.distance_eq (hk : k < w) (h : q.Window k held p) :
    (q.pushCursor - q.popCursor).toNat = held.length := by
  have hlen := h.length_le
  have hlt := two_pow_lt hk
  rw [h.push_eq, h.pop_eq, toNat_ofNat_sub (Nat.le_add_right _ _) (by omega),
    Nat.add_sub_cancel_left]

/-- `size` is the number of values held, but for narrow cursors in two laps. -/
theorem Window.size_eq_iff (hk : k < w) (h : q.Window k held p) :
    q.size = held.length ↔ 32 ≤ w ∨ p / 2 ^ w = (p + held.length) / 2 ^ w := by
  have hlen := h.length_le
  have hlt := two_pow_lt hk
  rw [size, h.push_eq, h.pop_eq, difference]
  split_ifs with hw
  · have hpos := Nat.two_pow_pos w
    have h1 := Nat.div_add_mod p (2 ^ w)
    have h2 := Nat.div_add_mod (p + held.length) (2 ^ w)
    rw [BitVec.toNat_ofNat, BitVec.toNat_ofNat, or_iff_right (Nat.not_le.mpr hw)]
    constructor
    · intro he
      exact Nat.eq_of_mul_eq_mul_left hpos (by omega)
    · intro he
      rw [he] at h1
      omega
  · rw [toNat_ofNat_sub (Nat.le_add_right _ _) (by omega), Nat.add_sub_cancel_left]
    exact iff_of_true rfl (.inl (Nat.le_of_not_lt hw))

theorem run_cons_iff {capacity : BitVec w} {q q₁ q' : WrappingQueue w T} {call : QueueCall T}
    {r r' : QueueResult T} (h : q.apply capacity call = .ok (q₁, r)) (calls : List (QueueCall T))
    (rs : List (QueueResult T)) :
    q.run capacity (call :: calls) = .ok (q', r' :: rs) ↔
      r = r' ∧ q₁.run capacity calls = .ok (q', rs) := by
  rw [run, h, ok_bind]
  dsimp only
  rw [bind_eq_ok]
  constructor
  · rintro ⟨⟨q₂, rs₂⟩, hrun, he⟩
    cases he
    exact ⟨rfl, hrun⟩
  · rintro ⟨rfl, hrun⟩
    exact ⟨_, hrun, rfl⟩

/-- The calls return what the bounded list returns, and then the cursors differ by the number of
values held: modulo `2 ^ w`, and as `size` computes it. -/
def Agrees (k : Nat) (q : WrappingQueue w T) (held : List T) (calls : List (QueueCall T)) : Prop :=
  ∃ q', q.run (BitVec.ofNat w (2 ^ k)) calls = .ok (q', (BoundedFifo.run (2 ^ k) held calls).2) ∧
    (q'.pushCursor - q'.popCursor).toNat = (BoundedFifo.run (2 ^ k) held calls).1.length ∧
    q'.size = (BoundedFifo.run (2 ^ k) held calls).1.length

/-- **Every run agrees with the bounded list exactly when the wrap goes unmet.** -/
theorem Window.agrees_iff (hk : k < w) (calls : List (QueueCall T)) :
    ∀ {q : WrappingQueue w T} {held : List T} {p : Nat}, q.Window k held p →
      (q.Agrees k held calls ↔ 32 ≤ w ∨ BoundedFifo.Unwrapped (2 ^ k) w p held calls) := by
  induction calls with
  | nil =>
    intro q held p h
    refine Iff.trans ⟨?_, fun hsize => ⟨q, rfl, h.distance_eq hk, hsize⟩⟩ (h.size_eq_iff hk)
    rintro ⟨q', hq', -, hsize⟩
    cases hq'
    exact hsize
  | cons call calls ih =>
    intro q held p h
    by_cases hcall : 32 ≤ w ∨ ¬ BoundedFifo.Overfills (2 ^ k) w p held call
    · obtain ⟨q₁, hq₁, hw₁⟩ := apply_spec hk h call hcall
      have hrest : q.Agrees k held (call :: calls) ↔
          q₁.Agrees k (BoundedFifo.apply (2 ^ k) held call).1 calls :=
        exists_congr fun q' => and_congr_left' <|
          (run_cons_iff hq₁ calls _).trans (and_iff_right rfl)
      rw [hrest, ih hw₁]
      refine or_congr_right' fun hw => ?_
      rw [BoundedFifo.Unwrapped, and_iff_right (hcall.resolve_left hw)]
    · push Not at hcall
      obtain ⟨q₁, r, hq₁, hne⟩ := apply_overfills hk h hcall.1 hcall.2
      refine iff_of_false ?_ ?_
      · rintro ⟨q', hq', -⟩
        exact hne ((run_cons_iff hq₁ calls _).mp hq').1
      · rintro (hw | ⟨hn, -⟩)
        · exact absurd hcall.1 (Nat.not_lt.mpr hw)
        · exact hn hcall.2

end WrappingQueue

/-- **Cursor wrap-around is unobservable exactly when the wrap goes unmet**: from any common value of
the cursors a sequence of calls returns what the bounded list of `2 ^ k` values returns, and leaves
cursors whose difference is the number of values held, if and only if `size_type` is no narrower
than `int`, or no push meets a full ring once the push cursor has wrapped and both cursors end in one
lap. -/
theorem wrap_unobservable {w k : Nat} {T : Type} (hk : k < w) (c : BitVec w)
    (calls : List (QueueCall T)) :
    (∃ q, (WrappingQueue.init c : WrappingQueue w T).run (BitVec.ofNat w (2 ^ k)) calls =
        .ok (q, (BoundedFifo.run (2 ^ k) [] calls).2) ∧
      (q.pushCursor - q.popCursor).toNat = (BoundedFifo.run (2 ^ k) [] calls).1.length ∧
      q.size = (BoundedFifo.run (2 ^ k) [] calls).1.length) ↔
    32 ≤ w ∨ BoundedFifo.Unwrapped (2 ^ k) w c.toNat [] calls := by
  have hinit := WrappingQueue.window_init (T := T) k c.isLt
  rw [BitVec.ofNat_toNat, BitVec.setWidth_eq] at hinit
  exact hinit.agrees_iff hk calls

/-- Cursors of 32 bits that pass zero while the queue of two is full, and of 8 bits that pass it
while the queue has room. -/
theorem wrap_unobservable_run :
    (∃ q : WrappingQueue 32 Nat, (WrappingQueue.init (-1)).run 2
        [.push 5, .push 6, .push 8, .pop, .push 9, .pop, .pop, .pop] =
        .ok (q, [.pushed true, .pushed true, .pushed false, .popped (some 5), .pushed true,
          .popped (some 6), .popped (some 9), .popped none]) ∧
      (q.pushCursor - q.popCursor).toNat = 0 ∧ q.size = 0) ∧
    ∃ q : WrappingQueue 8 Nat, (WrappingQueue.init 253).run 2
        [.push 5, .push 6, .push 8, .pop, .push 9, .pop, .pop, .push 4] =
        .ok (q, [.pushed true, .pushed true, .pushed false, .popped (some 5), .pushed true,
          .popped (some 6), .popped (some 9), .pushed true]) ∧
      (q.pushCursor - q.popCursor).toNat = 1 ∧ q.size = 1 := by
  constructor
  · exact (wrap_unobservable (k := 1) (by decide : 1 < 32) (-1) _).mpr (.inl (le_refl _))
  · exact (wrap_unobservable (k := 1) (by decide : 1 < 8) 253 _).mpr (.inr (by decide))

/-- **Cursors of 8 bits lose a value**: with the cursors at 254 the fifth push on a ring of four
finds the difference `2 - 254` and overwrites the first value, where the bounded list refuses it;
`size` is negative. -/
theorem wrap_observable :
    (∃ q : WrappingQueue 8 Nat, (WrappingQueue.init 254).run 4
        [.push 1, .push 2, .push 3, .push 4, .push 5] =
        .ok (q, [.pushed true, .pushed true, .pushed true, .pushed true, .pushed true]) ∧
      q.ring 2 = .live 5 ∧ q.size = -251) ∧
    BoundedFifo.run 4 [] [.push 1, .push 2, .push 3, .push 4, .push 5] =
      ([1, 2, 3, 4], [.pushed true, .pushed true, .pushed true, .pushed true, .pushed false]) ∧
    ¬ ∃ q : WrappingQueue 8 Nat, (WrappingQueue.init 254).run 4
        [.push 1, .push 2, .push 3, .push 4, .push 5] =
        .ok (q, (BoundedFifo.run 4 [] [.push 1, .push 2, .push 3, .push 4, .push 5]).2) := by
  refine ⟨⟨_, rfl, rfl, rfl⟩, rfl, ?_⟩
  rintro ⟨q, hq⟩
  cases congrArg (fun x => x.toOption.map (·.2)) hq

-- the ring overfilled here straddles nothing: the cached cursor, at 254, is never read again
example : ((WrappingQueue.init 254 : WrappingQueue 8 Nat).run 2
    [.push 1, .pop, .push 2, .pop, .push 3, .push 4, .push 5]).toOption.map (·.2) =
    some [.pushed true, .popped (some 1), .pushed true, .popped (some 2), .pushed true,
      .pushed true, .pushed true] := rfl

end MarketHandler
