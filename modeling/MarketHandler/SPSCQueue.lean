import Mathlib.Logic.Function.Basic
import MarketHandler.Lib.Exec

/-!
# `SPSCQueue`: the ring between the threads

Model of `include/SPSCQueue.h`. `push` and `pop` run one atomic step at a time: each load and store of
a cursor, each update of a cached cursor, and each construction, move and destruction of an element
is a step of its own, and a thread stands between two of them (`PushPc`, `PopPc`). Cursors are
naturals, so they do not wrap.

Slots are raw storage, a live element or a moved-from one; a construction over an element and a move
or destruction of none fault. A load of the other side's cursor also notes how many elements the
queue held then; what is noted reaches `rejected` or `starved` if the call returns false. `accepted`
and `popped` list the values in the order of the cursor stores that publish or release them.
-/

namespace MarketHandler

open Lib

/-- A slot of the ring. -/
inductive Cell (T : Type) where
  | raw
  | live (value : T)
  | moved

/-- Where the producer stands in `push`. -/
inductive PushPc (T : Type) where
  | idle
  | loadPush
  | loadPop (pushCursor : Nat)
  | update (pushCursor popCursor held : Nat)
  | construct (pushCursor : Nat)
  | store (pushCursor : Nat) (value : T)

/-- Where the consumer stands in `pop`; `value` is the object its reference parameter names. -/
inductive PopPc (T : Type) where
  | idle
  | loadPop
  | loadPush (popCursor : Nat)
  | update (popCursor pushCursor held : Nat)
  | move (popCursor : Nat)
  | destroy (popCursor : Nat) (value : T)
  | store (popCursor : Nat) (value : T)

structure SPSCQueue (T : Type) where
  ring : Nat → Cell T
  pushCursor : Nat
  popCursor : Nat
  pushCursorCached : Nat
  popCursorCached : Nat
  pushPc : PushPc T
  popPc : PopPc T
  accepted : List T
  popped : List T
  rejected : List Nat
  starved : List Nat

namespace SPSCQueue

variable {T : Type} (capacity : Nat)

/-- The constructor. -/
def init : SPSCQueue T where
  ring := fun _ => .raw
  pushCursor := 0
  popCursor := 0
  pushCursorCached := 0
  popCursorCached := 0
  pushPc := .idle
  popPc := .idle
  accepted := []
  popped := []
  rejected := []
  starved := []

/-- `_index_mask`. -/
def indexMask : Nat := if 0 < capacity then capacity - 1 else 0

/-- `size`. -/
def size (q : SPSCQueue T) : Nat := q.pushCursor - q.popCursor

/-- `full(push_cursor, pop_cursor)`. -/
def full (pushCursor popCursor : Nat) : Bool := capacity ≤ pushCursor - popCursor

/-- `empty(push_cursor, pop_cursor)`. -/
def empty (pushCursor popCursor : Nat) : Bool := pushCursor = popCursor

/-- The producer calls `push`. -/
def callPush (q : SPSCQueue T) : SPSCQueue T := { q with pushPc := .loadPush }

/-- The producer's next step in `push(value)`, and what `push` returns if it is the last. -/
def pushStep (q : SPSCQueue T) (value : T) : Exec (SPSCQueue T × Option Bool) :=
  match q.pushPc with
  | .idle => return (q, none)
  | .loadPush =>
    if capacity = 0 then
      return ({ q with pushPc := .idle, rejected := q.rejected ++ [q.size] }, some false)
    else if full capacity q.pushCursor q.popCursorCached then
      return ({ q with pushPc := .loadPop q.pushCursor }, none)
    else return ({ q with pushPc := .construct q.pushCursor }, none)
  | .loadPop pushCursor =>
    return ({ q with pushPc := .update pushCursor q.popCursor q.size }, none)
  | .update pushCursor popCursor held =>
    if full capacity pushCursor popCursor then
      return ({ q with
        popCursorCached := popCursor, pushPc := .idle, rejected := q.rejected ++ [held] }, some false)
    else return ({ q with popCursorCached := popCursor, pushPc := .construct pushCursor }, none)
  | .construct pushCursor => do
    let idx := pushCursor &&& indexMask capacity
    match ← index capacity q.ring idx with
    | .raw => return ({ q with
        ring := Function.update q.ring idx (.live value), pushPc := .store pushCursor value }, none)
    | _ => .error .lifetime
  | .store pushCursor value =>
    return ({ q with
      pushCursor := pushCursor + 1, pushPc := .idle, accepted := q.accepted ++ [value] }, some true)

/-- The consumer calls `pop`. -/
def callPop (q : SPSCQueue T) : SPSCQueue T := { q with popPc := .loadPop }

/-- The consumer's next step in `pop`, and what `pop` returns if it is the last: nothing, or the
value. -/
def popStep (q : SPSCQueue T) : Exec (SPSCQueue T × Option (Option T)) :=
  match q.popPc with
  | .idle => return (q, none)
  | .loadPop =>
    if empty q.pushCursorCached q.popCursor then
      return ({ q with popPc := .loadPush q.popCursor }, none)
    else return ({ q with popPc := .move q.popCursor }, none)
  | .loadPush popCursor =>
    return ({ q with popPc := .update popCursor q.pushCursor q.size }, none)
  | .update popCursor pushCursor held =>
    if empty pushCursor popCursor then
      return ({ q with
        pushCursorCached := pushCursor, popPc := .idle, starved := q.starved ++ [held] }, some none)
    else return ({ q with pushCursorCached := pushCursor, popPc := .move popCursor }, none)
  | .move popCursor => do
    let idx := popCursor &&& indexMask capacity
    match ← index capacity q.ring idx with
    | .live value => return ({ q with
        ring := Function.update q.ring idx .moved, popPc := .destroy popCursor value }, none)
    | _ => .error .lifetime
  | .destroy popCursor value => do
    let idx := popCursor &&& indexMask capacity
    match ← index capacity q.ring idx with
    | .raw => .error .lifetime
    | _ => return ({ q with
        ring := Function.update q.ring idx .raw, popPc := .store popCursor value }, none)
  | .store popCursor value =>
    return ({ q with
      popCursor := popCursor + 1, popPc := .idle, popped := q.popped ++ [value] }, some (some value))

end SPSCQueue

/-! ## The two threads -/

/-- An action of one of the threads; a step carries what its call returns if it is the last. -/
inductive Act (T : Type) where
  | callPush (value : T)
  | push (value : T) (returned : Option Bool)
  | callPop
  | pop (returned : Option (Option T))

namespace Act

variable {T : Type}

/-- The value a push that returns true was given. -/
def accepted? : Act T → Option T
  | .push value (some true) => some value
  | _ => none

/-- The value a pop that returns true returned. -/
def popped? : Act T → Option T
  | .pop (some returned) => returned
  | _ => none

/-- A push that returns false. -/
def rejects : Act T → Bool
  | .push _ (some false) => true
  | _ => false

/-- A pop that returns false. -/
def starves : Act T → Bool
  | .pop (some none) => true
  | _ => false

end Act

/-- The queue, and the object the producer's current `push` refers to. -/
structure Threads (T : Type) where
  queue : SPSCQueue T
  value : Option T

/-- Before the first call. -/
def Threads.init {T : Type} : Threads T := ⟨.init, none⟩

/-- One action. A thread calls when it is idle and takes its next step when it is not. -/
inductive Threads.Step {T : Type} (capacity : Nat) : Threads T → Act T → Threads T → Prop
  | callPush {q : SPSCQueue T} {old : Option T} (value : T) :
      q.pushPc = .idle → Step capacity ⟨q, old⟩ (.callPush value) ⟨q.callPush, some value⟩
  | push {q q' : SPSCQueue T} {value : T} {r : Option Bool} :
      q.pushPc ≠ .idle → q.pushStep capacity value = .ok (q', r) →
      Step capacity ⟨q, some value⟩ (.push value r) ⟨q', some value⟩
  | callPop {q : SPSCQueue T} {value : Option T} :
      q.popPc = .idle → Step capacity ⟨q, value⟩ .callPop ⟨q.callPop, value⟩
  | pop {q q' : SPSCQueue T} {value : Option T} {r : Option (Option T)} :
      q.popPc ≠ .idle → q.popStep capacity = .ok (q', r) →
      Step capacity ⟨q, value⟩ (.pop r) ⟨q', value⟩

end MarketHandler
