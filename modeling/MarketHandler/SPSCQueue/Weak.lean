import MarketHandler.Lib.Views
import MarketHandler.SPSCQueue.Invariant

/-!
# The queue's memory orders

`SPSCQueue` interleaves its threads on one memory. Here a thread has a view, and only the orders that
`push` and `pop` give their loads and stores move knowledge from one to the other: the own cursor is
loaded relaxed, the other side's may be read at an old store, and a slot accessed before the other
side's last access of it is seen is a data race.

A round of a slot is three accesses: it is constructed, moved from and destroyed. `Knows c view n d`
says that a view has seen the first `d` of them for each of the first `n` positions. A store of the
push cursor carries that its elements are constructed, one of the pop cursor that they are destroyed
(`promise`), and a slot is free for a position once the one a round before is known to be destroyed
(`Knows.free`).
-/

namespace MarketHandler

open Lib

/-- The atomic objects. -/
inductive Cursor where
  | push
  | pop
  deriving DecidableEq, Repr

/-- The orders of the load of the other side's cursor and of the store, of `push` and of `pop`. -/
structure Orders where
  pushLoad : LoadOrder
  pushStore : StoreOrder
  popLoad : LoadOrder
  popStore : StoreOrder
  deriving DecidableEq, Repr

/-- Those of `push` and `pop`. -/
def Orders.source : Orders := ⟨.acquire, .release, .acquire, .release⟩

/-- The queue; a plain object is a slot, by its index. -/
structure WeakQueue (T : Type) where
  memory : Memory Cursor Nat Nat
  ring : Nat → Cell T
  producer : View Cursor Nat
  consumer : View Cursor Nat
  pushCursorCached : Nat
  popCursorCached : Nat
  pushPc : PushPc T
  popPc : PopPc T
  accepted : List T
  popped : List T

namespace WeakQueue

variable {T : Type} (o : Orders) (capacity : Nat)

/-- The constructor, which happens before both threads. -/
def init : WeakQueue T where
  memory := .init fun _ => 0
  ring := fun _ => .raw
  producer := .none
  consumer := .none
  pushCursorCached := 0
  popCursorCached := 0
  pushPc := .idle
  popPc := .idle
  accepted := []
  popped := []

/-- The producer's next step in `push(value)`, and what `push` returns if it is the last. -/
def pushStep (q : WeakQueue T) (value : T) (skip : Nat) :
    Except Hazard (WeakQueue T × Option Bool) :=
  match q.pushPc with
  | .idle => return (q, none)
  | .loadPush =>
    if capacity = 0 then return ({ q with pushPc := .idle }, some false)
    else
      let loaded := q.memory.load .relaxed q.producer .push skip
      if SPSCQueue.full capacity loaded.1 q.popCursorCached then
        return ({ q with producer := loaded.2, pushPc := .loadPop loaded.1 }, none)
      else return ({ q with producer := loaded.2, pushPc := .construct loaded.1 }, none)
  | .loadPop pushCursor =>
    let loaded := q.memory.load o.pushLoad q.producer .pop skip
    return ({ q with
      producer := loaded.2, pushPc := .update pushCursor loaded.1 (pushCursor - loaded.1) }, none)
  | .update pushCursor popCursor _ =>
    if SPSCQueue.full capacity pushCursor popCursor then
      return ({ q with popCursorCached := popCursor, pushPc := .idle }, some false)
    else return ({ q with popCursorCached := popCursor, pushPc := .construct pushCursor }, none)
  | .construct pushCursor => do
    let idx := pushCursor &&& SPSCQueue.indexMask capacity
    let accessed ← q.memory.access q.producer idx
    match ← (index capacity q.ring idx).alone with
    | .raw => return ({ q with
        memory := accessed.1, producer := accessed.2
        ring := Function.update q.ring idx (.live value), pushPc := .store pushCursor value }, none)
    | _ => .error (.fault .lifetime)
  | .store pushCursor value =>
    let stored := q.memory.store o.pushStore q.producer .push (pushCursor + 1)
    return ({ q with
      memory := stored.1, producer := stored.2
      pushPc := .idle, accepted := q.accepted ++ [value] }, some true)

/-- The consumer's next step in `pop`, and what `pop` returns if it is the last. -/
def popStep (q : WeakQueue T) (skip : Nat) : Except Hazard (WeakQueue T × Option (Option T)) :=
  match q.popPc with
  | .idle => return (q, none)
  | .loadPop =>
    let loaded := q.memory.load .relaxed q.consumer .pop skip
    if SPSCQueue.empty q.pushCursorCached loaded.1 then
      return ({ q with consumer := loaded.2, popPc := .loadPush loaded.1 }, none)
    else return ({ q with consumer := loaded.2, popPc := .move loaded.1 }, none)
  | .loadPush popCursor =>
    let loaded := q.memory.load o.popLoad q.consumer .push skip
    return ({ q with
      consumer := loaded.2, popPc := .update popCursor loaded.1 (loaded.1 - popCursor) }, none)
  | .update popCursor pushCursor _ =>
    if SPSCQueue.empty pushCursor popCursor then
      return ({ q with pushCursorCached := pushCursor, popPc := .idle }, some none)
    else return ({ q with pushCursorCached := pushCursor, popPc := .move popCursor }, none)
  | .move popCursor => do
    let idx := popCursor &&& SPSCQueue.indexMask capacity
    let accessed ← q.memory.access q.consumer idx
    match ← (index capacity q.ring idx).alone with
    | .live value => return ({ q with
        memory := accessed.1, consumer := accessed.2
        ring := Function.update q.ring idx .moved, popPc := .destroy popCursor value }, none)
    | _ => .error (.fault .lifetime)
  | .destroy popCursor value => do
    let idx := popCursor &&& SPSCQueue.indexMask capacity
    let accessed ← q.memory.access q.consumer idx
    match ← (index capacity q.ring idx).alone with
    | .raw => .error (.fault .lifetime)
    | _ => return ({ q with
        memory := accessed.1, consumer := accessed.2
        ring := Function.update q.ring idx .raw, popPc := .store popCursor value }, none)
  | .store popCursor value =>
    let stored := q.memory.store o.popStore q.consumer .pop (popCursor + 1)
    return ({ q with
      memory := stored.1, consumer := stored.2
      popPc := .idle, popped := q.popped ++ [value] }, some (some value))

end WeakQueue

/-- The queue, and the object the producer's current `push` refers to. -/
structure WeakThreads (T : Type) where
  queue : WeakQueue T
  value : Option T

/-- Before the first call. -/
def WeakThreads.init {T : Type} : WeakThreads T := ⟨.init, none⟩

/-- One action; a load reads any of the stores its thread's view allows. -/
inductive WeakThreads.Step {T : Type} (o : Orders) (capacity : Nat) :
    WeakThreads T → Act T → WeakThreads T → Prop
  | callPush {q : WeakQueue T} {old : Option T} (value : T) : q.pushPc = .idle →
      Step o capacity ⟨q, old⟩ (.callPush value) ⟨{ q with pushPc := .loadPush }, some value⟩
  | push {q q' : WeakQueue T} {value : T} {r : Option Bool} (skip : Nat) :
      q.pushPc ≠ .idle → q.pushStep o capacity value skip = .ok (q', r) →
      Step o capacity ⟨q, some value⟩ (.push value r) ⟨q', some value⟩
  | callPop {q : WeakQueue T} {value : Option T} : q.popPc = .idle →
      Step o capacity ⟨q, value⟩ .callPop ⟨{ q with popPc := .loadPop }, value⟩
  | pop {q q' : WeakQueue T} {value : Option T} {r : Option (Option T)} (skip : Nat) :
      q.popPc ≠ .idle → q.popStep o capacity skip = .ok (q', r) →
      Step o capacity ⟨q, value⟩ (.pop r) ⟨q', value⟩

/-- Neither thread's next step is a race or a fault, whatever stores the loads read. -/
def WeakQueue.Harmless {T : Type} (o : Orders) (capacity : Nat) (q : WeakQueue T) : Prop :=
  (∀ value skip, ∃ r, q.pushStep o capacity value skip = .ok r) ∧
    ∀ skip, ∃ r, q.popStep o capacity skip = .ok r

/-! ## What the threads know -/

/-- The first `n` positions have had the first `d` accesses of their round, and `view` has seen
them. -/
def Knows (c : Nat) (view : View Cursor Nat) (n d : Nat) : Prop :=
  ∀ j < n, 3 * (j / c) + d ≤ view (.inr (j % c))

/-- What the `i`-th store of a cursor carries: elements constructed, or destroyed. -/
def promise (c : Nat) : Cursor → Nat → Nat → View Cursor Nat → Prop
  | .push, i, value, view => value = i ∧ Knows c view i 1
  | .pop, i, value, view => value = i ∧ Knows c view i 3

section

variable {c n d : Nat} {view view' : View Cursor Nat}

theorem Knows.mono (h : Knows c view n d) (hle : view ≤ view') : Knows c view' n d :=
  fun j hj => (h j hj).trans (hle _)

theorem Knows.succ (h : Knows c view n d) (hn : 3 * (n / c) + d ≤ view (.inr (n % c))) :
    Knows c view (n + 1) d := fun j hj => by
  rcases Nat.lt_succ_iff_lt_or_eq.mp hj with hlt | rfl
  · exact h j hlt
  · exact hn

theorem promise_mono (c : Nat) (a : Cursor) (i v : Nat) : Monotone (promise c a i v) := by
  intro view view' hle h
  cases a with
  | push => exact ⟨h.1, h.2.mono hle⟩
  | pop => exact ⟨h.1, h.2.mono hle⟩

/-- A position's slot is free once the one a round before is known to be destroyed. -/
theorem Knows.free {m : Nat} (hc : 0 < c) (h : Knows c view m 3) (hlt : n < m + c) :
    3 * (n / c) ≤ view (.inr (n % c)) := by
  by_cases hn : n < c
  · rw [Nat.div_eq_of_lt hn]
    exact Nat.zero_le _
  · have hle := Nat.le_of_not_lt hn
    have hk := h (n - c) (by omega)
    rw [← Nat.mod_eq_sub_mod hle] at hk
    rwa [Nat.div_eq_sub_div hc hle]

end

end MarketHandler
