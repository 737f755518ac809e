import MarketHandler.Ingress
import MarketHandler.SPSCQueue.Invariant

/-!
# Calls without interruption

Where one thread takes all the steps of a call in turn, the run has one form: a datagram is skipped
(`Ingress.run_skip`), accepted (`run_accept`) or dropped (`run_drop`), and a pass of the worker takes a
packet (`run_take`) to dispatch. Runs in which the threads take turns call by call are put together
from these.
-/

namespace MarketHandler

open Lib

namespace SPSCQueue

variable {T : Type} {k : Nat} (c : Nat) (q : SPSCQueue T)

/-- After a `push` that found room. -/
def appended (value : T) : SPSCQueue T := { q with
  ring := Function.update q.ring (q.pushCursor % c) (.live value)
  pushCursor := q.pushCursor + 1
  pushPc := .idle
  accepted := q.accepted ++ [value] }

/-- After a `push` that found the ring full. -/
def declined : SPSCQueue T := { q with
  popCursorCached := q.popCursor
  pushPc := .idle
  rejected := q.rejected ++ [q.size] }

/-- After a `pop` that found `value`; it looks at the producer's cursor if its copy tells of none. -/
def taken (value : T) : SPSCQueue T := { q with
  ring := Function.update q.ring (q.popCursor % c) .raw
  popCursor := q.popCursor + 1
  pushCursorCached := if empty q.pushCursorCached q.popCursor then q.pushCursor else q.pushCursorCached
  popPc := .idle
  popped := q.popped ++ [value] }

variable {c q}

theorem pushStep_load (hroom : full (2 ^ k) q.pushCursor q.popCursorCached = false) (value : T) :
    q.callPush.pushStep (2 ^ k) value = .ok ({ q with pushPc := .construct q.pushCursor }, none) := by
  unfold pushStep callPush
  dsimp only
  rw [if_neg (Nat.two_pow_pos k).ne', if_neg (by rw [hroom]; simp)]
  rfl

theorem pushStep_load_full (hfull : full (2 ^ k) q.pushCursor q.popCursorCached = true) (value : T) :
    q.callPush.pushStep (2 ^ k) value = .ok ({ q with pushPc := .loadPop q.pushCursor }, none) := by
  unfold pushStep callPush
  dsimp only
  rw [if_neg (Nat.two_pow_pos k).ne', if_pos hfull]
  rfl

theorem pushStep_construct (hraw : q.ring (q.pushCursor % 2 ^ k) = .raw) (value : T) :
    ({ q with pushPc := .construct q.pushCursor } : SPSCQueue T).pushStep (2 ^ k) value =
      .ok ({ q with
        ring := Function.update q.ring (q.pushCursor % 2 ^ k) (.live value)
        pushPc := .store q.pushCursor value }, none) := by
  unfold pushStep
  dsimp only
  rw [and_indexMask, index_of_lt (Nat.mod_lt _ (Nat.two_pow_pos k)), hraw]
  rfl

theorem popStep_move {value : T} (hlive : q.ring (q.popCursor % 2 ^ k) = .live value) :
    ({ q with popPc := .move q.popCursor } : SPSCQueue T).popStep (2 ^ k) = .ok ({ q with
      ring := Function.update q.ring (q.popCursor % 2 ^ k) .moved
      popPc := .destroy q.popCursor value }, none) := by
  unfold popStep
  dsimp only
  rw [and_indexMask, index_of_lt (Nat.mod_lt _ (Nat.two_pow_pos k)), hlive]
  rfl

theorem popStep_destroy (q : SPSCQueue T) (value : T) : ({ q with
      ring := Function.update q.ring (q.popCursor % 2 ^ k) .moved
      popPc := .destroy q.popCursor value } : SPSCQueue T).popStep (2 ^ k) = .ok ({ q with
        ring := Function.update q.ring (q.popCursor % 2 ^ k) .raw
        popPc := .store q.popCursor value }, none) := by
  unfold popStep
  dsimp only
  rw [and_indexMask, index_of_lt (Nat.mod_lt _ (Nat.two_pow_pos k)), Function.update_self,
    Function.update_idem]
  rfl

end SPSCQueue

namespace Ingress

variable {c k : Nat} {s : Ingress} {r : Completion}

/-- `_recv_buffer` once `r` is received and stamped. -/
def buffered (s : Ingress) (r : Completion) (tsc : UInt64) : PacketPayload :=
  { s.recvBuffer.receive r.data with ingressTsc := tsc }

/-- After a completion that is no packet. -/
def skipped (s : Ingress) (r : Completion) (tsc : UInt64) : Ingress :=
  { s with recvBuffer := s.buffered r tsc, handlerPc := .waiting }

/-- After a packet that the ring had room for. -/
def admitted (s : Ingress) (c : Nat) (r : Completion) (tsc : UInt64) : Ingress :=
  { s.skipped r tsc with queue := s.queue.appended c (s.buffered r tsc) }

/-- After a packet that met a full ring. -/
def refusing (s : Ingress) (r : Completion) (tsc : UInt64) : Ingress :=
  { s.skipped r tsc with queue := s.queue.declined, droppedPackets := s.droppedPackets + 1 }

/-- After the `pop` of a pass that took `packet`. -/
def holding (s : Ingress) (c : Nat) (packet : PacketPayload) : Ingress :=
  { s with enginePc := .dispatching packet, queue := s.queue.taken c packet }

/-- After a dispatch that left `book`. -/
def processed (s : Ingress) (book : OrderBook) : Ingress :=
  { s with book := book, enginePc := .polling }

/-- A completion that is no packet is received and skipped. -/
theorem run_skip (hpc : s.handlerPc = .waiting) (hr : isPacket r.ec r.data.length = false)
    (tsc : UInt64) : Run (Step c) s [.receive r, .handle tsc] (s.skipped r tsc) := by
  have hhandle : (s.receive r).handle tsc r.ec r.data.length = s.skipped r tsc := by
    unfold handle receive skipped buffered
    dsimp only
    rw [if_neg (by rw [hr]; simp)]
  exact .cons (.receive r hpc) (.cons (hhandle ▸ .handle tsc rfl) .nil)

/-- A packet is received and handed to `push`. -/
theorem run_offer (hpc : s.handlerPc = .waiting) (hr : isPacket r.ec r.data.length = true)
    (tsc : UInt64) : Run (Step c) s [.receive r, .handle tsc]
      { s with recvBuffer := s.buffered r tsc, handlerPc := .pushing, queue := s.queue.callPush } := by
  have hhandle : (s.receive r).handle tsc r.ec r.data.length =
      { s with recvBuffer := s.buffered r tsc, handlerPc := .pushing, queue := s.queue.callPush } := by
    unfold handle receive buffered
    dsimp only
    rw [if_pos hr]
  exact .cons (.receive r hpc) (.cons (hhandle ▸ .handle tsc rfl) .nil)

/-- A packet that the ring has room for is received and accepted. -/
theorem run_accept (hpc : s.handlerPc = .waiting) (hr : isPacket r.ec r.data.length = true)
    (tsc : UInt64) (hroom : SPSCQueue.full (2 ^ k) s.queue.pushCursor s.queue.popCursorCached = false)
    (hraw : s.queue.ring (s.queue.pushCursor % 2 ^ k) = .raw) :
    Run (Step (2 ^ k)) s [.receive r, .handle tsc, .push none, .push none, .push (some true)]
      (s.admitted (2 ^ k) r tsc) := by
  refine (run_offer hpc hr tsc).append (.cons (.push rfl (SPSCQueue.pushStep_load hroom _)) ?_)
  dsimp only [pushed]
  refine .cons (.push rfl (SPSCQueue.pushStep_construct hraw _)) ?_
  dsimp only [pushed]
  exact .cons (.push rfl rfl) .nil

/-- A packet that meets a full ring is received and dropped. -/
theorem run_drop (hpc : s.handlerPc = .waiting) (hr : isPacket r.ec r.data.length = true)
    (tsc : UInt64) (hfull : SPSCQueue.full (2 ^ k) s.queue.pushCursor s.queue.popCursorCached = true)
    (hfull' : SPSCQueue.full (2 ^ k) s.queue.pushCursor s.queue.popCursor = true) :
    Run (Step (2 ^ k)) s [.receive r, .handle tsc, .push none, .push none, .push (some false)]
      (s.refusing r tsc) := by
  refine (run_offer hpc hr tsc).append (.cons (.push rfl (SPSCQueue.pushStep_load_full hfull _)) ?_)
  dsimp only [pushed]
  refine .cons (.push rfl rfl) ?_
  dsimp only [pushed]
  exact .cons (.push rfl (if_pos hfull')) .nil

variable {packet : PacketPayload}

/-- The steps of a `pop` that is about to move `packet` out of its slot. -/
theorem run_move (hpc : s.enginePc = .popping) (hmove : s.queue.popPc = .move s.queue.popCursor)
    (hlive : s.queue.ring (s.queue.popCursor % 2 ^ k) = .live packet) :
    Run (Step (2 ^ k)) s [.pop none, .pop none, .pop (some (some packet))] { s with
      enginePc := .dispatching packet
      queue := { s.queue with
        ring := Function.update s.queue.ring (s.queue.popCursor % 2 ^ k) .raw
        popCursor := s.queue.popCursor + 1
        popPc := .idle
        popped := s.queue.popped ++ [packet] } } := by
  have hq : s.queue = { s.queue with popPc := .move s.queue.popCursor } := by rw [← hmove]
  refine .cons (.pop hpc ((congrArg _ hq).trans (SPSCQueue.popStep_move hlive))) ?_
  dsimp only [popped]
  refine .cons (.pop hpc (SPSCQueue.popStep_destroy _ _)) ?_
  dsimp only [popped]
  exact .cons (.pop hpc rfl) .nil

/-- A pass of the worker that looks at the producer's cursor and takes a packet. -/
theorem run_take (hpc : s.enginePc = .polling)
    (hcached : SPSCQueue.empty s.queue.pushCursorCached s.queue.popCursor = true)
    (hsome : SPSCQueue.empty s.queue.pushCursor s.queue.popCursor = false)
    (hlive : s.queue.ring (s.queue.popCursor % 2 ^ k) = .live packet) :
    Run (Step (2 ^ k)) s [.poll, .pop none, .pop none, .pop none, .pop none, .pop none,
        .pop (some (some packet))] (s.holding (2 ^ k) packet) := by
  unfold holding SPSCQueue.taken
  rw [if_pos hcached]
  refine .cons (.poll hpc) (.cons (.pop rfl (if_pos hcached)) ?_)
  dsimp only [popped, SPSCQueue.callPop]
  refine .cons (.pop rfl rfl) ?_
  dsimp only [popped]
  refine .cons (.pop rfl (if_neg (by rw [hsome]; simp))) ?_
  dsimp only [popped]
  exact run_move rfl rfl hlive

/-- A pass of the worker that takes a packet its own copy of the cursor tells of. -/
theorem run_take_cached (hpc : s.enginePc = .polling)
    (hcached : SPSCQueue.empty s.queue.pushCursorCached s.queue.popCursor = false)
    (hlive : s.queue.ring (s.queue.popCursor % 2 ^ k) = .live packet) :
    Run (Step (2 ^ k)) s [.poll, .pop none, .pop none, .pop none, .pop (some (some packet))]
      (s.holding (2 ^ k) packet) := by
  have hcached' : ¬ SPSCQueue.empty s.queue.pushCursorCached s.queue.popCursor = true := by
    rw [hcached]
    simp
  unfold holding SPSCQueue.taken
  rw [if_neg hcached']
  refine .cons (.poll hpc) (.cons (.pop rfl (if_neg hcached')) ?_)
  dsimp only [popped, SPSCQueue.callPop]
  exact run_move rfl rfl hlive

/-- The packet in hand is dispatched. -/
theorem run_dispatch {book : OrderBook} (hpc : s.enginePc = .dispatching packet)
    (hd : packet.Dispatches s.book book) :
    Run (Step c) s [.dispatch packet] (s.processed book) :=
  .cons (.dispatch hpc hd) .nil

end Ingress

end MarketHandler
