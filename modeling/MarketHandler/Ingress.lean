import MarketHandler.Lib.Run
import MarketHandler.Protocol
import MarketHandler.SPSCQueue

/-!
# From the socket to the book

Model of `FeedHandler::start_receive` in `include/FeedHandler.h` and of the polling loop of
`run_matching_engine` in `src/main.cpp`, each on a thread of its own with the queue between them.

The environment chooses what each receive completes with, the time stamps and how the two threads
interleave. `push` refers to `_recv_buffer` itself: the copy is made when it constructs the slot. A
dispatch is one step, since the engine alone holds the book, and is a step only if it returns. The
loop may stop after any pass, as it does once `running` is false; `Latency` adds its samples.
-/

namespace MarketHandler

open Lib

/-- The kernel's write of `data` at offset 8; what it does not reach stays. -/
def PacketPayload.receive (p : PacketPayload) (data : List UInt8) : PacketPayload :=
  { p with bytes := Vector.ofFn fun i => data[i]?.getD p.bytes[i] }

/-- What `async_receive_from` completes with: an error code or none, and what the kernel has written,
at most the `sizeof(PacketPayload) - 8` bytes of the buffer it was given. -/
structure Completion where
  ec : Bool
  data : List UInt8
  data_le : data.length ≤ 56

/-- `!ec && bytes_recvd == sizeof(PacketPayload) - 8`. -/
def isPacket (ec : Bool) (bytesRecvd : Nat) : Bool := !ec && bytesRecvd = 56

/-- Where the network thread stands. -/
inductive HandlerPc where
  | waiting
  | completed (ec : Bool) (bytesRecvd : Nat)
  | pushing

/-- Where the worker thread stands. -/
inductive EnginePc where
  | polling
  | popping
  | dispatching (packet : PacketPayload)

/-- `droppedPackets` is unbounded, where the source has a `uint64_t`. -/
structure Ingress where
  recvBuffer : PacketPayload
  droppedPackets : Nat
  handlerPc : HandlerPc
  queue : SPSCQueue PacketPayload
  enginePc : EnginePc
  book : OrderBook

namespace Ingress

/-- Both threads before their first step; the buffer holds anything. -/
def init (recvBuffer : PacketPayload) : Ingress where
  recvBuffer := recvBuffer
  droppedPackets := 0
  handlerPc := .waiting
  queue := .init
  enginePc := .polling
  book := .init

/-- A receive completes. -/
def receive (s : Ingress) (r : Completion) : Ingress :=
  { s with recvBuffer := s.recvBuffer.receive r.data, handlerPc := .completed r.ec r.data.length }

section Receive

variable (s : Ingress) (r : Completion)

@[simp] theorem receive_queue : (s.receive r).queue = s.queue := by rw [receive]

@[simp] theorem receive_droppedPackets : (s.receive r).droppedPackets = s.droppedPackets := by
  rw [receive]

@[simp] theorem receive_handlerPc :
    (s.receive r).handlerPc = .completed r.ec r.data.length := by rw [receive]

@[simp] theorem receive_enginePc : (s.receive r).enginePc = s.enginePc := by rw [receive]

@[simp] theorem receive_book : (s.receive r).book = s.book := by rw [receive]

end Receive

/-- The handler up to its branch: it stamps the buffer and calls `push`, or receives again. -/
def handle (s : Ingress) (tsc : UInt64) (ec : Bool) (bytesRecvd : Nat) : Ingress :=
  let recvBuffer := { s.recvBuffer with ingressTsc := tsc }
  if isPacket ec bytesRecvd then
    { s with recvBuffer := recvBuffer, queue := s.queue.callPush, handlerPc := .pushing }
  else { s with recvBuffer := recvBuffer, handlerPc := .waiting }

/-- The handler after a step of `push`. -/
def pushed (s : Ingress) (queue : SPSCQueue PacketPayload) : Option Bool → Ingress
  | none => { s with queue := queue }
  | some returned => { s with
      queue := queue
      handlerPc := .waiting
      droppedPackets := if !returned then s.droppedPackets + 1 else s.droppedPackets }

/-- The loop after a step of `pop`. -/
def popped (s : Ingress) (queue : SPSCQueue PacketPayload) : Option (Option PacketPayload) → Ingress
  | none => { s with queue := queue }
  | some none => { s with queue := queue, enginePc := .polling }
  | some (some packet) => { s with queue := queue, enginePc := .dispatching packet }

/-- An action of one of the threads. -/
inductive Act where
  | receive (r : Completion)
  | handle (tsc : UInt64)
  | push (returned : Option Bool)
  | poll
  | pop (returned : Option (Option PacketPayload))
  | dispatch (packet : PacketPayload)

inductive Step (capacity : Nat) : Ingress → Act → Ingress → Prop
  | receive {s : Ingress} (r : Completion) :
      s.handlerPc = .waiting → Step capacity s (.receive r) (s.receive r)
  | handle {s : Ingress} {ec : Bool} {bytesRecvd : Nat} (tsc : UInt64) :
      s.handlerPc = .completed ec bytesRecvd →
      Step capacity s (.handle tsc) (s.handle tsc ec bytesRecvd)
  | push {s : Ingress} {queue : SPSCQueue PacketPayload} {r : Option Bool} :
      s.handlerPc = .pushing → s.queue.pushStep capacity s.recvBuffer = .ok (queue, r) →
      Step capacity s (.push r) (s.pushed queue r)
  | poll {s : Ingress} : s.enginePc = .polling →
      Step capacity s .poll { s with queue := s.queue.callPop, enginePc := .popping }
  | pop {s : Ingress} {queue : SPSCQueue PacketPayload} {r : Option (Option PacketPayload)} :
      s.enginePc = .popping → s.queue.popStep capacity = .ok (queue, r) →
      Step capacity s (.pop r) (s.popped queue r)
  | dispatch {s : Ingress} {packet : PacketPayload} {book : OrderBook} :
      s.enginePc = .dispatching packet → packet.Dispatches s.book book →
      Step capacity s (.dispatch packet) { s with book := book, enginePc := .polling }

namespace Act

/-- The bytes of an error-free completion of full length. -/
def packet? : Act → Option (List UInt8)
  | .receive r => if isPacket r.ec r.data.length then some r.data else none
  | _ => none

/-- What a call of `push` returned. -/
def returned? : Act → Option Bool
  | .push r => r
  | _ => none

def dispatched? : Act → Option PacketPayload
  | .dispatch packet => some packet
  | _ => none

end Act

end Ingress

end MarketHandler
