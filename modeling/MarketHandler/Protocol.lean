import Mathlib.Data.Nat.Digits.Defs
import MarketHandler.Calls

/-!
# `Protocol`: packets and their dispatch

Model of `include/Protocol.h` and of the `switch` of `run_matching_engine` in `src/main.cpp`. A
`PacketPayload` is its time stamp and the 56 bytes of its union; a union member is read from those
bytes at the member's packed offsets, integers least significant byte first.

* `PacketPayload.dispatch`: what the engine does with a packet.
* `dispatch_eq`: it is the call the packet asks for, if any.
-/

namespace MarketHandler

open Lib

structure MessageHeader where
  messageType : UInt8
  deriving DecidableEq, Repr

structure AddOrderMsg where
  header : MessageHeader
  orderId : Nat
  price : Nat
  quantity : Nat
  isBuy : UInt8
  deriving DecidableEq, Repr

structure CancelOrderMsg where
  header : MessageHeader
  orderId : Nat
  deriving DecidableEq, Repr

structure ModifyOrderMsg where
  header : MessageHeader
  orderId : Nat
  newPrice : Nat
  newQuantity : Nat
  deriving DecidableEq, Repr

/-- `PacketPayload`; `bytes` is the union, seen as `_padding`. -/
structure PacketPayload where
  ingressTsc : UInt64
  bytes : Vector UInt8 56
  deriving DecidableEq, Repr

namespace PacketPayload

/-- The integer in the `n` bytes at `offset`. -/
def readInt (p : PacketPayload) (offset n : Nat) : Nat :=
  Nat.ofDigits 256 (((p.bytes.toList.drop offset).take n).map UInt8.toNat)

def header (p : PacketPayload) : MessageHeader := ⟨p.bytes[0]⟩

def addMsg (p : PacketPayload) : AddOrderMsg :=
  ⟨p.header, p.readInt 1 8, p.readInt 9 4, p.readInt 13 4, p.bytes[17]⟩

def cancelMsg (p : PacketPayload) : CancelOrderMsg := ⟨p.header, p.readInt 1 8⟩

def modifyMsg (p : PacketPayload) : ModifyOrderMsg :=
  ⟨p.header, p.readInt 1 8, p.readInt 9 4, p.readInt 13 4⟩

/-- The `switch` of `run_matching_engine`. -/
def dispatch (fuel : Nat) (book : OrderBook) (packet : PacketPayload) : Exec OrderBook :=
  if packet.header.messageType = 'A'.toUInt8 then
    book.addOrder sub64 fuel packet.addMsg.orderId packet.addMsg.price packet.addMsg.quantity
      (packet.addMsg.isBuy = 'B'.toUInt8)
  else if packet.header.messageType = 'X'.toUInt8 then
    book.cancelOrder sub64 packet.cancelMsg.orderId
  else if packet.header.messageType = 'M'.toUInt8 then
    book.modifyOrder sub64 fuel packet.modifyMsg.orderId packet.modifyMsg.newPrice
      packet.modifyMsg.newQuantity
  else return book

/-- The dispatch of the packet returns and leaves `b'`. -/
def Dispatches (b : OrderBook) (p : PacketPayload) (b' : OrderBook) : Prop :=
  ∃ fuel, p.dispatch fuel b = .ok b'

/-- The call a packet asks for; none for an unknown message type. -/
def call? (p : PacketPayload) : Option Op :=
  if p.header.messageType = 'A'.toUInt8 then
    some (.add p.addMsg.orderId p.addMsg.price p.addMsg.quantity (p.addMsg.isBuy = 'B'.toUInt8))
  else if p.header.messageType = 'X'.toUInt8 then some (.cancel p.cancelMsg.orderId)
  else if p.header.messageType = 'M'.toUInt8 then
    some (.modify p.modifyMsg.orderId p.modifyMsg.newPrice p.modifyMsg.newQuantity)
  else none

theorem dispatch_eq (p : PacketPayload) (fuel : Nat) (b : OrderBook) :
    p.dispatch fuel b = match p.call? with
      | some op => b.apply sub64 fuel op
      | none => .ok b := by
  unfold dispatch call?
  split_ifs <;> rfl

theorem dispatches_some {p : PacketPayload} {op : Op} (h : p.call? = some op) (b b' : OrderBook) :
    p.Dispatches b b' ↔ b.Calls op b' := by
  simp only [Dispatches, dispatch_eq, h, OrderBook.Calls]

theorem dispatches_none {p : PacketPayload} (h : p.call? = none) (b b' : OrderBook) :
    p.Dispatches b b' ↔ b = b' := by
  simp only [Dispatches, dispatch_eq, h, Except.ok.injEq, exists_const]

/-- **A dispatch has at most one result.** -/
theorem Dispatches.unique {p : PacketPayload} {b b₁ b₂ : OrderBook} (h₁ : p.Dispatches b b₁)
    (h₂ : p.Dispatches b b₂) : b₁ = b₂ := by
  cases hc : p.call? with
  | none =>
    rw [dispatches_none hc] at h₁ h₂
    exact h₁.symm.trans h₂
  | some op =>
    rw [dispatches_some hc] at h₁ h₂
    exact h₁.unique h₂

end PacketPayload

end MarketHandler
