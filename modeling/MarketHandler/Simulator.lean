import MarketHandler.Ingress.Accounting
import MarketHandler.Lib.LittleEndian

/-!
# `simulator`: the encoders of the feed

Model of `create_add_order`, `create_cancel_order` and `create_modify_order` in
`scripts/simulator.py`. `structPack` is `struct.pack` for the format characters they use, after the
`<` that makes integers little-endian and leaves no gaps; `none` is its `struct.error`.

* `Message.encode_eq`, `Message.length_bytes`: no encoder fails on arguments of the fields' widths,
  and each returns 56 bytes.
* `Message.readFrom_bytes`: received at offset 8 of a packet, they read back as the message.
* `wire_format`: **the encoders and the packed decoder agree**: what is encoded is what is dispatched.
-/

namespace MarketHandler

open Lib

/-! ## `struct.pack` -/

/-- A format character, or a run of pad bytes. -/
inductive FormatChar where
  | c
  | Q
  | I
  | x (count : Nat)

/-- An argument of `struct.pack`. -/
inductive PyValue where
  | bytes (value : List UInt8)
  | int (value : Int)

/-- The integer in `n` bytes, if it fits. -/
def packInt (n : Nat) (value : Int) : Option (List UInt8) :=
  if 0 ≤ value ∧ value < 256 ^ n then some (leBytes n value.toNat) else none

def structPack : List FormatChar → List PyValue → Option (List UInt8)
  | [], [] => some []
  | .c :: format, .bytes [value] :: values => do
    let rest ← structPack format values
    return value :: rest
  | .Q :: format, .int value :: values => do
    let bytes ← packInt 8 value
    let rest ← structPack format values
    return bytes ++ rest
  | .I :: format, .int value :: values => do
    let bytes ← packInt 4 value
    let rest ← structPack format values
    return bytes ++ rest
  | .x count :: format, values => do
    let rest ← structPack format values
    return List.replicate count 0 ++ rest
  | _, _ => none

/-- `create_add_order`: `'<cQIIc38x'`. -/
def createAddOrder (orderId price qty : Int) (side : List UInt8) : Option (List UInt8) :=
  structPack [.c, .Q, .I, .I, .c, .x 38]
    [.bytes ['A'.toUInt8], .int orderId, .int price, .int qty, .bytes side]

/-- `create_cancel_order`: `'<cQ47x'`. -/
def createCancelOrder (orderId : Int) : Option (List UInt8) :=
  structPack [.c, .Q, .x 47] [.bytes ['X'.toUInt8], .int orderId]

/-- `create_modify_order`: `'<cQII39x'`. -/
def createModifyOrder (orderId newPrice newQty : Int) : Option (List UInt8) :=
  structPack [.c, .Q, .I, .I, .x 39]
    [.bytes ['M'.toUInt8], .int orderId, .int newPrice, .int newQty]

/-! ## Messages -/

/-- The arguments of one of the three encoders. -/
inductive Message where
  | add (orderId : UInt64) (price qty : UInt32) (side : UInt8)
  | cancel (orderId : UInt64)
  | modify (orderId : UInt64) (newPrice newQty : UInt32)

namespace Message

/-- The encoder that takes them. -/
def encode : Message → Option (List UInt8)
  | add orderId price qty side => createAddOrder orderId.toNat price.toNat qty.toNat [side]
  | cancel orderId => createCancelOrder orderId.toNat
  | modify orderId newPrice newQty =>
    createModifyOrder orderId.toNat newPrice.toNat newQty.toNat

/-- The call the message asks for. -/
def op : Message → Op
  | add orderId price qty side => .add orderId.toNat price.toNat qty.toNat (side = 'B'.toUInt8)
  | cancel orderId => .cancel orderId.toNat
  | modify orderId newPrice newQty => .modify orderId.toNat newPrice.toNat newQty.toNat

/-- The union member of the message's type reads as the message. -/
def ReadFrom (packet : PacketPayload) : Message → Prop
  | add orderId price qty side =>
    packet.addMsg = ⟨⟨'A'.toUInt8⟩, orderId.toNat, price.toNat, qty.toNat, side⟩
  | cancel orderId => packet.cancelMsg = ⟨⟨'X'.toUInt8⟩, orderId.toNat⟩
  | modify orderId newPrice newQty =>
    packet.modifyMsg = ⟨⟨'M'.toUInt8⟩, orderId.toNat, newPrice.toNat, newQty.toNat⟩

end Message

/-! ## Reading fields back -/

namespace PacketPayload

variable {p : PacketPayload} {bytes post : List UInt8}

/-- An integer field of a packet received whole. -/
theorem readInt_receive {offset n v : Nat} (h : bytes.length = 56) (hv : v < 256 ^ n)
    (hb : bytes.drop offset = leBytes n v ++ post) : (p.receive bytes).readInt offset n = v := by
  rw [readInt, receive_full h, hb, List.take_left' (length_leBytes n v), ofDigits_leBytes_of_lt hv]

theorem getElem_receive {i : Nat} (h : bytes.length = 56) (hi : i < 56) :
    (p.receive bytes).bytes[i] = bytes[i] := by
  rw [receive, Vector.getElem_ofFn, Fin.getElem?_fin, List.getElem?_eq_getElem (h.symm ▸ hi),
    Option.getD_some]

theorem header_receive (h : bytes.length = 56) : (p.receive bytes).header = ⟨bytes[0]⟩ := by
  rw [header, getElem_receive h]

end PacketPayload

theorem packInt_of_lt {n v : Nat} (h : v < 256 ^ n) : packInt n v = some (leBytes n v) := by
  have hv : (0 : Int) ≤ v ∧ (v : Int) < 256 ^ n := ⟨Int.natCast_nonneg v, by exact_mod_cast h⟩
  unfold packInt
  rw [if_pos hv, Int.toNat_natCast]

theorem packInt_UInt64 (v : UInt64) : packInt 8 v.toNat = some (leBytes 8 v.toNat) :=
  packInt_of_lt v.toNat_lt

theorem packInt_UInt32 (v : UInt32) : packInt 4 v.toNat = some (leBytes 4 v.toNat) :=
  packInt_of_lt v.toNat_lt

namespace Message

variable {packet : PacketPayload} {m m' : Message}

/-- The bytes an encoder returns. -/
def bytes : Message → List UInt8
  | add orderId price qty side => 'A'.toUInt8 :: (leBytes 8 orderId.toNat ++
      (leBytes 4 price.toNat ++ (leBytes 4 qty.toNat ++ side :: List.replicate 38 0)))
  | cancel orderId => 'X'.toUInt8 :: (leBytes 8 orderId.toNat ++ List.replicate 47 0)
  | modify orderId newPrice newQty => 'M'.toUInt8 :: (leBytes 8 orderId.toNat ++
      (leBytes 4 newPrice.toNat ++ (leBytes 4 newQty.toNat ++ List.replicate 39 0)))

theorem encode_eq (m : Message) : m.encode = some m.bytes := by
  cases m <;>
    simp only [encode, createAddOrder, createCancelOrder, createModifyOrder, structPack,
      packInt_UInt64, packInt_UInt32, Option.bind_eq_bind, Option.bind_some, Option.pure_def,
      List.append_nil, bytes]

/-- `sizeof(PacketPayload) - 8`. -/
theorem length_bytes (m : Message) : m.bytes.length = 56 := by
  cases m <;>
    simp only [bytes, List.length_cons, List.length_append, length_leBytes, List.length_replicate]

/-- The union member reads back what was encoded. -/
theorem readFrom_bytes (m : Message) (p : PacketPayload) : m.ReadFrom (p.receive m.bytes) := by
  have hlen := m.length_bytes
  cases m with
  | add orderId price qty side =>
    unfold ReadFrom PacketPayload.addMsg
    rw [PacketPayload.header_receive hlen, PacketPayload.getElem_receive hlen,
      PacketPayload.readInt_receive hlen orderId.toNat_lt rfl,
      PacketPayload.readInt_receive hlen price.toNat_lt rfl,
      PacketPayload.readInt_receive hlen qty.toNat_lt rfl]
    rfl
  | cancel orderId =>
    unfold ReadFrom PacketPayload.cancelMsg
    rw [PacketPayload.header_receive hlen, PacketPayload.readInt_receive hlen orderId.toNat_lt rfl]
    rfl
  | modify orderId newPrice newQty =>
    unfold ReadFrom PacketPayload.modifyMsg
    rw [PacketPayload.header_receive hlen, PacketPayload.readInt_receive hlen orderId.toNat_lt rfl,
      PacketPayload.readInt_receive hlen newPrice.toNat_lt rfl,
      PacketPayload.readInt_receive hlen newQty.toNat_lt rfl]
    rfl

/-- A packet that reads as a message is dispatched as it. -/
theorem ReadFrom.call?_eq (h : m.ReadFrom packet) : packet.call? = some m.op := by
  unfold PacketPayload.call?
  cases m with
  | add orderId price qty side =>
    have hread : packet.addMsg = _ := h
    have htype : packet.header.messageType = 'A'.toUInt8 :=
      congrArg (·.header.messageType) hread
    rw [if_pos htype, hread]
    rfl
  | cancel orderId =>
    have hread : packet.cancelMsg = _ := h
    have htype : packet.header.messageType = 'X'.toUInt8 :=
      congrArg (·.header.messageType) hread
    rw [htype, if_neg (by decide), if_pos rfl, hread]
    rfl
  | modify orderId newPrice newQty =>
    have hread : packet.modifyMsg = _ := h
    have htype : packet.header.messageType = 'M'.toUInt8 :=
      congrArg (·.header.messageType) hread
    rw [htype, if_neg (by decide), if_neg (by decide), if_pos rfl, hread]
    rfl

/-- A packet reads as at most one message. -/
theorem ReadFrom.unique (h : m.ReadFrom packet) (h' : m'.ReadFrom packet) : m = m' := by
  have hop := h.call?_eq.symm.trans h'.call?_eq
  cases m <;> cases m' <;> simp only [op, Option.some.injEq, reduceCtorEq] at hop
  · have hread := (show packet.addMsg = _ from h).symm.trans h'
    simp only [AddOrderMsg.mk.injEq, UInt64.toNat_inj, UInt32.toNat_inj, true_and] at hread
    obtain ⟨rfl, rfl, rfl, rfl⟩ := hread
    rfl
  · rw [UInt64.toNat_inj.mp (Op.cancel.inj hop)]
  · simp only [Op.modify.injEq, UInt64.toNat_inj, UInt32.toNat_inj] at hop
    obtain ⟨rfl, rfl, rfl⟩ := hop
    rfl

end Message

/-- **The encoders and the packed decoder agree**: every message is encoded, in 56 bytes, the union
member of its type reads it back from any packet that receives them, and the packet is dispatched as
the message. Different messages have different bytes. -/
theorem wire_format :
    (∀ m : Message, ∃ bytes, m.encode = some bytes ∧ bytes.length = 56 ∧
      ∀ p : PacketPayload, m.ReadFrom (p.receive bytes) ∧ (p.receive bytes).call? = some m.op ∧
        ∀ fuel book, (p.receive bytes).dispatch fuel book = book.apply sub64 fuel m.op) ∧
    Function.Injective Message.encode := by
  constructor
  · refine fun m => ⟨m.bytes, m.encode_eq, m.length_bytes, fun p => ?_⟩
    have hread := m.readFrom_bytes p
    refine ⟨hread, hread.call?_eq, fun fuel book => ?_⟩
    rw [PacketPayload.dispatch_eq, hread.call?_eq]
  · intro m m' h
    rw [m.encode_eq, m'.encode_eq] at h
    let p : PacketPayload := ⟨0, Vector.replicate 56 0⟩
    have hread := m'.readFrom_bytes p
    rw [← Option.some.inj h] at hread
    exact (m.readFrom_bytes p).unique hread

end MarketHandler
