import Mathlib.Data.List.Perm.Subperm
import Mathlib.Data.List.Range
import MarketHandler.Ingress.Service
import MarketHandler.Simulator

/-!
# The feed of `run_simulation`

Model of `run_simulation` in `scripts/simulator.py`: the packets it builds for any outcome of its
random draws. An add is numbered by its place in the feed, so no two adds share an id; the network may
lose packets of the feed and deliver them in any order.

* `Draw.packet_eq`: every draw is packed, as the message it stands for.
* `OrderBook.Reaches.fresh_of_nodup`: calls whose adds have distinct ids only name fresh ids.
* `simulated`: **whatever arrives of the feed, in whatever order and between whatever else that is not
  a full datagram**, the engine dispatches allowed calls only: it never hangs, and its book refines the
  reference book.
-/

namespace MarketHandler

open Lib

/-! ## The script -/

/-- What is drawn for one message. -/
inductive Draw where
  | add (price : Nat) (buy : Bool)
  | cancel (targetId : Nat)
  | modify (targetId newPrice : Nat)

namespace Draw

/-- The ranges of `random.randint` for message `i`. -/
def InRange (i : Nat) : Draw → Prop
  | add price _ => 100000 ≤ price ∧ price ≤ 101000
  | cancel targetId => 1 ≤ targetId ∧ targetId ≤ max 1 (i - 1)
  | modify targetId newPrice =>
    (1 ≤ targetId ∧ targetId ≤ max 1 (i - 1)) ∧ 100000 ≤ newPrice ∧ newPrice ≤ 101000

/-- The packet of message `i`. -/
def packet (i : Nat) : Draw → Option (List UInt8)
  | add price buy => createAddOrder i price 100 [if buy then 'B'.toUInt8 else 'S'.toUInt8]
  | cancel targetId => createCancelOrder targetId
  | modify targetId newPrice => createModifyOrder targetId newPrice 50

/-- The call of message `i`. -/
def op (i : Nat) : Draw → Op
  | add price buy => .add i price 100 buy
  | cancel targetId => .cancel targetId
  | modify targetId newPrice => .modify targetId newPrice 50

end Draw

/-- The loop of `run_simulation` from message `i` on. -/
def runSimulation : Nat → List Draw → Option (List (List UInt8))
  | _, [] => some []
  | i, draw :: draws => do
    let packet ← draw.packet i
    let packets ← runSimulation (i + 1) draws
    return packet :: packets

/-- Every draw is in its range. -/
def DrawsInRange : Nat → List Draw → Prop
  | _, [] => True
  | i, draw :: draws => draw.InRange i ∧ DrawsInRange (i + 1) draws

/-- The calls of the feed. -/
def feedOps : Nat → List Draw → List Op
  | _, [] => []
  | i, draw :: draws => draw.op i :: feedOps (i + 1) draws

/-- The id that an add names. -/
def Op.addId? : Op → Option Nat
  | .add id _ _ _ => some id
  | _ => none

/-- The call that a packet with these bytes asks for. -/
def callOf (bytes : List UInt8) : Option Op :=
  ((⟨0, Vector.replicate 56 0⟩ : PacketPayload).receive bytes).call?

/-- A packet's call is that of its bytes. -/
theorem PacketPayload.call?_eq (packet : PacketPayload) : packet.call? = callOf packet.bytes.toList := by
  have hbytes := PacketPayload.receive_full (p := ⟨0, Vector.replicate 56 0⟩)
    packet.bytes.length_toList
  rw [Vector.toList_inj] at hbytes
  exact congrArg (fun bytes => (⟨0, bytes⟩ : PacketPayload).call?) hbytes.symm

variable {i n id : Nat} {draw : Draw} {draws : List Draw} {packets : List (List UInt8)} {op : Op}
  {ops : List Op} {b : OrderBook}

theorem toNat_orderId (h : n < maxOrders) : (UInt64.ofNat n).toNat = n := by
  refine UInt64.toNat_ofNat_of_lt' ?_
  show n < 2 ^ 64
  unfold maxOrders at h
  omega

theorem toNat_price (h : n ≤ 101000) : (UInt32.ofNat n).toNat = n := by
  refine UInt32.toNat_ofNat_of_lt' ?_
  show n < 2 ^ 32
  omega

theorem targetId_lt (hi : i < maxOrders) (h : n ≤ max 1 (i - 1)) : n < maxOrders := by
  unfold maxOrders at *
  omega

/-- **Every draw is packed**, and dispatched as its call. -/
theorem Draw.packet_eq (hi : i < maxOrders) (h : draw.InRange i) :
    ∃ bytes, draw.packet i = some bytes ∧ bytes.length = 56 ∧ callOf bytes = some (draw.op i) := by
  have hpacked : ∀ m : Message, draw.packet i = m.encode → m.op = draw.op i →
      ∃ bytes, draw.packet i = some bytes ∧ bytes.length = 56 ∧ callOf bytes = some (draw.op i) :=
    fun m hm hop => ⟨m.bytes, hm.trans m.encode_eq, m.length_bytes,
      (m.readFrom_bytes _).call?_eq.trans (congrArg some hop)⟩
  cases draw with
  | add price buy =>
    obtain ⟨-, h2⟩ := h
    have hid : (UInt64.ofNat i).toNat = i := toNat_orderId hi
    have hprice : (UInt32.ofNat price).toNat = price := toNat_price h2
    refine hpacked (.add (.ofNat i) (.ofNat price) 100 (if buy then 'B'.toUInt8 else 'S'.toUInt8)) ?_ ?_
    · rw [Draw.packet, Message.encode, hid, hprice]
      rfl
    · rw [Message.op, hid, hprice]
      cases buy <;> rfl
  | cancel targetId =>
    obtain ⟨-, h2⟩ := h
    have hid : (UInt64.ofNat targetId).toNat = targetId :=
      toNat_orderId (targetId_lt hi h2)
    refine hpacked (.cancel (.ofNat targetId)) ?_ ?_
    · rw [Draw.packet, Message.encode, hid]
    · rw [Message.op, hid]
      rfl
  | modify targetId newPrice =>
    obtain ⟨⟨-, h2⟩, -, h4⟩ := h
    have hid : (UInt64.ofNat targetId).toNat = targetId :=
      toNat_orderId (targetId_lt hi h2)
    have hprice : (UInt32.ofNat newPrice).toNat = newPrice := toNat_price h4
    refine hpacked (.modify (.ofNat targetId) (.ofNat newPrice) 50) ?_ ?_
    · rw [Draw.packet, Message.encode, hid, hprice]
      rfl
    · rw [Message.op, hid, hprice]
      rfl

theorem Draw.op_valid (hi : i < maxOrders) (h : draw.InRange i) : (draw.op i).Valid := by
  have hprice : ∀ {p}, 100000 ≤ p → p ≤ 101000 → 1 ≤ p ∧ p < maxTicks := fun h1 h2 => by
    unfold maxTicks
    omega
  cases draw with
  | add price buy => exact ⟨⟨hi, hprice h.1 h.2⟩, (by decide : 100 < 2 ^ 31)⟩
  | cancel targetId => exact ⟨targetId_lt hi h.2, trivial⟩
  | modify targetId newPrice =>
    exact ⟨⟨targetId_lt hi h.1.2, hprice h.2.1 h.2.2⟩, (by decide : 50 < 2 ^ 31)⟩

/-- **The feed**: every packet is built, and they ask for the feed's calls. -/
theorem runSimulation_eq (hn : i + draws.length ≤ maxOrders) (h : DrawsInRange i draws) :
    ∃ packets, runSimulation i draws = some packets ∧ packets.filterMap callOf = feedOps i draws ∧
      (∀ bytes ∈ packets, bytes.length = 56) ∧ ∀ op ∈ feedOps i draws, op.Valid := by
  induction draws generalizing i with
  | nil => exact ⟨[], rfl, rfl, by simp, by simp [feedOps]⟩
  | cons draw draws ih =>
    rw [List.length_cons] at hn
    have hi : i < maxOrders := by omega
    obtain ⟨bytes, hpacket, hlen, hcall⟩ := Draw.packet_eq hi h.1
    obtain ⟨packets, hpackets, hops, hlens, hvalid⟩ := ih (i := i + 1) (by omega) h.2
    refine ⟨bytes :: packets, ?_, ?_, ?_, ?_⟩
    · rw [runSimulation, hpacket, hpackets]
      rfl
    · rw [List.filterMap_cons_some hcall, hops, feedOps]
    · exact List.forall_mem_cons.mpr ⟨hlen, hlens⟩
    · exact List.forall_mem_cons.mpr ⟨Draw.op_valid hi h.1, hvalid⟩

/-- The adds of the feed are numbered by their places. -/
theorem addIds_feedOps : ∀ (i : Nat) (draws : List Draw),
    ((feedOps i draws).filterMap Op.addId?).Sublist (List.range' i draws.length)
  | _, [] => List.nil_sublist _
  | i, draw :: draws => by
    have ih := addIds_feedOps (i + 1) draws
    rw [feedOps, List.length_cons, List.range'_succ]
    cases draw with
    | add price buy => exact ih.cons_cons i
    | cancel targetId => exact ih.cons i
    | modify targetId newPrice => exact ih.cons i

theorem nodup_addIds_feedOps (i : Nat) (draws : List Draw) :
    ((feedOps i draws).filterMap Op.addId?).Nodup :=
  (List.nodup_range' ..).sublist (addIds_feedOps i draws)

/-! ## Distinct ids are fresh -/

/-- The ids that rest after a call rested before, or are the call's own. -/
theorem QueueBook.Step.id_of_at {v v' : QueueBook} {s : Bool} {p : Nat} {o : Resting} (hw : v.Wf)
    (h : v.Step op v') (ho : v'.At s p o) :
    (∃ s' p' o', v.At s' p' o' ∧ o'.id = o.id) ∨ op.addId? = some o.id := by
  have hadd : ∀ {u : QueueBook} {id p' q : Nat} {isBuy : Bool}, u.Wf → (u.add id p' q isBuy).At s p o →
      (∃ s' p' o', u.At s' p' o' ∧ o'.id = o.id) ∨ id = o.id := by
    intro u id p' q isBuy hu ho
    have htrade : (u.trade (u.crossing isBuy p') q).1.At s p o →
        ∃ s' p' o', u.At s' p' o' ∧ o'.id = o.id := by
      intro ht
      by_contra hnone
      exact QueueBook.trade_ids hu (hu.lists_crossing isBuy p')
        (fun s' p' o' h' he => hnone ⟨s', p', o', h', he⟩) _ _ _ ht rfl
    unfold QueueBook.add at ho
    dsimp only at ho
    split_ifs at ho
    · exact Or.inl (htrade ho)
    · cases hf : (u.trade (u.crossing isBuy p') q).1.free with
      | nil => exact Or.inl (htrade (by simpa only [QueueBook.rest, hf] using ho))
      | cons x free =>
        rcases (QueueBook.at_rest hf).mp ho with ho | ⟨-, -, rfl⟩
        · exact Or.inl (htrade ho)
        · exact Or.inr rfl
  cases h with
  | add id price qty isBuy => exact (hadd hw ho).imp_right (congrArg some)
  | cancelUnknown => exact Or.inl ⟨s, p, o, ho, rfl⟩
  | cancel => exact Or.inl ⟨s, p, o, (QueueBook.at_remove.mp ho).1, rfl⟩
  | modifyUnknown => exact Or.inl ⟨s, p, o, ho, rfl⟩
  | modifyInPlace =>
    obtain ⟨o', h', -, hid, -⟩ := QueueBook.of_at_setQuantity ho
    exact Or.inl ⟨s, p, o', h', hid.symm⟩
  | modifyZero => exact Or.inl ⟨s, p, o, (QueueBook.at_remove.mp ho).1, rfl⟩
  | @modifyReplace s' p' price q o' ho' hx hne =>
    rcases hadd (hw.remove ho') ho with ⟨s₁, p₁, o₁, h₁, he⟩ | he
    · exact Or.inl ⟨s₁, p₁, o₁, (QueueBook.at_remove.mp h₁).1, he⟩
    · exact Or.inl ⟨s', p', o', ho', he⟩

/-- **Adds of distinct ids name fresh ids.** -/
theorem OrderBook.Reaches.fresh_of_nodup (h : OrderBook.Reaches OrderBook.Allowed ops b)
    (hids : ((ops ++ [op]).filterMap Op.addId?).Nodup) : b.Fresh op := by
  obtain ⟨v, hrep, -, hknown⟩ := h.rep_of
    (I := fun ops v => ∀ s p o, v.At s p o → o.id ∈ ops.filterMap Op.addId?)
    (fun hop => ⟨hop.1.1.inTables, OrderBook.fits_of_smallQuantity hop.1.2⟩)
    (fun _ _ _ ho => absurd ho List.not_mem_nil) fun {ops b op v v'} hrep hw hI hop hstep s p o ho => by
      rw [filterMap_snoc, List.mem_append]
      rcases hstep.id_of_at hw ho with ⟨s', p', o', h', he⟩ | he
      · exact Or.inl (he ▸ hI _ _ _ h')
      · exact Or.inr (by rw [he]; exact List.mem_singleton.mpr rfl)
  cases op with
  | add id price qty isBuy =>
    intro hid
    obtain ⟨s, p, o, ho, rfl⟩ := hrep.hasId_iff.mp hid
    rw [filterMap_snoc, List.nodup_append] at hids
    exact hids.2.2 _ (hknown s p o ho) _ (List.mem_singleton.mpr rfl) rfl
  | cancel id => trivial
  | modify id price qty => trivial

/-! ## The feed through the two threads -/

namespace Ingress

variable {k : Nat} {acts : List Act} {s s' : Ingress} {a : Act} {packet : PacketPayload}
  {feed : List Op}

/-- `push` passes on part of what it is given. -/
theorem accepted_sublist : ∀ (payloads : List (List UInt8)) (returned : List Bool),
    (accepted payloads returned).Sublist payloads
  | [], _ => List.nil_sublist _
  | _ :: _, [] => List.nil_sublist _
  | payload :: payloads, r :: returned => by
    have ih := accepted_sublist payloads returned
    cases r with
    | false => exact ih.cons payload
    | true => exact ih.cons_cons payload

/-- What the worker was handed had been received, in the same order. -/
theorem Inv.handed_sublist (h : s.Inv (2 ^ k) acts) :
    ((acts.filterMap Act.dispatched? ++ s.inFlight).map (·.bytes.toList)).Sublist
      (acts.filterMap Act.packet?) := by
  obtain ⟨settled, hset, -, hacc⟩ := h.settled.settled
  have htake : s.queue.popped.Sublist s.queue.accepted := by
    rw [h.queue.popped_eq]
    exact List.take_sublist _ _
  have hset' : (s.queue.accepted.map (·.bytes.toList)).Sublist settled := by
    rw [hacc]
    exact accepted_sublist _ _
  rw [← h.consumed.popped, hset]
  exact ((htake.map _).trans hset').trans (List.sublist_append_left _ _)

/-- Their calls are among those that the packets received ask for. -/
theorem Inv.calls_sublist (h : s.Inv (2 ^ k) acts) :
    (calls acts ++ s.inFlight.filterMap (·.call?)).Sublist
      ((acts.filterMap Act.packet?).filterMap callOf) := by
  have hcalls := h.handed_sublist.filterMap callOf
  have hcall : (fun packet : PacketPayload => callOf packet.bytes.toList) = (·.call?) :=
    funext fun packet => packet.call?_eq.symm
  rwa [List.filterMap_map, Function.comp_def, hcall, List.filterMap_append] at hcalls

/-- **The call in hand is allowed** when all that was received is of a feed whose adds have distinct
ids. -/
theorem Inv.allowed (h : s.Inv (2 ^ k) acts)
    (hreaches : OrderBook.Reaches OrderBook.Allowed (calls acts) s.book)
    (hfeed : ((acts.filterMap Act.packet?).filterMap callOf).Subperm feed)
    (hvalid : ∀ op ∈ feed, op.Valid) (hids : (feed.filterMap Op.addId?).Nodup)
    (hpc : s.enginePc = .dispatching packet) (hcall : packet.call? = some op) :
    s.book.Allowed op := by
  have hsub : (calls acts ++ [op]).Subperm feed := by
    have hhand : s.inFlight.filterMap (·.call?) = [op] := by
      simp only [inFlight, hpc, List.filterMap_cons_some hcall, List.filterMap_nil]
    exact hhand ▸ h.calls_sublist.subperm.trans hfeed
  have hop : op ∈ feed := hsub.subset (List.mem_append_right _ (List.mem_singleton.mpr rfl))
  obtain ⟨ops, hperm, hops⟩ := hsub
  have hnodup : ((calls acts ++ [op]).filterMap Op.addId?).Nodup :=
    (hperm.filterMap _).nodup_iff.mp (hids.sublist (hops.filterMap _))
  exact ⟨hvalid op hop, hreaches.fresh_of_nodup hnodup⟩

end Ingress

/-- **The feed of `run_simulation`**: it is built whatever is drawn, and whatever part of it arrives, in
whatever order and however the two threads interleave, the engine dispatches allowed calls of the feed
only; its book refines the reference book, and no dispatch fails to return. -/
theorem simulated {k : Nat} {buffer : PacketPayload} {draws : List Draw}
    (hn : draws.length < maxOrders) (hdraws : DrawsInRange 1 draws) :
    ∃ packets, runSimulation 1 draws = some packets ∧ ∀ acts s,
      Run (Ingress.Step (2 ^ k)) (Ingress.init buffer) acts s →
      (acts.filterMap Ingress.Act.packet?).Subperm packets →
        Run (Ingress.ServedStep (2 ^ k)) (Ingress.init buffer) acts s ∧
        (Ingress.calls acts).Subperm (feedOps 1 draws) ∧
        s.book.Abstracts (RefBook.run (Ingress.calls acts)) ∧
        ∀ packet, s.enginePc = .dispatching packet → ∃ book, packet.Dispatches s.book book := by
  obtain ⟨packets, hpackets, hops, -, hvalid⟩ := runSimulation_eq (by omega) hdraws
  refine ⟨packets, hpackets, fun acts s hrun => ?_⟩
  have hids := nodup_addIds_feedOps 1 draws
  have hfeed : ∀ {acts : List Ingress.Act}, (acts.filterMap Ingress.Act.packet?).Subperm packets →
      ((acts.filterMap Ingress.Act.packet?).filterMap callOf).Subperm (feedOps 1 draws) := by
    rintro acts ⟨received, hperm, hsub⟩
    exact hops ▸ ⟨_, hperm.filterMap _, hsub.filterMap _⟩
  have hserved : (acts.filterMap Ingress.Act.packet?).Subperm packets →
      Run (Ingress.ServedStep (2 ^ k)) (Ingress.init buffer) acts s := by
    refine hrun.history (I := fun acts s => (acts.filterMap Ingress.Act.packet?).Subperm packets →
      Run (Ingress.ServedStep (2 ^ k)) (Ingress.init buffer) acts s) (fun _ => .nil) ?_
    intro acts s a s' ih hstep hsub
    rw [List.filterMap_append] at hsub
    have hbefore := (List.sublist_append_left _ _).subperm.trans hsub
    obtain ⟨hinv, hreaches⟩ := Ingress.reaches_of_run (ih hbefore)
    refine (ih hbefore).snoc ⟨hstep, fun packet hp op hop => ?_⟩
    cases hstep with
    | dispatch hpc hd =>
      obtain rfl := Option.some.inj hp
      exact hinv.allowed hreaches (hfeed hbefore) hvalid hids hpc hop
    | _ => cases hp
  intro hsub
  have hrun := hserved hsub
  obtain ⟨hinv, hreaches⟩ := Ingress.reaches_of_run hrun
  obtain ⟨v, hrep, hw, ha, habs⟩ := hreaches.abs
  have hcalls := (List.sublist_append_left _ _).subperm.trans
    (hinv.calls_sublist.subperm.trans (hfeed hsub))
  refine ⟨hrun, hcalls, hrep.abstracts hw ha habs, fun packet hpc => ?_⟩
  cases hcall : packet.call? with
  | none => exact ⟨s.book, (PacketPayload.dispatches_none hcall _ _).mpr rfl⟩
  | some op =>
    obtain ⟨book, hbook⟩ := hreaches.returns
      (hinv.allowed hreaches (hfeed hsub) hvalid hids hpc hcall).1
    exact ⟨book, (PacketPayload.dispatches_some hcall _ _).mpr hbook⟩

/-- The first draw is a bid; its packet arrives, is taken from a ring of one and dispatched. -/
theorem simulated_run : ∃ (packets : List (List UInt8)) (buffer : PacketPayload)
    (acts : List Ingress.Act) (s : Ingress), runSimulation 1 [.add 100000 true] = some packets ∧
      acts.filterMap Ingress.Act.packet? = packets ∧
      Run (Ingress.ServedStep (2 ^ 0)) (Ingress.init buffer) acts s ∧
      s.book.Abstracts [⟨1, true, 100000, 100⟩] := by
  let m : Message := .add 1 100000 100 'B'.toUInt8
  let packet : PacketPayload := (⟨0, Vector.replicate 56 0⟩ : PacketPayload).receive m.bytes
  have hbytes : packet.bytes.toList = m.bytes := PacketPayload.receive_full m.length_bytes
  have hcall : packet.call? = some (.add 1 100000 100 true) := (m.readFrom_bytes _).call?_eq
  have hdraws : DrawsInRange 1 [.add 100000 true] := ⟨⟨by decide, by decide⟩, trivial⟩
  obtain ⟨packets, hpackets, hall⟩ := @simulated 0 packet _ (by decide) hdraws
  have hfeed : packets = [m.bytes] := by
    have hencode : runSimulation 1 [.add 100000 true] = some [m.bytes] := by
      show (m.encode.bind fun bytes => some [bytes]) = _
      rw [m.encode_eq]
      rfl
    exact Option.some.inj (hpackets.symm.trans hencode)
  obtain ⟨acts, s, hs, hpc, hbook, -, -, hreceived⟩ := Ingress.run_taken (fun _ _ => True) packet
  rw [hbytes, ← hfeed] at hreceived
  have hrun : Run (Ingress.Step 1) (Ingress.init packet) acts s := hs.mono fun h => h.1
  obtain ⟨-, -, -, hreturns⟩ := hall acts s hrun (hreceived ▸ List.Subperm.refl _)
  obtain ⟨book, hd⟩ := hreturns packet hpc
  have hreceived' : (acts ++ [Ingress.Act.dispatch packet]).filterMap Ingress.Act.packet? = packets :=
    (filterMap_snoc_none rfl _).trans hreceived
  obtain ⟨hserved, hcalls, habs, -⟩ := hall _ _ (hrun.snoc (.dispatch hpc hd))
    (hreceived' ▸ List.Subperm.refl _)
  rw [Ingress.calls_dispatch, hcall] at hcalls habs
  have hnone : Ingress.calls acts = [] := by
    have hlen := hcalls.length_le
    rw [List.length_append] at hlen
    exact List.length_eq_zero_iff.mp (Nat.le_zero.mp (Nat.le_of_add_le_add_right hlen))
  rw [hnone] at habs
  have hresting : RefBook.run ([] ++ (some (Op.add 1 100000 100 true)).toList) =
      [⟨1, true, 100000, 100⟩] := by decide +kernel
  exact ⟨packets, packet, _, _, hpackets, hreceived', hserved, hresting ▸ habs⟩

end MarketHandler
