import MarketHandler.Ingress.Uninterrupted

/-!
# Ingress accounting

A run's labels tell what it received, what each `push` returned and what the engine dispatched.
`Settled` and `Consumed` link each thread's state to them, with the completion or the packet the
thread has in its hands (`pending`, `inFlight`); with the invariant of the queue between them they
make up `Inv`.

* `PacketPayload.run_calls`: a run of dispatches is the run of the calls its packets ask for.
* `ingress_accounting`: **between completions and loop passes every full completion is dispatched,
  queued or dropped, with its own bytes**, and the book is what the calls dispatched have made of it.
-/

namespace MarketHandler

open Lib

namespace PacketPayload

/-- A datagram of full length leaves nothing of the buffer. -/
theorem receive_eq {p : PacketPayload} {data : List UInt8} (h : data.length = 56) :
    p.receive data = ⟨p.ingressTsc, ⟨data.toArray, h⟩⟩ := by
  unfold receive
  refine congrArg (PacketPayload.mk _) (Vector.ext fun i hi => ?_)
  have hi' : i < data.length := h.symm ▸ hi
  rw [Vector.getElem_ofFn, Fin.getElem?_fin, List.getElem?_eq_getElem hi', Option.getD_some]
  rfl

theorem receive_full {p : PacketPayload} {data : List UInt8} (h : data.length = 56) :
    (p.receive data).bytes.toList = data := by
  rw [receive_eq h]
  rfl

/-- A run of dispatches runs the calls its packets ask for, and nothing else. -/
theorem run_calls {b₀ b : OrderBook} {packets : List PacketPayload}
    (h : Run (fun b p b' => PacketPayload.Dispatches b p b') b₀ packets b) :
    Run (fun b op b' => OrderBook.Calls b op b') b₀ (packets.filterMap (·.call?)) b := by
  refine h.history (I := fun packets b =>
    Run (fun b op b' => OrderBook.Calls b op b') b₀ (packets.filterMap (·.call?)) b) .nil ?_
  intro packets b p b' ih hd
  rw [filterMap_snoc]
  cases hcall : p.call? with
  | none =>
    obtain rfl := (dispatches_none hcall _ _).mp hd
    rwa [Option.toList_none, List.append_nil]
  | some op => exact ih.snoc ((dispatches_some hcall _ _).mp hd)

end PacketPayload

namespace Ingress

/-- A stamped packet is its datagram and its stamp. -/
theorem buffered_eq {s : Ingress} {r : Completion} (h : r.data.length = 56) (tsc : UInt64) :
    s.buffered r tsc = ⟨tsc, ⟨r.data.toArray, h⟩⟩ := by
  rw [buffered, PacketPayload.receive_eq h]

/-- The payloads whose `push` returned true. -/
def accepted (payloads : List (List UInt8)) (returned : List Bool) : List (List UInt8) :=
  ((payloads.zip returned).filter Prod.snd).map Prod.fst

theorem accepted_append {xs ys : List (List UInt8)} {rs ss : List Bool}
    (h : xs.length = rs.length) : accepted (xs ++ ys) (rs ++ ss) = accepted xs rs ++ accepted ys ss := by
  simp only [accepted, List.zip_append h, List.filter_append, List.map_append]

theorem length_accepted : ∀ {xs : List (List UInt8)} {rs : List Bool}, xs.length = rs.length →
    xs.length = (accepted xs rs).length + rs.count false
  | [], [], _ => rfl
  | x :: xs, r :: rs, h => by
    have ih := length_accepted (Nat.succ.inj h)
    rw [List.length_cons, ih]
    cases r with
    | false => rw [List.count_cons_self]; rfl
    | true => exact (Nat.succ_add _ _).symm

/-- The packet the handler has received and not yet settled. -/
def pending (s : Ingress) : List (List UInt8) :=
  match s.handlerPc with
  | .waiting => []
  | .completed ec bytesRecvd =>
    if isPacket ec bytesRecvd then [s.recvBuffer.bytes.toList] else []
  | .pushing => [s.recvBuffer.bytes.toList]

/-- The packet the engine has popped and not yet dispatched. -/
def inFlight (s : Ingress) : List PacketPayload :=
  match s.enginePc with
  | .dispatching packet => [packet]
  | _ => []

variable {c k : Nat} {acts : List Act} {s s' : Ingress} {a : Act}

/-- The network thread's side. -/
structure Settled (acts : List Act) (s : Ingress) : Prop where
  idle : s.queue.pushPc = .idle ↔ s.handlerPc ≠ .pushing
  holds : s.queue.Holds s.recvBuffer
  settled : ∃ settled, acts.filterMap Act.packet? = settled ++ s.pending ∧
    settled.length = (acts.filterMap Act.returned?).length ∧
    s.queue.accepted.map (·.bytes.toList) = accepted settled (acts.filterMap Act.returned?)
  rejected : s.queue.rejected.length = s.droppedPackets
  dropped : (acts.filterMap Act.returned?).count false = s.droppedPackets

/-- The worker thread's side. -/
structure Consumed (acts : List Act) (s : Ingress) : Prop where
  idle : s.queue.popPc = .idle ↔ s.enginePc ≠ .popping
  popped : s.queue.popped = acts.filterMap Act.dispatched? ++ s.inFlight
  book : Run (fun b p b' => p.Dispatches b b') .init (acts.filterMap Act.dispatched?) s.book

structure Inv (c : Nat) (acts : List Act) (s : Ingress) : Prop where
  queue : s.queue.Inv c
  settled : s.Settled acts
  consumed : s.Consumed acts

theorem inv_init (buffer : PacketPayload) : (init buffer).Inv c [] where
  queue := SPSCQueue.inv_init c
  settled := ⟨iff_of_true rfl nofun, nofun, ⟨[], rfl, rfl, rfl⟩, rfl, rfl⟩
  consumed := ⟨iff_of_true rfl nofun, rfl, Run.nil⟩

/-! ## The network thread's steps -/

/-- The network thread's side after an action of the other thread. -/
theorem Settled.frame (h : s.Settled acts) (hpc : s'.queue.pushPc = s.queue.pushPc)
    (ha : s'.queue.accepted = s.queue.accepted) (hr : s'.queue.rejected = s.queue.rejected)
    (hb : s'.recvBuffer = s.recvBuffer) (hh : s'.handlerPc = s.handlerPc)
    (hd : s'.droppedPackets = s.droppedPackets) (hpacket : a.packet? = none)
    (hret : a.returned? = none) : s'.Settled (acts ++ [a]) := by
  obtain ⟨settled, hset, hlen, hacc⟩ := h.settled
  have hpend : s'.pending = s.pending := by
    unfold pending
    rw [hh, hb]
  refine ⟨by rw [hpc, hh]; exact h.idle, fun p w hw => hb ▸ h.holds p w (hpc ▸ hw),
    ⟨settled, ?_, ?_, ?_⟩, by rw [hr, hd]; exact h.rejected, ?_⟩
  · rw [filterMap_snoc_none hpacket, hpend, hset]
  · rw [filterMap_snoc_none hret, hlen]
  · rw [filterMap_snoc_none hret, ha, hacc]
  · rw [filterMap_snoc_none hret, hd, h.dropped]

theorem pending_receive (s : Ingress) (r : Completion) :
    (s.receive r).pending = (Act.receive r).packet?.toList := by
  unfold pending Ingress.receive Act.packet?
  dsimp only
  by_cases hp : isPacket r.ec r.data.length = true
  · have hfull : r.data.length = 56 := by
      simp only [isPacket, Bool.and_eq_true, decide_eq_true_eq] at hp
      exact hp.2
    rw [if_pos hp, if_pos hp, PacketPayload.receive_full hfull]
    rfl
  · rw [if_neg hp, if_neg hp]
    rfl

theorem Settled.receive (h : s.Settled acts) (hpc : s.handlerPc = .waiting) (r : Completion) :
    (s.receive r).Settled (acts ++ [.receive r]) := by
  obtain ⟨settled, hset, hlen, hacc⟩ := h.settled
  have hidle : s.queue.pushPc = .idle := h.idle.mpr (by rw [hpc]; nofun)
  have hret : (acts ++ [Act.receive r]).filterMap Act.returned? = acts.filterMap Act.returned? :=
    filterMap_snoc_none rfl _
  have hpend : s.pending = [] := by simp only [pending, hpc]
  refine ⟨?_, ?_, ⟨settled, ?_, ?_, ?_⟩, ?_, ?_⟩
  · rw [receive_queue, receive_handlerPc]
    exact iff_of_true hidle nofun
  · rw [receive_queue]
    exact SPSCQueue.holds_of_idle hidle
  · rw [filterMap_snoc, hset, hpend, List.append_nil, pending_receive]
  · rw [hret, hlen]
  · rw [hret, receive_queue, hacc]
  · rw [receive_queue, receive_droppedPackets, h.rejected]
  · rw [hret, receive_droppedPackets, h.dropped]

theorem Settled.handle (h : s.Settled acts) {ec : Bool} {bytesRecvd : Nat}
    (hpc : s.handlerPc = .completed ec bytesRecvd) (tsc : UInt64) :
    (s.handle tsc ec bytesRecvd).Settled (acts ++ [.handle tsc]) := by
  obtain ⟨settled, hset, hlen, hacc⟩ := h.settled
  have hidle : s.queue.pushPc = .idle := h.idle.mpr (by rw [hpc]; nofun)
  have hret : (acts ++ [Act.handle tsc]).filterMap Act.returned? = acts.filterMap Act.returned? :=
    filterMap_snoc_none rfl _
  have hpacket : (acts ++ [Act.handle tsc]).filterMap Act.packet? = acts.filterMap Act.packet? :=
    filterMap_snoc_none rfl _
  simp only [pending, hpc] at hset
  unfold Ingress.handle
  split_ifs at hset ⊢ with hp
  · exact ⟨iff_of_false nofun (not_not_intro rfl), nofun,
      ⟨settled, by rw [hpacket, hset]; rfl, by rw [hret, hlen], by rw [hret]; exact hacc⟩,
      h.rejected, by rw [hret]; exact h.dropped⟩
  · exact ⟨iff_of_true hidle nofun, SPSCQueue.holds_of_idle hidle,
      ⟨settled, by rw [hpacket, hset]; rfl, by rw [hret, hlen], by rw [hret]; exact hacc⟩,
      h.rejected, by rw [hret]; exact h.dropped⟩

theorem Settled.push (h : s.Settled acts) (hpc : s.handlerPc = .pushing)
    {queue : SPSCQueue PacketPayload} {r : Option Bool}
    (hrun : s.queue.pushStep c s.recvBuffer = .ok (queue, r)) :
    (s.pushed queue r).Settled (acts ++ [.push r]) := by
  obtain ⟨settled, hset, hlen, hacc⟩ := h.settled
  have hbusy : s.queue.pushPc ≠ .idle := fun hidle => h.idle.mp hidle hpc
  have hp := SPSCQueue.pushStep_pushed hbusy h.holds hrun
  have hpacket : (acts ++ [Act.push r]).filterMap Act.packet? = acts.filterMap Act.packet? :=
    filterMap_snoc_none rfl _
  have hret : (acts ++ [Act.push r]).filterMap Act.returned? =
      acts.filterMap Act.returned? ++ r.toList := filterMap_snoc _ _ _
  have hpend : s.pending = [s.recvBuffer.bytes.toList] := by simp only [pending, hpc]
  have hacc' := hp.accepted
  have hrej := hp.rejected
  have hdrop := h.dropped
  rw [hpend] at hset
  rw [h.rejected] at hrej
  match r with
  | none =>
    refine ⟨iff_of_false (fun hi => hp.idle.mp hi rfl) (not_not_intro hpc), hp.holds,
      ⟨settled, ?_, ?_, ?_⟩, hrej, ?_⟩
    · rw [hpacket, hset, ← hpend]
      rfl
    · rw [hret, hlen, List.length_append]
      rfl
    · rw [hret, Option.toList_none, List.append_nil, ← hacc]
      exact congrArg (List.map _) (hacc'.trans (List.append_nil _))
    · rw [hret, Option.toList_none, List.append_nil]
      exact hdrop
  | some r =>
    have hidle : queue.pushPc = .idle := hp.idle.mpr nofun
    refine ⟨iff_of_true hidle nofun, SPSCQueue.holds_of_idle hidle,
      ⟨settled ++ [s.recvBuffer.bytes.toList], ?_, ?_, ?_⟩, ?_, ?_⟩
    · rw [hpacket, hset]
      exact (List.append_nil _).symm
    · rw [hret, List.length_append, List.length_append, hlen]
      rfl
    · refine (congrArg (List.map _) hacc').trans ?_
      rw [hret, List.map_append, hacc, Option.toList_some, accepted_append hlen]
      cases r <;> rfl
    · cases r <;> exact hrej
    · rw [hret, List.count_append, hdrop]
      cases r <;> rfl

/-! ## The worker thread's steps -/

/-- The worker thread's side after an action of the other thread. -/
theorem Consumed.frame (h : s.Consumed acts) (hpc : s'.queue.popPc = s.queue.popPc)
    (hp : s'.queue.popped = s.queue.popped) (he : s'.enginePc = s.enginePc) (hb : s'.book = s.book)
    (ha : a.dispatched? = none) : s'.Consumed (acts ++ [a]) := by
  have hacts : (acts ++ [a]).filterMap Act.dispatched? = acts.filterMap Act.dispatched? :=
    filterMap_snoc_none ha _
  have hfly : s'.inFlight = s.inFlight := by
    unfold inFlight
    rw [he]
  exact ⟨by rw [hpc, he]; exact h.idle, by rw [hacts, hp, hfly]; exact h.popped,
    by rw [hacts, hb]; exact h.book⟩

theorem Consumed.poll (h : s.Consumed acts) (hpc : s.enginePc = .polling) :
    Consumed (acts ++ [.poll]) { s with queue := s.queue.callPop, enginePc := .popping } := by
  have hacts : (acts ++ [Act.poll]).filterMap Act.dispatched? = acts.filterMap Act.dispatched? :=
    filterMap_snoc_none rfl _
  have hpop := h.popped
  simp only [inFlight, hpc] at hpop
  exact ⟨iff_of_false nofun (not_not_intro rfl), by rw [hacts]; exact hpop,
    by rw [hacts]; exact h.book⟩

theorem Consumed.pop (h : s.Consumed acts) (hpc : s.enginePc = .popping)
    {queue : SPSCQueue PacketPayload} {r : Option (Option PacketPayload)}
    (hrun : s.queue.popStep c = .ok (queue, r)) : (s.popped queue r).Consumed (acts ++ [.pop r]) := by
  have hbusy : s.queue.popPc ≠ .idle := fun hidle => h.idle.mp hidle hpc
  have hp := SPSCQueue.popStep_popped hbusy hrun
  have hacts : (acts ++ [Act.pop r]).filterMap Act.dispatched? = acts.filterMap Act.dispatched? :=
    filterMap_snoc_none rfl _
  have hpop := hp.popped
  have hfly : s.inFlight = [] := by simp only [inFlight, hpc]
  rw [h.popped, hfly, List.append_nil] at hpop
  match r with
  | none =>
    refine ⟨iff_of_false (fun hi => hp.idle.mp hi rfl) (not_not_intro hpc), ?_,
      by rw [hacts]; exact h.book⟩
    rw [hacts, show (s.popped queue none).inFlight = [] from hfly]
    exact hpop
  | some none =>
    exact ⟨iff_of_true (hp.idle.mpr nofun) nofun, by rw [hacts]; exact hpop,
      by rw [hacts]; exact h.book⟩
  | some (some packet) =>
    exact ⟨iff_of_true (hp.idle.mpr nofun) nofun, by rw [hacts]; exact hpop,
      by rw [hacts]; exact h.book⟩

theorem Consumed.dispatch (h : s.Consumed acts) {packet : PacketPayload} {book : OrderBook}
    (hpc : s.enginePc = .dispatching packet) (hd : packet.Dispatches s.book book) :
    Consumed (acts ++ [.dispatch packet]) { s with book := book, enginePc := .polling } := by
  have hacts : (acts ++ [Act.dispatch packet]).filterMap Act.dispatched? =
      acts.filterMap Act.dispatched? ++ [packet] := filterMap_snoc _ _ _
  refine ⟨iff_of_true (h.idle.mpr (by rw [hpc]; nofun)) nofun, ?_, ?_⟩
  · rw [hacts]
    refine h.popped.trans ?_
    simp only [inFlight, hpc, List.append_nil]
  · rw [hacts]
    exact h.book.snoc hd

/-! ## Runs -/

theorem Step.inv (h : s.Inv (2 ^ k) acts) (hstep : Step (2 ^ k) s a s') :
    s'.Inv (2 ^ k) (acts ++ [a]) := by
  obtain ⟨hq, hs, hc⟩ := h
  cases hstep with
  | receive r hpc =>
    exact ⟨by rw [receive_queue]; exact hq, hs.receive hpc r,
      hc.frame (by rw [receive_queue]) (by rw [receive_queue]) (receive_enginePc s r)
        (receive_book s r) rfl⟩
  | @handle ec bytesRecvd tsc hpc =>
    refine ⟨?_, hs.handle hpc tsc, ?_⟩
    · have hidle : s.queue.pushPc = .idle := hs.idle.mpr (by rw [hpc]; nofun)
      unfold Ingress.handle
      split_ifs
      · exact hq.callPush hidle
      · exact hq
    · unfold Ingress.handle
      split_ifs <;> exact hc.frame rfl rfl rfl rfl rfl
  | @push queue r hpc hrun =>
    have hbusy : s.queue.pushPc ≠ .idle := fun hidle => hs.idle.mp hidle hpc
    have hp := SPSCQueue.pushStep_pushed hbusy hs.holds hrun
    refine ⟨?_, hs.push hpc hrun, ?_⟩
    · cases r <;> exact hq.pushStep hrun
    · cases r <;> exact hc.frame hp.popPc hp.popped rfl rfl rfl
  | poll hpc =>
    exact ⟨hq.callPop (hc.idle.mpr (by rw [hpc]; nofun)), hs.frame rfl rfl rfl rfl rfl rfl rfl rfl,
      hc.poll hpc⟩
  | @pop queue r hpc hrun =>
    have hbusy : s.queue.popPc ≠ .idle := fun hidle => hc.idle.mp hidle hpc
    have hp := SPSCQueue.popStep_popped hbusy hrun
    refine ⟨?_, ?_, hc.pop hpc hrun⟩
    · match r with
      | none => exact hq.popStep hrun
      | some none => exact hq.popStep hrun
      | some (some packet) => exact hq.popStep hrun
    · match r with
      | none => exact hs.frame hp.pushPc hp.accepted hp.rejected rfl rfl rfl rfl rfl
      | some none => exact hs.frame hp.pushPc hp.accepted hp.rejected rfl rfl rfl rfl rfl
      | some (some packet) => exact hs.frame hp.pushPc hp.accepted hp.rejected rfl rfl rfl rfl rfl
  | dispatch hpc hd =>
    exact ⟨hq, hs.frame rfl rfl rfl rfl rfl rfl rfl rfl, hc.dispatch hpc hd⟩

/-- What holds between completions and loop passes, after the run `acts`. -/
structure Accounted (capacity : Nat) (acts : List Act) (s : Ingress) : Prop where
  /-- What was dispatched, then what the ring holds, are the accepted packets in their order, with
  the bytes they were received with. -/
  delivered : ∃ held, s.queue.elements capacity = held.map .live ∧ held.length = s.queue.size ∧
    s.queue.accepted = acts.filterMap Act.dispatched? ++ held ∧
    (acts.filterMap Act.dispatched? ++ held).map (·.bytes.toList) =
      accepted (acts.filterMap Act.packet?) (acts.filterMap Act.returned?)
  /-- One call of `push` has returned for each full completion. -/
  pushed : (acts.filterMap Act.packet?).length = (acts.filterMap Act.returned?).length
  book : Run (fun b p b' => p.Dispatches b b') .init (acts.filterMap Act.dispatched?) s.book
  /-- The book is what the calls of the dispatched packets have made of the empty one. -/
  calls : Run (fun b op b' => b.Calls op b') .init
    ((acts.filterMap Act.dispatched?).filterMap (·.call?)) s.book
  count : (acts.filterMap Act.packet?).length =
    (acts.filterMap Act.dispatched?).length + s.queue.size + s.droppedPackets
  /-- A packet was dropped only when the ring was full. -/
  dropped : s.queue.rejected.length = s.droppedPackets ∧ ∀ held ∈ s.queue.rejected, held = capacity

theorem Inv.accounted (h : s.Inv (2 ^ k) acts) (hhandler : s.handlerPc = .waiting)
    (hengine : s.enginePc = .polling) : s.Accounted (2 ^ k) acts := by
  obtain ⟨hq, hs, hc⟩ := h
  obtain ⟨settled, hset, hlen, hacc⟩ := hs.settled
  have hidle : s.queue.popPc = .idle := hc.idle.mpr (by rw [hengine]; nofun)
  have hhand : s.queue.inHand = [] := by simp only [SPSCQueue.inHand, hidle]
  have hpend : s.pending = [] := by simp only [pending, hhandler]
  have hfly : s.inFlight = [] := by simp only [inFlight, hengine]
  have hpop := hc.popped
  rw [hpend, List.append_nil] at hset
  rw [hfly, List.append_nil] at hpop
  obtain ⟨held, hfifo, hring⟩ := hq.linearized.fifo
  rw [hhand, List.append_nil, hpop] at hfifo
  have hsize : held.length = s.queue.size := by
    have := congrArg List.length hring
    rw [List.length_map, SPSCQueue.elements, List.length_map, List.length_range', hhand] at this
    exact this.symm
  have hbytes : (acts.filterMap Act.dispatched? ++ held).map (·.bytes.toList) =
      accepted (acts.filterMap Act.packet?) (acts.filterMap Act.returned?) := by
    rw [← hfifo, hset]
    exact hacc
  refine ⟨⟨held, hring, hsize, hfifo, hbytes⟩, by rw [hset, hlen], hc.book,
    PacketPayload.run_calls hc.book, ?_, hs.rejected, hq.rejected_eq⟩
  calc (acts.filterMap Act.packet?).length
      = (accepted (acts.filterMap Act.packet?) (acts.filterMap Act.returned?)).length +
          (acts.filterMap Act.returned?).count false := length_accepted (by rw [hset, hlen])
    _ = (acts.filterMap Act.dispatched?).length + s.queue.size + s.droppedPackets := by
        rw [← hbytes, List.length_map, List.length_append, hsize, hs.dropped]

end Ingress

/-- **Ingress accounting**, and no step of the queue faults on the way. -/
theorem ingress_accounting {k : Nat} {buffer : PacketPayload} {acts : List Ingress.Act} {s : Ingress}
    (h : Run (Ingress.Step (2 ^ k)) (Ingress.init buffer) acts s) :
    (s.handlerPc = .waiting → s.enginePc = .polling → s.Accounted (2 ^ k) acts) ∧
      (∃ r, s.queue.pushStep (2 ^ k) s.recvBuffer = .ok r) ∧
      ∃ r, s.queue.popStep (2 ^ k) = .ok r := by
  have hinv : s.Inv (2 ^ k) acts :=
    h.history (I := Ingress.Inv (2 ^ k)) (Ingress.inv_init buffer) Ingress.Step.inv
  exact ⟨hinv.accounted, hinv.queue.safe.1 _, hinv.queue.safe.2⟩

/-- A short datagram, an add, and a third datagram that finds the ring of one full; then the add is
dispatched and rests. -/
theorem ingress_accounting_run : ∃ acts s,
    Run (Ingress.Step (2 ^ 0)) (Ingress.init ⟨0, Vector.replicate 56 255⟩) acts s ∧
      acts.filterMap Ingress.Act.packet? =
        [65 :: 1 :: List.replicate 7 0 ++ 100 :: 0 :: 0 :: 0 :: 5 :: 0 :: 0 :: 0 :: 66 ::
          List.replicate 38 0, List.replicate 56 7] ∧
      acts.filterMap Ingress.Act.returned? = [true, false] ∧
      (acts.filterMap Ingress.Act.dispatched?).filterMap (·.call?) = [.add 1 100 5 true] ∧
      s.Accounted (2 ^ 0) acts ∧ s.droppedPackets = 1 ∧ s.book.getBestBid = 100 := by
  let short : Completion := ⟨false, [88], by decide⟩
  let add : Completion := ⟨false, 65 :: 1 :: List.replicate 7 0 ++
    100 :: 0 :: 0 :: 0 :: 5 :: 0 :: 0 :: 0 :: 66 :: List.replicate 38 0, by decide⟩
  let other : Completion := ⟨false, List.replicate 56 7, by decide⟩
  have hpushed := ((Ingress.run_skip (c := 2 ^ 0) (s := Ingress.init ⟨0, Vector.replicate 56 255⟩)
    (r := short) rfl (by decide) 1).append
      (Ingress.run_accept (r := add) rfl (by decide) 2 rfl rfl)).append
      (Ingress.run_drop (r := other) rfl (by decide) 3 rfl rfl)
  let packet := ((Ingress.init ⟨0, Vector.replicate 56 255⟩).skipped short 1).buffered add 2
  have hcall : packet.call? = some (.add 1 100 5 true) := by decide +kernel
  have hcheck : ((OrderBook.init.apply sub64 2 (.add 1 100 5 true)).toOption.any
    (·.getBestBid = 100)) = true := by decide +kernel
  obtain ⟨book, hbook, hbest⟩ := exists_ok_of_any hcheck
  have hrun := (hpushed.append (Ingress.run_take rfl rfl rfl rfl)).append
    (Ingress.run_dispatch rfl ((PacketPayload.dispatches_some hcall _ book).mpr ⟨2, hbook⟩))
  refine ⟨_, _, hrun, by decide +kernel, rfl, ?_, (ingress_accounting hrun).1 rfl rfl, rfl,
    of_decide_eq_true hbest⟩
  exact List.filterMap_cons_some hcall

end MarketHandler
