import MarketHandler.Ingress.Dispatched
import MarketHandler.Reference
import MarketHandler.SPSCQueue.Atomic

/-!
# The service behind the socket

What the two threads, the ring and the linked levels amount to: a buffer of bounded size that accepts
or drops each packet, and a worker that takes one packet at a time from it and applies its call to a
list of resting entries (`Service`). Each action of the two threads is at most one step of the service:
a `push` takes effect when it stores its cursor or finds the ring full, a packet is taken when `pop`
stores its own, and it is processed when its dispatch returns.

* `Ingress.ServedStep`: a step that dispatches no call but an allowed one.
* `Ingress.ServedStep.follows`: the service follows each such step.
* `served`: **every run of such steps is a run of the service**, with the same packets accepted and
  processed in the same order, and the book abstracts to the service's at every moment.
-/

namespace MarketHandler

open Lib

/-- A bounded buffer, the packet the worker has in its hands, the book and the count of drops. -/
structure Service where
  buffer : List PacketPayload
  hand : Option PacketPayload
  book : RefBook
  dropped : Nat

/-- The reference book after a packet. -/
def RefBook.serve (r : RefBook) (packet : PacketPayload) : RefBook :=
  match packet.call? with
  | some op => r.apply op
  | none => r

namespace Service

def init : Service := ⟨[], none, [], 0⟩

inductive Act where
  | accept (packet : PacketPayload)
  | drop
  | take
  | process (packet : PacketPayload)

/-- One step of the service. -/
inductive Step (capacity : Nat) : Service → Act → Service → Prop
  | accept {t : Service} (packet : PacketPayload) : t.buffer.length < capacity →
      Step capacity t (.accept packet) { t with buffer := t.buffer ++ [packet] }
  | drop {t : Service} : capacity ≤ t.buffer.length →
      Step capacity t .drop { t with dropped := t.dropped + 1 }
  | take {t : Service} {packet : PacketPayload} {rest : List PacketPayload} : t.hand = none →
      t.buffer = packet :: rest →
      Step capacity t .take { t with buffer := rest, hand := some packet }
  | process {t : Service} {packet : PacketPayload} : t.hand = some packet →
      Step capacity t (.process packet) { t with hand := none, book := t.book.serve packet }

end Service

/-- What is seen of a run: that a packet is accepted, and which is processed. -/
inductive ServiceEvent where
  | accepted
  | processed (packet : PacketPayload)

namespace Service.Act

def event? : Act → Option ServiceEvent
  | .accept _ => some .accepted
  | .process packet => some (.processed packet)
  | _ => none

def accepted? : Act → Option PacketPayload
  | .accept packet => some packet
  | _ => none

end Service.Act

namespace Ingress

def Act.event? : Act → Option ServiceEvent
  | .push (some true) => some .accepted
  | .dispatch packet => some (.processed packet)
  | _ => none

/-- A step that dispatches no call but an allowed one. -/
abbrev ServedStep : Nat → Ingress → Act → Ingress → Prop := StepWith OrderBook.Allowed

/-- The drop that `push` has decided and not yet returned. -/
def refused (capacity : Nat) (s : Ingress) : Nat :=
  match s.queue.pushPc.phase capacity s.recvBuffer with
  | .done _ => 1
  | _ => 0

variable {k : Nat} {acts : List Act} {bs : List Service.Act} {s s' : Ingress} {t : Service} {a : Act}

/-- The service at the moment `s` of the run `acts`. -/
structure Serves (k : Nat) (acts : List Act) (bs : List Service.Act) (s : Ingress) (t : Service) :
    Prop where
  inv : s.Inv (2 ^ k) acts
  reaches : OrderBook.Reaches OrderBook.Allowed (calls acts) s.book
  buffer : t.buffer = s.queue.held
  hand : t.hand.toList = s.inFlight
  book : t.book = RefBook.run (calls acts)
  dropped : t.dropped = s.droppedPackets + s.refused (2 ^ k)
  events : bs.filterMap Service.Act.event? = acts.filterMap Act.event?
  accepted : bs.filterMap Service.Act.accepted? = s.queue.accepted

theorem refused_of_idle {c : Nat} (h : s.queue.pushPc = .idle) : s.refused c = 0 := by
  unfold refused
  rw [h]
  rfl

theorem refused_of_phase {c : Nat} (h : s'.queue.pushPc.phase c s'.recvBuffer =
    s.queue.pushPc.phase c s.recvBuffer) : s'.refused c = s.refused c := by
  unfold refused
  rw [h]

/-- What the service must be after an action, with the steps `cs` it takes. -/
abbrev Followed (k : Nat) (acts : List Act) (bs : List Service.Act) (s' : Ingress) (t : Service) :
    Prop :=
  ∃ cs t', Run (Service.Step (2 ^ k)) t cs t' ∧ Serves k acts (bs ++ cs) s' t'

/-- An action that the service does not notice. -/
theorem Serves.stay (h : Serves k acts bs s t) (hinv : s'.Inv (2 ^ k) (acts ++ [a]))
    (hreaches : OrderBook.Reaches OrderBook.Allowed (calls (acts ++ [a])) s'.book)
    (hcall : a.dispatched? = none) (hevent : a.event? = none)
    (hheld : s'.queue.held = s.queue.held) (haccepted : s'.queue.accepted = s.queue.accepted)
    (hfly : s'.inFlight = s.inFlight)
    (hdropped : s'.droppedPackets + s'.refused (2 ^ k) = s.droppedPackets + s.refused (2 ^ k)) :
    Followed k (acts ++ [a]) bs s' t := by
  refine ⟨[], t, .nil, hinv, hreaches, ?_, ?_, ?_, ?_, ?_, ?_⟩
  · rw [hheld, h.buffer]
  · rw [hfly, h.hand]
  · rw [calls_of_none hcall, h.book]
  · rw [hdropped, h.dropped]
  · rw [List.append_nil, filterMap_snoc_none hevent, h.events]
  · rw [List.append_nil, haccepted, h.accepted]

/-- A push decides to drop, or publishes its packet. -/
theorem Serves.push (h : Serves k acts bs s t) (hpc : s.handlerPc = .pushing)
    {queue : SPSCQueue PacketPayload} {r : Option Bool}
    (hrun : s.queue.pushStep (2 ^ k) s.recvBuffer = .ok (queue, r))
    (hinv : (s.pushed queue r).Inv (2 ^ k) (acts ++ [.push r]))
    (hreaches : OrderBook.Reaches OrderBook.Allowed (calls (acts ++ [.push r]))
      (s.pushed queue r).book) :
    Followed k (acts ++ [.push r]) bs (s.pushed queue r) t := by
  have hbusy : s.queue.pushPc ≠ .idle := fun hidle => h.inv.settled.idle.mp hidle hpc
  have hp := SPSCQueue.pushStep_pushed hbusy h.inv.settled.holds hrun
  have haccepted := hp.accepted
  cases pushStep_effect h.inv.queue hbusy h.inv.settled.holds hrun with
  | silent hheld hsame =>
    exact h.stay hinv hreaches rfl rfl hheld (haccepted.trans (List.append_nil _)) rfl
      (congrArg (s.droppedPackets + ·) (refused_of_phase hsame))
  | refused hheld hfull hcalled hdone =>
    refine ⟨[.drop], { t with dropped := t.dropped + 1 }, .cons (.drop ?_) .nil, hinv,
      hreaches, ?_, h.hand, ?_, ?_, ?_, ?_⟩
    · rw [h.buffer]
      exact hfull
    · exact h.buffer.trans hheld.symm
    · rw [calls_of_none rfl]
      exact h.book
    · have hbefore : s.refused (2 ^ k) = 0 := by rw [Ingress.refused, hcalled]
      have hafter : (s.pushed queue none).refused (2 ^ k) = 1 := by
        show (match queue.pushPc.phase (2 ^ k) s.recvBuffer with | .done _ => 1 | _ => 0) = 1
        rw [hdone]
      rw [hafter]
      show t.dropped + 1 = s.droppedPackets + 1
      rw [h.dropped, hbefore]
    · rw [filterMap_snoc_none rfl, filterMap_snoc_none rfl, h.events]
    · rw [filterMap_snoc_none rfl, h.accepted]
      exact (haccepted.trans (List.append_nil _)).symm
  | failed hheld hdone hidle =>
    have hbefore : s.refused (2 ^ k) = 1 := by rw [Ingress.refused, hdone]
    have hafter : (s.pushed queue (some false)).refused (2 ^ k) = 0 := by
      show (match queue.pushPc.phase (2 ^ k) s.recvBuffer with | .done _ => 1 | _ => 0) = 0
      rw [hidle]
    refine h.stay hinv hreaches rfl rfl hheld (haccepted.trans (List.append_nil _)) rfl ?_
    rw [hafter, hbefore]
    rfl
  | published hheld hlt hcalled hidle =>
    refine ⟨[.accept s.recvBuffer], { t with buffer := t.buffer ++ [s.recvBuffer] },
      .cons (.accept _ ?_) .nil, hinv, hreaches, ?_, h.hand, ?_, ?_, ?_, ?_⟩
    · rw [h.buffer]
      exact hlt
    · show t.buffer ++ [s.recvBuffer] = queue.held
      rw [hheld, h.buffer]
    · rw [calls_of_none rfl]
      exact h.book
    · have hbefore : s.refused (2 ^ k) = 0 := by rw [Ingress.refused, hcalled]
      have hafter : (s.pushed queue (some true)).refused (2 ^ k) = 0 := by
        show (match queue.pushPc.phase (2 ^ k) s.recvBuffer with | .done _ => 1 | _ => 0) = 0
        rw [hidle]
      rw [hafter]
      show t.dropped = s.droppedPackets
      rw [h.dropped, hbefore]
      rfl
    · rw [filterMap_snoc, filterMap_snoc, h.events]
      rfl
    · rw [filterMap_snoc, h.accepted]
      exact haccepted.symm

/-- A pop takes the oldest packet. -/
theorem Serves.pop (h : Serves k acts bs s t) (hpc : s.enginePc = .popping)
    {queue : SPSCQueue PacketPayload} {r : Option (Option PacketPayload)}
    (hrun : s.queue.popStep (2 ^ k) = .ok (queue, r))
    (hinv : (s.popped queue r).Inv (2 ^ k) (acts ++ [.pop r]))
    (hreaches : OrderBook.Reaches OrderBook.Allowed (calls (acts ++ [.pop r]))
      (s.popped queue r).book) :
    Followed k (acts ++ [.pop r]) bs (s.popped queue r) t := by
  have hbusy : s.queue.popPc ≠ .idle := fun hidle => h.inv.consumed.idle.mp hidle hpc
  have hp := SPSCQueue.popStep_popped hbusy hrun
  have hfly : s.inFlight = [] := by simp only [inFlight, hpc]
  have hphase : queue.pushPc.phase (2 ^ k) s.recvBuffer = s.queue.pushPc.phase (2 ^ k) s.recvBuffer :=
    by rw [hp.pushPc]
  cases popStep_effect h.inv.queue hbusy hrun with
  | silent hheld hsame =>
    exact h.stay hinv hreaches rfl rfl hheld hp.accepted rfl
      (congrArg (s.droppedPackets + ·) (refused_of_phase hphase))
  | refused hheld hnil hcalled hdone =>
    exact h.stay hinv hreaches rfl rfl hheld hp.accepted rfl
      (congrArg (s.droppedPackets + ·) (refused_of_phase hphase))
  | failed hheld hdone hidle =>
    exact h.stay hinv hreaches rfl rfl hheld hp.accepted hfly.symm
      (congrArg (s.droppedPackets + ·) (refused_of_phase hphase))
  | taken packet hcons hcalled hidle =>
    have hhand : t.hand = none := Option.toList_eq_nil_iff.mp (h.hand.trans hfly)
    refine ⟨[.take], { t with buffer := queue.held, hand := some packet },
      .cons (.take hhand (h.buffer.trans hcons)) .nil, hinv, hreaches, rfl, rfl, ?_, ?_, ?_, ?_⟩
    · rw [calls_of_none rfl]
      exact h.book
    · have hsame : (s.popped queue (some (some packet))).refused (2 ^ k) = s.refused (2 ^ k) :=
        refused_of_phase hphase
      rw [hsame]
      exact h.dropped
    · rw [filterMap_snoc_none rfl, filterMap_snoc_none rfl, h.events]
    · rw [filterMap_snoc_none rfl, h.accepted]
      exact hp.accepted.symm

/-- A dispatch processes the packet in hand. -/
theorem Serves.dispatch (h : Serves k acts bs s t) {packet : PacketPayload} {book : OrderBook}
    (hpc : s.enginePc = .dispatching packet)
    (hinv : Ingress.Inv (2 ^ k) (acts ++ [.dispatch packet])
      { s with book := book, enginePc := .polling })
    (hreaches : OrderBook.Reaches OrderBook.Allowed (calls (acts ++ [.dispatch packet])) book) :
    Followed k (acts ++ [.dispatch packet]) bs { s with book := book, enginePc := .polling } t := by
  have hfly : s.inFlight = [packet] := by simp only [inFlight, hpc]
  have hhand : t.hand = some packet := Option.toList_eq_singleton_iff.mp (h.hand.trans hfly)
  refine ⟨[.process packet], { t with hand := none, book := t.book.serve packet },
    .cons (.process hhand) .nil, hinv, hreaches, h.buffer, rfl, ?_, h.dropped, ?_, ?_⟩
  · rw [calls_dispatch]
    show t.book.serve packet = _
    rw [h.book, RefBook.serve]
    cases packet.call? with
    | none => rw [Option.toList_none, List.append_nil]
    | some op => exact (RefBook.run_snoc _ op).symm
  · rw [filterMap_snoc, filterMap_snoc, h.events]
    rfl
  · rw [filterMap_snoc_none rfl, h.accepted]

/-- **The service follows each step.** -/
theorem ServedStep.follows (h : Serves k acts bs s t) (hstep : ServedStep (2 ^ k) s a s') :
    Followed k (acts ++ [a]) bs s' t := by
  have hreaches := hstep.reaches h.reaches
  have hs := hstep.1
  have hinv := hs.inv h.inv
  cases hs with
  | receive r hpc =>
    have hidle : s.queue.pushPc = .idle := h.inv.settled.idle.mpr (by rw [hpc]; nofun)
    have hidle' : (s.receive r).queue.pushPc = .idle := by rw [receive_queue, hidle]
    refine h.stay hinv hreaches rfl rfl (by rw [receive_queue]) (by rw [receive_queue]) ?_ ?_
    · unfold inFlight
      rw [receive_enginePc]
    · rw [receive_droppedPackets, refused_of_idle hidle', refused_of_idle hidle]
  | @handle ec bytesRecvd tsc hpc =>
    have hidle : s.queue.pushPc = .idle := h.inv.settled.idle.mpr (by rw [hpc]; nofun)
    have hzero := refused_of_idle (c := 2 ^ k) hidle
    unfold Ingress.handle at hinv hreaches ⊢
    split_ifs at hinv hreaches ⊢
    · exact h.stay hinv hreaches rfl rfl rfl rfl rfl (by rw [hzero]; rfl)
    · have hzero' : refused (2 ^ k) { s with
          recvBuffer := { s.recvBuffer with ingressTsc := tsc }, handlerPc := .waiting } = 0 :=
        refused_of_idle hidle
      exact h.stay hinv hreaches rfl rfl rfl rfl rfl (by rw [hzero, ← hzero'])
  | @push queue r hpc hrun => exact h.push hpc hrun hinv hreaches
  | poll hpc => exact h.stay hinv hreaches rfl rfl rfl rfl (by simp only [inFlight, hpc]) rfl
  | @pop queue r hpc hrun => exact h.pop hpc hrun hinv hreaches
  | @dispatch packet book hpc hd => exact h.dispatch hpc hinv hreaches

end Ingress

/-- **The two threads are the service**: whatever the interleaving, a run that dispatches allowed calls
only is a run of the service that accepts and processes the same packets in the same order; its buffer
is what the ring holds, its book is what the levels hold, and no allowed dispatch fails to return. -/
theorem served {k : Nat} {buffer : PacketPayload} {acts : List Ingress.Act} {s : Ingress}
    (h : Run (Ingress.ServedStep (2 ^ k)) (Ingress.init buffer) acts s) :
    (∃ bs t, Run (Service.Step (2 ^ k)) Service.init bs t ∧
      bs.filterMap Service.Act.event? = acts.filterMap Ingress.Act.event? ∧
      bs.filterMap Service.Act.accepted? = s.queue.accepted ∧ t.buffer = s.queue.held ∧
      t.hand.toList = s.inFlight ∧ s.book.Abstracts t.book ∧
      (s.handlerPc ≠ .pushing → t.dropped = s.droppedPackets)) ∧
    ∀ packet, s.enginePc = .dispatching packet → (∀ op ∈ packet.call?, s.book.Allowed op) →
      ∃ book, packet.Dispatches s.book book := by
  have hfollow : ∃ bs t, Run (Service.Step (2 ^ k)) Service.init bs t ∧
      Ingress.Serves k acts bs s t :=
    h.follow ⟨Ingress.inv_init buffer, Run.nil, rfl, rfl, rfl, rfl, rfl, rfl⟩
      fun hr hs => hs.follows hr
  obtain ⟨bs, t, hrun, hserves⟩ := hfollow
  obtain ⟨v, hrep, hw, ha, habs⟩ := hserves.reaches.abs
  refine ⟨⟨bs, t, hrun, hserves.events, hserves.accepted, hserves.buffer, hserves.hand,
    hserves.book ▸ hrep.abstracts hw ha habs, fun hpc => ?_⟩, fun packet _ hallowed => ?_⟩
  · rw [hserves.dropped, Ingress.refused_of_idle (hserves.inv.settled.idle.mpr hpc), Nat.add_zero]
  · cases hcall : packet.call? with
    | none => exact ⟨s.book, (PacketPayload.dispatches_none hcall _ _).mpr rfl⟩
    | some op =>
      obtain ⟨book, hbook⟩ := hserves.reaches.returns (hallowed op hcall).1
      exact ⟨book, (PacketPayload.dispatches_some hcall _ _).mpr hbook⟩

/-- A bid at 100 goes through a ring of one and is dispatched. -/
theorem served_run : ∃ (packet : PacketPayload) (acts : List Ingress.Act) (s : Ingress)
    (bs : List Service.Act) (t : Service), packet.call? = some (.add 1 100 5 true) ∧
      Run (Ingress.ServedStep (2 ^ 0)) (Ingress.init packet) acts s ∧
      Run (Service.Step (2 ^ 0)) Service.init bs t ∧
      bs.filterMap Service.Act.accepted? = [packet] ∧ t.buffer = [] ∧ t.hand = none ∧
      s.book.Abstracts t.book := by
  let packet : PacketPayload := ⟨2, #v[65, 1, 0, 0, 0, 0, 0, 0, 0, 100, 0, 0, 0, 5, 0, 0, 0, 66, 0, 0, 0,
    0, 0, 0, 0, 0, 0, 0, 0, 0, 0, 0, 0, 0, 0, 0, 0, 0, 0, 0, 0, 0, 0, 0, 0, 0, 0, 0, 0, 0, 0, 0, 0, 0,
    0, 0]⟩
  have hcall : packet.call? = some (.add 1 100 5 true) := by decide +kernel
  have hempty : OrderBook.Reaches OrderBook.Allowed [] .init := Run.nil
  have hallowed : OrderBook.init.Allowed (.add 1 100 5 true) :=
    ⟨by decide, hempty.fresh_iff.mpr (by simp [RefBook.run, RefBook.Fresh])⟩
  obtain ⟨book, hbook⟩ := hempty.returns hallowed.1
  obtain ⟨acts, s, hs, hpc, hsbook, haccepted, hcursor, -⟩ :=
    Ingress.run_taken OrderBook.Allowed packet
  have hd : packet.Dispatches s.book book :=
    hsbook ▸ (PacketPayload.dispatches_some hcall _ _).mpr hbook
  have hrun : Run (Ingress.ServedStep (2 ^ 0)) (Ingress.init packet) (acts ++ [.dispatch packet])
      { s with book := book, enginePc := .polling } := by
    refine hs.snoc ⟨.dispatch hpc hd, fun packet' hp op hop => ?_⟩
    obtain rfl := Option.some.inj hp
    obtain rfl := Option.some.inj (hcall.symm.trans hop)
    rwa [hsbook]
  obtain ⟨⟨bs, t, hbs, -, hacc, hbuffer, hhand, hbook, -⟩, -⟩ := served hrun
  refine ⟨packet, _, _, bs, t, hcall, hrun, hbs, hacc.trans haccepted, ?_,
    Option.toList_eq_nil_iff.mp hhand, hbook⟩
  rw [hbuffer, SPSCQueue.held, haccepted, hcursor]
  rfl

end MarketHandler
