import Mathlib.Data.Bool.Count
import MarketHandler.Ingress.Dispatched
import MarketHandler.Termination

/-!
# Stalled engines

A sell at 0 that is larger than all bids never returns (`matchLoop_runs_on`), so an engine that
dispatches one is lost: its packet is never done, the ring fills up and from then on every datagram is
dropped.

* `OrderBook.Settles`: the matching that a call asks for comes to an end, said of the book alone.
* `Rep.calls_iff`: a call in range returns exactly then.
* `stalled`: **what a call that does not settle does to the rest of the run**.

Both are about calls in bounds: what an add or a replacing modify leaves to rest is below `2 ^ 31`.
A resting order keeps 31 bits of its quantity, so a larger remainder rests with less than its level's
total counts, and a sell that the total covers can then run on as well.
-/

namespace MarketHandler

open Lib

namespace OrderBook

/-- Matching `qty` at the limit `price` comes to an end. -/
def MatchEnds (b : OrderBook) (isBuy : Bool) (price qty : Nat) : Prop :=
  isBuy = true ∨ 0 < price ∨ qty ≤ b.crossingQuantity isBuy price

/-- The matching of an add, or of the add of a replacing modify, comes to an end. -/
def Settles (b : OrderBook) : Op → Prop
  | .add _ price qty isBuy => b.MatchEnds isBuy price qty
  | .cancel _ => True
  | .modify id newPrice newQty => ∀ order, b.orderMap id = some order →
      newPrice ≠ (b.pool.pool order).price ∨ (b.pool.pool order).quantity < newQty →
      b.MatchEnds (b.pool.pool order).isBuy newPrice newQty

end OrderBook

variable {b : OrderBook} {v : QueueBook} {op : Op}

theorem Rep.ends_iff (h : Rep b v) {isBuy : Bool} {p q : Nat} :
    b.MatchEnds isBuy p q ↔ v.Ends isBuy p q := by
  unfold OrderBook.MatchEnds QueueBook.Ends
  rw [h.crossingQuantity_eq]

theorem Rep.settles_iff (h : Rep b v) (hw : v.Wf) : b.Settles op ↔ v.Settles op := by
  cases op with
  | add id p q isBuy => exact h.ends_iff
  | cancel id => exact Iff.rfl
  | modify id p q =>
    constructor
    · intro hs s p₀ o ho hx hne
      obtain ⟨-, hprice, hquant, hbuy⟩ := h.fields ho
      have hend := hs o.slot (by rw [h.map, hx])
      rw [hprice, hquant, hbuy, h.ends_iff] at hend
      exact hend hne
    · intro hs x hx hne
      rw [h.map] at hx
      obtain ⟨s, p₀, o, ho, rfl, rfl⟩ := hw.byId_sound hx
      obtain ⟨-, hprice, hquant, hbuy⟩ := h.fields ho
      rw [hprice, hquant] at hne
      rw [hbuy, h.ends_iff]
      exact hs s p₀ o ho hx hne

/-- **A call in range whose remainder fits returns exactly when it settles.** -/
theorem Rep.calls_iff (h : Rep b v) (hw : v.Wf) (hin : op.InTables) (hfit : v.Fits op) :
    (∃ b', b.Calls op b') ↔ b.Settles op := by
  rw [h.settles_iff hw]
  constructor
  · rintro ⟨b', hc⟩
    exact h.settles hw hc
  · intro hs
    obtain ⟨b', -, hb', -, -⟩ := apply_spec h hw hin hfit hs
    exact ⟨b', hb'.calls⟩

namespace Ingress

variable {k : Nat} {acts acts' : List Act} {s s' : Ingress} {a : Act} {packet : PacketPayload}

/-- What is left of `s` after the actions `acts'` with the engine in a dispatch that never returns. -/
structure Stalled (k : Nat) (acts : List Act) (s : Ingress) (packet : PacketPayload)
    (acts' : List Act) (s' : Ingress) : Prop where
  inv : s'.Inv (2 ^ k) (acts ++ acts')
  enginePc : s'.enginePc = .dispatching packet
  book : s'.book = s.book
  dispatched : acts'.filterMap Act.dispatched? = []
  popped : s'.queue.popped = s.queue.popped
  accepted : s'.queue.accepted.length =
    s.queue.accepted.length + (acts'.filterMap Act.returned?).count true
  dropped : s'.droppedPackets =
    s.droppedPackets + (acts'.filterMap Act.returned?).count false

/-- A step of the network thread keeps the queue's other side. -/
theorem Stalled.receiver {t : Ingress} (h : Stalled k acts s packet acts' t)
    (hinv : s'.Inv (2 ^ k) (acts ++ (acts' ++ [a]))) (hpc : s'.enginePc = t.enginePc)
    (hbook : s'.book = t.book) (hpopped : s'.queue.popped = t.queue.popped)
    (haccepted : s'.queue.accepted = t.queue.accepted)
    (hdropped : s'.droppedPackets = t.droppedPackets) (hdispatched : a.dispatched? = none)
    (hreturned : a.returned? = none) : Stalled k acts s packet (acts' ++ [a]) s' where
  inv := hinv
  enginePc := hpc.trans h.enginePc
  book := hbook.trans h.book
  dispatched := by rw [filterMap_snoc_none hdispatched, h.dispatched]
  popped := hpopped.trans h.popped
  accepted := by rw [haccepted, filterMap_snoc_none hreturned, h.accepted]
  dropped := by rw [hdropped, filterMap_snoc_none hreturned, h.dropped]

theorem Stalled.push {t : Ingress} (h : Stalled k acts s packet acts' t)
    (hpc : t.handlerPc = .pushing) {queue : SPSCQueue PacketPayload} {r : Option Bool}
    (hrun : t.queue.pushStep (2 ^ k) t.recvBuffer = .ok (queue, r))
    (hinv : (t.pushed queue r).Inv (2 ^ k) (acts ++ (acts' ++ [.push r]))) :
    Stalled k acts s packet (acts' ++ [.push r]) (t.pushed queue r) := by
  have hbusy : t.queue.pushPc ≠ .idle := fun hidle => h.inv.settled.idle.mp hidle hpc
  have hp := SPSCQueue.pushStep_pushed hbusy h.inv.settled.holds hrun
  have haccepted := congrArg List.length hp.accepted
  rw [List.length_append, h.accepted] at haccepted
  match r with
  | none => exact h.receiver hinv rfl rfl hp.popped (hp.accepted.trans (List.append_nil _)) rfl rfl rfl
  | some true =>
    refine ⟨hinv, h.enginePc, h.book, ?_, hp.popped.trans h.popped, ?_, ?_⟩
    · rw [filterMap_snoc_none rfl, h.dispatched]
    · rw [filterMap_snoc, List.count_append, ← Nat.add_assoc]
      exact haccepted
    · rw [filterMap_snoc, List.count_append]
      exact h.dropped
  | some false =>
    refine ⟨hinv, h.enginePc, h.book, ?_, hp.popped.trans h.popped, ?_, ?_⟩
    · rw [filterMap_snoc_none rfl, h.dispatched]
    · rw [filterMap_snoc, List.count_append]
      exact haccepted
    · rw [filterMap_snoc, List.count_append, ← Nat.add_assoc, ← h.dropped]
      rfl

/-- The engine has no step, and the network thread's leave what it holds. -/
theorem Stalled.step (h : Stalled k acts s packet acts' s') {t : Ingress}
    (hstuck : ¬ ∃ book, packet.Dispatches s.book book) (hs : Step (2 ^ k) s' a t) :
    Stalled k acts s packet (acts' ++ [a]) t := by
  have hinv := hs.inv h.inv
  rw [List.append_assoc] at hinv
  have hpc := h.enginePc
  cases hs with
  | receive r _ =>
    exact h.receiver hinv (receive_enginePc s' r) (receive_book s' r) (by rw [receive_queue])
      (by rw [receive_queue]) (receive_droppedPackets s' r) rfl rfl
  | handle tsc _ =>
    unfold Ingress.handle at hinv ⊢
    split_ifs at hinv ⊢ <;> exact h.receiver hinv rfl rfl rfl rfl rfl rfl rfl
  | push hpushing hrun => exact h.push hpushing hrun hinv
  | poll hpolling => exact absurd (hpc.symm.trans hpolling) (by simp)
  | pop hpopping => exact absurd (hpc.symm.trans hpopping) (by simp)
  | @dispatch packet' book hdispatching hd =>
    obtain rfl := EnginePc.dispatching.inj (hpc.symm.trans hdispatching)
    exact absurd ⟨book, h.book ▸ hd⟩ hstuck

/-- The ring takes no more than fits. -/
theorem Stalled.fills (h : Stalled k acts s packet acts' s') (hinv : s.Inv (2 ^ k) acts) :
    s.queue.size + (acts'.filterMap Act.returned?).count true ≤ 2 ^ k := by
  have hpopped := congrArg List.length h.popped
  have hle := hinv.queue.pop_le.trans hinv.queue.pushCached_le
  have hle' := h.inv.queue.pop_le.trans h.inv.queue.pushCached_le
  rw [h.inv.queue.popped_eq, hinv.queue.popped_eq, List.length_take, List.length_take,
    h.inv.queue.length_eq, hinv.queue.length_eq, Nat.min_eq_left hle, Nat.min_eq_left hle'] at hpopped
  have haccepted := h.accepted
  rw [h.inv.queue.length_eq, hinv.queue.length_eq] at haccepted
  have hpush := h.inv.queue.push_le
  have hcached := h.inv.queue.popCached_le
  unfold SPSCQueue.size
  omega

end Ingress

/-- **An engine that dispatches a sell at 0 larger than all bids is lost.** In every run whose calls
the tables hold, with remainders below `2 ^ 31`, the dispatch in hand returns exactly when its call
settles. If it does not, then whatever the network thread goes on to receive, no packet is
dispatched any more and the book stays; the ring takes what still fits, and every other full datagram
is dropped. -/
theorem stalled {k : Nat} {buffer packet : PacketPayload} {acts : List Ingress.Act} {s : Ingress}
    {op : Op} (h : Run (Ingress.StepWith OrderBook.InBounds (2 ^ k)) (Ingress.init buffer) acts s)
    (hpc : s.enginePc = .dispatching packet) (hcall : packet.call? = some op)
    (hop : s.book.InBounds op) :
    ((∃ book, packet.Dispatches s.book book) ↔ s.book.Settles op) ∧
    (¬ s.book.Settles op → ∀ acts' s', Run (Ingress.Step (2 ^ k)) s acts' s' →
      s'.enginePc = .dispatching packet ∧ s'.book = s.book ∧
      acts'.filterMap Ingress.Act.dispatched? = [] ∧
      s.queue.size + (acts'.filterMap Ingress.Act.returned?).count true ≤ 2 ^ k ∧
      s'.droppedPackets + (acts'.filterMap Ingress.Act.returned?).count true =
        s.droppedPackets + (acts'.filterMap Ingress.Act.returned?).length) := by
  obtain ⟨hinv, hreaches⟩ := Ingress.reaches_of_run h
  obtain ⟨v, hrep, hw, -⟩ := OrderBook.Reaches.rep_of (I := fun _ _ => True) (fun hop => hop)
    hreaches trivial fun _ _ _ _ _ => trivial
  have hreturns : (∃ book, packet.Dispatches s.book book) ↔ s.book.Settles op := by
    simp only [PacketPayload.dispatches_some hcall]
    exact hrep.calls_iff hw hop.1 (hrep.fits hop.2)
  refine ⟨hreturns, fun hsettles acts' s' hrun => ?_⟩
  have h0 : Ingress.Stalled k acts s packet [] s :=
    ⟨by rwa [List.append_nil], hpc, rfl, rfl, rfl, rfl, rfl⟩
  have hst : Ingress.Stalled k acts s packet acts' s' :=
    hrun.history h0 fun hi hs => hi.step (hreturns.not.mpr hsettles) hs
  refine ⟨hst.enginePc, hst.book, hst.dispatched, hst.fills hinv, ?_⟩
  have hcount := List.count_true_add_count_false (acts'.filterMap Ingress.Act.returned?)
  have hdropped := hst.dropped
  omega

/-- A sell of 1 at 0 goes through a ring of one to an engine with an empty book. -/
theorem stalled_run : ∃ (packet : PacketPayload) (acts : List Ingress.Act) (s : Ingress),
    packet.call? = some (.add 0 0 1 false) ∧
      Run (Ingress.StepWith OrderBook.InBounds (2 ^ 0)) (Ingress.init packet) acts s ∧
      (¬ ∃ book, packet.Dispatches s.book book) ∧
      ∀ acts' s', Run (Ingress.Step (2 ^ 0)) s acts' s' →
        (acts'.filterMap Ingress.Act.returned?).count true ≤ 1 ∧
        acts'.filterMap Ingress.Act.dispatched? = [] := by
  let packet : PacketPayload := ⟨0, #v[65, 0, 0, 0, 0, 0, 0, 0, 0, 0, 0, 0, 0, 1, 0, 0, 0, 83, 0, 0, 0,
    0, 0, 0, 0, 0, 0, 0, 0, 0, 0, 0, 0, 0, 0, 0, 0, 0, 0, 0, 0, 0, 0, 0, 0, 0, 0, 0, 0, 0, 0, 0, 0, 0,
    0, 0]⟩
  have hcall : packet.call? = some (.add 0 0 1 false) := by decide +kernel
  obtain ⟨acts, s, hs, hpc, hbook, -, -, -⟩ := Ingress.run_taken OrderBook.InBounds packet
  have hsettles : ¬ s.book.Settles (.add 0 0 1 false) := by
    rw [hbook, rep_init.settles_iff .empty]
    show ¬ QueueBook.empty.Ends false 0 1
    rw [QueueBook.not_ends_iff, QueueBook.crossing_empty]
    exact Nat.one_pos
  have hop : s.book.InBounds (.add 0 0 1 false) :=
    ⟨⟨by decide, by decide⟩, OrderBook.fits_of_smallQuantity (by decide : 1 < 2 ^ 31)⟩
  rw [← pow_zero 2] at hs
  obtain ⟨hreturns, hlost⟩ := stalled hs hpc hcall hop
  refine ⟨packet, acts, s, hcall, hs, hreturns.not.mpr hsettles, fun acts' s' hrun => ?_⟩
  obtain ⟨-, -, hnone, hfits, -⟩ := hlost hsettles acts' s' hrun
  exact ⟨by omega, hnone⟩

end MarketHandler
