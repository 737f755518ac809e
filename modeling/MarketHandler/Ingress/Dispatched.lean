import MarketHandler.Ingress.Accounting
import MarketHandler.Runs

/-!
# The calls a run dispatches

`Ingress.StepWith ok` is a step that dispatches no call but one that `ok` admits on the book it meets.

* `Ingress.StepWith.reaches`: the book of a run of such steps is one that the calls dispatched lead to.
-/

namespace MarketHandler

open Lib

namespace Ingress

variable {k : Nat} {acts : List Act} {s s' : Ingress} {a : Act} {ok : OrderBook → Op → Prop}

/-- A step; a call that it dispatches is one that `ok` admits. -/
def StepWith (ok : OrderBook → Op → Prop) (capacity : Nat) (s : Ingress) (a : Act) (s' : Ingress) :
    Prop :=
  Step capacity s a s' ∧ ∀ packet ∈ a.dispatched?, ∀ op ∈ packet.call?, ok s.book op

/-- The calls of the packets dispatched so far. -/
def calls (acts : List Act) : List Op := (acts.filterMap Act.dispatched?).filterMap (·.call?)

theorem calls_of_none (h : a.dispatched? = none) : calls (acts ++ [a]) = calls acts := by
  unfold calls
  rw [filterMap_snoc_none h]

theorem calls_dispatch (acts : List Act) (packet : PacketPayload) :
    calls (acts ++ [.dispatch packet]) = calls acts ++ packet.call?.toList := by
  unfold calls
  rw [filterMap_snoc, List.filterMap_append]
  exact congrArg (_ ++ ·) (by cases h : packet.call? <;> simp [Act.dispatched?, h])

/-- Nothing but a dispatch changes the book. -/
theorem Step.book_eq {c : Nat} (h : Step c s a s') (ha : a.dispatched? = none) :
    s'.book = s.book := by
  cases h with
  | receive r hpc => exact receive_book s r
  | handle tsc hpc =>
    unfold Ingress.handle
    split_ifs <;> rfl
  | @push queue r hpc hrun => cases r <;> rfl
  | poll hpc => rfl
  | @pop queue r hpc hrun =>
    match r with
    | none => rfl
    | some none => rfl
    | some (some packet) => rfl
  | dispatch hpc hd => cases ha

/-- One more step. -/
theorem StepWith.reaches {c : Nat} (hstep : StepWith ok c s a s')
    (h : OrderBook.Reaches ok (calls acts) s.book) :
    OrderBook.Reaches ok (calls (acts ++ [a])) s'.book := by
  obtain ⟨hs, hok⟩ := hstep
  cases hd : a.dispatched? with
  | none =>
    rw [calls_of_none hd, hs.book_eq hd]
    exact h
  | some packet =>
    cases hs with
    | @dispatch packet' book hpc hdispatch =>
      obtain rfl := Option.some.inj hd
      rw [calls_dispatch]
      cases hcall : packet'.call? with
      | none =>
        obtain rfl := (PacketPayload.dispatches_none hcall _ _).mp hdispatch
        rwa [Option.toList_none, List.append_nil]
      | some op =>
        exact Run.snoc h ⟨hok packet' hd op hcall,
          (PacketPayload.dispatches_some hcall _ _).mp hdispatch⟩
    | _ => cases hd

/-- The invariant of the threads, and the book that the calls dispatched lead to. -/
theorem reaches_of_run {buffer : PacketPayload}
    (h : Run (StepWith ok (2 ^ k)) (init buffer) acts s) :
    s.Inv (2 ^ k) acts ∧ OrderBook.Reaches ok (calls acts) s.book := by
  have h0 : OrderBook.Reaches ok (calls []) (init buffer).book := Run.nil
  exact h.history (I := fun acts s => s.Inv (2 ^ k) acts ∧ OrderBook.Reaches ok (calls acts) s.book)
    ⟨inv_init buffer, h0⟩ fun hi hs => ⟨hs.1.inv hi.1, hs.reaches hi.2⟩

/-- A buffer that receives its own bytes again. -/
theorem receive_self (packet : PacketPayload) : packet.receive packet.bytes.toList = packet := by
  have hbytes := PacketPayload.receive_full (p := packet) packet.bytes.length_toList
  rw [Vector.toList_inj] at hbytes
  show ({ packet with bytes := (packet.receive packet.bytes.toList).bytes } : PacketPayload) = packet
  rw [hbytes]

/-- A run that dispatches nothing is one with any condition on the calls. -/
theorem run_with {c : Nat} (h : Run (Step c) s acts s')
    (hnone : acts.filterMap Act.dispatched? = []) (ok : OrderBook → Op → Prop) :
    Run (StepWith ok c) s acts s' := by
  induction h with
  | nil => exact .nil
  | @snoc acts s s' a _ hs ih =>
    rw [filterMap_snoc, List.append_eq_nil_iff, Option.toList_eq_nil_iff] at hnone
    exact (ih hnone.1).snoc ⟨hs, by simp [hnone.2]⟩

/-- The bytes of `packet` arrive and go through a ring of one into the engine's hands. -/
theorem run_taken (ok : OrderBook → Op → Prop) (packet : PacketPayload) :
    ∃ acts s, Run (StepWith ok 1) (init packet) acts s ∧ s.enginePc = .dispatching packet ∧
      s.book = .init ∧ s.queue.accepted = [packet] ∧ s.queue.popCursor = 1 ∧
      acts.filterMap Act.packet? = [packet.bytes.toList] := by
  let full : Completion := ⟨false, packet.bytes.toList, packet.bytes.length_toList.le⟩
  have hpacket : isPacket false packet.bytes.toList.length = true := by
    rw [packet.bytes.length_toList]
    rfl
  have hself : (init packet).buffered full packet.ingressTsc = packet := by
    show ({ packet.receive packet.bytes.toList with ingressTsc := packet.ingressTsc } :
      PacketPayload) = packet
    rw [receive_self]
  have hrun := (run_accept (k := 0) (s := init packet) (r := full) rfl hpacket packet.ingressTsc rfl
    rfl).append (run_take rfl rfl rfl rfl)
  refine ⟨_, _, run_with hrun rfl ok, congrArg _ hself, rfl, congrArg ([·]) hself, rfl, ?_⟩
  exact List.filterMap_cons_some (if_pos hpacket)

end Ingress

end MarketHandler
