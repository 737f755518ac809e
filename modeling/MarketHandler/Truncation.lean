import MarketHandler.Invariants

/-!
# The 31-bit quantity

A remainder of `2 ^ 31` or more does not fit in the bit-field `quantity`, while the level's total
counts it in full: the stored order is short, or empty behind a total that is not zero
(`truncated`). A call whose add leaves less than that to rest (`OrderBook.Fits`) is safe.

* `untruncated`: in runs of such calls every stored quantity is positive, every total is the sum of
  the stored quantities, and an order is stored with exactly the remainder `match_order` returned.
-/

namespace MarketHandler

open Lib

/-- Quantities of 32 bits. -/
def Op.Quantity32 : Op → Prop
  | .add _ _ qty _ => qty < 2 ^ 32
  | .cancel _ => True
  | .modify _ _ newQty => newQty < 2 ^ 32

namespace OrderBook

/-- Stored quantities are positive, totals are their sums, and a total that is not zero has orders
behind it. -/
def Untruncated (b : OrderBook) : Prop :=
  (∀ x, b.Rests x → 0 < (b.pool.pool x).quantity) ∧
    ∀ s p, ∃ l, b.Queue s p l ∧
      (b.side s p).totalQuantity = (l.map fun x => (b.pool.pool x).quantity).sum ∧
      ((b.side s p).totalQuantity ≠ 0 → l ≠ [])

/-- If `add_order` from `b` to `b'` rests a remainder, `b'` stores what `match_order` returned. -/
def StoresRemainder (b : OrderBook) (id price qty : Nat) (isBuy : Bool) (b' : OrderBook) : Prop :=
  ∀ fuel b₁ remainingQty, b.matchOrder sub64 fuel price qty isBuy = .ok (b₁, remainingQty) →
    remainingQty ≠ 0 → ∃ x, b'.RestsAt isBuy price x ∧ (b'.pool.pool x).id = id ∧
      (b'.pool.pool x).quantity = remainingQty

/-- The add of a call, its own or that of a replacing modify, stores its remainder. -/
def Stores (b : OrderBook) (op : Op) (b' : OrderBook) : Prop :=
  match op with
  | .add id price qty isBuy => b.StoresRemainder id price qty isBuy b'
  | .cancel _ => True
  | .modify id newPrice newQty => ∀ order b₁, b.orderMap id = some order →
      newPrice ≠ (b.pool.pool order).price ∨ (b.pool.pool order).quantity < newQty →
      b.cancelOrder sub64 id = .ok b₁ →
      b₁.StoresRemainder id newPrice newQty (b.pool.pool order).isBuy b'

end OrderBook

variable {b b' : OrderBook} {v v' : QueueBook} {op : Op} {ops : List Op}

theorem Rep.untruncated_book (h : Rep b v) (hw : v.Wf) : b.Untruncated := by
  refine ⟨fun x hx => ?_, fun s p => ?_⟩
  · obtain ⟨s, p, o, ho, rfl⟩ := h.rests_iff.mp hx
    exact ((h.levelSound hw s p).orders o.slot (List.mem_map_of_mem ho)).1
  · have hl := h.levelSound hw s p
    refine ⟨_, hl.queue, hl.total_eq, fun hne hnil => hne ?_⟩
    rw [hl.total_eq, hnil]
    rfl

theorem Rep.storesRemainder (h : Rep b v) (hw : v.Wf) (ha : v.Addressable) {id p q : Nat}
    {isBuy : Bool} (hid : id < maxOrders) (hfresh : ∀ s p o, v.At s p o → o.id ≠ id)
    (hp : p < maxTicks) (h' : Rep b' (v.add id p q isBuy)) :
    b.StoresRemainder id p q isBuy b' := by
  intro fuel b₁ rem hrun hrem
  have hl := hw.lists_crossing isBuy p
  obtain ⟨-, rfl⟩ := h.matched hw hp hrun
  have hne := (ha.trade (q := q) hw hl).free_ne_nil (hw.trade hl) hid
    (QueueBook.trade_ids hw hl hfresh)
  obtain ⟨x, free, hf⟩ := List.exists_cons_of_ne_nil hne
  have hadd : v.add id p q isBuy = (v.trade (v.crossing isBuy p) q).1.rest id p
      (v.trade (v.crossing isBuy p) q).2 isBuy := if_neg hrem
  have hat : (v.add id p q isBuy).At isBuy p ⟨x, id, (v.trade (v.crossing isBuy p) q).2⟩ := by
    rw [hadd]
    exact (QueueBook.at_rest hf).mpr (Or.inr ⟨rfl, rfl, rfl⟩)
  obtain ⟨hid', -, hquant, -⟩ := h'.fields hat
  exact ⟨x, h'.restsAt_iff.mpr ⟨_, hat, rfl⟩, hid', hquant⟩

theorem Rep.stores (h : Rep b v) (hw : v.Wf) (ha : v.Addressable) (hin : op.InRange)
    (hfresh : v.Fresh op) (hstep : v.Step op v') (h' : Rep b' v') : b.Stores op b' := by
  cases hstep with
  | add id p q isBuy => exact h.storesRemainder hw ha hin.1 hfresh hin.2.2 h'
  | cancelUnknown => trivial
  | cancel => trivial
  | modifyUnknown p q hx =>
    intro x b₁ hmap
    rw [h.map, hx] at hmap
    cases hmap
  | modifyInPlace ho hx _ hq =>
    intro x b₁ hmap hne
    rw [h.map, hx] at hmap
    obtain rfl := Option.some.inj hmap
    obtain ⟨-, hprice, hquant, -⟩ := h.fields ho
    omega
  | modifyZero ho hx =>
    intro x b₁ hmap hne
    rw [h.map, hx] at hmap
    obtain rfl := Option.some.inj hmap
    obtain ⟨-, hprice, -⟩ := h.fields ho
    omega
  | modifyReplace ho hx =>
    intro x b₁ hmap _ hcancel
    rw [h.map, hx] at hmap
    obtain rfl := Option.some.inj hmap
    obtain ⟨b₂, hb₂, hrep₂⟩ := cancelOrder_spec h hw ho hx
    rw [hb₂ sub64 exact_sub64] at hcancel
    obtain rfl := Except.ok.inj hcancel
    obtain ⟨-, -, -, hbuy⟩ := h.fields ho
    rw [hbuy]
    exact hrep₂.storesRemainder (hw.remove ho) (ha.remove ho) hin.1
      (ha.not_at_remove hw.toSlots ho) hin.2.2 h'

/-- **No quantity is truncated** in runs of calls with fresh ids whose adds leave less than `2 ^ 31`
to rest: stored quantities are positive, totals are their sums, every call returns, and an add
stores the remainder of its match. -/
theorem untruncated
    (h : OrderBook.Reaches (fun b op => op.InRange ∧ b.Fits op ∧ b.Fresh op) ops b) :
    b.Untruncated ∧ ∀ op, op.InRange → b.Fits op → b.Fresh op →
      (∃ b', b.Calls op b') ∧ ∀ b', b.Calls op b' → b.Stores op b' := by
  obtain ⟨v, hrep, hw, ha⟩ := h.rep_fresh fun hop => ⟨hop.1.inTables, hop.2⟩
  refine ⟨hrep.untruncated_book hw, fun op hin hfit hfresh => ⟨?_, fun b' hc => ?_⟩⟩
  · obtain ⟨b', -, hb', -⟩ := apply_spec hrep hw hin.inTables (hrep.fits hfit)
      (QueueBook.settles_of_inRange hin)
    exact ⟨b', hb'.calls⟩
  · obtain ⟨v', hstep, hrep'⟩ := hrep.calls hw hin.inTables (hrep.fits hfit) hc
    exact hrep.stores hw ha hin (hrep.fresh hfresh) hstep hrep'

/-- The largest quantity that fits, then a modify that replaces it. -/
theorem untruncated_run :
    ∃ b, OrderBook.Reaches (fun b op => op.InRange ∧ b.Fits op ∧ b.Fresh op)
      [.add 1 100 (2 ^ 31 - 1) false, .modify 1 101 7] b ∧ b.Untruncated := by
  have hallows : RefBook.Allows [] [.add 1 100 (2 ^ 31 - 1) false, .modify 1 101 7] := by
    decide +kernel
  obtain ⟨b, hb⟩ := hallows.reaches
  have hrun : OrderBook.Reaches (fun b op => op.InRange ∧ b.Fits op ∧ b.Fresh op) _ b :=
    Run.mono hb fun h => ⟨⟨h.1.1.1, OrderBook.fits_of_smallQuantity h.1.1.2, h.1.2⟩, h.2⟩
  exact ⟨b, hrun, (untruncated hrun).1⟩

/-- **The code truncates quantities**: an add of `2 ^ 31` is stored as an order of quantity zero. -/
theorem truncated : ¬ ∀ ops b,
    OrderBook.Reaches (fun b op => op.InRange ∧ op.Quantity32 ∧ b.Fresh op) ops b →
      b.Untruncated := by
  have hcheck : (OrderBook.init.apply sub64 2 (.add 1 100 (2 ^ 31) true)).toOption.any fun b =>
      decide (b.Queue true 100 [1499999] ∧ (b.pool.pool 1499999).quantity = 0) := by decide +kernel
  obtain ⟨b, hb, hP⟩ := exists_ok_of_any hcheck
  obtain ⟨hqueue, hquant⟩ := of_decide_eq_true hP
  have hfresh : OrderBook.init.Fresh (.add 1 100 (2 ^ 31) true) := fun hid => by
    obtain ⟨s, p, o, ho, -⟩ := rep_init.hasId_iff.mp hid
    cases ho
  have hin : (Op.add 1 100 (2 ^ 31) true).InRange := by
    unfold Op.InRange maxOrders maxTicks
    omega
  intro h
  have hrun : OrderBook.Reaches (fun b op => op.InRange ∧ op.Quantity32 ∧ b.Fresh op)
      [.add 1 100 (2 ^ 31) true] b :=
    Run.snoc Run.nil ⟨⟨hin, by unfold Op.Quantity32; omega, hfresh⟩, 2, hb⟩
  have := (h _ b hrun).1 1499999 ⟨true, 100, _, hqueue, List.mem_cons_self⟩
  omega

end MarketHandler
