import MarketHandler.Runs

/-!
# Adds that repeat the id of a resting order

`add_order` writes the id table without looking at it. An add that rests a remainder under the id of
an order that is still resting orphans that order: it stays linked, but no call finds it again
(`orphaned`). Every other add is harmless (`KeepsIds`): one that is filled, one whose id belongs
only to orders its own match fills, and one that is dropped because the pool is empty.

* `addressed`: in runs of such calls every linked order is the id table's entry for its id, so ids
  are unique and a cancel leaves no order with its id.
-/

namespace MarketHandler

open Lib

/-- The call does not rest an order under the id of one that is still resting. -/
def OrderBook.KeepsIds (b : OrderBook) : Op → Prop
  | .add id price qty isBuy =>
    qty ≤ b.crossingQuantity isBuy price ∨
      (b.pool.freeList = [] ∧ b.crossingQuantity isBuy price = 0) ∨
      ∀ s p x, b.RestsAt s p x → (b.pool.pool x).id = id →
        s = !isBuy ∧ QueueBook.crosses isBuy price p = true
  | .cancel _ => True
  | .modify _ _ _ => True

/-- Every linked order is the id table's entry for its id. -/
def OrderBook.Addressed (b : OrderBook) : Prop :=
  ∀ x, b.Rests x → b.orderMap (b.pool.pool x).id = some x

variable {b b' : OrderBook} {v v' : QueueBook} {op : Op} {ops : List Op}

/-- The condition on the queues before the match, said of what the match leaves. -/
theorem Rep.keepsIds_trade (h : Rep b v) (hw : v.Wf) {id p q : Nat} {isBuy : Bool}
    (hk : b.KeepsIds (.add id p q isBuy)) :
    q ≤ total (v.crossing isBuy p) ∨ (v.trade (v.crossing isBuy p) q).1.free = [] ∨
      ∀ s p' o, (v.trade (v.crossing isBuy p) q).1.At s p' o → o.id ≠ id := by
  by_cases hq : q ≤ total (v.crossing isBuy p)
  · exact Or.inl hq
  simp only [OrderBook.KeepsIds, h.crossingQuantity_eq] at hk
  rcases hk with hk | ⟨hfree, h0⟩ | hk
  · exact absurd hk hq
  · refine Or.inr (Or.inl ?_)
    rw [hw.total_crossing_eq_zero h0]
    exact h.free.symm.trans hfree
  · -- the whole crossing list is filled, and with it every order with this id
    refine Or.inr (Or.inr fun s p' o ho hid => ?_)
    have hpos : ∀ o ∈ v.crossing isBuy p, 0 < o.quantity := fun o ho => by
      obtain ⟨p', -, -, h'⟩ := QueueBook.mem_crossing.mp ho
      exact hw.quantity_pos h'
    obtain ⟨ho, hnot⟩ := (QueueBook.at_trade_of_le (by omega) hpos).mp ho
    obtain ⟨rfl, hc⟩ := hk s p' o.slot (h.restsAt_iff.mpr ⟨o, ho, rfl⟩)
      ((h.fields ho).1.trans hid)
    exact hnot (List.mem_map_of_mem (QueueBook.mem_crossing.mpr ⟨p', hw.price_lt ho, hc, ho⟩))

theorem Rep.addressable_step (h : Rep b v) (hw : v.Wf) (ha : v.Addressable) (hk : b.KeepsIds op)
    (hstep : v.Step op v') : v'.Addressable := by
  cases hstep with
  | add id price qty isBuy => exact ha.add_of_trade hw (h.keepsIds_trade hw hk)
  | cancelUnknown => exact ha
  | cancel ho => exact ha.remove ho
  | modifyUnknown => exact ha
  | modifyInPlace => exact ha.setQuantity
  | modifyZero ho => exact ha.remove ho
  | modifyReplace ho => exact (ha.remove ho).add (hw.remove ho) (ha.not_at_remove hw.toSlots ho)

theorem OrderBook.Reaches.rep_keepsIds
    (h : OrderBook.Reaches (fun b op => op.Valid ∧ b.KeepsIds op) ops b) :
    ∃ v, Rep b v ∧ v.Wf ∧ v.Addressable := by
  refine h.rep_of (I := fun _ v => v.Addressable)
    (fun hop => ⟨hop.1.1.inTables, OrderBook.fits_of_smallQuantity hop.1.2⟩)
    (fun _ _ _ h => absurd h List.not_mem_nil) ?_
  exact fun hrep hw ha hop hstep => hrep.addressable_step hw ha hop.2 hstep

/-- A cancel leaves no resting order with its id. -/
theorem Rep.cancelOrder_hasId (h : Rep b v) (hw : v.Wf) (ha : v.Addressable) {id : Nat}
    (hid : id < maxOrders) : ∃ b', b.cancelOrder sub64 id = .ok b' ∧ ¬ b'.HasId id := by
  cases hx : v.byId id with
  | none =>
    refine ⟨b, cancelOrder_unknown h.toMem hid hx sub64, fun hhas => ?_⟩
    obtain ⟨s, p, o, ho, rfl⟩ := h.hasId_iff.mp hhas
    rw [ha _ _ _ ho] at hx
    cases hx
  | some x =>
    obtain ⟨s, p, o, ho, rfl, rfl⟩ := hw.byId_sound hx
    obtain ⟨b', hb', hrep⟩ := cancelOrder_spec h hw ho hx
    refine ⟨b', hb' sub64 exact_sub64, fun hhas => ?_⟩
    obtain ⟨s', p', o', ho', he⟩ := hrep.hasId_iff.mp hhas
    exact ha.not_at_remove hw.toSlots ho s' p' o' ho' he

/-- **Every resting order stays addressable** in runs whose adds rest nothing under the id of an
order still resting: the id table points to it, no other resting order has its id, and cancelling
the id leaves no resting order with it. -/
theorem addressed (h : OrderBook.Reaches (fun b op => op.Valid ∧ b.KeepsIds op) ops b) :
    b.Addressed ∧
      (∀ x y, b.Rests x → b.Rests y → (b.pool.pool x).id = (b.pool.pool y).id → x = y) ∧
      ∀ id < maxOrders, ∃ b', b.cancelOrder sub64 id = .ok b' ∧ ¬ b'.HasId id := by
  obtain ⟨v, hrep, hw, ha⟩ := h.rep_keepsIds
  refine ⟨fun x hx => hrep.map_eq_of_rests ha hx, fun x y hx hy he => ?_,
    fun id hid => hrep.cancelOrder_hasId hw ha hid⟩
  have h1 := hrep.map_eq_of_rests ha hx
  rw [he, hrep.map_eq_of_rests ha hy] at h1
  exact (Option.some.inj h1).symm

/-- An add that crosses every level with an order fills what it would orphan. -/
theorem Rep.keepsIds_of_prices (h : Rep b v) {id p q : Nat} {isBuy : Bool}
    (hp : ∀ s p', p' ∈ v.prices s → s = !isBuy ∧ QueueBook.crosses isBuy p p' = true) :
    b.KeepsIds (.add id p q isBuy) := by
  refine Or.inr (Or.inr fun s p' x hx _ => ?_)
  obtain ⟨o, ho, -⟩ := h.restsAt_iff.mp hx
  exact hp s p' (QueueBook.mem_prices.mpr ⟨o, ho⟩)

/-- An add that trades all it has changes no level that had no order. -/
theorem QueueBook.Wf.add_prices_subset (hw : v.Wf) {id p q : Nat} {isBuy : Bool}
    (hq : q ≤ total (v.crossing isBuy p)) (s : Bool) :
    (v.add id p q isBuy).prices s ⊆ v.prices s := by
  have h0 : (v.trade (v.crossing isBuy p) q).2 = 0 := by
    rw [QueueBook.trade_snd, Nat.sub_eq_zero_of_le hq]
  unfold QueueBook.add
  dsimp only
  rw [if_pos h0]
  exact QueueBook.trade_prices_subset hw (hw.lists_crossing isBuy p)

/-- An add to the empty book rests all it has. -/
theorem QueueBook.at_add_empty (id p : Nat) {q : Nat} (hq : q ≠ 0) (isBuy : Bool) :
    ∃ slot, ∀ s p' o, (QueueBook.empty.add id p q isBuy).At s p' o ↔
      s = isBuy ∧ p' = p ∧ o = ⟨slot, id, q⟩ := by
  obtain ⟨slot, free, hfree⟩ : ∃ slot free, QueueBook.empty.free = slot :: free :=
    List.exists_cons_of_length_pos (by rw [QueueBook.empty, QueueBook.length_pushSlots]; decide)
  have hadd : QueueBook.empty.add id p q isBuy = QueueBook.empty.rest id p q isBuy := by
    simp [QueueBook.add, QueueBook.crossing_empty, QueueBook.trade, hq]
  refine ⟨slot, fun s p' o => ?_⟩
  rw [hadd, QueueBook.at_rest hfree]
  exact or_iff_right List.not_mem_nil

/-- The id 1 in four calls: a sell rests; a buy that repeats the id is filled and rests nothing; one
that fills what is left of the sell rests under the same id; a modify replaces that order. -/
theorem addressed_run : ∃ b, OrderBook.Reaches (fun b op => op.Valid ∧ b.KeepsIds op)
    [.add 1 100 5 false, .add 1 101 3 true, .add 1 101 7 true, .modify 1 102 4] b ∧
      b.Addressed := by
  obtain ⟨h₁, h₂, h₃, h₄⟩ : (Op.add 1 100 5 false).Valid ∧ (Op.add 1 101 3 true).Valid ∧
      (Op.add 1 101 7 true).Valid ∧ (Op.modify 1 102 4).Valid := by decide
  have hend : ∀ (w : QueueBook) q, w.Ends true 101 q := fun _ _ => .of_pos (by decide)
  -- the sell rests and is the only order
  obtain ⟨slot, hat⟩ := QueueBook.at_add_empty 1 100 (q := 5) (by decide) false
  have hprices : ∀ s p, p ∈ (QueueBook.empty.add 1 100 5 false).prices s →
      s = !true ∧ QueueBook.crosses true 101 p = true := by
    intro s p hp
    obtain ⟨o, ho⟩ := QueueBook.mem_prices.mp hp
    obtain ⟨rfl, rfl, -⟩ := (hat s p o).mp ho
    exact ⟨rfl, rfl⟩
  obtain ⟨b₁, hb₁, hrep₁⟩ := add_returns (q := 5) rep_init .empty h₁.1.inTables.1
    (.of_pos (by decide)) h₁.1.inTables.2 (by rw [QueueBook.crossing_empty false 100]; decide)
  have hw₁ : (QueueBook.empty.add 1 100 5 false).Wf :=
    .add .empty (by rw [QueueBook.crossing_empty false 100]; decide) h₁.1.inTables.1 h₁.1.inTables.2
  -- the first buy trades all it has, so no other level has an order after it
  have hle : 3 ≤ total ((QueueBook.empty.add 1 100 5 false).crossing true 101) :=
    (by decide : 3 ≤ 5).trans (le_total (QueueBook.mem_crossing.mpr
      ⟨100, by decide, rfl, (hat _ _ _).mpr ⟨rfl, rfl, rfl⟩⟩))
  obtain ⟨b₂, hb₂, hrep₂⟩ := add_returns (q := 3) hrep₁ hw₁ h₂.1.inTables.1 (hend _ 3)
    h₂.1.inTables.2 (by omega)
  have hrun₂ : OrderBook.Reaches (fun b op => op.Valid ∧ b.KeepsIds op) _ b₂ :=
    Run.snoc (Run.snoc Run.nil ⟨⟨h₁, rep_init.keepsIds_of_prices fun s p hp => by
      obtain ⟨o, ho⟩ := QueueBook.mem_prices.mp hp
      exact absurd ho List.not_mem_nil⟩, hb₁.calls⟩)
      ⟨⟨h₂, Or.inl (hrep₁.crossingQuantity_eq true 101 ▸ hle)⟩, hb₂.calls⟩
  -- so the second buy fills every order
  have hk₃ : b₂.KeepsIds (.add 1 101 7 true) :=
    hrep₂.keepsIds_of_prices fun s p hp => hprices s p (hw₁.add_prices_subset hle s hp)
  obtain ⟨v₂, hrep₂, hw₂, -⟩ := hrun₂.rep_keepsIds
  obtain ⟨b₃, hb₃⟩ := hrep₂.returns hw₂ h₃
  have hrun₃ := Run.snoc hrun₂ ⟨⟨h₃, hk₃⟩, hb₃.calls⟩
  obtain ⟨v₃, hrep₃, hw₃, -⟩ := OrderBook.Reaches.rep_keepsIds hrun₃
  obtain ⟨b, hb⟩ := hrep₃.returns hw₃ h₄
  have hrun := Run.snoc hrun₃ ⟨⟨h₄, trivial⟩, hb.calls⟩
  exact ⟨b, hrun, (addressed hrun).1⟩

/-- **The code does not keep every order addressable**: the second of two equal adds takes the id
table's entry, and the first order is orphaned. -/
theorem orphaned : ¬ ∀ ops b, OrderBook.Reaches (fun _ op => op.Valid) ops b → b.Addressed := by
  have hcheck : ((OrderBook.init.apply sub64 2 (.add 1 100 5 true) >>= fun b =>
      b.apply sub64 2 (.add 1 100 5 true)).toOption.any fun b =>
        decide (b.Queue true 100 [1499999, 1499998] ∧ b.orderMap 1 = some 1499998 ∧
          (b.pool.pool 1499999).id = 1)) = true := by decide +kernel
  obtain ⟨b, hb, hP⟩ := exists_ok_of_any hcheck
  obtain ⟨hqueue, hmap, hid⟩ := of_decide_eq_true hP
  obtain ⟨b₁, hb₁, hb⟩ := bind_eq_ok.mp hb
  intro h
  have hvalid : (Op.add 1 100 5 true).Valid := by decide
  have hrun : OrderBook.Reaches (fun _ op => op.Valid) [.add 1 100 5 true, .add 1 100 5 true] b :=
    Run.snoc (Run.snoc Run.nil ⟨hvalid, 2, hb₁⟩) ⟨hvalid, 2, hb⟩
  have := h _ b hrun 1499999 ⟨true, 100, _, hqueue, List.mem_cons_self⟩
  rw [hid, hmap] at this
  cases this

end MarketHandler
