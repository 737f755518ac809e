import MarketHandler.Reference

/-!
# Invariants of the book

What holds of every book that runs of calls lead to, said of the pointers, totals, bitmaps and best
prices themselves. Ids and prices are in range and quantities below `2 ^ 31` throughout; ids may be
reused while they rest unless `Allowed` says otherwise.

* `structural`: levels are doubly linked lists of their own orders with exact totals, and the id
  table points to exactly the linked orders; no subtraction of a call wraps.
* `bbo_exact`: bitmaps and best prices say which levels have orders.
* `not_crossed`: every bid is below every ask.
* `pool_sound`: every slot is free or linked, never both, and with fresh ids a slot is always free
  when `add_order` needs one.
-/

namespace MarketHandler

open Lib

variable {b : OrderBook} {v : QueueBook} {op : Op} {ops : List Op}

theorem OrderBook.Reaches.rep_valid (h : OrderBook.Reaches (fun _ op => op.Valid) ops b) :
    ∃ v, Rep b v ∧ v.Wf ∧ v.Uncrossed ∧ v.PricePos :=
  h.rep_of (I := fun _ v => v.Uncrossed ∧ v.PricePos)
    (fun hop => ⟨hop.1.inTables, OrderBook.fits_of_smallQuantity hop.2⟩)
    ⟨fun _ _ _ _ h => absurd h List.not_mem_nil, fun _ _ _ h => absurd h List.not_mem_nil⟩
    fun _ hw h hop hstep => ⟨h.1.step hw hstep, h.2.step hw hop.1 hstep⟩

theorem OrderBook.Reaches.rep_allowed (h : OrderBook.Reaches OrderBook.Allowed ops b) :
    ∃ v, Rep b v ∧ v.Wf ∧ v.Addressable :=
  h.rep_fresh fun hop => ⟨hop.1.1.inTables, OrderBook.fits_of_smallQuantity hop.1.2, hop.2⟩

/-- With fresh ids the queues are addressable and uncrossed. -/
theorem OrderBook.Reaches.rep_uncrossed (h : OrderBook.Reaches OrderBook.Allowed ops b) :
    ∃ v, Rep b v ∧ v.Wf ∧ v.Addressable ∧ v.Uncrossed ∧ v.PricePos :=
  h.rep_of (I := fun _ v => v.Addressable ∧ v.Uncrossed ∧ v.PricePos)
    (fun hop => ⟨hop.1.1.inTables, OrderBook.fits_of_smallQuantity hop.1.2⟩)
    ⟨fun _ _ _ h => absurd h List.not_mem_nil, fun _ _ _ _ h => absurd h List.not_mem_nil,
      fun _ _ _ h => absurd h List.not_mem_nil⟩
    fun hrep hw h hop hstep => ⟨h.1.step hw (hrep.fresh hop.2) hstep, h.2.1.step hw hstep,
      h.2.2.step hw hop.1.1 hstep⟩

/-- Every sequence of calls in range runs to its end. -/
theorem OrderBook.exists_reaches_valid (ops : List Op) (h : ∀ op ∈ ops, op.Valid) :
    ∃ b, OrderBook.Reaches (fun _ op => op.Valid) ops b := by
  induction ops using List.reverseRecOn with
  | nil => exact ⟨_, Run.nil⟩
  | append_singleton ops op ih =>
    obtain ⟨b, hb⟩ := ih fun op' hop' => h op' (List.mem_append_left _ hop')
    have hop := h op (List.mem_append_right _ List.mem_cons_self)
    obtain ⟨v, hrep, hw, -⟩ := OrderBook.Reaches.rep_valid hb
    obtain ⟨b', hb'⟩ := hrep.exists_calls hw hop
    exact ⟨b', Run.snoc hb ⟨hop, hb'⟩⟩

/-! ## Structure -/

/-- The level links the slots `l` in a doubly linked list of its own orders with an exact total. -/
structure OrderBook.LevelSound (b : OrderBook) (isBuy : Bool) (price : Nat) (l : List Nat) :
    Prop where
  queue : b.Queue isBuy price l
  nodup : l.Nodup
  inverse : ∀ x ∈ l, ∀ y ∈ l, b.pool.next x = some y ↔ b.pool.prev y = some x
  head_prev : ∀ x, (b.side isBuy price).head = some x → b.pool.prev x = none
  tail_next : ∀ x, (b.side isBuy price).tail = some x → b.pool.next x = none
  null : (b.side isBuy price).head = none ↔ (b.side isBuy price).tail = none
  orders : ∀ x ∈ l, 0 < (b.pool.pool x).quantity ∧ (b.pool.pool x).price = price ∧
    (b.pool.pool x).isBuy = isBuy
  total_eq : (b.side isBuy price).totalQuantity = (l.map fun x => (b.pool.pool x).quantity).sum

/-- Every level is sound, no order is on two levels, and the id table points to exactly the linked
orders. -/
structure OrderBook.Sound (b : OrderBook) : Prop where
  level : ∀ isBuy price, ∃ l, b.LevelSound isBuy price l
  one_level : ∀ {s p s' p' x}, b.RestsAt s p x → b.RestsAt s' p' x → s = s' ∧ p = p'
  map_iff : ∀ id, b.orderMap id ≠ none ↔ ∃! x, b.Rests x ∧ (b.pool.pool x).id = id
  map_points : ∀ id x, b.orderMap id = some x → b.Rests x ∧ (b.pool.pool x).id = id

theorem Rep.levelSound (h : Rep b v) (hw : v.Wf) (s : Bool) (p : Nat) :
    b.LevelSound s p (slots (v.queue s p)) where
  queue := h.queue_iff.mpr rfl
  nodup := hw.nodup s p
  inverse x hx y hy := (h.level s p).linked.next_iff_prev hx hy
  head_prev x hx := by
    have hl := (h.level s p).linked
    obtain ⟨l, hl'⟩ := List.head?_eq_some_iff.mp (hl.head_eq.symm.trans hx)
    rw [hl'] at hl
    exact (hl.links (l := [])).1
  tail_next x hx := by
    have hl := (h.level s p).linked
    obtain ⟨l, hl'⟩ := List.getLast?_eq_some_iff.mp (hl.tail_eq.symm.trans hx)
    rw [hl'] at hl
    exact hl.links.2
  null := by
    rw [(h.level s p).linked.head_eq_none_iff, (h.level s p).linked.tail_eq_none_iff]
  orders x hx := by
    obtain ⟨o, ho, rfl⟩ := List.mem_map.mp hx
    obtain ⟨-, hprice, hquant, hbuy⟩ := h.fields ho
    exact ⟨hquant ▸ hw.quantity_pos ho, hprice, hbuy⟩
  total_eq := by
    rw [(h.level s p).total_eq, total, slots, List.map_map]
    refine congrArg List.sum (List.map_congr_left fun o ho => ?_)
    exact (h.fields ho).2.2.1.symm

theorem Rep.map_points (h : Rep b v) (hw : v.Wf) {id x : Nat} (hx : b.orderMap id = some x) :
    b.Rests x ∧ (b.pool.pool x).id = id := by
  rw [h.map] at hx
  obtain ⟨s, p, o, ho, rfl, rfl⟩ := hw.byId_sound hx
  exact ⟨h.rests ho, (h.fields ho).1⟩

theorem Rep.sound (h : Rep b v) (hw : v.Wf) (ha : v.Addressable) : b.Sound where
  level s p := ⟨_, h.levelSound hw s p⟩
  one_level hx hx' := by
    obtain ⟨o, ho, rfl⟩ := h.restsAt_iff.mp hx
    obtain ⟨o', ho', he⟩ := h.restsAt_iff.mp hx'
    obtain ⟨hs, hp, -⟩ := hw.slot_inj ho ho' he.symm
    exact ⟨hs, hp⟩
  map_iff id := by
    constructor
    · intro hne
      obtain ⟨x, hx⟩ := Option.ne_none_iff_exists'.mp hne
      refine ⟨x, h.map_points hw hx, fun y hy => ?_⟩
      have := h.map_eq_of_rests ha hy.1
      rw [hy.2, hx] at this
      exact (Option.some.inj this).symm
    · rintro ⟨x, ⟨hx, rfl⟩, -⟩
      rw [h.map_eq_of_rests ha hx]
      exact Option.some_ne_none x
  map_points _ _ hx := h.map_points hw hx

/-- **The structural invariant.** With fresh ids every reachable book is sound, and every call
returns, with the same result when a subtraction that wraps is a fault. -/
theorem structural (h : OrderBook.Reaches OrderBook.Allowed ops b) :
    b.Sound ∧ ∀ op, b.Allowed op →
      ∃ b', b.Calls op b' ∧ ∃ fuel, b.apply checkedSub fuel op = .ok b' := by
  obtain ⟨v, hrep, hw, ha⟩ := h.rep_allowed
  refine ⟨hrep.sound hw ha, fun op hop => ?_⟩
  obtain ⟨b', hb'⟩ := hrep.returns hw hop.1
  exact ⟨b', hb'.calls, maxOrders + 2, hb' _ _ exact_checkedSub (Nat.lt_succ_self _)⟩

/-- A bid that fills an ask in part, and the cancel of the rest. -/
theorem structural_run : ∃ b, OrderBook.Reaches OrderBook.Allowed
    [.add 1 100 5 false, .add 2 101 4 true, .cancel 1] b ∧ b.Sound := by
  have hallows : RefBook.Allows [] [.add 1 100 5 false, .add 2 101 4 true, .cancel 1] := by
    decide +kernel
  obtain ⟨b, hb⟩ := hallows.reaches
  exact ⟨b, hb, (structural hb).1⟩

/-! ## Best bid and offer -/

theorem Rep.prices_eq (h : Rep b v) (s : Bool) : v.prices s = {p | ∃ x, b.RestsAt s p x} := by
  ext p
  rw [QueueBook.mem_prices, Set.mem_ofPred_eq]
  constructor
  · rintro ⟨o, ho⟩
    exact ⟨o.slot, h.restsAt_iff.mpr ⟨o, ho, rfl⟩⟩
  · rintro ⟨x, hx⟩
    obtain ⟨o, ho, -⟩ := h.restsAt_iff.mp hx
    exact ⟨o, ho⟩

/-- **The bitmaps and the cached best prices agree with the levels**, after every call; and every
call returns. -/
theorem bbo_exact (h : OrderBook.Reaches (fun _ op => op.Valid) ops b) :
    (∀ s p, (b.bits s).test p = true ↔ ∃ x, b.RestsAt s p x) ∧
      IsBestBid {p | ∃ x, b.RestsAt true p x} b.getBestBid ∧
      IsBestAsk {p | ∃ x, b.RestsAt false p x} b.getBestAsk ∧
      ∀ op, op.Valid → ∃ b', b.Calls op b' := by
  obtain ⟨v, hrep, hw, -⟩ := h.rep_valid
  refine ⟨fun s p => ?_, ?_, ?_, fun op hop => hrep.exists_calls hw hop⟩
  · rw [(hrep.bbo.bits s).mem, hrep.prices_eq, Set.mem_ofPred_eq]
  · rw [← hrep.prices_eq]
    exact hrep.bbo.bestBid
  · rw [← hrep.prices_eq]
    exact hrep.bbo.bestAsk

/-- A level that empties, and one that is joined. -/
theorem bbo_exact_run : ∃ b, OrderBook.Reaches (fun _ op => op.Valid)
    [.add 1 100 5 false, .add 2 101 7 true, .add 2 99 3 true] b ∧
      IsBestBid {p | ∃ x, b.RestsAt true p x} b.getBestBid := by
  obtain ⟨b, hb⟩ := OrderBook.exists_reaches_valid
    [.add 1 100 5 false, .add 2 101 7 true, .add 2 99 3 true] (by decide)
  exact ⟨b, hb, (bbo_exact hb).2.1⟩

/-- **The book is never crossed or locked**; and every call returns. -/
theorem not_crossed (h : OrderBook.Reaches (fun _ op => op.Valid) ops b) :
    (∀ p x p' x', b.RestsAt true p x → b.RestsAt false p' x' → p < p') ∧
      b.getBestBid < b.getBestAsk ∧ ∀ op, op.Valid → ∃ b', b.Calls op b' := by
  obtain ⟨v, hrep, hw, hu, hpos⟩ := h.rep_valid
  refine ⟨fun p x p' x' hx hx' => ?_, ?_, fun op hop => hrep.exists_calls hw hop⟩
  · obtain ⟨o, ho, -⟩ := hrep.restsAt_iff.mp hx
    obtain ⟨o', ho', -⟩ := hrep.restsAt_iff.mp hx'
    exact hu _ _ _ _ ho ho'
  · show b.bestBid < b.bestAsk
    have hbid := hrep.bbo.bestBid
    have hask := hrep.bbo.bestAsk
    rcases hbid with ⟨-, hb0⟩ | ⟨hbmem, -⟩ <;> rcases hask with ⟨-, ha0⟩ | ⟨hamem, -⟩
    · rw [hb0, ha0]
      decide
    · obtain ⟨o, ho⟩ := QueueBook.mem_prices.mp hamem
      have := hpos _ _ _ ho
      omega
    · have := hw.price_mem_lt hbmem
      rw [ha0]
      unfold maxTicks at this
      unfold uint32Max
      omega
    · obtain ⟨o, ho⟩ := QueueBook.mem_prices.mp hbmem
      obtain ⟨o', ho'⟩ := QueueBook.mem_prices.mp hamem
      exact hu _ _ _ _ ho ho'

/-- A bid that rests below an ask, with the ask's id. -/
theorem not_crossed_run : ∃ b, OrderBook.Reaches (fun _ op => op.Valid)
    [.add 1 100 5 false, .add 1 99 7 true] b ∧ b.getBestBid < b.getBestAsk := by
  obtain ⟨b, hb⟩ := OrderBook.exists_reaches_valid [.add 1 100 5 false, .add 1 99 7 true]
    (by decide)
  exact ⟨b, hb, (not_crossed hb).2.1⟩

/-! ## The pool -/

/-- Every slot of the pool is on the free list, with null links, or linked in a level, never both. -/
structure OrderPool.Partitioned (b : OrderBook) : Prop where
  nodup : b.pool.freeList.Nodup
  disjoint : ∀ x ∈ b.pool.freeList, ¬ b.Rests x
  cover : ∀ x, x < maxOrders ↔ x ∈ b.pool.freeList ∨ b.Rests x
  length_le : b.pool.freeList.length ≤ maxOrders
  null : ∀ x ∈ b.pool.freeList, b.pool.prev x = none ∧ b.pool.next x = none

theorem Rep.partitioned (h : Rep b v) (hw : v.Wf) : OrderPool.Partitioned b := by
  have hsub : v.free ⊆ List.range maxOrders := fun x hx =>
    List.mem_range.mpr ((hw.cover x).mpr (Or.inl hx))
  refine ⟨?_, fun x hx hr => ?_, fun x => ?_, ?_, fun x hx => ?_⟩
  · rw [h.free]
    exact hw.free_nodup
  · rw [h.free] at hx
    obtain ⟨s, p, o, ho, rfl⟩ := h.rests_iff.mp hr
    exact hw.free_disjoint ho hx
  · rw [h.rests_iff, h.free]
    exact hw.cover x
  · rw [h.free]
    simpa using (hw.free_nodup.subperm hsub).length_le
  · rw [h.free] at hx
    exact h.free_links x hx

/-- `add_order` finds no slot for the remainder of its match. -/
def OrderBook.OutOfSlots (b : OrderBook) (price qty : Nat) (isBuy : Bool) : Prop :=
  ∃ fuel b' remainingQty, b.matchOrder sub64 fuel price qty isBuy = .ok (b', remainingQty) ∧
    remainingQty ≠ 0 ∧ b'.pool.allocate.1 = none

/-- The call runs into `allocate` returning null, in its own add or in that of a replacing modify. -/
def OrderBook.AllocFails (b : OrderBook) : Op → Prop
  | .add _ price qty isBuy => b.OutOfSlots price qty isBuy
  | .cancel _ => False
  | .modify id newPrice newQty => ∃ order b', b.orderMap id = some order ∧
      (newPrice ≠ (b.pool.pool order).price ∨ (b.pool.pool order).quantity < newQty) ∧
      b.cancelOrder sub64 id = .ok b' ∧
      b'.OutOfSlots newPrice newQty (b.pool.pool order).isBuy

/-- `match_order` leaves a free slot for an order with a fresh id. -/
theorem Rep.not_outOfSlots (h : Rep b v) (hw : v.Wf) (ha : v.Addressable) {id p q : Nat}
    {isBuy : Bool} (hid : id < maxOrders) (hfresh : ∀ s p o, v.At s p o → o.id ≠ id)
    (hp : p < maxTicks) : ¬ b.OutOfSlots p q isBuy := by
  rintro ⟨fuel, b', rem, hrun, -, halloc⟩
  have hl := hw.lists_crossing isBuy p
  obtain ⟨hrep', -⟩ := h.matched hw hp hrun
  have hne := (ha.trade (q := q) hw hl).free_ne_nil (hw.trade hl) hid
    (QueueBook.trade_ids hw hl hfresh)
  rw [← hrep'.free] at hne
  obtain ⟨x, free, hf⟩ := List.exists_cons_of_ne_nil hne
  simp [OrderPool.allocate, hf] at halloc

theorem Rep.not_allocFails (h : Rep b v) (hw : v.Wf) (ha : v.Addressable) (hop : b.Allowed op) :
    ¬ b.AllocFails op := by
  obtain ⟨⟨hin, -⟩, hfresh⟩ := hop
  cases op with
  | add id p q isBuy => exact h.not_outOfSlots hw ha hin.1 (h.fresh hfresh) hin.2.2
  | cancel id => exact not_false
  | modify id p q =>
    rintro ⟨x, b₀, hx, -, hcancel, hout⟩
    rw [h.map] at hx
    obtain ⟨s, p₀, o, ho, rfl, rfl⟩ := hw.byId_sound hx
    obtain ⟨b₁, hb₁, hrep₁⟩ := cancelOrder_spec h hw ho hx
    rw [hb₁ sub64 exact_sub64] at hcancel
    obtain rfl := Except.ok.inj hcancel
    exact hrep₁.not_outOfSlots (hw.remove ho) (ha.remove ho) hin.1
      (ha.not_at_remove hw.toSlots ho) hin.2.2 hout

/-- **The pool neither leaks nor double-frees**: after every call every slot is free or linked, never
both, and every call returns. With fresh ids `allocate` never returns null. -/
theorem pool_sound :
    (∀ ops b, OrderBook.Reaches (fun _ op => op.Valid) ops b →
      OrderPool.Partitioned b ∧ ∀ op, op.Valid → ∃ b', b.Calls op b') ∧
    ∀ ops b, OrderBook.Reaches OrderBook.Allowed ops b → ∀ op, b.Allowed op →
      ¬ b.AllocFails op := by
  constructor
  · intro ops b h
    obtain ⟨v, hrep, hw, -⟩ := h.rep_valid
    exact ⟨hrep.partitioned hw, fun op hop => hrep.exists_calls hw hop⟩
  · intro ops b h op hop
    obtain ⟨v, hrep, hw, ha⟩ := h.rep_allowed
    exact hrep.not_allocFails hw ha hop

/-- Two orders, one of them cancelled; then a bid with a fresh id rests behind the other, and a
modify replaces the other. -/
theorem pool_sound_run : ∃ b, OrderBook.Reaches OrderBook.Allowed
    [.add 1 100 5 false, .add 2 99 7 true, .cancel 1] b ∧ OrderPool.Partitioned b ∧
      ¬ b.AllocFails (.add 3 98 4 true) ∧ ¬ b.AllocFails (.modify 2 98 6) := by
  have hallows : RefBook.Allows [] [.add 1 100 5 false, .add 2 99 7 true, .cancel 1] := by
    decide +kernel
  obtain ⟨b, hb⟩ := hallows.reaches
  have hadd : (Op.add 3 98 4 true).Valid := by decide
  have hmodify : (Op.modify 2 98 6).Valid := by decide
  have hfresh : (RefBook.run [.add 1 100 5 false, .add 2 99 7 true, .cancel 1]).Fresh
      (.add 3 98 4 true) := by decide +kernel
  exact ⟨b, hb, (pool_sound.1 _ b (Run.mono hb fun h => ⟨h.1.1, h.2⟩)).1,
    pool_sound.2 _ b hb _ ⟨hadd, hb.fresh_iff.mpr hfresh⟩, pool_sound.2 _ b hb _ ⟨hmodify, trivial⟩⟩

end MarketHandler
