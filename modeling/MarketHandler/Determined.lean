import MarketHandler.Runs

/-!
# The queues determine the book

Two books that represent the same queues agree in everything the code can reach: levels, orders and
their links, bitmaps, best prices, id table and free list. What a call or a sequence of calls does to
the book is therefore a statement about queues.

* `Rep.side_eq`, `Rep.order_eq`: a level, and the orders linked in it, are determined by its queue
  alone, whatever the rest of the two books.
* `Rep.bits_eq`, `Rep.bestBid_eq`, `Rep.bestAsk_eq`: a side's bitmap and best price are determined by
  its prices with orders.
* `Rep.agrees`: **books that represent the same queues agree**.
-/

namespace MarketHandler

open Lib

/-- The books have the same levels, link by link, the same orders in them, bitmaps, best prices, id
table and free slots. -/
structure OrderBook.Agrees (b b' : OrderBook) : Prop where
  side : ∀ isBuy price, b.side isBuy price = b'.side isBuy price
  orders : ∀ x, b.Rests x → b.pool.pool x = b'.pool.pool x
  links : ∀ x, x < maxOrders → b.pool.prev x = b'.pool.prev x ∧ b.pool.next x = b'.pool.next x
  freeList : b.pool.freeList = b'.pool.freeList
  orderMap : b.orderMap = b'.orderMap
  bits : ∀ isBuy, b.bits isBuy = b'.bits isBuy
  bestBid : b.bestBid = b'.bestBid
  bestAsk : b.bestAsk = b'.bestAsk

theorem IsBestBid.unique {S : Set Nat} {x y : Nat} (h : IsBestBid S x) (h' : IsBestBid S y) :
    x = y := by
  rcases h with ⟨rfl, rfl⟩ | h <;> rcases h' with ⟨he, rfl⟩ | h'
  · rfl
  · exact absurd h'.1 (Set.notMem_empty _)
  · rw [he] at h
    exact absurd h.1 (Set.notMem_empty _)
  · exact h.unique h'

theorem IsBestAsk.unique {S : Set Nat} {x y : Nat} (h : IsBestAsk S x) (h' : IsBestAsk S y) :
    x = y := by
  rcases h with ⟨rfl, rfl⟩ | h <;> rcases h' with ⟨he, rfl⟩ | h'
  · rfl
  · exact absurd h'.1 (Set.notMem_empty _)
  · rw [he] at h
    exact absurd h.1 (Set.notMem_empty _)
  · exact h.unique h'

variable {b b' : OrderBook} {v v' : QueueBook} {s : Bool} {p : Nat} {o : Resting}

/-- **A level is determined by its queue.** -/
theorem Rep.side_eq (h : Rep b v) (h' : Rep b' v') (hq : v.queue s p = v'.queue s p) :
    b.side s p = b'.side s p := by
  have hl := h.level s p
  have hl' := h'.level s p
  rw [← hq] at hl'
  have hhead := hl.linked.head_eq.trans hl'.linked.head_eq.symm
  have htail := hl.linked.tail_eq.trans hl'.linked.tail_eq.symm
  have htotal := hl.total_eq.trans hl'.total_eq.symm
  cases hb : b.side s p
  cases hb' : b'.side s p
  rw [hb, hb'] at hhead htail htotal
  simp only at hhead htail htotal
  rw [hhead, htail, htotal]

/-- **An order is determined by its queue**, links and fields. -/
theorem Rep.order_eq (h : Rep b v) (h' : Rep b' v') (hq : v.queue s p = v'.queue s p)
    (ho : v.At s p o) : b.pool.pool o.slot = b'.pool.pool o.slot := by
  have ho' : v'.At s p o := by
    unfold QueueBook.At
    rw [← hq]
    exact ho
  obtain ⟨h1, h2, h3, h4⟩ := h.fields ho
  obtain ⟨h1', h2', h3', h4'⟩ := h'.fields ho'
  have hl := (h.level s p).linked
  have hl' := (h'.level s p).linked
  obtain ⟨l, l', he⟩ := List.append_of_mem ho
  rw [he, slots, List.map_append, List.map_cons] at hl
  rw [← hq, he, slots, List.map_append, List.map_cons] at hl'
  have hprev : (b.pool.pool o.slot).prev = (b'.pool.pool o.slot).prev :=
    hl.links.1.trans hl'.links.1.symm
  have hnext : (b.pool.pool o.slot).next = (b'.pool.pool o.slot).next :=
    hl.links.2.trans hl'.links.2.symm
  cases hx : b.pool.pool o.slot
  cases hx' : b'.pool.pool o.slot
  rw [hx] at h1 h2 h3 h4
  rw [hx'] at h1' h2' h3' h4'
  rw [hx, hx'] at hprev hnext
  simp only at h1 h2 h3 h4 h1' h2' h3' h4' hprev hnext
  rw [h1, h2, h3, h4, h1', h2', h3', h4', hprev, hnext]

/-! ### Bitmaps and best prices are determined by the prices with resting orders -/

theorem Rep.bits_eq (h : Rep b v) (h' : Rep b' v') (hp : v.prices s = v'.prices s) :
    b.bits s = b'.bits s :=
  (h.bbo.bits s).unique (hp ▸ h'.bbo.bits s)

theorem Rep.bestBid_eq (h : Rep b v) (h' : Rep b' v') (hp : v.prices true = v'.prices true) :
    b.bestBid = b'.bestBid :=
  h.bbo.bestBid.unique (hp ▸ h'.bbo.bestBid)

theorem Rep.bestAsk_eq (h : Rep b v) (h' : Rep b' v') (hp : v.prices false = v'.prices false) :
    b.bestAsk = b'.bestAsk :=
  h.bbo.bestAsk.unique (hp ▸ h'.bbo.bestAsk)

/-! ### The whole book -/

/-- **Books that represent the same queues agree.** -/
theorem Rep.agrees (h : Rep b v) (h' : Rep b' v) (hv : v.Slots) : b.Agrees b' := by
  have horder : ∀ {s p o}, v.At s p o → b.pool.pool o.slot = b'.pool.pool o.slot :=
    fun ho => h.order_eq h' rfl ho
  refine ⟨fun s p => h.side_eq h' rfl, fun x hx => ?_, fun x hx => ?_, ?_, ?_,
    fun s => h.bits_eq h' rfl, h.bestBid_eq h' rfl, h.bestAsk_eq h' rfl⟩
  · obtain ⟨s, p, o, ho, rfl⟩ := h.rests_iff.mp hx
    exact horder ho
  · rcases (hv.cover x).mp hx with hf | ⟨s, p, o, ho, rfl⟩
    · obtain ⟨h1, h2⟩ := h.free_links x hf
      obtain ⟨h1', h2'⟩ := h'.free_links x hf
      exact ⟨h1.trans h1'.symm, h2.trans h2'.symm⟩
    · unfold OrderPool.prev OrderPool.next
      rw [horder ho]
      exact ⟨rfl, rfl⟩
  · rw [h.free, h'.free]
  · rw [h.map, h'.map]

end MarketHandler
