import MarketHandler.Lib.Linked
import MarketHandler.QueueBook

/-!
# The book represents queues

`Rep b v` connects the pointers of `OrderBook` with the queues of `QueueBook`: the links of every
level run through the slots of its queue (`Linked`), the slots hold the orders' fields, the totals
are the exact sums, the free list and the id table agree, each bitmap holds the prices with resting
orders, and the cached best prices are exact. `Mem` is the part about memory, `Bbo` the part about
the bitmaps and the best prices, which lags behind inside `cancel_order` and `match_order` until
`settleLevel` has run.

Each basic step of the code has its lemma here: `Mem.setQuantity` for a quantity written through an
order pointer, `Mem.remove` for unlinking and freeing an order, `Mem.rest` for linking a new one,
`settleLevel_spec` for the bitmaps and best prices.
-/

namespace MarketHandler

open Lib

/-! ## Writes to the pool -/

namespace OrderPool

/-- The `prev` pointers. -/
def prev (m : OrderPool) (x : Nat) : Option Nat := (m.pool x).prev

/-- The `next` pointers. -/
def next (m : OrderPool) (x : Nat) : Option Nat := (m.pool x).next

variable {m : OrderPool} {x y : Nat} {f : Order → Order}

@[simp] theorem write_self : (m.write x f).pool x = f (m.pool x) := Function.update_self ..

theorem write_of_ne (h : y ≠ x) : (m.write x f).pool y = m.pool y := Function.update_of_ne h _ _

theorem deallocate_of_ne (h : y ≠ x) : (m.deallocate x).pool y = m.pool y :=
  Function.update_of_ne h _ _

/-- A write that sets `next` only. -/
theorem next_write (n : Option Nat) :
    (m.write x fun o => { o with next := n }).next = Function.update m.next x n := by
  funext y
  by_cases h : y = x
  · subst h; simp [next]
  · simp [next, write_of_ne h, Function.update_of_ne h]

theorem prev_write (n : Option Nat) :
    (m.write x fun o => { o with prev := n }).prev = Function.update m.prev x n := by
  funext y
  by_cases h : y = x
  · subst h; simp [prev]
  · simp [prev, write_of_ne h, Function.update_of_ne h]

theorem prev_write_of_eq (h : (f (m.pool x)).prev = (m.pool x).prev) :
    (m.write x f).prev = m.prev := by
  funext y
  by_cases hy : y = x
  · subst hy; simpa [prev] using h
  · simp [prev, write_of_ne hy]

theorem next_write_of_eq (h : (f (m.pool x)).next = (m.pool x).next) :
    (m.write x f).next = m.next := by
  funext y
  by_cases hy : y = x
  · subst hy; simpa [next] using h
  · simp [next, write_of_ne hy]

end OrderPool

/-- The fields of `o` other than its links. -/
def Order.fields (o : Order) : Nat × Nat × Nat × Bool := (o.id, o.price, o.quantity, o.isBuy)

theorem OrderPool.fields_write {m : OrderPool} {x : Nat} {f : Order → Order}
    (h : (f (m.pool x)).fields = (m.pool x).fields) (y : Nat) :
    ((m.write x f).pool y).fields = (m.pool y).fields := by
  by_cases hy : y = x
  · subst hy; rw [write_self, h]
  · rw [write_of_ne hy]

/-- The links of one level were rewritten to run through `l`; every slot outside `l` and every
field that is not a link is untouched. -/
structure OrderPool.Relinked (m : OrderPool) (level : PriceLevel) (l : List Nat)
    (m' : OrderPool) (level' : PriceLevel) : Prop where
  linked : Linked m'.prev m'.next level'.head level'.tail l
  total_eq : level'.totalQuantity = level.totalQuantity
  frame : ∀ y, y ∉ l → m'.pool y = m.pool y
  fields : ∀ y, (m'.pool y).fields = (m.pool y).fields
  freeList : m'.freeList = m.freeList

theorem OrderPool.unlink_spec {m : OrderPool} {level : PriceLevel} {x : Nat} {l l' : List Nat}
    (h : Linked m.prev m.next level.head level.tail (l ++ x :: l')) (hn : (l ++ x :: l').Nodup) :
    m.Relinked level (l ++ l') (m.unlink level x).1 (m.unlink level x).2 := by
  have hu := h.unlink hn
  obtain ⟨hp, hx⟩ := h.links
  have hp' : (m.pool x).prev = l.getLast? := hp
  have hx' : (m.pool x).next = l'.head? := hx
  simp only [unlinkPrev, unlinkNext, hp, hx] at hu
  unfold OrderPool.unlink
  -- one case for each pair of neighbours that may be missing
  cases hc : l.getLast? with
  | none =>
    simp only [hp', hc, hx']
    rw [hc] at hu
    cases hd : l'.head? with
    | none =>
      rw [hd] at hu
      dsimp only
      exact ⟨hu, rfl, fun _ _ => rfl, fun _ => rfl, rfl⟩
    | some d =>
      rw [hd] at hu
      dsimp only
      have hdm : d ∈ l ++ l' := List.mem_append_right _ (List.mem_of_mem_head? hd)
      refine ⟨?_, rfl, fun y hy => write_of_ne (ne_of_mem_of_not_mem hdm hy).symm, fields_write rfl,
        rfl⟩
      rw [prev_write, next_write_of_eq rfl]
      exact hu
  | some c =>
    have hcm : c ∈ l := List.mem_of_getLast? hc
    have hxc : x ≠ c := fun e => (List.nodup_append.mp hn).2.2 c hcm x List.mem_cons_self e.symm
    rw [hc] at hu
    have hx1 : ((m.write c fun o => { o with next := l'.head? }).pool x).next = l'.head? := by
      rw [write_of_ne hxc, hx']
    have hp1 : ((m.write c fun o => { o with next := l'.head? }).pool x).prev = some c := by
      rw [write_of_ne hxc, hp', hc]
    simp only [hp', hc, hx', hx1, hp1]
    cases hd : l'.head? with
    | none =>
      rw [hd] at hu
      dsimp only
      refine ⟨?_, rfl, fun y hy => write_of_ne ?_, fields_write rfl, rfl⟩
      · rw [prev_write_of_eq rfl, next_write]
        exact hu
      · exact (ne_of_mem_of_not_mem (List.mem_append_left _ hcm) hy).symm
    | some d =>
      rw [hd] at hu
      dsimp only
      have hdm : d ∈ l ++ l' := List.mem_append_right _ (List.mem_of_mem_head? hd)
      refine ⟨?_, rfl, fun y hy => ?_, fun y => ?_, rfl⟩
      · rw [prev_write, next_write_of_eq rfl, next_write, prev_write_of_eq rfl]
        exact hu
      · rw [write_of_ne (ne_of_mem_of_not_mem hdm hy).symm,
          write_of_ne (ne_of_mem_of_not_mem (List.mem_append_left _ hcm) hy).symm]
      · rw [fields_write rfl, fields_write rfl]

/-! ## The representation relation -/

/-- The fields of a slot that holds the resting order `r` of side `s` at price `p`. -/
def Order.Records (o : Order) (s : Bool) (p : Nat) (r : Resting) : Prop :=
  o.fields = (r.id, p, r.quantity, s)

/-- A level of the code represents a queue. -/
structure LevelRep (m : OrderPool) (level : PriceLevel) (s : Bool) (p : Nat) (q : List Resting) :
    Prop where
  linked : Linked m.prev m.next level.head level.tail (slots q)
  records : ∀ o ∈ q, (m.pool o.slot).Records s p o
  total_eq : level.totalQuantity = total q

theorem LevelRep.frame {m m' : OrderPool} {level : PriceLevel} {s : Bool} {p : Nat}
    {q : List Resting} (h : LevelRep m level s p q)
    (hm : ∀ o ∈ q, m'.pool o.slot = m.pool o.slot) : LevelRep m' level s p q where
  linked := h.linked.congr
    (fun x hx => by
      obtain ⟨o, ho, rfl⟩ := List.mem_map.mp hx
      simp only [OrderPool.prev, hm o ho])
    fun x hx => by
      obtain ⟨o, ho, rfl⟩ := List.mem_map.mp hx
      simp only [OrderPool.next, hm o ho]
  records o ho := by
    rw [hm o ho]
    exact h.records o ho
  total_eq := h.total_eq

/-- Memory: levels, free list and id table. -/
structure Mem (b : OrderBook) (v : QueueBook) : Prop where
  level : ∀ s p, LevelRep b.pool (b.side s p) s p (v.queue s p)
  free : b.pool.freeList = v.free
  free_links : ∀ x ∈ v.free, b.pool.prev x = none ∧ b.pool.next x = none
  map : b.orderMap = v.byId

/-- `get_best_bid()` for the bid prices `S`. -/
def IsBestBid (S : Set Nat) (x : Nat) : Prop := S = ∅ ∧ x = 0 ∨ IsGreatest S x

/-- `get_best_ask()` for the ask prices `S`. -/
def IsBestAsk (S : Set Nat) (x : Nat) : Prop := S = ∅ ∧ x = uint32Max ∨ IsLeast S x

/-- Bitmaps and best prices for the prices `S` of each side. -/
structure Bbo (b : OrderBook) (S : Bool → Set Nat) : Prop where
  bits : ∀ s, (b.bits s).Holds (S s)
  bestBid : IsBestBid (S true) b.bestBid
  bestAsk : IsBestAsk (S false) b.bestAsk

/-- The book `b` represents the queues of `v`. -/
structure Rep (b : OrderBook) (v : QueueBook) : Prop extends Mem b v where
  bbo : Bbo b v.prices

/-! ## Memory steps -/

namespace OrderBook

variable (b : OrderBook) (s s' : Bool) (p p' : Nat) (lv : PriceLevel)

theorem side_setLevel :
    (b.setLevel s p lv).side s' p' = if s' = s ∧ p' = p then lv else b.side s' p' := by
  cases s <;> cases s' <;> simp [setLevel, side, Function.update_apply]

@[simp] theorem setLevel_pool : (b.setLevel s p lv).pool = b.pool := by cases s <;> rfl

@[simp] theorem setLevel_orderMap : (b.setLevel s p lv).orderMap = b.orderMap := by cases s <;> rfl

@[simp] theorem setLevel_bits : (b.setLevel s p lv).bits s' = b.bits s' := by cases s <;> rfl

@[simp] theorem setLevel_bestBid : (b.setLevel s p lv).bestBid = b.bestBid := by cases s <;> rfl

@[simp] theorem setLevel_bestAsk : (b.setLevel s p lv).bestAsk = b.bestAsk := by cases s <;> rfl

end OrderBook

section Steps

variable {b b' : OrderBook} {v : QueueBook} {s : Bool} {p q : Nat} {o : Resting}

/-- **Writing a quantity** through the pointer to a resting order, with its level's total. -/
theorem Mem.setQuantity (h : Mem b v) (hv : v.Slots) (ho : v.At s p o) (lv : PriceLevel)
    (hhead : lv.head = (b.side s p).head) (htail : lv.tail = (b.side s p).tail)
    (htotal : lv.totalQuantity + o.quantity = total (v.queue s p) + q)
    (hpool : b'.pool = b.pool.write o.slot fun x => { x with quantity := q })
    (hside : ∀ s' p', b'.side s' p' = if s' = s ∧ p' = p then lv else b.side s' p')
    (hmap : b'.orderMap = b.orderMap) : Mem b' (v.setQuantity o.slot q) where
  level s' p' := by
    rw [hside, hpool]
    by_cases hsp : s' = s ∧ p' = p
    · obtain ⟨rfl, rfl⟩ := hsp
      have hl := h.level s' p'
      rw [if_pos ⟨rfl, rfl⟩]
      refine ⟨?_, fun o' ho' => ?_, ?_⟩
      · rw [OrderPool.prev_write_of_eq rfl, OrderPool.next_write_of_eq rfl, hhead, htail,
          QueueBook.slots_setQuantity]
        exact hl.linked
      · obtain ⟨o₁, h₁, rfl⟩ := QueueBook.at_setQuantity.mp ho'
        have hr := hl.records o₁ h₁
        split_ifs with he
        · obtain ⟨-, -, rfl⟩ := hv.slot_inj h₁ ho he
          simp only [Order.Records, Order.fields, Prod.mk.injEq, OrderPool.write_self] at hr ⊢
          exact ⟨hr.1, hr.2.1, trivial, hr.2.2.2⟩
        · rw [OrderPool.write_of_ne he]
          exact hr
      · have := QueueBook.total_setQuantity (q := q) (hv.nodup s' p') ho
        omega
    · rw [if_neg hsp]
      have hne : ∀ o' ∈ v.queue s' p', o'.slot ≠ o.slot := fun o' ho' => hv.slot_ne ho ho' hsp
      rw [QueueBook.setQuantity_queue_eq hne]
      exact (h.level s' p').frame fun o' ho' => OrderPool.write_of_ne (hne o' ho')
  free := by rw [hpool]; exact h.free
  free_links x hx := by
    rw [hpool, OrderPool.prev_write_of_eq rfl, OrderPool.next_write_of_eq rfl]
    exact h.free_links x hx
  map := hmap.trans h.map

/-- **Unlinking and freeing** a resting order. -/
theorem Mem.remove (h : Mem b v) (hv : v.Slots) (ho : v.At s p o) (lv : PriceLevel)
    (hhead : lv.head = (b.side s p).head) (htail : lv.tail = (b.side s p).tail)
    (htotal : lv.totalQuantity + o.quantity = total (v.queue s p))
    (hpool : b'.pool = (b.pool.unlink lv o.slot).1.deallocate o.slot)
    (hside : ∀ s' p', b'.side s' p' =
      if s' = s ∧ p' = p then (b.pool.unlink lv o.slot).2 else b.side s' p')
    (hmap : b'.orderMap = Function.update b.orderMap o.id none) :
    Mem b' (v.remove o.slot o.id) := by
  obtain ⟨l, l', hl⟩ := List.append_of_mem ho
  have hlev := h.level s p
  have hlink := hlev.linked
  have hn := hv.nodup s p
  have hslots : slots (v.queue s p) = slots l ++ o.slot :: slots l' := by simp [hl]
  rw [hslots] at hlink hn
  rw [← hhead, ← htail] at hlink
  have hu := OrderPool.unlink_spec hlink hn
  set m' := (b.pool.unlink lv o.slot).1
  set lv' := (b.pool.unlink lv o.slot).2
  have hnot : o.slot ∉ slots l ++ slots l' := (List.nodup_cons.mp (List.nodup_middle.mp hn)).1
  have hdead : ∀ y, y ≠ o.slot → (m'.deallocate o.slot).pool y = m'.pool y :=
    fun y hy => OrderPool.deallocate_of_ne hy
  have hq : (v.remove o.slot o.id).queue s p = l ++ l' := hv.remove_queue hl
  refine ⟨fun s' p' => ?_, ?_, fun x hx => ?_, ?_⟩
  · rw [hside, hpool]
    by_cases hsp : s' = s ∧ p' = p
    · obtain ⟨rfl, rfl⟩ := hsp
      rw [if_pos ⟨rfl, rfl⟩, hq]
      have hmem : ∀ o' ∈ l ++ l', o'.slot ≠ o.slot := fun o' ho' e =>
        hnot (e ▸ by simpa using List.mem_map_of_mem (f := Resting.slot) ho')
      refine LevelRep.frame (m := m') ⟨?_, fun o' ho' => ?_, ?_⟩ fun o' ho' => hdead _ (hmem o' ho')
      · simpa [slots] using hu.linked
      · have hin : o' ∈ v.queue s' p' := by
          rw [hl]
          rcases List.mem_append.mp ho' with h' | h'
          · exact List.mem_append_left _ h'
          · exact List.mem_append_right _ (List.mem_cons_of_mem _ h')
        exact (hu.fields _).trans (hlev.records o' hin)
      · rw [hl, total_append, total_cons] at htotal
        rw [hu.total_eq, total_append]
        omega
    · rw [if_neg hsp]
      have hne : ∀ o' ∈ v.queue s' p', o'.slot ≠ o.slot := fun o' ho' => hv.slot_ne ho ho' hsp
      rw [QueueBook.remove_queue_eq hne]
      refine (h.level s' p').frame fun o' ho' => (hdead _ (hne o' ho')).trans (hu.frame _ fun hm => ?_)
      have hm' : o'.slot ∈ slots (v.queue s p) := by
        rw [hslots]
        rcases List.mem_append.mp hm with h' | h'
        · exact List.mem_append_left _ h'
        · exact List.mem_append_right _ (List.mem_cons_of_mem _ h')
      obtain ⟨o₁, h₁, he⟩ := List.mem_map.mp hm'
      exact hv.slot_ne h₁ ho' hsp he.symm
  · rw [hpool]
    exact congrArg (o.slot :: ·) (hu.freeList.trans h.free)
  · rw [hpool]
    by_cases hx' : x = o.slot
    · subst hx'
      simp [OrderPool.prev, OrderPool.next, OrderPool.deallocate]
    · have hxf : x ∈ v.free := (List.mem_cons.mp hx).resolve_left hx'
      have hout : x ∉ slots l ++ slots l' := fun hm => by
        have hm' : x ∈ slots (v.queue s p) := by
          rw [hslots]
          rcases List.mem_append.mp hm with h' | h'
          · exact List.mem_append_left _ h'
          · exact List.mem_append_right _ (List.mem_cons_of_mem _ h')
        obtain ⟨o₁, h₁, rfl⟩ := List.mem_map.mp hm'
        exact hv.free_disjoint h₁ hxf
      simp only [OrderPool.prev, OrderPool.next, hdead x hx', hu.frame x hout]
      exact h.free_links x hxf
  · rw [hmap, h.map]
    rfl

/-- The links of `add_order` put the new order behind the tail. -/
theorem linkOrder_spec {m : OrderPool} {lv : PriceLevel} {x : Nat} {l : List Nat}
    (h : Linked m.prev m.next lv.head lv.tail l) (hn : l.Nodup) (hx : x ∉ l)
    (hprev : m.prev x = none) (hnext : m.next x = none) :
    ∃ m' lv', OrderBook.linkOrder m lv x = .ok (m', lv') ∧ m.Relinked lv (l ++ [x]) m' lv' := by
  unfold OrderBook.linkOrder
  cases hh : lv.head with
  | none =>
    obtain rfl := h.head_eq_none_iff.mp hh
    exact ⟨_, _, rfl, Linked.singleton hprev hnext, rfl, fun _ _ => rfl, fun _ => rfl, rfl⟩
  | some a =>
    cases ht : lv.tail with
    | none =>
      have := h.tail_eq_none_iff.mp ht
      rw [h.head_eq_none_iff.mpr this] at hh
      cases hh
    | some t =>
      have htl : t ∈ l := List.mem_of_getLast? (h.tail_eq.symm.trans ht)
      refine ⟨_, _, rfl, ?_, rfl, fun y hy => ?_, fun y => ?_, rfl⟩
      · rw [ht, hh] at h
        have := h.append hn hx hnext
        rw [OrderPool.prev_write_of_eq rfl, OrderPool.next_write, OrderPool.prev_write,
          OrderPool.next_write_of_eq rfl]
        exact this
      · rw [List.mem_append, not_or] at hy
        rw [OrderPool.write_of_ne (ne_of_mem_of_not_mem htl hy.1).symm,
          OrderPool.write_of_ne (by simpa using hy.2)]
      · rw [OrderPool.fields_write rfl, OrderPool.fields_write rfl]

/-- The slot the pool hands out can be linked behind the tail of any level. -/
theorem Mem.linkOrder (h : Mem b v) (hv : v.Slots) {x : Nat} {free : List Nat}
    (hf : v.free = x :: free) (lv : PriceLevel) (hhead : lv.head = (b.side s p).head)
    (htail : lv.tail = (b.side s p).tail) {f : Order → Order}
    (hfp : (f (b.pool.pool x)).prev = (b.pool.pool x).prev)
    (hfn : (f (b.pool.pool x)).next = (b.pool.pool x).next) :
    ∃ m' lv', OrderBook.linkOrder ({ b.pool with freeList := free }.write x f) lv x =
        .ok (m', lv') ∧
      ({ b.pool with freeList := free }.write x f).Relinked lv (slots (v.queue s p) ++ [x])
        m' lv' := by
  have hxf : x ∈ v.free := hf ▸ List.mem_cons_self
  have hxq : x ∉ slots (v.queue s p) := fun hm => by
    obtain ⟨o', ho', rfl⟩ := List.mem_map.mp hm
    exact hv.free_disjoint ho' hxf
  have hprev : ({ b.pool with freeList := free }.write x f).prev = b.pool.prev :=
    OrderPool.prev_write_of_eq hfp
  have hnext : ({ b.pool with freeList := free }.write x f).next = b.pool.next :=
    OrderPool.next_write_of_eq hfn
  refine linkOrder_spec ?_ (hv.nodup s p) hxq ?_ ?_
  · rw [hprev, hnext, hhead, htail]
    exact (h.level s p).linked
  · rw [hprev]
    exact (h.free_links x hxf).1
  · rw [hnext]
    exact (h.free_links x hxf).2

/-- **Linking a new order** in the slot `x` taken off the free list. -/
theorem Mem.rest (h : Mem b v) (hv : v.Slots) {x : Nat} {free : List Nat} (hf : v.free = x :: free)
    {id : Nat} {lv lv' : PriceLevel} {m m' : OrderPool}
    (hm : m = { b.pool with freeList := free }.write x fun o =>
      { o with id := id, price := p, quantity := q, isBuy := s })
    (htotal : lv.totalQuantity = total (v.queue s p) + q)
    (hr : m.Relinked lv (slots (v.queue s p) ++ [x]) m' lv') (hpool : b'.pool = m')
    (hside : ∀ s' p', b'.side s' p' = if s' = s ∧ p' = p then lv' else b.side s' p')
    (hmap : b'.orderMap = Function.update b.orderMap id (some x)) : Mem b' (v.rest id p q s) := by
  have hxf : x ∈ v.free := hf ▸ List.mem_cons_self
  have hnew : ∀ {s' p'}, ∀ o' ∈ v.queue s' p', o'.slot ≠ x := fun o' ho' e =>
    hv.free_disjoint ho' (e ▸ hxf)
  have hq : ∀ s' p', (v.rest id p q s).queue s' p' =
      if s' = s ∧ p' = p then v.queue s' p' ++ [⟨x, id, q⟩] else v.queue s' p' := by
    intro s' p'
    simp only [QueueBook.rest, hf]
  refine ⟨fun s' p' => ?_, ?_, fun y hy => ?_, ?_⟩
  · rw [hside, hpool, hq]
    by_cases hsp : s' = s ∧ p' = p
    · obtain ⟨rfl, rfl⟩ := hsp
      rw [if_pos ⟨rfl, rfl⟩, if_pos ⟨rfl, rfl⟩]
      refine ⟨by simpa [slots] using hr.linked, fun o' ho' => ?_, ?_⟩
      · refine (hr.fields _).trans ?_
        rcases List.mem_append.mp ho' with h' | h'
        · rw [hm, OrderPool.write_of_ne (hnew o' h')]
          exact (h.level s' p').records o' h'
        · obtain rfl := List.mem_singleton.mp h'
          rw [hm, OrderPool.write_self]
          rfl
      · rw [hr.total_eq, htotal]
        simp
    · rw [if_neg hsp, if_neg hsp]
      refine (h.level s' p').frame fun o' ho' => ?_
      rw [hr.frame, hm, OrderPool.write_of_ne (hnew o' ho')]
      intro hmem
      rcases List.mem_append.mp hmem with h' | h'
      · obtain ⟨o₁, h₁, he⟩ := List.mem_map.mp h'
        exact hv.slot_ne h₁ ho' hsp he.symm
      · exact hnew o' ho' (List.mem_singleton.mp h')
  · rw [hpool, hr.freeList, hm]
    simp only [QueueBook.rest, hf]
    rfl
  · have hn := hv.free_nodup
    rw [hf, List.nodup_cons] at hn
    have hy' : y ∈ free := by simpa only [QueueBook.rest, hf] using hy
    have hyf : y ∈ v.free := hf ▸ List.mem_cons_of_mem _ hy'
    have hyx : y ≠ x := ne_of_mem_of_not_mem hy' hn.1
    have hout : y ∉ slots (v.queue s p) ++ [x] := by
      rw [List.mem_append, not_or]
      refine ⟨fun hmem => ?_, by simpa using hyx⟩
      obtain ⟨o', ho', rfl⟩ := List.mem_map.mp hmem
      exact hv.free_disjoint ho' hyf
    rw [hpool]
    simp only [OrderPool.prev, OrderPool.next, hr.frame y hout, hm, OrderPool.write_of_ne hyx]
    exact h.free_links y hyf
  · rw [hmap, h.map]
    simp only [QueueBook.rest, hf]

end Steps

/-! ## Bitmaps and best prices -/

/-- `b'` differs from `b` in bitmaps and best prices only. -/
structure SameMem (b b' : OrderBook) : Prop where
  pool : b'.pool = b.pool
  bids : b'.bids = b.bids
  asks : b'.asks = b.asks
  orderMap : b'.orderMap = b.orderMap

theorem SameMem.side {b b' : OrderBook} (h : SameMem b b') : b'.side = b.side := by
  funext s
  cases s
  · exact h.asks
  · exact h.bids

theorem SameMem.mem {b b' : OrderBook} {v : QueueBook} (h : SameMem b b') (hm : Mem b v) :
    Mem b' v := by
  obtain ⟨h1, h2, h3, h4⟩ := hm
  refine ⟨fun s p => ?_, ?_, ?_, ?_⟩
  · rw [h.pool, h.side]
    exact h1 s p
  · rw [h.pool]
    exact h2
  · rw [h.pool]
    exact h3
  · rw [h.orderMap]
    exact h4

/-- **`settleLevel`**: an emptied level leaves its bitmap and both best prices become exact again;
otherwise nothing changes. -/
theorem settleLevel_spec {b : OrderBook} {S S' : Bool → Set Nat} {s : Bool} {p : Nat}
    (hb : Bbo b S) (hp : p < maxTicks) (hother : S' (!s) = S (!s))
    (hsame : (b.side s p).totalQuantity ≠ 0 → S' s = S s)
    (hgone : (b.side s p).totalQuantity = 0 → S' s = S s \ {p}) :
    ∃ b', b.settleLevel s p = .ok b' ∧ SameMem b b' ∧ Bbo b' S' := by
  have hmax : maxTicks ≤ 262144 := le_refl _
  unfold OrderBook.settleLevel
  by_cases hz : (b.side s p).totalQuantity = 0
  swap
  · rw [if_neg hz]
    have : S' = S := by
      funext s'
      by_cases hs : s' = s
      · rw [hs, hsame hz]
      · rw [Bool.eq_not.mpr hs, hother]
    exact ⟨b, rfl, ⟨rfl, rfl, rfl, rfl⟩, this ▸ hb⟩
  rw [if_pos hz]
  obtain ⟨w, hw, hS⟩ := PriceBitSet.clear_spec hmax (hb.bits s) hp
  rw [← hgone hz] at hS
  have hO := hb.bits (!s)
  rw [← hother] at hO
  cases s
  · obtain ⟨bid, hbid, hbid'⟩ := PriceBitSet.getHighest_spec hmax hO
    obtain ⟨ask, hask, hask'⟩ := PriceBitSet.getLowest_spec hmax hS
    refine ⟨{ b with askBits := w, bestBid := bid, bestAsk := ask }, ?_, ⟨rfl, rfl, rfl, rfl⟩,
      ⟨fun s => ?_, hbid', hask'⟩⟩
    · have hw' : b.askBits.clear p = .ok w := hw
      have hb' : b.bidBits.getHighest = .ok bid := hbid
      simp only [Bool.false_eq_true, if_false, hw', hb', hask, ok_bind, pure_eq_ok]
    · cases s
      · exact hS
      · exact hO
  · obtain ⟨bid, hbid, hbid'⟩ := PriceBitSet.getHighest_spec hmax hS
    obtain ⟨ask, hask, hask'⟩ := PriceBitSet.getLowest_spec hmax hO
    refine ⟨{ b with bidBits := w, bestBid := bid, bestAsk := ask }, ?_, ⟨rfl, rfl, rfl, rfl⟩,
      ⟨fun s => ?_, hbid', hask'⟩⟩
    · have hw' : b.bidBits.clear p = .ok w := hw
      have ha' : b.askBits.getLowest = .ok ask := hask
      simp only [if_true, hw', hbid, ha', ok_bind, pure_eq_ok]
    · cases s
      · exact hO
      · exact hS

end MarketHandler
