import MarketHandler.QueueBook.Crossing
import MarketHandler.Represents

/-!
# The operations of the code refine those on queues

For a book that represents queues, every operation returns and the result represents the queues the
abstract operation leaves, with an explicit bound on the fuel:

* `fillLevel_spec`: the inner loop of `match_order` is `trade` on the level's queue;
* `matchOrder_spec`: `match_order` is `trade` on the crossing orders, best price first;
* `addOrder_spec`, `cancelOrder_spec`, and `modifyOrder_unknown` to `modifyOrder_zero` for the branches
  of `modify_order`.

The results for a book are stated with the fuel and the subtraction universally quantified behind the
resulting book, so the result depends on neither: no subtraction of a call wraps.
-/

namespace MarketHandler

open Lib

/-- `sub` is exact wherever the exact result is not negative. -/
def Subtraction.Exact (sub : Subtraction) : Prop :=
  ∀ {a c}, c ≤ a → a < 2 ^ 64 → sub a c = .ok (a - c)

theorem exact_sub64 : sub64.Exact := fun {a c} h ha => by
  unfold sub64
  rw [show (a + (2 ^ 64 - c)) % 2 ^ 64 = a - c by omega]

theorem exact_checkedSub : checkedSub.Exact := fun h _ => if_pos h

theorem add64_of_lt {a c : Nat} (h : a + c < 2 ^ 64) : add64 a c = a + c := Nat.mod_eq_of_lt h

theorem OrderPool.write_congr {m : OrderPool} {x : Nat} {f g : Order → Order}
    (h : f (m.pool x) = g (m.pool x)) : m.write x f = m.write x g := by
  unfold OrderPool.write
  rw [h]

/-- `b'` has the bitmaps and best prices of `b`. -/
structure SameBbo (b b' : OrderBook) : Prop where
  bidBits : b'.bidBits = b.bidBits
  askBits : b'.askBits = b.askBits
  bestBid : b'.bestBid = b.bestBid
  bestAsk : b'.bestAsk = b.bestAsk

theorem SameBbo.trans {b b' b'' : OrderBook} (h : SameBbo b b') (h' : SameBbo b' b'') :
    SameBbo b b'' :=
  ⟨h'.1.trans h.1, h'.2.trans h.2, h'.3.trans h.3, h'.4.trans h.4⟩

theorem SameBbo.bbo {b b' : OrderBook} {S : Bool → Set Nat} (h : SameBbo b b') (hb : Bbo b S) :
    Bbo b' S where
  bits s := by
    have := hb.bits s
    cases s
    · exact (congrArg (fun x => x.Holds (S false)) h.askBits).mpr this
    · exact (congrArg (fun x => x.Holds (S true)) h.bidBits).mpr this
  bestBid := h.bestBid.symm ▸ hb.bestBid
  bestAsk := h.bestAsk.symm ▸ hb.bestAsk

theorem sameBbo_setLevel (b : OrderBook) (m : OrderPool) (s : Bool) (p : Nat) (lv : PriceLevel) :
    SameBbo b ({ b with pool := m }.setLevel s p lv) := by
  cases s <;> exact ⟨rfl, rfl, rfl, rfl⟩

theorem side_withPool (b : OrderBook) (m : OrderPool) : { b with pool := m }.side = b.side := rfl

variable {b b' : OrderBook} {v : QueueBook} {s isBuy : Bool} {p limit q rem : Nat} {o : Resting}
  {l : List Resting}

theorem QueueBook.at_of_cons (hl : v.queue s p = o :: l) : v.At s p o := by
  unfold QueueBook.At
  rw [hl]
  exact List.mem_cons_self

/-- The slot of a resting order holds its fields. -/
theorem Mem.fields (h : Mem b v) (ho : v.At s p o) :
    (b.pool.pool o.slot).id = o.id ∧ (b.pool.pool o.slot).price = p ∧
      (b.pool.pool o.slot).quantity = o.quantity ∧ (b.pool.pool o.slot).isBuy = s := by
  have := (h.level s p).records o ho
  simpa only [Order.Records, Order.fields, Prod.mk.injEq] using this

theorem setOrderMap_of_lt {i : Nat} (hi : i < maxOrders) (x : Option Nat) :
    b.setOrderMap i x = .ok { b with orderMap := Function.update b.orderMap i x } := by
  unfold OrderBook.setOrderMap
  rw [store_of_lt hi]
  rfl

theorem Mem.next_front (h : Mem b v) (hl : v.queue s p = o :: l) :
    (b.pool.pool o.slot).next = (slots l).head? := by
  have hlink := (h.level s p).linked
  rw [hl] at hlink
  exact (Linked.links (l := []) hlink).2

/-- The first order of a level, emptied and unlinked, still has its id. -/
theorem Mem.unlink_id (h : Mem b v) (hw : v.Wf) (hl : v.queue s p = o :: l) (lv : PriceLevel)
    (hhead : lv.head = (b.side s p).head) (htail : lv.tail = (b.side s p).tail) {m : OrderPool}
    (hm : m = b.pool.write o.slot fun x => { x with quantity := 0 }) :
    ((m.unlink lv o.slot).1.pool o.slot).id = o.id := by
  subst hm
  set m := b.pool.write o.slot fun x => { x with quantity := 0 } with hm
  have hlink : Linked m.prev m.next lv.head lv.tail ([] ++ o.slot :: slots l) := by
    have := (h.level s p).linked
    rw [hl, ← hhead, ← htail] at this
    exact this.congr (fun _ _ => congrFun (OrderPool.prev_write_of_eq rfl) _)
      fun _ _ => congrFun (OrderPool.next_write_of_eq rfl) _
  have hn := hw.nodup s p
  rw [hl] at hn
  have hf := (OrderPool.unlink_spec hlink hn).fields o.slot
  have hid : (m.pool o.slot).id = o.id := by
    rw [hm, OrderPool.write_self, (h.fields (QueueBook.at_of_cons hl)).1]
  exact (congrArg Prod.fst hf).trans hid

/-- The inner loop takes the whole of the first order when the incoming quantity covers it. -/
theorem tradeOne_full (h : Mem b v) (hw : v.Wf) (hl : v.queue s p = o :: l)
    (hq : o.quantity ≤ rem) :
    ∃ b', (∀ sub : Subtraction, sub.Exact →
        b.tradeOne sub s p o.slot rem = .ok (b', (slots l).head?, rem - o.quantity)) ∧
      Mem b' (v.remove o.slot o.id) ∧ SameBbo b b' := by
  have ho := QueueBook.at_of_cons hl
  obtain ⟨-, -, hquant, -⟩ := h.fields ho
  have htot : (b.side s p).totalQuantity = total (v.queue s p) := (h.level s p).total_eq
  have hle := le_total ho
  have hlt := hw.total_lt s p
  -- the quantity is written first, then the emptied order is unlinked and freed
  let m := b.pool.write o.slot fun x => { x with quantity := x.quantity - o.quantity }
  let lv : PriceLevel := { b.side s p with totalQuantity := total (v.queue s p) - o.quantity }
  let m' := (m.unlink lv o.slot).1
  have hm : m = b.pool.write o.slot fun x => { x with quantity := 0 } :=
    OrderPool.write_congr (by rw [hquant, Nat.sub_self])
  have h1 : Mem ({ b with pool := m }.setLevel s p lv) (v.setQuantity o.slot 0) := by
    refine h.setQuantity hw.toSlots ho lv rfl rfl ?_ ?_ (fun s' p' => ?_) ?_
    · show total (v.queue s p) - o.quantity + o.quantity = _
      omega
    · rw [OrderBook.setLevel_pool, hm]
    · rw [OrderBook.side_setLevel, side_withPool]
    · rw [OrderBook.setLevel_orderMap]
  have ho0 : (v.setQuantity o.slot 0).At s p { o with quantity := 0 } :=
    QueueBook.at_setQuantity.mpr ⟨o, ho, by simp⟩
  have hid' : (m'.pool o.slot).id = o.id := h.unlink_id hw hl lv rfl rfl hm
  let b' : OrderBook := { { b with pool := m' }.setLevel s p (m.unlink lv o.slot).2 with
    orderMap := Function.update b.orderMap o.id none
    pool := m'.deallocate o.slot }
  refine ⟨b', fun sub hsub => ?_, ?_, ?_⟩
  · unfold OrderBook.tradeOne
    have hmin : min (b.pool.pool o.slot).quantity rem = o.quantity := by omega
    have hsub : sub (b.side s p).totalQuantity o.quantity =
        .ok (total (v.queue s p) - o.quantity) := by
      rw [htot, hsub hle (by omega)]
    have hz : (m.pool o.slot).quantity = 0 := by rw [hm, OrderPool.write_self]
    have hn : (m.pool o.slot).next = (slots l).head? := by
      rw [hm, OrderPool.write_self, h.next_front hl]
    simp only [hmin, hsub, ok_bind]
    rw [if_pos hz, hn]
    show (OrderBook.setOrderMap ({ b with pool := m' }.setLevel s p (m.unlink lv o.slot).2)
      (m'.pool o.slot).id none >>= fun b => _) = _
    rw [hid', setOrderMap_of_lt (hw.id_lt ho)]
    simp only [ok_bind, pure_eq_ok, OrderBook.setLevel_pool, OrderBook.setLevel_orderMap]
    rfl
  · have hside : ∀ s' p', b'.side s' p' = if s' = s ∧ p' = p then (m.unlink lv o.slot).2 else
        ({ b with pool := m }.setLevel s p lv).side s' p' := by
      intro s' p'
      show ({ b with pool := m' }.setLevel s p (m.unlink lv o.slot).2).side s' p' = _
      rw [OrderBook.side_setLevel, OrderBook.side_setLevel]
      split_ifs <;> rfl
    have htotal := QueueBook.total_setQuantity (q := 0) (hw.nodup s p) ho
    rw [← QueueBook.remove_setQuantity (q := 0)]
    refine h1.remove (o := { o with quantity := 0 }) (hw.toSlots.setQuantity o.slot 0) ho0 lv
      ?_ ?_ ?_ ?_ ?_ ?_
    · rw [OrderBook.side_setLevel, if_pos ⟨rfl, rfl⟩]
    · rw [OrderBook.side_setLevel, if_pos ⟨rfl, rfl⟩]
    · show total (v.queue s p) - o.quantity + 0 = _
      omega
    · rw [OrderBook.setLevel_pool]
    · rw [OrderBook.setLevel_pool]
      exact hside
    · rw [OrderBook.setLevel_orderMap]
  · cases s <;> exact ⟨rfl, rfl, rfl, rfl⟩

/-- The inner loop takes the rest of the incoming quantity from an order that exceeds it. -/
theorem tradeOne_partial (h : Mem b v) (hw : v.Wf) (ho : v.At s p o) (hq : rem < o.quantity) :
    ∃ b', (∀ sub : Subtraction, sub.Exact →
        b.tradeOne sub s p o.slot rem = .ok (b', some o.slot, 0)) ∧
      Mem b' (v.setQuantity o.slot (o.quantity - rem)) ∧ SameBbo b b' := by
  obtain ⟨-, -, hquant, -⟩ := h.fields ho
  have htot : (b.side s p).totalQuantity = total (v.queue s p) := (h.level s p).total_eq
  have hle := le_total ho
  have hlt := hw.total_lt s p
  have hmin : min (b.pool.pool o.slot).quantity rem = rem := by omega
  let m := b.pool.write o.slot fun x => { x with quantity := x.quantity - rem }
  let lv : PriceLevel := { b.side s p with totalQuantity := total (v.queue s p) - rem }
  have hm : m = b.pool.write o.slot fun x => { x with quantity := o.quantity - rem } :=
    OrderPool.write_congr (by rw [hquant])
  have hz : (m.pool o.slot).quantity ≠ 0 := by
    rw [hm, OrderPool.write_self]
    show o.quantity - rem ≠ 0
    omega
  refine ⟨{ b with pool := m }.setLevel s p lv, fun sub hsub => ?_, ?_,
    sameBbo_setLevel b m s p lv⟩
  · have hsub : sub (b.side s p).totalQuantity rem = .ok (total (v.queue s p) - rem) := by
      rw [htot, hsub (by omega) (by omega)]
    unfold OrderBook.tradeOne
    simp only [hmin, hsub, Nat.sub_self, ok_bind]
    rw [if_neg hz]
    rfl
  · refine h.setQuantity hw.toSlots ho lv rfl rfl ?_ ?_ (fun s' p' => ?_) ?_
    · show total (v.queue s p) - rem + o.quantity = _
      omega
    · rw [OrderBook.setLevel_pool, hm]
    · rw [OrderBook.side_setLevel, side_withPool]
    · rw [OrderBook.setLevel_orderMap]

/-- **The inner loop is `trade` on the level's queue.** -/
theorem fillLevel_spec (h : Mem b v) (hw : v.Wf) (hl : v.queue s p = l) (rem : Nat) :
    ∃ b', (∀ (sub : Subtraction) fuel, sub.Exact → l.length < fuel →
        b.fillLevel sub fuel s p (slots l).head? rem = .ok (b', (v.trade l rem).2)) ∧
      Mem b' (v.trade l rem).1 ∧ SameBbo b b' := by
  induction l generalizing b v rem with
  | nil =>
    refine ⟨b, fun sub fuel hsub hf => ?_, h, ⟨rfl, rfl, rfl, rfl⟩⟩
    obtain ⟨n, rfl⟩ := Nat.exists_eq_succ_of_ne_zero (Nat.ne_of_gt hf)
    rfl
  | cons o l ih =>
    have ho := QueueBook.at_of_cons hl
    by_cases h0 : rem = 0
    · refine ⟨b, fun sub fuel hsub hf => ?_, by simpa [h0] using h, ⟨rfl, rfl, rfl, rfl⟩⟩
      obtain ⟨n, rfl⟩ := Nat.exists_eq_succ_of_ne_zero (Nat.ne_of_gt (Nat.zero_lt_of_lt hf))
      simp [OrderBook.fillLevel, h0]
    by_cases hq : o.quantity ≤ rem
    · obtain ⟨b₁, hb₁, hm₁, hs₁⟩ := tradeOne_full h hw hl hq
      have hl' : (v.remove o.slot o.id).queue s p = l := hw.toSlots.remove_queue (l := []) hl
      obtain ⟨b', hb', hm', hs'⟩ := ih hm₁ (hw.remove ho) hl' (rem - o.quantity)
      have ht : v.trade (o :: l) rem = (v.remove o.slot o.id).trade l (rem - o.quantity) := by
        rw [QueueBook.trade, if_neg h0, if_pos hq]
      rw [ht]
      refine ⟨b', fun sub fuel hsub hf => ?_, hm', hs₁.trans hs'⟩
      obtain ⟨n, rfl⟩ := Nat.exists_eq_succ_of_ne_zero (Nat.ne_of_gt (Nat.zero_lt_of_lt hf))
      simp only [List.map_cons, List.head?_cons, OrderBook.fillLevel]
      rw [if_neg h0, hb₁ sub hsub, ok_bind]
      exact hb' sub n hsub (by simpa using hf)
    · obtain ⟨b', hb', hm', hs'⟩ := tradeOne_partial h hw ho (Nat.lt_of_not_le hq)
      have ht : v.trade (o :: l) rem = (v.setQuantity o.slot (o.quantity - rem), 0) := by
        rw [QueueBook.trade, if_neg h0, if_neg hq]
      rw [ht]
      refine ⟨b', fun sub fuel hsub hf => ?_, hm', hs'⟩
      obtain ⟨n, rfl⟩ := Nat.exists_eq_add_of_le' (show 2 ≤ fuel by simp at hf; omega)
      simp only [List.map_cons, List.head?_cons, OrderBook.fillLevel]
      rw [if_neg h0, hb' sub hsub, ok_bind]
      simp [OrderBook.fillLevel]

/-! ## `match_order` -/

/-- Settling the one level whose queue changed makes bitmaps and best prices exact. -/
theorem settleLevel_bbo {v' : QueueBook} (hb : Bbo b v.prices) (hp : p < maxTicks)
    (hpv : p ∈ v.prices s) (hz : (b.side s p).totalQuantity = 0 ↔ v'.queue s p = [])
    (hout : ∀ s' p', s' ≠ s ∨ p' ≠ p → v'.queue s' p' = v.queue s' p') :
    ∃ b', b.settleLevel s p = .ok b' ∧ SameMem b b' ∧ Bbo b' v'.prices := by
  refine settleLevel_spec hb hp ?_ (fun hne => ?_) fun h0 => ?_
  · ext p'
    simp only [QueueBook.prices, Set.mem_ofPred_eq, hout (!s) p' (Or.inl (by simp))]
  · ext p'
    by_cases he : p' = p
    · subst he
      exact iff_of_true (fun h => hne (hz.mpr h)) hpv
    · simp only [QueueBook.prices, Set.mem_ofPred_eq, hout s p' (Or.inr he)]
  · ext p'
    by_cases he : p' = p
    · subst he
      exact iff_of_false (fun h => h (hz.mp h0)) fun h => h.2 rfl
    · simp only [QueueBook.prices, Set.mem_sdiff, Set.mem_ofPred_eq, hout s p' (Or.inr he),
        Set.mem_singleton_iff, he, not_false_eq_true, and_true]

/-- The cached opposing best price is the best price of the queues. -/
theorem Bbo.best_eq (hb : Bbo b v.prices) (hp : p ∈ v.prices (!isBuy))
    (hbest : ∀ p' ∈ v.prices (!isBuy), p' = p ∨ QueueBook.better isBuy p p') :
    (if isBuy then b.bestAsk else b.bestBid) = p := by
  cases isBuy
  · rcases hb.bestBid with ⟨h, -⟩ | ⟨hmem, hge⟩
    · exact absurd hp (by rw [Bool.not_false, h]; exact Set.notMem_empty p)
    · have h1 := hge hp
      rcases hbest _ hmem with h | h
      · exact h
      · simp [QueueBook.better] at h
        omega
  · rcases hb.bestAsk with ⟨h, -⟩ | ⟨hmem, hle⟩
    · exact absurd hp (by rw [Bool.not_true, h]; exact Set.notMem_empty p)
    · have h1 := hle hp
      rcases hbest _ hmem with h | h
      · exact h
      · simp [QueueBook.better] at h
        omega

/-- The code's crossing test finds the opposing prices that cross. -/
theorem isMatch_of_crossing (hb : Bbo b v.prices) (hc : v.crossingPrices isBuy limit ≠ []) :
    b.isMatch limit isBuy = true := by
  obtain ⟨p, hp⟩ := List.exists_mem_of_ne_nil _ hc
  obtain ⟨-, hle, hp⟩ := QueueBook.mem_crossingPrices.mp hp
  unfold OrderBook.isMatch
  unfold QueueBook.crosses at hle
  cases isBuy
  · simp only [Bool.false_eq_true, if_false, decide_eq_true_eq, Bool.not_false] at hle hp ⊢
    rcases hb.bestBid with ⟨h, -⟩ | ⟨-, hge⟩
    · exact absurd hp (by rw [h]; exact Set.notMem_empty p)
    · exact hle.trans (hge hp)
  · simp only [if_true, decide_eq_true_eq, Bool.not_true] at hle hp ⊢
    rcases hb.bestAsk with ⟨h, -⟩ | ⟨-, hge⟩
    · exact absurd hp (by rw [h]; exact Set.notMem_empty p)
    · exact (hge hp).trans hle

/-- Where no opposing price crosses, the crossing test finds one only for a sell at 0, which the
sentinel of an empty bid side passes. -/
theorem not_isMatch (hb : Bbo b v.prices) (hw : v.Wf) (h0 : isBuy = true ∨ 0 < limit)
    (hlt : limit < maxTicks) (hc : v.crossingPrices isBuy limit = []) :
    b.isMatch limit isBuy = false := by
  have hnot : ∀ p ∈ v.prices (!isBuy), QueueBook.crosses isBuy limit p ≠ true := by
    intro p hp hcross
    have := QueueBook.mem_crossingPrices.mpr ⟨hw.price_mem_lt hp, hcross, hp⟩
    rw [hc] at this
    cases this
  unfold OrderBook.isMatch
  unfold QueueBook.crosses at hnot
  cases isBuy
  · simp only [Bool.false_eq_true, if_false, ne_eq, decide_eq_true_eq, decide_eq_false_iff_not,
      Bool.not_false, false_or] at h0 hnot ⊢
    rcases hb.bestBid with ⟨-, h'⟩ | ⟨hmem, -⟩
    · omega
    · exact hnot _ hmem
  · simp only [if_true, ne_eq, decide_eq_true_eq, decide_eq_false_iff_not, Bool.not_true] at hnot ⊢
    rcases hb.bestAsk with ⟨-, h'⟩ | ⟨hmem, -⟩
    · rw [h']
      unfold uint32Max
      unfold maxTicks at hlt
      omega
    · exact hnot _ hmem

theorem Mem.total_zero_iff (h : Mem b v) (hw : v.Wf) :
    (b.side s p).totalQuantity = 0 ↔ v.queue s p = [] := by
  rw [(h.level s p).total_eq, hw.total_eq_zero_iff]

/-- **One pass of the outer loop trades with the best opposing level.** -/
theorem matchPass_spec (h : Rep b v) (hw : v.Wf) {ps : List Nat}
    (hps : v.crossingPrices isBuy limit = p :: ps) (rem : Nat) :
    ∃ b', (∀ (sub : Subtraction) fuel, sub.Exact → (v.queue (!isBuy) p).length < fuel →
        b.matchPass sub fuel isBuy rem = .ok (b', (v.trade (v.queue (!isBuy) p) rem).2)) ∧
      Rep b' (v.trade (v.queue (!isBuy) p) rem).1 := by
  obtain ⟨hp, -, hbest⟩ := QueueBook.crossingPrices_cons hps
  have hlt := hw.price_mem_lt hp
  have hprice := h.bbo.best_eq hp fun p' hp' => hbest p' hp' (hw.price_mem_lt hp')
  have hw' := hw.trade (q := rem) (hw.lists_queue (!isBuy) p)
  obtain ⟨b₁, hb₁, hm₁, hs₁⟩ := fillLevel_spec h.toMem hw (s := !isBuy) (p := p) rfl rem
  obtain ⟨b', hb', hm', hbbo'⟩ := settleLevel_bbo (hs₁.bbo h.bbo) hlt hp
    (Mem.total_zero_iff hm₁ hw') fun s' p' hne => QueueBook.trade_queue_of_ne hw hne
  refine ⟨b', fun sub fuel hsub hf => ?_, hm'.mem hm₁, hbbo'⟩
  unfold OrderBook.matchPass OrderBook.level
  simp only [hprice, index_of_lt hlt, ok_bind, (h.level (!isBuy) p).linked.head_eq, hb₁ sub fuel hsub hf,
    hb', pure_eq_ok]

/-- Matching that finds no crossing price returns at once. -/
theorem matchLoop_none (h : Rep b v) (hw : v.Wf) (hlt : limit < maxTicks)
    (hend : v.Ends isBuy limit rem) (hps : v.crossingPrices isBuy limit = []) (sub : Subtraction)
    (n : Nat) : b.matchLoop sub (n + 1) limit isBuy rem = .ok (b, rem) := by
  have hc : v.crossing isBuy limit = [] := QueueBook.crossing_eq_nil_iff.mpr hps
  unfold QueueBook.Ends at hend
  rw [hc, ← or_assoc] at hend
  rw [OrderBook.matchLoop]
  rcases hend with h0 | hz
  · rw [not_isMatch h.bbo hw h0 hlt hps, if_neg Bool.false_ne_true, ite_self]
    rfl
  · rw [if_pos (Nat.le_zero.mp hz)]
    rfl

theorem matchLoop_spec (hlt : limit < maxTicks) (ps : List Nat) :
    ∀ {b : OrderBook} {v : QueueBook} (rem : Nat), Rep b v → v.Wf → v.Ends isBuy limit rem →
      v.crossingPrices isBuy limit = ps →
      ∃ b', (∀ (sub : Subtraction) fuel, sub.Exact → (v.crossing isBuy limit).length + 1 < fuel →
          b.matchLoop sub fuel limit isBuy rem =
            .ok (b', (v.trade (v.crossing isBuy limit) rem).2)) ∧
        Rep b' (v.trade (v.crossing isBuy limit) rem).1 := by
  induction ps with
  | nil =>
    intro b v rem h hw hend hps
    have hc : v.crossing isBuy limit = [] := QueueBook.crossing_eq_nil_iff.mpr hps
    rw [hc]
    refine ⟨b, fun sub fuel hsub hf => ?_, h⟩
    obtain ⟨n, rfl⟩ := Nat.exists_eq_succ_of_ne_zero (Nat.ne_of_gt (Nat.zero_lt_of_lt hf))
    exact matchLoop_none h hw hlt hend hps sub n
  | cons p ps ih =>
    intro b v rem h hw hend hps
    have hne : v.queue (!isBuy) p ≠ [] := (QueueBook.crossingPrices_cons hps).1
    have hlen := List.length_pos_iff.mpr hne
    have hcross := QueueBook.crossing_cons hps
    have hyes : b.isMatch limit isBuy = true := by
      refine isMatch_of_crossing h.bbo ?_
      rw [hps]
      exact List.cons_ne_nil _ _
    by_cases hr : rem = 0
    · subst hr
      rw [QueueBook.trade_zero]
      refine ⟨b, fun sub fuel hsub hf => ?_, h⟩
      obtain ⟨n, rfl⟩ := Nat.exists_eq_succ_of_ne_zero (Nat.ne_of_gt (Nat.zero_lt_of_lt hf))
      rw [OrderBook.matchLoop, if_pos rfl]
      rfl
    obtain ⟨b₁, hb₁, hrep₁⟩ := matchPass_spec h hw hps rem
    have hw₁ := hw.trade (q := rem) (hw.lists_queue (!isBuy) p)
    have htrade : v.trade (v.crossing isBuy limit) rem =
        (v.trade (v.queue (!isBuy) p) rem).1.trade (ps.flatMap (v.queue (!isBuy)))
          (v.trade (v.queue (!isBuy) p) rem).2 := by
      rw [hcross, QueueBook.trade_append]
    rw [htrade, hcross, List.length_append]
    by_cases hq : total (v.queue (!isBuy) p) ≤ rem
    -- the level is consumed: the rest of the crossing prices is left to the next passes
    · obtain ⟨b', hb', hrep'⟩ := ih (v.trade (v.queue (!isBuy) p) rem).2 hrep₁ hw₁
        (hend.trade hw hps hq) (QueueBook.crossingPrices_trade hw hps hq)
      rw [QueueBook.crossing_trade hw hps hq] at hb' hrep'
      refine ⟨b', fun sub fuel hsub hf => ?_, hrep'⟩
      obtain ⟨n, rfl⟩ := Nat.exists_eq_succ_of_ne_zero (Nat.ne_of_gt (Nat.zero_lt_of_lt hf))
      rw [OrderBook.matchLoop, if_neg hr, if_pos hyes, hb₁ sub n hsub (by omega), ok_bind]
      exact hb' sub n hsub (by omega)
    -- the incoming quantity is used up inside the level
    · have hzero : (v.trade (v.queue (!isBuy) p) rem).2 = 0 := by
        rw [QueueBook.trade_snd]
        omega
      rw [hzero, QueueBook.trade_zero]
      refine ⟨b₁, fun sub fuel hsub hf => ?_, hrep₁⟩
      obtain ⟨n, rfl⟩ := Nat.exists_eq_add_of_le' (show 2 ≤ fuel by omega)
      rw [OrderBook.matchLoop, if_neg hr, if_pos hyes, hb₁ sub (n + 1) hsub (by omega), ok_bind, hzero]
      rfl

/-- **`match_order` trades with the crossing orders**, best price first and in queue order. -/
theorem matchOrder_spec (h : Rep b v) (hw : v.Wf) (hend : v.Ends isBuy limit q)
    (hlt : limit < maxTicks) :
    ∃ b', (∀ (sub : Subtraction) fuel, sub.Exact → (v.crossing isBuy limit).length + 1 < fuel →
        b.matchOrder sub fuel limit q isBuy = .ok (b', (v.trade (v.crossing isBuy limit) q).2)) ∧
      Rep b' (v.trade (v.crossing isBuy limit) q).1 :=
  matchLoop_spec hlt _ q h hw hend rfl

/-! ## `add_order` -/

theorem IsBestBid.insert {S : Set Nat} {x : Nat} (h : IsBestBid S x) :
    IsBestBid (insert p S) (if x < p then p else x) := by
  refine Or.inr ⟨?_, fun y hy => ?_⟩
  · rcases h with ⟨rfl, rfl⟩ | ⟨hx, -⟩ <;> split_ifs with hlt
    · exact Set.mem_insert _ _
    · exact Or.inl (by omega)
    · exact Set.mem_insert _ _
    · exact Set.mem_insert_of_mem _ hx
  · rcases hy with rfl | hy
    · split_ifs <;> omega
    · rcases h with ⟨rfl, -⟩ | ⟨-, hx⟩
      · exact absurd hy (Set.notMem_empty y)
      · have := hx hy
        split_ifs <;> omega

theorem IsBestAsk.insert {S : Set Nat} {x : Nat} (h : IsBestAsk S x) (hp : p < uint32Max) :
    IsBestAsk (insert p S) (if p < x then p else x) := by
  refine Or.inr ⟨?_, fun y hy => ?_⟩
  · rcases h with ⟨rfl, rfl⟩ | ⟨hx, -⟩ <;> split_ifs
    · exact Set.mem_insert _ _
    · exact Set.mem_insert _ _
    · exact Set.mem_insert_of_mem _ hx
  · rcases hy with rfl | hy
    · split_ifs <;> omega
    · rcases h with ⟨rfl, -⟩ | ⟨-, hx⟩
      · exact absurd hy (Set.notMem_empty y)
      · have := hx hy
        split_ifs <;> omega

/-- The best prices are exact again once `add_order` has compared its price with its side's. -/
theorem improveBest_spec {S S' : Bool → Set Nat} (hbid : IsBestBid (S true) b.bestBid)
    (hask : IsBestAsk (S false) b.bestAsk) (hp : p < uint32Max)
    (hS : ∀ s', S' s' = if s' = s then insert p (S s') else S s')
    (hbits : ∀ s', (b.bits s').Holds (S' s')) :
    SameMem b (b.improveBest s p) ∧ Bbo (b.improveBest s p) S' := by
  unfold OrderBook.improveBest
  cases s
  · have h1 : S' true = S true := hS true
    have h2 : S' false = insert p (S false) := hS false
    have hask' := hask.insert hp
    rw [← h2] at hask'
    rw [← h1] at hbid
    rw [if_neg Bool.false_ne_true]
    split_ifs at hask' ⊢
    · exact ⟨⟨rfl, rfl, rfl, rfl⟩, hbits, hbid, hask'⟩
    · exact ⟨⟨rfl, rfl, rfl, rfl⟩, hbits, hbid, hask'⟩
  · have h1 : S' false = S false := hS false
    have h2 : S' true = insert p (S true) := hS true
    have hbid' := hbid.insert (p := p)
    rw [← h2] at hbid'
    rw [← h1] at hask
    rw [if_pos rfl]
    split_ifs at hbid' ⊢
    · exact ⟨⟨rfl, rfl, rfl, rfl⟩, hbits, hbid', hask⟩
    · exact ⟨⟨rfl, rfl, rfl, rfl⟩, hbits, hbid', hask⟩

/-- The prices after an order rests. -/
theorem QueueBook.rest_prices {x : Nat} {free : List Nat} (hf : v.free = x :: free) (id : Nat)
    (s' : Bool) :
    (v.rest id p q s).prices s' = if s' = s then insert p (v.prices s') else v.prices s' := by
  ext p'
  rw [mem_prices]
  simp only [at_rest hf]
  split_ifs with hs
  · rw [Set.mem_insert_iff, mem_prices]
    constructor
    · rintro ⟨o, ho | ⟨-, rfl, -⟩⟩
      · exact Or.inr ⟨o, ho⟩
      · exact Or.inl rfl
    · rintro (rfl | ⟨o, ho⟩)
      · exact ⟨_, Or.inr ⟨hs, rfl, rfl⟩⟩
      · exact ⟨o, Or.inl ho⟩
  · rw [mem_prices]
    exact ⟨fun ⟨o, ho⟩ => ⟨o, ho.resolve_right fun h => hs h.1⟩, fun ⟨o, ho⟩ => ⟨o, Or.inl ho⟩⟩

/-- The bitmap of the side holds `p` once `add_order` is about to join the level at `p`. -/
theorem joinLevel_spec {S : Bool → Set Nat} (lv : PriceLevel) (hb : Bbo b S) (hp : p < maxTicks)
    (hz : lv.totalQuantity ≠ 0 → p ∈ S s) :
    ∃ b', b.joinLevel s p lv = .ok b' ∧ SameMem b b' ∧ b'.bestBid = b.bestBid ∧
      b'.bestAsk = b.bestAsk ∧
      ∀ s', (b'.bits s').Holds (if s' = s then insert p (S s') else S s') := by
  have hmax : maxTicks ≤ 262144 := le_refl _
  unfold OrderBook.joinLevel
  by_cases h0 : lv.totalQuantity = 0
  swap
  · rw [if_neg h0]
    refine ⟨b, rfl, ⟨rfl, rfl, rfl, rfl⟩, rfl, rfl, fun s' => ?_⟩
    split_ifs with hs
    · subst hs
      rw [Set.insert_eq_of_mem (hz h0)]
      exact hb.bits s'
    · exact hb.bits s'
  rw [if_pos h0]
  obtain ⟨w, hw, hS⟩ := PriceBitSet.set_spec hmax (hb.bits s) hp
  cases s
  · have hw' : b.askBits.set p = .ok w := hw
    refine ⟨{ b with askBits := w }, by simp [hw'], ⟨rfl, rfl, rfl, rfl⟩, rfl, rfl, fun s' => ?_⟩
    cases s'
    · exact hS
    · exact hb.bits true
  · have hw' : b.bidBits.set p = .ok w := hw
    refine ⟨{ b with bidBits := w }, by simp [hw'], ⟨rfl, rfl, rfl, rfl⟩, rfl, rfl, fun s' => ?_⟩
    cases s'
    · exact hb.bits false
    · exact hS

/-- **The second half of `add_order`** rests the order at the back of its queue. -/
theorem restOrder_spec {x id : Nat} {free : List Nat} (h : Rep b v) (hw : v.Wf)
    (hf : v.free = x :: free) (hid : id < maxOrders) (hp : p < maxTicks) (hq : q < 2 ^ 31) :
    ∃ b', OrderBook.restOrder { b with pool := { b.pool with freeList := free } } x id p q s =
        .ok b' ∧ Rep b' (v.rest id p q s) := by
  set m := { b.pool with freeList := free }.write x fun o =>
    { o with id := id, price := p, quantity := q, isBuy := s } with hm
  let b₁ : OrderBook := { b with pool := m, orderMap := Function.update b.orderMap id (some x) }
  let lv : PriceLevel := { b.side s p with totalQuantity := total (v.queue s p) + q }
  have htot : (b.side s p).totalQuantity = total (v.queue s p) := (h.level s p).total_eq
  have hadd : add64 (b.side s p).totalQuantity q = total (v.queue s p) + q := by
    have := hw.total_lt s p
    rw [htot, add64_of_lt (by omega)]
  have hbbo₁ : Bbo b₁ v.prices := SameBbo.bbo (b := b) ⟨rfl, rfl, rfl, rfl⟩ h.bbo
  obtain ⟨b₂, hb₂, hmem₂, hbid₂, hask₂, hbits₂⟩ := joinLevel_spec (s := s) (b.side s p)
    hbbo₁ hp fun hne he => hne ((Mem.total_zero_iff h.toMem hw).mpr he)
  obtain ⟨m', lv', hlink, hr⟩ := h.linkOrder (s := s) (p := p) hw.toSlots hf lv rfl rfl
    (f := fun o => { o with id := id, price := p, quantity := q, isBuy := s }) rfl rfl
  let b₃ : OrderBook := { b₂ with pool := m' }.setLevel s p lv'
  have hside : ∀ s' p', b₃.side s' p' = if s' = s ∧ p' = p then lv' else b.side s' p' := by
    intro s' p'
    rw [OrderBook.side_setLevel, side_withPool, hmem₂.side]
    rfl
  have hmem₃ : Mem b₃ (v.rest id p q s) := by
    refine h.toMem.rest hw.toSlots hf hm rfl hr ?_ hside ?_
    · rw [OrderBook.setLevel_pool]
    · rw [OrderBook.setLevel_orderMap]
      exact hmem₂.orderMap
  obtain ⟨hmem', hbbo'⟩ := improveBest_spec (b := b₃) (p := p)
    (by rw [OrderBook.setLevel_bestBid]; exact hbid₂.symm ▸ h.bbo.bestBid)
    (by rw [OrderBook.setLevel_bestAsk]; exact hask₂.symm ▸ h.bbo.bestAsk)
    (by unfold uint32Max; unfold maxTicks at hp; omega) (QueueBook.rest_prices (q := q) hf id)
    fun s' => by
      rw [QueueBook.rest_prices hf, OrderBook.setLevel_bits]
      exact hbits₂ s'
  refine ⟨b₃.improveBest s p, ?_, hmem'.mem hmem₃, hbbo'⟩
  unfold OrderBook.restOrder OrderBook.level
  have hq' : toQuantity q = q := Nat.mod_eq_of_lt hq
  simp only [hq', setOrderMap_of_lt hid, ok_bind, index_of_lt hp]
  show (b₁.joinLevel s p (b.side s p) >>= _) = _
  rw [hb₂, ok_bind, hmem₂.pool]
  show (OrderBook.linkOrder m { b.side s p with totalQuantity := add64 (b.side s p).totalQuantity q } x
    >>= _) = _
  rw [hadd, hlink]
  rfl

/-- **`add_order`** on a book that represents queues is `add` on the queues. -/
theorem addOrder_spec {id : Nat} (h : Rep b v) (hw : v.Wf) (hid : id < maxOrders)
    (hend : v.Ends isBuy p q) (hp : p < maxTicks) (hr : q - total (v.crossing isBuy p) < 2 ^ 31) :
    ∃ b', (∀ (sub : Subtraction) fuel, sub.Exact → (v.crossing isBuy p).length + 1 < fuel →
        b.addOrder sub fuel id p q isBuy = .ok b') ∧ Rep b' (v.add id p q isBuy) := by
  obtain ⟨b₁, hb₁, hrep₁⟩ := matchOrder_spec h hw hend hp
  have hw₁ := hw.trade (q := q) (hw.lists_crossing isBuy p)
  rw [← QueueBook.trade_snd v] at hr
  unfold OrderBook.addOrder QueueBook.add
  set w := v.trade (v.crossing isBuy p) q
  by_cases hz : w.2 = 0
  · refine ⟨b₁, fun sub fuel hsub hf => ?_, by rw [if_pos hz]; exact hrep₁⟩
    rw [hb₁ sub fuel hsub hf, ok_bind]
    exact if_pos hz
  rw [if_neg hz]
  have hfree : b₁.pool.freeList = w.1.free := hrep₁.free
  cases hf : w.1.free with
  | nil =>
    refine ⟨b₁, fun sub fuel hsub hfuel => ?_, by simpa only [QueueBook.rest, hf] using hrep₁⟩
    rw [hb₁ sub fuel hsub hfuel, ok_bind]
    simp only [OrderPool.allocate, hfree, hf]
    exact if_neg hz
  | cons x free =>
    obtain ⟨b', hb', hrep'⟩ := restOrder_spec (s := isBuy) (p := p) hrep₁ hw₁ hf hid hp hr
    refine ⟨b', fun sub fuel hsub hfuel => ?_, hrep'⟩
    rw [hb₁ sub fuel hsub hfuel, ok_bind]
    simp only [OrderPool.allocate, hfree, hf]
    exact (if_neg hz).trans hb'

/-! ## `cancel_order` and `modify_order` -/

theorem lookup_spec {id : Nat} (h : Mem b v) (hid : id < maxOrders) :
    b.lookup id = .ok (v.byId id) := by
  unfold OrderBook.lookup
  rw [index_of_lt hid, h.map]

/-- A call that names an unknown id changes nothing. -/
theorem cancelOrder_unknown {id : Nat} (h : Mem b v) (hid : id < maxOrders)
    (hx : v.byId id = none) (sub : Subtraction) : b.cancelOrder sub id = .ok b := by
  unfold OrderBook.cancelOrder
  rw [lookup_spec h hid, hx]
  rfl

theorem modifyOrder_unknown {id : Nat} (h : Mem b v) (hid : id < maxOrders)
    (hx : v.byId id = none) (sub : Subtraction) (fuel : Nat) :
    b.modifyOrder sub fuel id p q = .ok b := by
  unfold OrderBook.modifyOrder
  rw [lookup_spec h hid, hx]
  rfl

/-- **`cancel_order`** removes the order of the id table's entry. -/
theorem cancelOrder_spec (h : Rep b v) (hw : v.Wf) (ho : v.At s p o)
    (hx : v.byId o.id = some o.slot) :
    ∃ b', (∀ sub : Subtraction, sub.Exact → b.cancelOrder sub o.id = .ok b') ∧
      Rep b' (v.remove o.slot o.id) := by
  obtain ⟨-, hprice, hquant, hbuy⟩ := h.fields ho
  have hlt := hw.price_lt ho
  have hid := hw.id_lt ho
  have htot : (b.side s p).totalQuantity = total (v.queue s p) := (h.level s p).total_eq
  have hle := le_total ho
  have hlt64 := hw.total_lt s p
  let lv : PriceLevel := { b.side s p with totalQuantity := total (v.queue s p) - o.quantity }
  let m := (b.pool.unlink lv o.slot).1
  let lv' := (b.pool.unlink lv o.slot).2
  let b₁ : OrderBook := { b with pool := m }.setLevel s p lv'
  -- the levels and the pool are final before the bitmaps are settled
  let b₂ : OrderBook := { b₁ with
    orderMap := Function.update b.orderMap o.id none, pool := m.deallocate o.slot }
  have hside : ∀ s' p', b₂.side s' p' = if s' = s ∧ p' = p then lv' else b.side s' p' :=
    fun s' p' => OrderBook.side_setLevel { b with pool := m } s s' p p' lv'
  have hmem₂ : Mem b₂ (v.remove o.slot o.id) := by
    refine h.toMem.remove hw.toSlots ho lv rfl rfl ?_ rfl hside rfl
    show total (v.queue s p) - o.quantity + o.quantity = _
    omega
  have hzero : (b₁.side s p).totalQuantity = 0 ↔ (v.remove o.slot o.id).queue s p = [] :=
    Mem.total_zero_iff (b := b₂) hmem₂ (hw.remove ho)
  obtain ⟨b₃, hb₃, hsame, hbbo⟩ := settleLevel_bbo (b := b₁)
    ((sameBbo_setLevel b m s p lv').bbo h.bbo) hlt (QueueBook.mem_prices.mpr ⟨o, ho⟩) hzero
    fun s' p' hne =>
      QueueBook.remove_queue_eq fun o' ho' => hw.slot_ne ho ho' (not_and_or.mpr hne)
  refine ⟨{ b₃ with
    orderMap := Function.update b₃.orderMap o.id none, pool := b₃.pool.deallocate o.slot },
    fun sub hsub => ?_, ?_, SameBbo.bbo (b := b₃) ⟨rfl, rfl, rfl, rfl⟩ hbbo⟩
  · have hsub : sub (b.side s p).totalQuantity o.quantity =
        .ok (total (v.queue s p) - o.quantity) := by
      rw [htot, hsub hle (by omega)]
    unfold OrderBook.cancelOrder OrderBook.level
    rw [lookup_spec h.toMem hid, hx]
    simp only [ok_bind, hprice, hquant, hbuy, index_of_lt hlt, hsub]
    show (b₁.settleLevel s p >>= _) = _
    rw [hb₃, ok_bind, setOrderMap_of_lt hid]
    rfl
  · refine SameMem.mem (b := b₂) ⟨?_, hsame.bids, hsame.asks, ?_⟩ hmem₂
    · dsimp only
      rw [hsame.pool, OrderBook.setLevel_pool]
    · dsimp only
      rw [hsame.orderMap, OrderBook.setLevel_orderMap]

/-- `modify_order` at the order's own price, to a smaller or equal quantity: in place. -/
theorem modifyOrder_inPlace (h : Rep b v) (hw : v.Wf) (ho : v.At s p o)
    (hx : v.byId o.id = some o.slot) (h0 : 0 < q) (hq : q ≤ o.quantity) :
    ∃ b', (∀ (sub : Subtraction) fuel, sub.Exact → b.modifyOrder sub fuel o.id p q = .ok b') ∧
      Rep b' (v.setQuantity o.slot q) := by
  obtain ⟨-, hprice, hquant, hbuy⟩ := h.fields ho
  have hlt := hw.price_lt ho
  have htot : (b.side s p).totalQuantity = total (v.queue s p) := (h.level s p).total_eq
  have hle := le_total ho
  have hq31 := hw.quantity_lt ho
  have hlt64 := hw.total_lt s p
  have htoq : toQuantity q = q := Nat.mod_eq_of_lt (by omega)
  let m := b.pool.write o.slot fun x => { x with quantity := q }
  let lv : PriceLevel :=
    { b.side s p with totalQuantity := total (v.queue s p) - (o.quantity - q) }
  refine ⟨{ b with pool := m }.setLevel s p lv, fun sub fuel hsub => ?_, ?_, ?_⟩
  · have hsub : sub (b.side s p).totalQuantity (o.quantity - q) =
        .ok (total (v.queue s p) - (o.quantity - q)) := by
      rw [htot, hsub (by omega) (by omega)]
    unfold OrderBook.modifyOrder OrderBook.level
    rw [lookup_spec h.toMem (hw.id_lt ho), hx]
    simp only [ok_bind, hprice, hquant, hbuy, htoq, ne_eq, not_true, false_or]
    rw [if_neg (by omega), if_neg (by omega), index_of_lt hlt, ok_bind]
    show (sub (b.side s p).totalQuantity (o.quantity - q) >>= _) = _
    rw [hsub]
    rfl
  · refine h.toMem.setQuantity hw.toSlots ho lv rfl rfl ?_ ?_ (fun s' p' => ?_) ?_
    · show total (v.queue s p) - (o.quantity - q) + o.quantity = _
      omega
    · rw [OrderBook.setLevel_pool]
    · rw [OrderBook.side_setLevel, side_withPool]
    · rw [OrderBook.setLevel_orderMap]
  · have : (v.setQuantity o.slot q).prices = v.prices := by
      funext s'
      exact QueueBook.setQuantity_prices
    rw [this]
    exact (sameBbo_setLevel b m s p lv).bbo h.bbo

/-- `modify_order` to quantity zero at the order's own price cancels. -/
theorem modifyOrder_zero (h : Rep b v) (hw : v.Wf) (ho : v.At s p o)
    (hx : v.byId o.id = some o.slot) (sub : Subtraction) (fuel : Nat) :
    b.modifyOrder sub fuel o.id p 0 = b.cancelOrder sub o.id := by
  obtain ⟨-, hprice, hquant, -⟩ := h.fields ho
  unfold OrderBook.modifyOrder
  rw [lookup_spec h.toMem (hw.id_lt ho), hx]
  simp [ok_bind, hprice]

/-- `modify_order` to another price or a larger quantity: cancel, then add. -/
theorem modifyOrder_replace (h : Rep b v) (hw : v.Wf) {p' : Nat} (ho : v.At s p o)
    (hx : v.byId o.id = some o.slot) (hne : p' ≠ p ∨ o.quantity < q)
    (sub : Subtraction) (fuel : Nat) :
    b.modifyOrder sub fuel o.id p' q =
      b.cancelOrder sub o.id >>= fun b => b.addOrder sub fuel o.id p' q s := by
  obtain ⟨-, hprice, hquant, hbuy⟩ := h.fields ho
  rw [OrderBook.modifyOrder, lookup_spec h.toMem (hw.id_lt ho), hx, ok_bind]
  simp only [hprice, hquant, hbuy]
  rw [if_pos hne]

end MarketHandler
