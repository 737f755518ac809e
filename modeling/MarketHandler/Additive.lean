import MarketHandler.Determined
import MarketHandler.Invariants

/-!
# Matching is additive in the quantity

Matching two quantities one after the other is matching their sum, wherever the first one ends.

* `QueueBook.trade_add`: on queues. The induction is on the crossing orders; the first quantity ends
  before an order, with it, or inside it.
* `OrderBook.Spends`: what `match_order` leaves in the slots: those without an order are untouched,
  and those whose order is gone keep its record, with nothing left.
* `Rep.eq_of_spends`: so the queues determine the book a match leaves to the last slot.
* `match_additive`: **the two calls return what the single call returns**.
-/

namespace MarketHandler

open Lib

/-! ## Queues -/

namespace QueueBook

variable {v : QueueBook} {isBuy : Bool} {limit x q q' : Nat} {o : Resting} {l : List Resting}

theorem setQuantity_setQuantity : (v.setQuantity x q).setQuantity x q' = v.setQuantity x q' := by
  unfold setQuantity
  congr 1
  funext s p
  rw [List.map_map]
  refine List.map_congr_left fun o _ => ?_
  simp only [Function.comp_apply]
  split_ifs <;> rfl

/-- A quantity change in the crossing list. -/
theorem crossing_setQuantity_cons (hw : v.Wf) (hc : v.crossing isBuy limit = o :: l) :
    (v.setQuantity o.slot q).crossing isBuy limit = { o with quantity := q } :: l := by
  have hn := (hw.lists_crossing isBuy limit).2
  rw [hc] at hn
  have hmap : (v.setQuantity o.slot q).crossing isBuy limit = (v.crossing isBuy limit).map
      fun o' => if o'.slot = o.slot then { o' with quantity := q } else o' := by
    rw [crossing_eq, crossing_eq, List.map_flatMap]
    rfl
  rw [hmap, hc, List.map_cons, if_pos rfl]
  refine congrArg (_ :: ·) ((List.map_congr_left fun o' ho' => ?_).trans (List.map_id _))
  exact if_neg fun he : o'.slot = o.slot =>
    (List.nodup_cons.mp hn).1 (he ▸ List.mem_map_of_mem ho')

/-- **Trading is additive**: what the first quantity leaves crossing is traded with the second. -/
theorem trade_add (l : List Resting) : ∀ {v : QueueBook} (a c : Nat), v.Wf →
    v.crossing isBuy limit = l → v.trade l (a + c) =
      (((v.trade l a).1.trade ((v.trade l a).1.crossing isBuy limit) c).1,
        (v.trade l a).2 + ((v.trade l a).1.trade ((v.trade l a).1.crossing isBuy limit) c).2) := by
  induction l with
  | nil =>
    intro v a c hw hc
    simp only [trade, hc]
  | cons o l ih =>
    intro v a c hw hc
    obtain ⟨s, p, ho⟩ := (hc ▸ hw.lists_crossing isBuy limit).head
    by_cases h0 : a = 0
    · rw [h0, trade_zero, hc, Nat.zero_add, Nat.zero_add]
    by_cases hle : o.quantity ≤ a
    -- the first order is filled by the first quantity
    · have hfull : ∀ {n}, o.quantity ≤ n → n ≠ 0 →
          v.trade (o :: l) n = (v.remove o.slot o.id).trade l (n - o.quantity) :=
        fun hn hn0 => by rw [trade, if_neg hn0, if_pos hn]
      rw [hfull hle h0, hfull (by omega) (by omega),
        ← ih (a - o.quantity) c (hw.remove ho) (crossing_remove_cons hw hc)]
      congr 1
      omega
    -- the first quantity ends inside the first order, which the second finds first
    · have hpart : v.trade (o :: l) a = (v.setQuantity o.slot (o.quantity - a), 0) := by
        rw [trade, if_neg h0, if_neg hle]
      rw [hpart, crossing_setQuantity_cons hw hc, Nat.zero_add, trade, trade,
        if_neg (by omega : a + c ≠ 0)]
      dsimp only
      by_cases hc0 : c = 0
      · rw [if_pos hc0, if_neg (by omega), hc0, Nat.add_zero]
      rw [if_neg hc0, remove_setQuantity, setQuantity_setQuantity]
      by_cases hlec : o.quantity ≤ a + c
      · rw [if_pos hlec, if_pos (by omega), show c - (o.quantity - a) = a + c - o.quantity by omega]
      · rw [if_neg hlec, if_neg (by omega), show o.quantity - a - c = o.quantity - (a + c) by omega]

end QueueBook

/-! ## What a match leaves in the slots -/

/-- The record of an order with nothing left, unlinked. -/
def Order.spent (o : Order) : Order := { o with prev := none, next := none, quantity := 0 }

theorem Order.spent_of_fields {o o' : Order} (h : o.fields = o'.fields) : o.spent = o'.spent := by
  simp only [Order.fields, Prod.mk.injEq] at h
  unfold Order.spent
  rw [h.1, h.2.1, h.2.2.2]

/-- Trading leads from `b` to `b'`: orders keep their id, price and side; a slot without an order is
untouched, and one whose order is gone keeps its record with nothing left. -/
structure OrderBook.Spends (b b' : OrderBook) : Prop where
  keeps : ∀ x, (b'.pool.pool x).spent = (b.pool.pool x).spent
  rests : ∀ x, b'.Rests x → b.Rests x
  untouched : ∀ x, ¬ b.Rests x → b'.pool.pool x = b.pool.pool x
  spent : ∀ x, b.Rests x → ¬ b'.Rests x → b'.pool.pool x = (b.pool.pool x).spent

variable {b b' b₁ b₂ : OrderBook} {v : QueueBook} {s isBuy : Bool} {p limit rem rem' fuel : Nat}
  {r : Option Nat} {o : Resting} {l : List Resting}

theorem OrderBook.Spends.refl (b : OrderBook) : b.Spends b :=
  ⟨fun _ => rfl, fun _ h => h, fun _ _ => rfl, fun _ h h' => absurd h h'⟩

theorem OrderBook.Spends.trans (h : b.Spends b₁) (h' : b₁.Spends b₂) : b.Spends b₂ where
  keeps x := (h'.keeps x).trans (h.keeps x)
  rests x hx := h.rests x (h'.rests x hx)
  untouched x hx := (h'.untouched x fun h₁ => hx (h.rests x h₁)).trans (h.untouched x hx)
  spent x hx hx' := by
    by_cases h₁ : b₁.Rests x
    · exact (h'.spent x h₁ hx').trans (h.keeps x)
    · exact (h'.untouched x h₁).trans (h.spent x hx h₁)

theorem Mem.rests_remove (h : Mem b v) (h' : Mem b' (v.remove o.slot o.id)) {x : Nat} :
    b'.Rests x ↔ b.Rests x ∧ x ≠ o.slot := by
  simp only [h'.rests_iff, h.rests_iff, QueueBook.at_remove]
  constructor
  · rintro ⟨s, p, o', ⟨ho', hne⟩, rfl⟩
    exact ⟨⟨s, p, o', ho', rfl⟩, hne⟩
  · rintro ⟨⟨s, p, o', ho', rfl⟩, hne⟩
    exact ⟨s, p, o', ⟨ho', hne⟩, rfl⟩

theorem Mem.rests_setQuantity {x q : Nat} (h : Mem b v) (h' : Mem b' (v.setQuantity x q))
    {y : Nat} : b'.Rests y ↔ b.Rests y := by
  have hslots : ∀ {b v}, Mem b v → (b.Rests y ↔ ∃ s p, y ∈ slots (v.queue s p)) := by
    intro b v h
    simp only [h.rests_iff, slots, List.mem_map, QueueBook.At]
  simp only [hslots h', hslots h, QueueBook.slots_setQuantity]

/-- What one trade does to the pool. -/
theorem tradeOne_pool {x : Nat} (hrun : b.tradeOne sub64 s p x rem = .ok (b', r, rem')) :
    ∃ m lv, m = b.pool.write x (fun o =>
        { o with quantity := o.quantity - min (b.pool.pool x).quantity rem }) ∧
      lv.head = (b.side s p).head ∧ lv.tail = (b.side s p).tail ∧
      b'.pool = if (m.pool x).quantity = 0 then (m.unlink lv x).1.deallocate x else m := by
  unfold OrderBook.tradeOne at hrun
  obtain ⟨t, -, hrun⟩ := bind_eq_ok.mp hrun
  refine ⟨_, { b.side s p with totalQuantity := t }, rfl, rfl, rfl, ?_⟩
  simp only at hrun
  split_ifs at hrun ⊢ with hz
  · obtain ⟨b₁, hb₁, hret⟩ := bind_eq_ok.mp hrun
    obtain ⟨m', -, hb₁⟩ := bind_eq_ok.mp hb₁
    obtain ⟨rfl, -⟩ := Prod.mk.inj (Except.ok.inj hret)
    obtain rfl := Except.ok.inj hb₁
    cases s <;> rfl
  · obtain ⟨rfl, -⟩ := Prod.mk.inj (Except.ok.inj hrun)
    rw [OrderBook.setLevel_pool]

/-- The pool after a trade that fills the first order of a level: the order keeps its record with
nothing left, the rest of the level its fields, and the other slots all of theirs. -/
theorem Mem.tradeOne_full_pool (h : Mem b v) (hw : v.Wf) (hl : v.queue s p = o :: l)
    (hq : o.quantity ≤ rem) (hrun : b.tradeOne sub64 s p o.slot rem = .ok (b', r, rem')) :
    b'.pool.pool o.slot = (b.pool.pool o.slot).spent ∧
      (∀ x, x ≠ o.slot → (b'.pool.pool x).fields = (b.pool.pool x).fields) ∧
      ∀ x, x ∉ slots (v.queue s p) → b'.pool.pool x = b.pool.pool x := by
  obtain ⟨-, -, hquant, -⟩ := h.fields (QueueBook.at_of_cons hl)
  obtain ⟨m, lv, hm, hhead, htail, hpool⟩ := tradeOne_pool hrun
  have hm : m = b.pool.write o.slot fun x => { x with quantity := 0 } := by
    rw [hm]
    exact OrderPool.write_congr (by rw [hquant, Nat.min_eq_left hq, Nat.sub_self])
  rw [if_pos (by rw [hm, OrderPool.write_self])] at hpool
  have hlink : Linked m.prev m.next lv.head lv.tail ([] ++ o.slot :: slots l) := by
    have := (h.level s p).linked
    rw [hl, ← hhead, ← htail] at this
    rw [hm, OrderPool.prev_write_of_eq rfl, OrderPool.next_write_of_eq rfl]
    exact this
  have hn := hw.nodup s p
  rw [hl] at hn
  have hu := OrderPool.unlink_spec hlink hn
  have hother : ∀ x, x ≠ o.slot → b'.pool.pool x = (m.unlink lv o.slot).1.pool x :=
    fun x hx => by rw [hpool, OrderPool.deallocate_of_ne hx]
  refine ⟨?_, fun x hx => ?_, fun x hx => ?_⟩
  · rw [hpool, OrderPool.deallocate, OrderPool.write_self, hu.frame _ (List.nodup_cons.mp hn).1, hm,
      OrderPool.write_self]
    rfl
  · rw [hother x hx, hu.fields x, hm, OrderPool.write_of_ne hx]
  · rw [hl] at hx
    obtain ⟨hne, hout⟩ := not_or.mp (List.mem_cons.not.mp hx)
    rw [hother x hne, hu.frame x hout, hm, OrderPool.write_of_ne hne]

/-- A trade that fills the first order of a level. -/
theorem Mem.spends_full (h : Mem b v) (hw : v.Wf) (hl : v.queue s p = o :: l)
    (hq : o.quantity ≤ rem) (h' : Mem b' (v.remove o.slot o.id))
    (hrun : b.tradeOne sub64 s p o.slot rem = .ok (b', r, rem')) : b.Spends b' := by
  obtain ⟨hself, hfields, hframe⟩ := h.tradeOne_full_pool hw hl hq hrun
  refine ⟨fun x => ?_, fun x hx => ((h.rests_remove h').mp hx).1, fun x hx => hframe x fun hm => ?_,
    fun x hx hx' => ?_⟩
  · by_cases he : x = o.slot
    · rw [he, hself]
      rfl
    · exact Order.spent_of_fields (hfields x he)
  · obtain ⟨o', ho', rfl⟩ := List.mem_map.mp hm
    exact hx (h.rests ho')
  · obtain rfl : x = o.slot := by
      by_contra he
      exact hx' ((h.rests_remove h').mpr ⟨hx, he⟩)
    exact hself

/-- A trade that ends inside an order. -/
theorem Mem.spends_partial (h : Mem b v) (ho : v.At s p o) (hq : rem < o.quantity)
    (h' : Mem b' (v.setQuantity o.slot (o.quantity - rem)))
    (hrun : b.tradeOne sub64 s p o.slot rem = .ok (b', r, rem')) : b.Spends b' := by
  obtain ⟨-, -, hquant, -⟩ := h.fields ho
  obtain ⟨m, lv, hm, -, -, hpool⟩ := tradeOne_pool hrun
  rw [if_neg (by rw [hm, OrderPool.write_self]; simp only [hquant]; omega), hm] at hpool
  have hother : ∀ x, x ≠ o.slot → b'.pool.pool x = b.pool.pool x :=
    fun x hx => by rw [hpool, OrderPool.write_of_ne hx]
  refine ⟨fun x => ?_, fun x hx => (h.rests_setQuantity h').mp hx, fun x hx => hother x fun he => ?_,
    fun x hx hx' => absurd ((h.rests_setQuantity h').mpr hx) hx'⟩
  · by_cases he : x = o.slot
    · rw [he, hpool, OrderPool.write_self]
      rfl
    · rw [hother x he]
  · exact hx (he ▸ h.rests ho)

/-- The inner loop: the induction is on the level's queue. -/
theorem fillLevel_spends (l : List Resting) : ∀ {b : OrderBook} {v : QueueBook} {fuel rem : Nat},
    Mem b v → v.Wf → v.queue s p = l →
    b.fillLevel sub64 fuel s p (slots l).head? rem = .ok (b', rem') → b.Spends b' := by
  induction l with
  | nil =>
    intro b v fuel rem h hw hl hrun
    cases fuel with
    | zero => cases hrun
    | succ n =>
      obtain ⟨rfl, -⟩ := Prod.mk.inj (Except.ok.inj hrun)
      exact .refl b
  | cons o l ih =>
    intro b v fuel rem h hw hl hrun
    cases fuel with
    | zero => cases hrun
    | succ n =>
      simp only [List.map_cons, List.head?_cons, OrderBook.fillLevel] at hrun
      by_cases h0 : rem = 0
      · rw [if_pos h0] at hrun
        obtain ⟨rfl, -⟩ := Prod.mk.inj (Except.ok.inj hrun)
        exact .refl b
      rw [if_neg h0] at hrun
      have ho := QueueBook.at_of_cons hl
      by_cases hq : o.quantity ≤ rem
      · obtain ⟨b₁, hb₁, hm₁, -⟩ := tradeOne_full h hw hl hq
        have hrun₁ := hb₁ sub64 exact_sub64
        rw [hrun₁, ok_bind] at hrun
        exact (h.spends_full hw hl hq hm₁ hrun₁).trans
          (ih hm₁ (hw.remove ho) (hw.toSlots.remove_queue (l := []) hl) hrun)
      · obtain ⟨b₁, hb₁, hm₁, -⟩ := tradeOne_partial h hw ho (Nat.lt_of_not_le hq)
        have hrun₁ := hb₁ sub64 exact_sub64
        rw [hrun₁, ok_bind] at hrun
        cases n with
        | zero => cases hrun
        | succ n =>
          simp only [OrderBook.fillLevel, if_true] at hrun
          obtain ⟨rfl, -⟩ := Prod.mk.inj (Except.ok.inj hrun)
          exact h.spends_partial ho (Nat.lt_of_not_le hq) hm₁ hrun₁

theorem settleLevel_sameMem (hrun : b.settleLevel s p = .ok b') : SameMem b b' := by
  unfold OrderBook.settleLevel at hrun
  cases s
  all_goals
    simp only [if_true, if_false, Bool.false_eq_true] at hrun
    split_ifs at hrun with hz
    · obtain ⟨w, -, hrun⟩ := bind_eq_ok.mp hrun
      obtain ⟨b₁, hb₁, hrun⟩ := bind_eq_ok.mp hrun
      obtain rfl := Except.ok.inj hb₁
      obtain ⟨bid, -, hrun⟩ := bind_eq_ok.mp hrun
      obtain ⟨ask, -, hrun⟩ := bind_eq_ok.mp hrun
      obtain rfl := Except.ok.inj hrun
      exact ⟨rfl, rfl, rfl, rfl⟩
    · obtain rfl := Except.ok.inj hrun
      exact ⟨rfl, rfl, rfl, rfl⟩

theorem SameMem.spends (h : SameMem b b') : b.Spends b' := by
  have hrests : ∀ x, b'.Rests x ↔ b.Rests x := by
    intro x
    unfold OrderBook.Rests OrderBook.RestsAt OrderBook.Queue
    rw [h.pool, h.side]
  exact ⟨fun x => by rw [h.pool], fun x hx => (hrests x).mp hx, fun x _ => by rw [h.pool],
    fun x hx hx' => absurd ((hrests x).mpr hx) hx'⟩

theorem matchPass_spends (h : Rep b v) (hw : v.Wf) {ps : List Nat}
    (hps : v.crossingPrices isBuy limit = p :: ps)
    (hrun : b.matchPass sub64 fuel isBuy rem = .ok (b', rem')) : b.Spends b' := by
  obtain ⟨hp, -, hbest⟩ := QueueBook.crossingPrices_cons hps
  have hprice := h.bbo.best_eq hp fun p' hp' => hbest p' hp' (hw.price_mem_lt hp')
  unfold OrderBook.matchPass OrderBook.level at hrun
  simp only [hprice, index_of_lt (hw.price_mem_lt hp), ok_bind,
    (h.level (!isBuy) p).linked.head_eq] at hrun
  obtain ⟨⟨b₁, rem₁⟩, hfill, hrun⟩ := bind_eq_ok.mp hrun
  obtain ⟨b₂, hsettle, hrun⟩ := bind_eq_ok.mp hrun
  obtain ⟨rfl, -⟩ := Prod.mk.inj (Except.ok.inj hrun)
  exact (fillLevel_spends _ h.toMem hw rfl hfill).trans (settleLevel_sameMem hsettle).spends

/-- **A match spends what it trades and touches no other record.** -/
theorem matchLoop_spends (h0 : 0 < limit) (hlt : limit < maxTicks) (fuel : Nat) :
    ∀ {b : OrderBook} {v : QueueBook} {rem : Nat}, Rep b v → v.Wf →
      b.matchLoop sub64 fuel limit isBuy rem = .ok (b', rem') → b.Spends b' := by
  induction fuel with
  | zero => exact fun _ _ hrun => nomatch hrun
  | succ n ih =>
    intro b v rem h hw hrun
    rw [OrderBook.matchLoop] at hrun
    split_ifs at hrun with hr hmatch
    · obtain ⟨rfl, -⟩ := Prod.mk.inj (Except.ok.inj hrun)
      exact .refl b
    · obtain ⟨⟨b₁, rem₁⟩, hpass, hrun⟩ := bind_eq_ok.mp hrun
      cases hps : v.crossingPrices isBuy limit with
      | nil =>
        rw [not_isMatch h.bbo hw (Or.inr h0) hlt hps] at hmatch
        cases hmatch
      | cons p ps =>
        obtain ⟨b₂, hb₂, hrep₂⟩ := matchPass_spec h hw hps rem
        have he := Approx.ok_unique (fun n => OrderBook.matchPass_approx n b isBuy rem) hpass
          (hb₂ sub64 _ exact_sub64 (Nat.lt_succ_self _))
        obtain ⟨rfl, rfl⟩ := Prod.mk.inj he
        exact (matchPass_spends h hw hps hpass).trans
          (ih hrep₂ (hw.trade (hw.lists_queue (!isBuy) p)) hrun)
    · obtain ⟨rfl, -⟩ := Prod.mk.inj (Except.ok.inj hrun)
      exact .refl b

/-- **The queues determine the book a match leaves**, to the last slot. -/
theorem Rep.eq_of_spends (h₁ : Rep b₁ v) (h₂ : Rep b₂ v) (hs₁ : b.Spends b₁)
    (hs₂ : b.Spends b₂) : b₁ = b₂ := by
  have hpool : b₁.pool.pool = b₂.pool.pool := by
    funext x
    by_cases hx : b₁.Rests x
    · obtain ⟨s, p, o, ho, rfl⟩ := h₁.rests_iff.mp hx
      exact h₁.order_eq h₂ rfl ho
    have hx₂ : ¬ b₂.Rests x := fun h => hx (h₁.rests_iff.mpr (h₂.rests_iff.mp h))
    by_cases hb : b.Rests x
    · rw [hs₁.spent x hb hx, hs₂.spent x hb hx₂]
    · rw [hs₁.untouched x hb, hs₂.untouched x hb]
  have hfree : b₁.pool.freeList = b₂.pool.freeList := h₁.free.trans h₂.free.symm
  exact OrderBook.ext (OrderPool.ext hpool hfree)
    (funext fun p => h₁.side_eq h₂ rfl (s := true)) (funext fun p => h₁.side_eq h₂ rfl (s := false))
    (h₁.map.trans h₂.map.symm) (h₁.bits_eq h₂ rfl (s := true)) (h₁.bits_eq h₂ rfl (s := false))
    (h₁.bestBid_eq h₂ rfl) (h₁.bestAsk_eq h₂ rfl)

/-! ## The book -/

/-- **Matching is additive.** In every book that calls with fresh ids lead to, and for every price in
range: matching `q₁` and then `q₂` leaves the book that matching their sum leaves, and the two
remainders add up to its remainder. -/
theorem match_additive {ops : List Op} (h : OrderBook.Reaches OrderBook.Allowed ops b) (h1 : 1 ≤ p)
    (hp : p < maxTicks) (q₁ q₂ : Nat) (isBuy : Bool) :
    ∃ fuel₁ fuel₂ fuel b₁ b₂ rem₁ rem₂, b.matchOrder sub64 fuel₁ p q₁ isBuy = .ok (b₁, rem₁) ∧
      b₁.matchOrder sub64 fuel₂ p q₂ isBuy = .ok (b₂, rem₂) ∧
      b.matchOrder sub64 fuel p (q₁ + q₂) isBuy = .ok (b₂, rem₁ + rem₂) := by
  obtain ⟨v, hrep, hw, -⟩ := h.rep_allowed
  obtain ⟨fuel₁, b₁, hb₁, hrep₁⟩ := matchOrder_returns hrep hw (.of_pos h1 : v.Ends isBuy p q₁) hp
  have hw₁ := hw.trade (q := q₁) (hw.lists_crossing isBuy p)
  obtain ⟨fuel₂, b₂, hb₂, hrep₂⟩ := matchOrder_returns hrep₁ hw₁ (.of_pos h1 : _) hp
  obtain ⟨fuel, b₃, hb₃, hrep₃⟩ :=
    matchOrder_returns hrep hw (.of_pos h1 : v.Ends isBuy p (q₁ + q₂)) hp
  rw [QueueBook.trade_add _ q₁ q₂ hw rfl] at hb₃ hrep₃
  have hs₁ := matchLoop_spends h1 hp fuel₁ hrep hw hb₁
  have hs₂ := matchLoop_spends h1 hp fuel₂ hrep₁ hw₁ hb₂
  have hs₃ := matchLoop_spends h1 hp fuel hrep hw hb₃
  obtain rfl := hrep₃.eq_of_spends hrep₂ hs₃ (hs₁.trans hs₂)
  exact ⟨fuel₁, fuel₂, fuel, b₁, _, _, _, hb₁, hb₂, hb₃⟩

/-- The first quantity ends inside the order at 100, the second takes both levels. -/
theorem match_additive_sweep : ∃ b, OrderBook.Reaches OrderBook.Allowed
    [.add 1 100 5 false, .add 2 101 4 false] b ∧
      ∃ fuel₁ fuel₂ fuel b₁ b₂ rem₁ rem₂, b.matchOrder sub64 fuel₁ 101 3 true = .ok (b₁, rem₁) ∧
        b₁.matchOrder sub64 fuel₂ 101 7 true = .ok (b₂, rem₂) ∧
        b.matchOrder sub64 fuel 101 (3 + 7) true = .ok (b₂, rem₁ + rem₂) := by
  have hallows : RefBook.Allows [] [.add 1 100 5 false, .add 2 101 4 false] := by decide +kernel
  obtain ⟨b, hb⟩ := hallows.reaches
  exact ⟨b, hb, match_additive hb (by decide) (by decide) 3 7 true⟩

end MarketHandler
