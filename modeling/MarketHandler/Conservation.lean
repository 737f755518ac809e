import Mathlib.Algebra.BigOperators.Group.Finset.Basic
import MarketHandler.Reference

/-!
# No quantity is created or lost

A `Turnover` books what each call orders, withdraws and trades, read off the book the call finds. A
trade is booked once and counts against both sides, so the books balance only if what is taken from
the resting orders of one side is what the incoming order does not rest with on the other.

* `QueueBook.Balanced`: on each side, what rests, was traded and was withdrawn is what was ordered.
* `Balanced.withdraw`, `Balanced.reduce`, `Balanced.order`: one lemma for each kind of entry.
* `OrderBook.filled_eq`: the amount booked as traded is what `match_order` fills.
* `turnover_balanced`: **the books balance after every run of allowed calls**.
-/

namespace MarketHandler

open Lib

/-- Sums that differ in one term. -/
theorem sum_range_of_ne {n p a c : Nat} {f g : Nat → Nat} (hp : p < n) (h : f p + a = g p + c)
    (hne : ∀ i, i ≠ p → f i = g i) :
    ∑ i ∈ Finset.range n, f i + a = ∑ i ∈ Finset.range n, g i + c := by
  have hmem := Finset.mem_range.mpr hp
  have hf := Finset.add_sum_erase _ f hmem
  have hg := Finset.add_sum_erase _ g hmem
  have hrest : ∑ i ∈ (Finset.range n).erase p, f i = ∑ i ∈ (Finset.range n).erase p, g i :=
    Finset.sum_congr rfl fun i hi => hne i (Finset.ne_of_mem_erase hi)
  omega

/-- What was ordered and withdrawn on each side, and what was traded. -/
structure Turnover where
  ordered : Bool → Nat
  withdrawn : Bool → Nat
  traded : Nat

namespace Turnover

def init : Turnover := ⟨fun _ => 0, fun _ => 0, 0⟩

/-- `qty` is withdrawn on a side. -/
def withdraw (t : Turnover) (isBuy : Bool) (qty : Nat) : Turnover :=
  { t with withdrawn := Function.update t.withdrawn isBuy (t.withdrawn isBuy + qty) }

/-- `qty` is ordered on a side, and `filled` of it trades at once. -/
def order (t : Turnover) (isBuy : Bool) (qty filled : Nat) : Turnover :=
  { t with
    ordered := Function.update t.ordered isBuy (t.ordered isBuy + qty)
    traded := t.traded + filled }

end Turnover

namespace OrderBook

/-- The quantity that rests on a side, by its level totals. -/
def restingQuantity (b : OrderBook) (isBuy : Bool) : Nat :=
  ∑ p ∈ Finset.range maxTicks, (b.side isBuy p).totalQuantity

/-- What `match_order` fills of an incoming quantity. -/
def filled (b : OrderBook) (isBuy : Bool) (price qty : Nat) : Nat :=
  min qty (b.crossingQuantity isBuy price)

/-- The entries of a call that finds the book `b`. -/
def post (b : OrderBook) (t : Turnover) : Op → Turnover
  | .add _ price qty isBuy => t.order isBuy qty (b.filled isBuy price qty)
  | .cancel id =>
    match b.orderMap id with
    | none => t
    | some x => t.withdraw (b.pool.pool x).isBuy (b.pool.pool x).quantity
  | .modify id newPrice newQty =>
    match b.orderMap id with
    | none => t
    | some x =>
      let o := b.pool.pool x
      if newPrice ≠ o.price ∨ o.quantity < newQty then
        (t.withdraw o.isBuy o.quantity).order o.isBuy newQty (b.filled o.isBuy newPrice newQty)
      else t.withdraw o.isBuy (o.quantity - newQty)

end OrderBook

variable {b b' : OrderBook} {v v' : QueueBook} {t : Turnover} {s isBuy : Bool} {n p q id : Nat}
  {o : Resting} {op : Op} {ops : List Op} {l : List Resting}

namespace QueueBook

/-- The quantity that rests on a side below the price `n`; a variable, since a sum over `maxTicks`
prices would be computed. -/
def restingQuantity (n : Nat) (v : QueueBook) (s : Bool) : Nat :=
  ∑ p ∈ Finset.range n, total (v.queue s p)

/-- On each side what rests, was traded and was withdrawn is what was ordered. -/
def Balanced (n : Nat) (v : QueueBook) (t : Turnover) : Prop :=
  ∀ s, v.restingQuantity n s + t.traded + t.withdrawn s = t.ordered s

/-- A side whose queues stay. -/
theorem restingQuantity_congr (h : ∀ p, total (v'.queue s p) = total (v.queue s p)) :
    v'.restingQuantity n s = v.restingQuantity n s :=
  Finset.sum_congr rfl fun p _ => h p

theorem restingQuantity_remove (hv : v.Slots) (hp : p < n) (ho : v.At s p o) (i : Nat)
    (s' : Bool) : (v.remove o.slot i).restingQuantity n s' + (if s' = s then o.quantity else 0) =
      v.restingQuantity n s' := by
  have hother : ∀ s' p', ¬(s' = s ∧ p' = p) →
      total ((v.remove o.slot i).queue s' p') = total (v.queue s' p') := fun s' p' hne => by
    rw [remove_queue_eq fun o' ho' => hv.slot_ne ho ho' hne]
  split_ifs with hs
  · subst hs
    obtain ⟨l, l', hl⟩ := List.append_of_mem ho
    have hlevel : total ((v.remove o.slot i).queue s' p) + o.quantity = total (v.queue s' p) + 0 := by
      rw [hv.remove_queue hl, hl, total_append, total_append, total_cons]
      omega
    have hsum := sum_range_of_ne hp hlevel fun p' hp' => hother s' p' fun h => hp' h.2
    rwa [Nat.add_zero] at hsum
  · rw [Nat.add_zero]
    exact restingQuantity_congr fun p' => hother s' p' fun h => hs h.1

theorem restingQuantity_setQuantity (hv : v.Slots) (hp : p < n) (ho : v.At s p o) (q : Nat)
    (s' : Bool) : (v.setQuantity o.slot q).restingQuantity n s' + (if s' = s then o.quantity else 0) =
      v.restingQuantity n s' + if s' = s then q else 0 := by
  have hother : ∀ s' p', ¬(s' = s ∧ p' = p) →
      total ((v.setQuantity o.slot q).queue s' p') = total (v.queue s' p') := fun s' p' hne => by
    rw [setQuantity_queue_eq fun o' ho' => hv.slot_ne ho ho' hne]
  split_ifs with hs
  · subst hs
    exact sum_range_of_ne hp (total_setQuantity (hv.nodup s' p) ho) fun p' hp' =>
      hother s' p' fun h => hp' h.2
  · rw [Nat.add_zero, Nat.add_zero]
    exact restingQuantity_congr fun p' => hother s' p' fun h => hs h.1

theorem restingQuantity_rest {x : Nat} {free : List Nat} (hf : v.free = x :: free)
    (hp : p < n) (s' : Bool) : (v.rest id p q s).restingQuantity n s' =
      v.restingQuantity n s' + if s' = s then q else 0 := by
  have hqueue : ∀ s' p', (v.rest id p q s).queue s' p' =
      if s' = s ∧ p' = p then v.queue s' p' ++ [⟨x, id, q⟩] else v.queue s' p' := fun s' p' => by
    simp only [rest, hf]
  split_ifs with hs
  · subst hs
    have hlevel : total ((v.rest id p q s').queue s' p) + 0 = total (v.queue s' p) + q := by
      simp [hqueue]
    have hsum := sum_range_of_ne (f := fun p' => total ((v.rest id p q s').queue s' p'))
      (g := fun p' => total (v.queue s' p')) hp hlevel fun p' hp' => by
        rw [hqueue, if_neg fun h => hp' h.2]
    rwa [Nat.add_zero] at hsum
  · rw [Nat.add_zero]
    exact restingQuantity_congr fun p' => by rw [hqueue, if_neg fun h => hs h.1]

/-- Filling orders of one side takes from it what is filled, and nothing from the other. -/
theorem restingQuantity_trade (hn : n = maxTicks) (hw : v.Wf) (hl : v.Lists l) (hs : ∀ o ∈ l, ∃ p, v.At s p o)
    (s' : Bool) : (v.trade l q).1.restingQuantity n s' + (if s' = s then min q (total l) else 0) =
      v.restingQuantity n s' := by
  induction l generalizing v q with
  | nil => simp [trade]
  | cons o l ih =>
    obtain ⟨p, ho⟩ := hs o List.mem_cons_self
    have hp : p < n := hn ▸ hw.price_lt ho
    unfold trade
    by_cases h0 : q = 0
    · rw [if_pos h0, h0, Nat.zero_min, ite_self, Nat.add_zero]
    · rw [if_neg h0, total_cons]
      by_cases hle : o.quantity ≤ q
      · rw [if_pos hle]
        have hrest : ∀ o' ∈ l, ∃ p', (v.remove o.slot o.id).At s p' o' := by
          intro o' ho'
          obtain ⟨p', h'⟩ := hs o' (List.mem_cons_of_mem _ ho')
          refine ⟨p', at_remove.mpr ⟨h', fun he => ?_⟩⟩
          exact (List.nodup_cons.mp hl.2).1 (he ▸ List.mem_map_of_mem ho')
        have hnext := ih (q := q - o.quantity) (hw.remove ho) hl.tail hrest
        have hone := restingQuantity_remove hw.toSlots hp ho o.id s'
        split_ifs at hnext hone ⊢ <;> omega
      · rw [if_neg hle]
        dsimp only
        have hone := restingQuantity_setQuantity hw.toSlots hp ho (o.quantity - q) s'
        split_ifs at hone ⊢ <;> omega

/-! ## One call -/

theorem Balanced.withdraw (hn : n = maxTicks) (h : v.Balanced n t) (hw : v.Wf) (ho : v.At s p o) (i : Nat) :
    (v.remove o.slot i).Balanced n (t.withdraw s o.quantity) := by
  intro s'
  have hside := h s'
  have hone := restingQuantity_remove hw.toSlots (hn ▸ hw.price_lt ho) ho i s'
  unfold Turnover.withdraw
  dsimp only
  rw [Function.update_apply]
  split_ifs at hone ⊢ with hs
  · subst hs
    omega
  · omega

theorem Balanced.reduce (hn : n = maxTicks) (h : v.Balanced n t) (hw : v.Wf) (ho : v.At s p o)
    (hq : q ≤ o.quantity) :
    (v.setQuantity o.slot q).Balanced n (t.withdraw s (o.quantity - q)) := by
  intro s'
  have hside := h s'
  have hone := restingQuantity_setQuantity hw.toSlots (hn ▸ hw.price_lt ho) ho q s'
  unfold Turnover.withdraw
  dsimp only
  rw [Function.update_apply]
  split_ifs at hone ⊢ with hs
  · subst hs
    omega
  · omega

/-- An add books what it orders and what it fills, where a slot is free for what it rests. -/
theorem Balanced.order (hn : n = maxTicks) (h : v.Balanced n t) (hw : v.Wf) (ha : v.Addressable)
    (hid : id < maxOrders) (hp : p < maxTicks) (hfresh : ∀ s p o, v.At s p o → o.id ≠ id) :
    (v.add id p q isBuy).Balanced n (t.order isBuy q (min q (total (v.crossing isBuy p)))) := by
  have hl := hw.lists_crossing isBuy p
  have hside : ∀ o ∈ v.crossing isBuy p, ∃ p', v.At (!isBuy) p' o := fun o ho => by
    obtain ⟨p', -, -, h'⟩ := mem_crossing.mp ho
    exact ⟨p', h'⟩
  obtain ⟨x, free, hf⟩ := List.exists_cons_of_ne_nil
    ((ha.trade (q := q) hw hl).free_ne_nil (hw.trade (q := q) hl) hid (trade_ids (q := q) hw hl hfresh))
  intro s'
  have hbefore := h s'
  have htrade := restingQuantity_trade (q := q) hn hw hl hside s'
  have hleft := trade_snd v (v.crossing isBuy p) q
  have hadd : (v.add id p q isBuy).restingQuantity n s' =
      (v.trade (v.crossing isBuy p) q).1.restingQuantity n s' +
        if s' = isBuy then (v.trade (v.crossing isBuy p) q).2 else 0 := by
    unfold add
    dsimp only
    by_cases h0 : (v.trade (v.crossing isBuy p) q).2 = 0
    · rw [if_pos h0, h0, ite_self, Nat.add_zero]
    · rw [if_neg h0, restingQuantity_rest hf (hn ▸ hp)]
  rw [hadd]
  unfold Turnover.order
  dsimp only
  rw [Function.update_apply]
  by_cases hs : s' = isBuy
  · subst hs
    rw [if_neg (by simp)] at htrade
    rw [if_pos rfl, if_pos rfl]
    omega
  · have hopp : s' = !isBuy := by cases s' <;> cases isBuy <;> simp_all
    rw [if_pos hopp] at htrade
    rw [if_neg hs, if_neg hs]
    omega

end QueueBook

/-- The book's totals are those of the queues. -/
theorem Rep.restingQuantity_eq (hn : n = maxTicks) (h : Rep b v) (s : Bool) :
    b.restingQuantity s = v.restingQuantity n s := by
  subst hn
  exact Finset.sum_congr rfl fun p _ => (h.level s p).total_eq

/-- **What is booked as traded is what `match_order` fills.** -/
theorem Rep.filled_eq (h : Rep b v) (hw : v.Wf) {fuel rem : Nat} (hp : p < maxTicks)
    (hrun : b.matchOrder sub64 fuel p q isBuy = .ok (b', rem)) :
    b.filled isBuy p q + rem = q := by
  obtain ⟨-, hrem⟩ := h.matched hw hp hrun
  rw [OrderBook.filled, h.crossingQuantity_eq, hrem, QueueBook.trade_snd]
  omega

/-- **Every allowed call keeps the balance.** -/
theorem Rep.post (hn : n = maxTicks) (h : Rep b v) (hw : v.Wf) (ha : v.Addressable)
    (hop : b.Allowed op) (hstep : v.Step op v') (hbal : v.Balanced n t) :
    v'.Balanced n (b.post t op) := by
  obtain ⟨⟨hrange, -⟩, hfresh⟩ := hop
  have hin := hrange.inTables
  have hfresh := h.fresh hfresh
  unfold OrderBook.post
  cases hstep with
  | add id p q isBuy =>
    dsimp only
    rw [OrderBook.filled, h.crossingQuantity_eq]
    exact hbal.order hn hw ha hin.1 hin.2 hfresh
  | cancelUnknown hx =>
    dsimp only
    rw [h.map, hx]
    exact hbal
  | cancel ho hx =>
    obtain ⟨-, -, hquant, hbuy⟩ := h.fields ho
    dsimp only
    rw [h.map, hx]
    dsimp only
    rw [hquant, hbuy]
    exact hbal.withdraw hn hw ho _
  | modifyUnknown p q hx =>
    dsimp only
    rw [h.map, hx]
    exact hbal
  | @modifyInPlace s p q o ho hx h0 hq =>
    obtain ⟨-, hprice, hquant, hbuy⟩ := h.fields ho
    dsimp only
    rw [h.map, hx]
    dsimp only
    rw [hprice, hquant, hbuy, if_neg (by omega)]
    exact hbal.reduce hn hw ho hq
  | @modifyZero s p o ho hx =>
    obtain ⟨-, hprice, hquant, hbuy⟩ := h.fields ho
    dsimp only
    rw [h.map, hx]
    dsimp only
    rw [hprice, hquant, hbuy, if_neg (by omega), Nat.sub_zero]
    exact hbal.withdraw hn hw ho _
  | @modifyReplace s p price q o ho hx hne =>
    obtain ⟨-, hprice, hquant, hbuy⟩ := h.fields ho
    dsimp only
    rw [h.map, hx]
    dsimp only
    rw [hprice, hquant, hbuy, if_pos hne, OrderBook.filled, h.crossingQuantity_eq,
      ← QueueBook.crossing_remove_same hw ho o.id]
    exact (hbal.withdraw hn hw ho o.id).order hn (hw.remove ho) (ha.remove ho) hin.1 hin.2
      (ha.not_at_remove hw.toSlots ho)

/-- **No quantity is created or lost.** After every run of allowed calls, on each side what rests by
the level totals, what was traded and what was withdrawn add up to what was ordered; every trade is
booked once and counts on both sides, as what `match_order` fills of the incoming quantity. -/
theorem turnover_balanced (h : Run (fun (x : OrderBook × Turnover) op y =>
      x.1.Allowed op ∧ x.1.Calls op y.1 ∧ y.2 = x.1.post x.2 op) (.init, .init) ops (b, t)) :
    (∀ isBuy, b.restingQuantity isBuy + t.traded + t.withdrawn isBuy = t.ordered isBuy) ∧
      ∀ price qty isBuy fuel b' rem, price < maxTicks →
        b.matchOrder sub64 fuel price qty isBuy = .ok (b', rem) →
        b.filled isBuy price qty + rem = qty := by
  obtain ⟨n, hn⟩ : ∃ n, n = maxTicks := ⟨_, rfl⟩
  have hinit : QueueBook.empty.Balanced n .init := fun s => by
    show ∑ p ∈ Finset.range n, 0 + 0 + 0 = 0
    rw [Finset.sum_const_zero]
  have hempty : QueueBook.empty.Addressable := fun _ _ _ h => absurd h List.not_mem_nil
  obtain ⟨v, hrep, hw, -, hbal⟩ : ∃ v, Rep b v ∧ v.Wf ∧ v.Addressable ∧ v.Balanced n t := by
    refine h.simulation (R := fun _ x v => Rep x.1 v ∧ v.Wf ∧ v.Addressable ∧ v.Balanced n x.2)
      ⟨rep_init, .empty, hempty, hinit⟩ ?_
    rintro - ⟨b, t⟩ v op ⟨b', t'⟩ ⟨hrep, hw, ha, hbal⟩ ⟨hop, hc, rfl⟩
    have hin := hop.1.1.inTables
    have hfit := QueueBook.fits_of_smallQuantity (v := v) hop.1.2
    obtain ⟨v', hstep, hrep'⟩ := hrep.calls hw hin hfit hc
    exact ⟨v', hrep', hw.step hin hfit hstep, ha.step hw (hrep.fresh hop.2) hstep,
      hrep.post hn hw ha hop hstep hbal⟩
  refine ⟨fun s => ?_, fun price qty isBuy fuel b' rem hp hrun => hrep.filled_eq hw hp hrun⟩
  rw [hrep.restingQuantity_eq hn]
  exact hbal s

/-- Every run of allowed calls has its turnover. -/
theorem OrderBook.Reaches.exists_turnover (h : OrderBook.Reaches OrderBook.Allowed ops b) :
    ∃ t, Run (fun (x : OrderBook × Turnover) op y =>
      x.1.Allowed op ∧ x.1.Calls op y.1 ∧ y.2 = x.1.post x.2 op) (.init, .init) ops (b, t) := by
  induction h with
  | nil => exact ⟨.init, Run.nil⟩
  | snoc _ hs ih =>
    obtain ⟨t, ht⟩ := ih
    exact ⟨_, ht.snoc ⟨hs.1, hs.2, rfl⟩⟩

/-- A sell of 3 fills part of a bid of 5, and the rest of the bid is withdrawn. -/
theorem turnover_balanced_run : ∃ b t, Run (fun (x : OrderBook × Turnover) op y =>
      x.1.Allowed op ∧ x.1.Calls op y.1 ∧ y.2 = x.1.post x.2 op) (.init, .init)
        [.add 1 100 5 true, .add 2 100 3 false, .cancel 1] (b, t) ∧
    b.restingQuantity true + t.traded + t.withdrawn true = t.ordered true ∧
    b.restingQuantity false + t.traded + t.withdrawn false = t.ordered false := by
  have hallows : RefBook.Allows [] [.add 1 100 5 true, .add 2 100 3 false, .cancel 1] := by
    decide +kernel
  obtain ⟨b, hb⟩ := hallows.reaches
  obtain ⟨t, ht⟩ := hb.exists_turnover
  exact ⟨b, t, ht, (turnover_balanced ht).1 true, (turnover_balanced ht).1 false⟩

end MarketHandler
