import Mathlib.Data.List.Nodup
import MarketHandler.QueueBook

/-!
# The crossing orders, and `add` on queues

`crossing isBuy limit` lists the opposing orders a limit price reaches, best price first. This file
relates it to the best price (`crossingPrices_cons`: the head is the opposing best), shows that
filling the best level leaves the rest of the list crossing (`crossingPrices_trade`), and derives
what `add` keeps: `Wf.add`, `Uncrossed.add`, `PricePos.add`, `Addressable.add`.
-/

namespace MarketHandler.QueueBook

variable {v : QueueBook} {isBuy s : Bool} {limit p p' q id : Nat} {ps : List Nat} {o : Resting}

/-- `p` is a strictly better opposing price than `p'` for an incoming order. -/
def better (isBuy : Bool) (p p' : Nat) : Prop := if isBuy then p < p' else p' < p

theorem priceOrder_pairwise (isBuy : Bool) : (priceOrder isBuy).Pairwise (better isBuy) := by
  cases isBuy <;> simp only [priceOrder, Bool.false_eq_true, if_true, if_false]
  · exact List.pairwise_reverse.mpr List.pairwise_lt_range
  · exact List.pairwise_lt_range

theorem mem_priceOrder : p ∈ priceOrder isBuy ↔ p < maxTicks := by
  cases isBuy <;> simp [priceOrder]

theorem better_ne (h : better isBuy p p') : p ≠ p' := by
  cases isBuy <;> simp [better] at h <;> omega

theorem better_total (isBuy : Bool) (h : p ≠ p') : better isBuy p p' ∨ better isBuy p' p := by
  cases isBuy <;> simp [better] <;> omega

/-- A better price crosses when a worse one does. -/
theorem crosses_of_better (h : better isBuy p p') (hc : crosses isBuy limit p' = true) :
    crosses isBuy limit p = true := by
  cases isBuy <;> simp [better, crosses] at * <;> omega

theorem mem_crossingPrices :
    p ∈ v.crossingPrices isBuy limit ↔
      p < maxTicks ∧ crosses isBuy limit p = true ∧ p ∈ v.prices (!isBuy) := by
  simp [crossingPrices, mem_priceOrder, prices]

theorem crossingPrices_pairwise (v : QueueBook) (isBuy : Bool) (limit : Nat) :
    (v.crossingPrices isBuy limit).Pairwise (better isBuy) :=
  (priceOrder_pairwise isBuy).sublist List.filter_sublist

theorem crossingPrices_nodup (v : QueueBook) (isBuy : Bool) (limit : Nat) :
    (v.crossingPrices isBuy limit).Nodup :=
  (crossingPrices_pairwise v isBuy limit).imp better_ne

theorem mem_crossing :
    o ∈ v.crossing isBuy limit ↔
      ∃ p, p < maxTicks ∧ crosses isBuy limit p = true ∧ v.At (!isBuy) p o := by
  simp only [crossing, List.mem_flatMap, mem_crossingPrices]
  constructor
  · rintro ⟨p, ⟨h1, h2, -⟩, ho⟩
    exact ⟨p, h1, h2, ho⟩
  · rintro ⟨p, h1, h2, ho⟩
    exact ⟨p, ⟨h1, h2, mem_prices.mpr ⟨o, ho⟩⟩, ho⟩

/-- No order crosses where no price does. -/
theorem crossing_eq_nil_iff :
    v.crossing isBuy limit = [] ↔ v.crossingPrices isBuy limit = [] := by
  constructor
  · intro h
    refine List.eq_nil_iff_forall_not_mem.mpr fun p hp => ?_
    obtain ⟨hlt, hc, hp⟩ := mem_crossingPrices.mp hp
    obtain ⟨o, ho⟩ := mem_prices.mp hp
    have := mem_crossing.mpr ⟨p, hlt, hc, ho⟩
    rw [h] at this
    cases this
  · intro h
    rw [crossing, h]
    rfl

theorem crossingPrices_eq_nil (h : ∀ p ∈ v.prices (!isBuy), crosses isBuy limit p = false) :
    v.crossingPrices isBuy limit = [] := by
  refine List.eq_nil_iff_forall_not_mem.mpr fun p hp => ?_
  obtain ⟨-, hc, hp⟩ := mem_crossingPrices.mp hp
  rw [h p hp] at hc
  cases hc

theorem crossing_eq_nil (h : v.prices (!isBuy) = ∅) : v.crossing isBuy limit = [] := by
  refine List.eq_nil_iff_forall_not_mem.mpr fun o ho => ?_
  obtain ⟨p, -, -, ho⟩ := mem_crossing.mp ho
  exact Set.notMem_empty p (h ▸ mem_prices.mpr ⟨o, ho⟩)

theorem crossing_empty (isBuy : Bool) (limit : Nat) : empty.crossing isBuy limit = [] :=
  crossing_eq_nil (Set.eq_empty_of_forall_notMem fun _ hp => hp rfl)

/-- **The first crossing price is the opposing best.** -/
theorem crossingPrices_cons (h : v.crossingPrices isBuy limit = p :: ps) :
    p ∈ v.prices (!isBuy) ∧ crosses isBuy limit p = true ∧
      ∀ p' ∈ v.prices (!isBuy), p' < maxTicks → p' = p ∨ better isBuy p p' := by
  have hp := mem_crossingPrices.mp (h ▸ List.mem_cons_self : p ∈ v.crossingPrices isBuy limit)
  refine ⟨hp.2.2, hp.2.1, fun p' hp' hlt => ?_⟩
  by_cases he : p' = p
  · exact Or.inl he
  rcases better_total isBuy he with hb | hb
  · have hm := mem_crossingPrices.mpr ⟨hlt, crosses_of_better hb hp.2.1, hp'⟩
    rw [h] at hm
    have hpw := h ▸ crossingPrices_pairwise v isBuy limit
    rcases List.mem_cons.mp hm with rfl | hm
    · exact Or.inl rfl
    · exact Or.inr (List.rel_of_pairwise_cons hpw hm)
  · exact Or.inr hb

theorem crossing_cons (h : v.crossingPrices isBuy limit = p :: ps) :
    v.crossing isBuy limit = v.queue (!isBuy) p ++ ps.flatMap (v.queue (!isBuy)) := by
  rw [crossing, h, List.flatMap_cons]

/-- The crossing orders are distinct resting orders. -/
theorem Wf.lists_crossing (hw : v.Wf) (isBuy : Bool) (limit : Nat) :
    v.Lists (v.crossing isBuy limit) := by
  refine ⟨fun o ho => ?_, ?_⟩
  · obtain ⟨p, -, -, ho⟩ := mem_crossing.mp ho
    exact ⟨_, p, ho⟩
  · rw [crossing, slots, List.map_flatMap, List.nodup_flatMap]
    refine ⟨fun p _ => hw.nodup _ _, (crossingPrices_nodup _ _ _).imp fun hne => ?_⟩
    intro x hx hx'
    obtain ⟨o, ho, rfl⟩ := List.mem_map.mp hx
    obtain ⟨o', ho', he⟩ := List.mem_map.mp hx'
    exact hne (hw.slot_inj ho' ho he).2.1.symm

theorem Wf.lists_queue (hw : v.Wf) (s : Bool) (p : Nat) : v.Lists (v.queue s p) :=
  ⟨fun _ ho => ⟨s, p, ho⟩, hw.nodup s p⟩

/-- Trading with one level leaves the other queues alone. -/
theorem trade_queue_of_ne (hw : v.Wf) (h : s ≠ !isBuy ∨ p' ≠ p) :
    (v.trade (v.queue (!isBuy) p) q).1.queue s p' = v.queue s p' := by
  refine trade_queue_eq fun o ho hm => ?_
  obtain ⟨o', ho', he⟩ := List.mem_map.mp hm
  obtain ⟨hs, hp, -⟩ := hw.slot_inj ho' ho he
  exact h.elim (fun h => h hs.symm) fun h => h hp.symm

/-- Trading a whole level empties it. -/
theorem trade_queue_self (hw : v.Wf) (hq : total (v.queue s p) ≤ q) :
    (v.trade (v.queue s p) q).1.queue s p = [] := by
  by_contra hne
  obtain ⟨o, ho⟩ := List.exists_mem_of_ne_nil _ hne
  obtain ⟨ho, hnot⟩ := (at_trade_of_le hq fun o ho => hw.quantity_pos ho).mp ho
  exact hnot (List.mem_map.mpr ⟨o, ho, rfl⟩)

/-- **Once the best level is filled, the remaining crossing prices are the tail.** -/
theorem crossingPrices_trade (hw : v.Wf) (h : v.crossingPrices isBuy limit = p :: ps)
    (hq : total (v.queue (!isBuy) p) ≤ q) :
    (v.trade (v.queue (!isBuy) p) q).1.crossingPrices isBuy limit = ps := by
  have hnd := h ▸ crossingPrices_nodup v isBuy limit
  have hps : ps = (v.crossingPrices isBuy limit).filter (· ≠ p) := by
    rw [h, List.filter_cons_of_neg (by simp)]
    refine (List.filter_eq_self.mpr fun p' hp' => ?_).symm
    simpa using ne_of_mem_of_not_mem hp' (List.nodup_cons.mp hnd).1
  rw [hps, crossingPrices, crossingPrices, List.filter_filter]
  refine List.filter_congr fun p' _ => ?_
  by_cases he : p' = p
  · subst he
    rw [trade_queue_self hw hq]
    simp
  · rw [trade_queue_of_ne hw (Or.inr he)]
    simp [he]

/-- The crossing list after the best level is filled. -/
theorem crossing_trade (hw : v.Wf) (h : v.crossingPrices isBuy limit = p :: ps)
    (hq : total (v.queue (!isBuy) p) ≤ q) :
    (v.trade (v.queue (!isBuy) p) q).1.crossing isBuy limit = ps.flatMap (v.queue (!isBuy)) := by
  have hnd := h ▸ crossingPrices_nodup v isBuy limit
  rw [crossing, crossingPrices_trade hw h hq]
  refine List.flatMap_congr fun p' hp' => trade_queue_of_ne hw (Or.inr ?_)
  exact ne_of_mem_of_not_mem hp' (List.nodup_cons.mp hnd).1

/-- Matching the quantity `q` at `limit` comes to an end. A sell at 0 that is larger than all bids
does not: see `matchLoop_runs_on`. -/
def Ends (v : QueueBook) (isBuy : Bool) (limit q : Nat) : Prop :=
  isBuy = true ∨ 0 < limit ∨ q ≤ total (v.crossing isBuy limit)

theorem Ends.of_pos (h : 0 < limit) : v.Ends isBuy limit q := Or.inr (Or.inl h)

theorem Ends.congr {w : QueueBook} (h : v.Ends isBuy limit q)
    (hc : w.crossing isBuy limit = v.crossing isBuy limit) : w.Ends isBuy limit q := by
  unfold Ends
  rw [hc]
  exact h

/-- What is left after the best level ends, too. -/
theorem Ends.trade (h : v.Ends isBuy limit q) (hw : v.Wf)
    (hps : v.crossingPrices isBuy limit = p :: ps) (hq : total (v.queue (!isBuy) p) ≤ q) :
    (v.trade (v.queue (!isBuy) p) q).1.Ends isBuy limit (v.trade (v.queue (!isBuy) p) q).2 := by
  refine h.imp_right (Or.imp_right fun hle => ?_)
  rw [crossing_trade hw hps hq, trade_snd]
  rw [crossing_cons hps, total_append] at hle
  omega

/-! ## `add` -/

/-- An order that rests after matching finds no crossing order left. -/
theorem not_crosses_of_rest (hw : v.Wf) (hq : total (v.crossing isBuy limit) ≤ q)
    (ho : (v.trade (v.crossing isBuy limit) q).1.At (!isBuy) p o) :
    crosses isBuy limit p = false := by
  obtain ⟨ho, hnot⟩ := (at_trade_of_le hq fun o' ho' => by
    obtain ⟨p', -, -, h'⟩ := mem_crossing.mp ho'
    exact hw.quantity_pos h').mp ho
  by_contra hc
  have hc : crosses isBuy limit p = true := by simpa using hc
  exact hnot (List.mem_map.mpr ⟨o, mem_crossing.mpr ⟨p, hw.price_lt ho, hc, ho⟩, rfl⟩)

theorem Wf.add (hw : v.Wf) (hr : q - total (v.crossing isBuy p) < 2 ^ 31) (hid : id < maxOrders)
    (hp : p < maxTicks) : (v.add id p q isBuy).Wf := by
  have hm := hw.trade (q := q) (hw.lists_crossing isBuy p)
  unfold QueueBook.add
  dsimp only
  split_ifs with h0
  · exact hm
  · refine hm.rest (by omega) ?_ hid hp
    rw [trade_snd]
    exact hr

theorem Uncrossed.add (hu : v.Uncrossed) (hw : v.Wf) : (v.add id p q isBuy).Uncrossed := by
  have hl := hw.lists_crossing isBuy p
  have hm : (v.trade (v.crossing isBuy p) q).1.Uncrossed :=
    hu.mono fun s => trade_prices_subset hw hl
  unfold QueueBook.add
  dsimp only
  split_ifs with h0
  · exact hm
  rw [trade_snd] at h0
  have hfar : ∀ p' o, (v.trade (v.crossing isBuy p) q).1.At (!isBuy) p' o →
      crosses isBuy p p' = false := fun p' o => not_crosses_of_rest hw (by omega)
  cases hf : (v.trade (v.crossing isBuy p) q).1.free with
  | nil => simpa only [QueueBook.rest, hf] using hm
  | cons slot free =>
    intro p₁ o₁ p₂ o₂ hb ha
    rcases (at_rest hf).mp hb with hb | ⟨rfl, rfl, -⟩ <;>
      rcases (at_rest hf).mp ha with ha | ⟨hs, rfl, -⟩
    · exact hm _ _ _ _ hb ha
    · subst hs
      have := hfar _ _ hb
      simpa [crosses] using this
    · have := hfar _ _ ha
      simpa [crosses] using this
    · exact absurd hs (by simp)

/-- In an uncrossed book the price of a resting order crosses no opposing price. -/
theorem Uncrossed.not_crosses (hu : v.Uncrossed) (ho : v.At s p o) (hp' : p' ∈ v.prices (!s)) :
    crosses s p p' = false := by
  obtain ⟨o', ho'⟩ := mem_prices.mp hp'
  cases s
  · have := hu _ _ _ _ ho' ho
    simpa [crosses] using this
  · have := hu _ _ _ _ ho ho'
    simpa [crosses] using this

theorem PricePos.add (hv : v.PricePos) (hw : v.Wf) (hp : 0 < p) : (v.add id p q isBuy).PricePos := by
  have hm : (v.trade (v.crossing isBuy p) q).1.PricePos :=
    hv.mono fun s => trade_prices_subset hw (hw.lists_crossing isBuy p)
  unfold QueueBook.add
  dsimp only
  split_ifs
  · exact hm
  cases hf : (v.trade (v.crossing isBuy p) q).1.free with
  | nil => simpa only [QueueBook.rest, hf] using hm
  | cons slot free =>
    intro s p' o ho
    rcases (at_rest hf).mp ho with ho | ⟨-, rfl, -⟩
    · exact hm _ _ _ ho
    · exact hp

/-- Trading brings in no ids. -/
theorem trade_ids (hw : v.Wf) {l : List Resting} (hl : v.Lists l)
    (hid : ∀ s p o, v.At s p o → o.id ≠ id) :
    ∀ s p o, (v.trade l q).1.At s p o → o.id ≠ id :=
  trade_induct (P := fun w => ∀ s p o, w.At s p o → o.id ≠ id) hw hl hid
    (fun _ h _ s p o ho => h s p o (at_remove.mp ho).1)
    fun _ h _ _ _ s p o ho => by
      obtain ⟨o', h', -, he, -⟩ := of_at_setQuantity ho
      rw [he]
      exact h s p o' h'

/-- `add` keeps every order addressable unless what it rests has the id of an order still resting. -/
theorem Addressable.add_of_trade (ha : v.Addressable) (hw : v.Wf)
    (hid : q ≤ total (v.crossing isBuy p) ∨ (v.trade (v.crossing isBuy p) q).1.free = [] ∨
      ∀ s p' o, (v.trade (v.crossing isBuy p) q).1.At s p' o → o.id ≠ id) :
    (v.add id p q isBuy).Addressable := by
  have hm := ha.trade (q := q) hw (hw.lists_crossing isBuy p)
  unfold QueueBook.add
  dsimp only
  split_ifs with h0
  · exact hm
  rw [trade_snd] at h0
  rcases hid with hq | hfree | hids
  · omega
  · simpa only [QueueBook.rest, hfree] using hm
  · exact hm.rest hids

theorem Addressable.add (ha : v.Addressable) (hw : v.Wf)
    (hid : ∀ s p' o, v.At s p' o → o.id ≠ id) : (v.add id p q isBuy).Addressable :=
  ha.add_of_trade hw (Or.inr (Or.inr (trade_ids hw (hw.lists_crossing isBuy p) hid)))

end MarketHandler.QueueBook
