import MarketHandler.Runs

/-!
# The reference book

A price-time-priority book that is only a list of resting entries in arrival order (`RefBook`), and
the proof that the code's book refines it.

* `RefBook.best`: the crossing entry of best price and, among equals, earliest arrival.
* `RefBook.trade`: trade with the best entry while quantity remains, removing it at zero.
* `RefBook.apply`: the three calls.
* `Abs.step`: the queues follow the reference book, level by level and in order.
* `refines_reference`: **the code's book refines the reference book**.
-/

namespace MarketHandler

open Lib

/-- A resting entry of the reference book. -/
structure Entry where
  id : Nat
  isBuy : Bool
  price : Nat
  quantity : Nat
  deriving DecidableEq, Repr

/-- The reference book: resting entries in arrival order. -/
abbrev RefBook := List Entry

namespace RefBook

/-- The opposing entries whose price the limit crosses, in arrival order. -/
def crossing (r : RefBook) (isBuy : Bool) (limit : Nat) : RefBook :=
  r.filter fun e => e.isBuy = !isBuy ∧ (if isBuy then e.price ≤ limit else limit ≤ e.price)

/-- For an incoming order the price `p` is at least as good as `p'`. -/
def noWorse (isBuy : Bool) (p p' : Nat) : Bool := if isBuy then p ≤ p' else p' ≤ p

/-- The crossing entry of best price and, among equals, earliest arrival. -/
def best (r : RefBook) (isBuy : Bool) (limit : Nat) : Option Entry :=
  (r.crossing isBuy limit).find? fun e =>
    (r.crossing isBuy limit).all fun e' => noWorse isBuy e.price e'.price

/-- Delete the entry. -/
def remove (r : RefBook) (id : Nat) : RefBook := r.filter (·.id ≠ id)

/-- Change the entry's quantity in place. -/
def setQuantity (r : RefBook) (id q : Nat) : RefBook :=
  r.map fun e => if e.id = id then { e with quantity := q } else e

theorem best_mem {r : RefBook} {isBuy : Bool} {limit : Nat} {e : Entry}
    (h : r.best isBuy limit = some e) : e ∈ r :=
  (List.mem_filter.mp (List.mem_of_find?_eq_some h)).1

/-- While quantity remains and an opposing entry crosses the limit, trade with the best one. -/
def trade (r : RefBook) (isBuy : Bool) (limit qty : Nat) : RefBook × Nat :=
  if qty = 0 then (r, 0)
  else
    match _h : r.best isBuy limit with
    | none => (r, qty)
    | some e =>
      if e.quantity ≤ qty then (r.remove e.id).trade isBuy limit (qty - e.quantity)
      else (r.setQuantity e.id (e.quantity - qty), 0)
termination_by r.length
decreasing_by
  refine List.length_filter_lt_length_iff_exists.mpr ⟨e, best_mem _h, ?_⟩
  simp

theorem trade_zero (r : RefBook) (isBuy : Bool) (limit : Nat) : r.trade isBuy limit 0 = (r, 0) := by
  unfold trade
  rfl

/-- Trading ends when no entry crosses. -/
theorem trade_none {r : RefBook} {isBuy : Bool} {limit qty : Nat} (h : r.best isBuy limit = none) :
    r.trade isBuy limit qty = (r, qty) := by
  unfold trade
  split_ifs with h0
  · rw [h0]
  · split
    · rfl
    · rename_i e he
      rw [h] at he
      cases he

/-- The best entry is traded in full. -/
theorem trade_full {r : RefBook} {isBuy : Bool} {limit qty : Nat} {e : Entry} (h0 : qty ≠ 0)
    (h : r.best isBuy limit = some e) (hle : e.quantity ≤ qty) :
    r.trade isBuy limit qty = (r.remove e.id).trade isBuy limit (qty - e.quantity) := by
  rw [trade, if_neg h0]
  split
  · rename_i hnone
    rw [h] at hnone
    cases hnone
  · rename_i e' he
    rw [h] at he
    obtain rfl := Option.some.inj he
    exact if_pos hle

/-- The best entry is traded in part. -/
theorem trade_part {r : RefBook} {isBuy : Bool} {limit qty : Nat} {e : Entry} (h0 : qty ≠ 0)
    (h : r.best isBuy limit = some e) (hle : ¬ e.quantity ≤ qty) :
    r.trade isBuy limit qty = (r.setQuantity e.id (e.quantity - qty), 0) := by
  rw [trade, if_neg h0]
  split
  · rename_i hnone
    rw [h] at hnone
    cases hnone
  · rename_i e' he
    rw [h] at he
    obtain rfl := Option.some.inj he
    exact if_neg hle

/-- Trade, then append what is left. -/
def add (r : RefBook) (id price qty : Nat) (isBuy : Bool) : RefBook :=
  let t := r.trade isBuy price qty
  if t.2 = 0 then t.1 else t.1 ++ [⟨id, isBuy, price, t.2⟩]

/-- The three calls. -/
def apply (r : RefBook) : Op → RefBook
  | .add id price qty isBuy => r.add id price qty isBuy
  | .cancel id => r.remove id
  | .modify id newPrice newQty =>
    match r.find? (·.id = id) with
    | none => r
    | some e =>
      if newPrice = e.price ∧ newQty ≤ e.quantity then
        if newQty = 0 then r.remove id else r.setQuantity id newQty
      else (r.remove id).add id newPrice newQty e.isBuy

/-- The reference book after a sequence of calls. -/
def run (ops : List Op) : RefBook := ops.foldl apply []

theorem run_snoc (ops : List Op) (op : Op) : run (ops ++ [op]) = (run ops).apply op := by
  rw [run, List.foldl_append]
  rfl

end RefBook

/-! ## The abstraction -/

/-- The entry of a resting order. -/
def Resting.entry (o : Resting) (s : Bool) (p : Nat) : Entry := ⟨o.id, s, p, o.quantity⟩

/-- Each queue lists the entries of its level in arrival order. -/
def Abs (v : QueueBook) (r : RefBook) : Prop :=
  ∀ s p, (v.queue s p).map (Resting.entry · s p) = r.filter fun e => e.isBuy = s ∧ e.price = p

variable {v v' : QueueBook} {r : RefBook} {s isBuy : Bool} {p limit q id x : Nat} {o : Resting}
  {l : List Resting} {e : Entry} {op : Op}

theorem Abs.mem_iff (h : Abs v r) : e ∈ r ↔ ∃ s p o, v.At s p o ∧ o.entry s p = e := by
  have hfilter : e ∈ r ↔ e ∈ r.filter fun e' => e'.isBuy = e.isBuy ∧ e'.price = e.price := by simp
  rw [hfilter, ← h, List.mem_map]
  constructor
  · rintro ⟨o, ho, he⟩
    exact ⟨_, _, o, ho, he⟩
  · rintro ⟨s, p, o, ho, rfl⟩
    exact ⟨o, ho, rfl⟩

theorem Abs.empty : Abs .empty [] := fun _ _ => rfl

theorem Abs.remove (h : Abs v r) (ha : v.Addressable) (hw : v.Slots) (ho : v.At s p o) :
    Abs (v.remove o.slot o.id) (r.remove o.id) := by
  intro s' p'
  have hids : (v.queue s' p').filter (·.slot ≠ o.slot) = (v.queue s' p').filter (·.id ≠ o.id) := by
    refine List.filter_congr fun o' ho' => ?_
    have : o'.slot = o.slot ↔ o'.id = o.id := by
      constructor
      · exact fun he => congrArg Resting.id (hw.slot_inj ho' ho he).2.2
      · exact fun he => congrArg Resting.slot (ha.eq_of_id hw ho' ho he).2.2
    simp [this]
  show List.map _ ((v.queue s' p').filter (·.slot ≠ o.slot)) = _
  rw [hids, RefBook.remove, List.filter_comm, ← h s' p', List.filter_map]
  rfl

theorem Abs.setQuantity (h : Abs v r) (ha : v.Addressable) (hw : v.Slots) (ho : v.At s p o) :
    Abs (v.setQuantity o.slot q) (r.setQuantity o.id q) := by
  intro s' p'
  have hcomm : (r.setQuantity o.id q).filter (fun e => e.isBuy = s' ∧ e.price = p') =
      RefBook.setQuantity (r.filter fun e => e.isBuy = s' ∧ e.price = p') o.id q := by
    unfold RefBook.setQuantity
    rw [List.filter_map]
    congr 1
    refine List.filter_congr fun e _ => ?_
    simp only [Function.comp]
    split_ifs <;> rfl
  rw [hcomm, ← h s' p']
  unfold QueueBook.setQuantity RefBook.setQuantity
  rw [List.map_map, List.map_map]
  refine List.map_congr_left fun o' ho' => ?_
  have : o'.slot = o.slot ↔ o'.id = o.id := by
    constructor
    · exact fun he => congrArg Resting.id (hw.slot_inj ho' ho he).2.2
    · exact fun he => congrArg Resting.slot (ha.eq_of_id hw ho' ho he).2.2
  by_cases he : o'.slot = o.slot
  · simp [Resting.entry, he, this.mp he]
  · have hne : o'.id ≠ o.id := fun e => he (this.mpr e)
    simp [Resting.entry, he, hne]

theorem Abs.rest (h : Abs v r) (hf : v.free ≠ []) :
    Abs (v.rest id p q s) (r ++ [⟨id, s, p, q⟩]) := by
  obtain ⟨x, free, hf⟩ := List.exists_cons_of_ne_nil hf
  intro s' p'
  rw [List.filter_append, ← h s' p']
  simp only [QueueBook.rest, hf]
  by_cases hsp : s' = s ∧ p' = p
  · obtain ⟨rfl, rfl⟩ := hsp
    simp [Resting.entry]
  · have : ¬(s = s' ∧ p = p') := fun h => hsp ⟨h.1.symm, h.2.symm⟩
    rw [if_neg hsp, List.filter_cons_of_neg (by simpa using this), List.filter_nil,
      List.append_nil]

/-! ## Matching -/

theorem Abs.mem_crossing (h : Abs v r) : e ∈ r.crossing isBuy limit ↔
    ∃ p o, v.At (!isBuy) p o ∧ QueueBook.crosses isBuy limit p = true ∧ o.entry (!isBuy) p = e := by
  have hc : ∀ p, QueueBook.crosses isBuy limit p = true ↔
      if isBuy then p ≤ limit else limit ≤ p := by
    intro p
    cases isBuy <;> simp [QueueBook.crosses]
  simp only [RefBook.crossing, List.mem_filter, h.mem_iff, decide_eq_true_eq, hc]
  constructor
  · rintro ⟨⟨s, p, o, ho, rfl⟩, hs, hp⟩
    simp only [Resting.entry] at hs hp
    subst hs
    exact ⟨p, o, ho, hp, rfl⟩
  · rintro ⟨p, o, ho, hp, rfl⟩
    exact ⟨⟨_, p, o, ho, rfl⟩, rfl, hp⟩

/-- The reference book finds no crossing entry when no order crosses. -/
theorem Abs.best_none (h : Abs v r) (hw : v.Wf) (hc : v.crossing isBuy limit = []) :
    r.best isBuy limit = none := by
  have hnil : r.crossing isBuy limit = [] := by
    refine List.eq_nil_iff_forall_not_mem.mpr fun e he => ?_
    obtain ⟨p, o, ho, hp, -⟩ := h.mem_crossing.mp he
    have := QueueBook.mem_crossing.mpr ⟨p, hw.price_lt ho, hp, ho⟩
    rw [hc] at this
    cases this
  rw [RefBook.best, hnil]
  rfl

/-- **The reference book's best entry is the first crossing order of the queues.** -/
theorem Abs.best_some (h : Abs v r) (hw : v.Wf) (hc : v.crossing isBuy limit = o :: l) :
    ∃ p, v.At (!isBuy) p o ∧ r.best isBuy limit = some (o.entry (!isBuy) p) := by
  cases hps : v.crossingPrices isBuy limit with
  | nil =>
    rw [QueueBook.crossing, hps] at hc
    cases hc
  | cons p ps =>
    obtain ⟨hp, hcross, hbest⟩ := QueueBook.crossingPrices_cons hps
    obtain ⟨l', hl'⟩ : ∃ l', v.queue (!isBuy) p = o :: l' := by
      rw [QueueBook.crossing_cons hps] at hc
      cases hq : v.queue (!isBuy) p with
      | nil => exact absurd hq hp
      | cons o' l' =>
        rw [hq, List.cons_append] at hc
        exact ⟨l', by rw [(List.cons.inj hc).1]⟩
    have ho := QueueBook.at_of_cons hl'
    refine ⟨p, ho, ?_⟩
    -- among the crossing entries exactly those at the best price are beaten by none
    have hpred : ∀ e ∈ r.crossing isBuy limit,
        ((r.crossing isBuy limit).all fun e' => RefBook.noWorse isBuy e.price e'.price) =
          decide (e.price = p) := by
      intro e he
      obtain ⟨p', o', ho', -, rfl⟩ := h.mem_crossing.mp he
      rw [Bool.eq_iff_iff, List.all_eq_true, decide_eq_true_eq]
      constructor
      · intro hall
        have h1 := hall _ (h.mem_crossing.mpr ⟨p, o, ho, hcross, rfl⟩)
        have h2 := hbest p' (QueueBook.mem_prices.mpr ⟨o', ho'⟩) (hw.price_lt ho')
        cases isBuy <;> simp [RefBook.noWorse, QueueBook.better, Resting.entry] at h1 h2 ⊢ <;> omega
      · intro he' e'' he''
        obtain ⟨p'', o'', ho'', -, rfl⟩ := h.mem_crossing.mp he''
        have h2 := hbest p'' (QueueBook.mem_prices.mpr ⟨o'', ho''⟩) (hw.price_lt ho'')
        cases isBuy <;> simp [RefBook.noWorse, QueueBook.better, Resting.entry] at he' h2 ⊢ <;> omega
    have hlevel : (r.crossing isBuy limit).filter (fun e => decide (e.price = p)) =
        r.filter fun e => e.isBuy = !isBuy ∧ e.price = p := by
      unfold RefBook.crossing
      rw [List.filter_filter]
      refine List.filter_congr fun e _ => ?_
      by_cases he : e.price = p
      · have : if isBuy then p ≤ limit else limit ≤ p := by
          cases isBuy <;> simpa [QueueBook.crosses] using hcross
        simp [he, this]
      · simp [he]
    rw [RefBook.best, ← List.head?_filter, List.filter_congr hpred, hlevel, ← h, hl']
    rfl

/-- **Matching agrees** with the reference book's loop. -/
theorem Abs.trade (isBuy : Bool) (limit : Nat) (l : List Resting) :
    ∀ {v : QueueBook} {r : RefBook} (q : Nat), Abs v r → v.Wf → v.Addressable → v.crossing isBuy limit = l →
    Abs (v.trade l q).1 (r.trade isBuy limit q).1 ∧
      (v.trade l q).2 = (r.trade isBuy limit q).2 := by
  induction l with
  | nil =>
    intro v r q h hw ha hc
    rw [RefBook.trade_none (h.best_none hw hc)]
    exact ⟨h, rfl⟩
  | cons o l ih =>
    intro v r q h hw ha hc
    obtain ⟨p, ho, hbest⟩ := h.best_some hw hc
    have hc' := QueueBook.crossing_remove_cons hw hc
    by_cases h0 : q = 0
    · rw [h0, RefBook.trade_zero, QueueBook.trade_zero]
      exact ⟨h, rfl⟩
    rw [QueueBook.trade, if_neg h0]
    by_cases hle : o.quantity ≤ q
    · rw [if_pos hle, RefBook.trade_full h0 hbest hle]
      exact ih _ (h.remove ha hw.toSlots ho) (hw.remove ho) (ha.remove ho) hc'
    · rw [if_neg hle, RefBook.trade_part h0 hbest hle]
      exact ⟨h.setQuantity ha hw.toSlots ho, rfl⟩

theorem Abs.add (h : Abs v r) (hw : v.Wf) (ha : v.Addressable) (hid : id < maxOrders)
    (hfresh : ∀ s p o, v.At s p o → o.id ≠ id) :
    Abs (v.add id p q isBuy) (r.add id p q isBuy) := by
  have hl := hw.lists_crossing isBuy p
  obtain ⟨habs, hrem⟩ := Abs.trade isBuy p _ q h hw ha rfl
  unfold QueueBook.add RefBook.add
  simp only [← hrem]
  split_ifs
  · exact habs
  · exact habs.rest ((ha.trade hw hl).free_ne_nil (hw.trade hl) hid
      (QueueBook.trade_ids hw hl hfresh))

/-! ## Calls -/

theorem Abs.find_none (h : Abs v r) (hid : ∀ s p o, v.At s p o → o.id ≠ id) :
    r.find? (·.id = id) = none := by
  refine List.find?_eq_none.mpr fun e he => ?_
  obtain ⟨s, p, o, ho, rfl⟩ := h.mem_iff.mp he
  exact fun hd => hid s p o ho (of_decide_eq_true hd)

theorem Abs.find_some (h : Abs v r) (ha : v.Addressable) (hw : v.Slots) (ho : v.At s p o) :
    r.find? (·.id = o.id) = some (o.entry s p) := by
  cases hf : r.find? (·.id = o.id) with
  | none =>
    have := List.find?_eq_none.mp hf _ (h.mem_iff.mpr ⟨s, p, o, ho, rfl⟩)
    simp [Resting.entry] at this
  | some e =>
    obtain ⟨s', p', o', ho', rfl⟩ := h.mem_iff.mp (List.mem_of_find?_eq_some hf)
    have hid : o'.id = o.id := by
      have := List.find?_some hf
      exact of_decide_eq_true this
    obtain ⟨rfl, rfl, rfl⟩ := ha.eq_of_id hw ho' ho hid
    rfl

theorem Abs.not_id (ha : v.Addressable) (hx : v.byId id = none) :
    ∀ s p o, v.At s p o → o.id ≠ id := by
  rintro s p o ho rfl
  rw [ha _ _ _ ho] at hx
  cases hx

/-- **Each call on the queues is the reference book's.** -/
theorem Abs.step (h : Abs v r) (hw : v.Wf) (ha : v.Addressable) (hin : op.InRange)
    (hfresh : v.Fresh op) (hstep : v.Step op v') : Abs v' (r.apply op) := by
  have hnone : ∀ id, v.byId id = none → r.remove id = r := fun id hx => by
    refine List.filter_eq_self.mpr fun e he => ?_
    obtain ⟨s, p, o, ho, rfl⟩ := h.mem_iff.mp he
    exact decide_eq_true (Abs.not_id ha hx s p o ho)
  cases hstep with
  | add id price qty isBuy => exact h.add hw ha hin.1 hfresh
  | cancelUnknown hx =>
    show Abs v (r.remove _)
    rw [hnone _ hx]
    exact h
  | cancel ho => exact h.remove ha hw.toSlots ho
  | modifyUnknown price qty hx =>
    show Abs v (match r.find? _ with | none => r | some e => _)
    rw [h.find_none (Abs.not_id ha hx)]
    exact h
  | @modifyInPlace s p qty o ho _ h0 hq =>
    have : r.apply (.modify o.id p qty) = r.setQuantity o.id qty := by
      simp only [RefBook.apply, h.find_some ha hw.toSlots ho, Resting.entry, true_and, hq, if_true]
      rw [if_neg (by omega)]
    rw [this]
    exact h.setQuantity ha hw.toSlots ho
  | @modifyZero s p o ho =>
    have : r.apply (.modify o.id p 0) = r.remove o.id := by
      simp [RefBook.apply, h.find_some ha hw.toSlots ho, Resting.entry]
    rw [this]
    exact h.remove ha hw.toSlots ho
  | @modifyReplace s p price qty o ho _ hne =>
    have : r.apply (.modify o.id price qty) = (r.remove o.id).add o.id price qty s := by
      simp only [RefBook.apply, h.find_some ha hw.toSlots ho, Resting.entry]
      rw [if_neg (by omega)]
    rw [this]
    exact (h.remove ha hw.toSlots ho).add (hw.remove ho) (ha.remove ho) hin.1
      (ha.not_at_remove hw.toSlots ho)

/-! ## Runs -/

/-- The entry an order slot holds. -/
def OrderBook.entry (b : OrderBook) (x : Nat) : Entry :=
  ⟨(b.pool.pool x).id, (b.pool.pool x).isBuy, (b.pool.pool x).price, (b.pool.pool x).quantity⟩

/-- The book abstracts to the reference book: the queue of each level lists the level's entries in
arrival order, and the id table finds, in a linked slot, the entry with the id. -/
structure OrderBook.Abstracts (b : OrderBook) (r : RefBook) : Prop where
  queue : ∀ isBuy price, ∃ l, b.Queue isBuy price l ∧
    l.map b.entry = r.filter fun e => e.isBuy = isBuy ∧ e.price = price
  map : ∀ id, (b.orderMap id).map b.entry = r.find? (·.id = id)
  linked : ∀ id x, b.orderMap id = some x → b.Rests x

variable {b : OrderBook} {ops : List Op}

theorem Rep.entry_eq (h : Rep b v) (ho : v.At s p o) : b.entry o.slot = o.entry s p := by
  obtain ⟨h1, h2, h3, h4⟩ := h.fields ho
  simp only [OrderBook.entry, Resting.entry, h1, h2, h3, h4]

theorem Rep.abstracts (h : Rep b v) (hw : v.Wf) (ha : v.Addressable) (hr : Abs v r) :
    b.Abstracts r where
  queue s p := by
    refine ⟨_, h.queue_iff.mpr rfl, ?_⟩
    rw [← hr s p, slots, List.map_map]
    exact List.map_congr_left fun o ho => h.entry_eq ho
  map id := by
    rw [h.map]
    cases hx : v.byId id with
    | none => rw [hr.find_none (Abs.not_id ha hx)]; rfl
    | some x =>
      obtain ⟨s, p, o, ho, rfl, rfl⟩ := hw.byId_sound hx
      rw [hr.find_some ha hw.toSlots ho, Option.map_some, h.entry_eq ho]
  linked id x hx := by
    rw [h.map] at hx
    obtain ⟨s, p, o, ho, rfl, -⟩ := hw.byId_sound hx
    exact h.rests ho

theorem OrderBook.Reaches.abs (h : OrderBook.Reaches OrderBook.Allowed ops b) :
    ∃ v, Rep b v ∧ v.Wf ∧ v.Addressable ∧ Abs v (RefBook.run ops) := by
  refine h.rep_of (I := fun ops v => v.Addressable ∧ Abs v (RefBook.run ops))
    (fun hop => ⟨hop.1.1.inTables, OrderBook.fits_of_smallQuantity hop.1.2⟩)
    ⟨fun _ _ _ h => absurd h List.not_mem_nil, .empty⟩ ?_
  rintro ops b op v v' hrep hw ⟨ha, habs⟩ ⟨hvalid, hfresh⟩ hstep
  have hfresh := hrep.fresh hfresh
  refine ⟨ha.step hw hfresh hstep, ?_⟩
  rw [RefBook.run_snoc]
  exact habs.step hw ha hvalid.1 hfresh hstep

/-- Every entry of the reference book rests in a slot. -/
theorem OrderBook.Reaches.exists_entry (h : OrderBook.Reaches OrderBook.Allowed ops b)
    (he : e ∈ RefBook.run ops) : ∃ x, b.Rests x ∧ b.entry x = e := by
  obtain ⟨v, hrep, -, -, habs⟩ := h.abs
  obtain ⟨s, p, o, ho, rfl⟩ := habs.mem_iff.mp he
  exact ⟨o.slot, hrep.rests ho, hrep.entry_eq ho⟩

/-- An add names an id that no entry has. -/
def RefBook.Fresh (r : RefBook) : Op → Prop
  | .add id _ _ _ => ∀ e ∈ r, e.id ≠ id
  | .cancel _ => True
  | .modify _ _ _ => True

/-- Every call of the sequence is allowed in the reference book it meets. -/
def RefBook.Allows : RefBook → List Op → Prop
  | _, [] => True
  | r, op :: ops => op.Valid ∧ r.Fresh op ∧ (r.apply op).Allows ops

instance RefBook.decidableFresh (r : RefBook) : DecidablePred r.Fresh
  | .add id _ _ _ => inferInstanceAs (Decidable (∀ e ∈ r, e.id ≠ id))
  | .cancel _ => inferInstanceAs (Decidable True)
  | .modify _ _ _ => inferInstanceAs (Decidable True)

instance RefBook.decidableAllows : (r : RefBook) → (ops : List Op) → Decidable (r.Allows ops)
  | _, [] => inferInstanceAs (Decidable True)
  | r, op :: ops =>
    have := decidableAllows (r.apply op) ops
    inferInstanceAs (Decidable (op.Valid ∧ r.Fresh op ∧ (r.apply op).Allows ops))

/-- An id is fresh in the book when it is in the reference book. -/
theorem OrderBook.Reaches.fresh_iff (h : OrderBook.Reaches OrderBook.Allowed ops b) :
    b.Fresh op ↔ (RefBook.run ops).Fresh op := by
  obtain ⟨v, hrep, -, -, habs⟩ := h.abs
  cases op with
  | add id price qty isBuy =>
    constructor
    · intro hf e he hid
      obtain ⟨s, p, o, ho, rfl⟩ := habs.mem_iff.mp he
      exact hrep.fresh hf s p o ho hid
    · intro hf hid
      obtain ⟨s, p, o, ho, he⟩ := hrep.hasId_iff.mp hid
      exact hf _ (habs.mem_iff.mpr ⟨s, p, o, ho, rfl⟩) he
  | cancel id => exact Iff.rfl
  | modify id price qty => exact Iff.rfl

theorem OrderBook.Reaches.returns (h : OrderBook.Reaches OrderBook.Allowed ops b)
    (hop : op.Valid) : ∃ b', b.Calls op b' := by
  obtain ⟨v, hrep, hw, -, -⟩ := h.abs
  exact hrep.exists_calls hw hop

/-- **Every sequence of calls that the reference book allows runs to its end.** -/
theorem RefBook.Allows.reaches (h : RefBook.Allows [] ops) :
    ∃ b, OrderBook.Reaches OrderBook.Allowed ops b := by
  have hrun : ∀ (ops' : List Op) {ops b}, OrderBook.Reaches OrderBook.Allowed ops b →
      (RefBook.run ops).Allows ops' → ∃ b', OrderBook.Reaches OrderBook.Allowed (ops ++ ops') b' := by
    intro ops'
    induction ops' with
    | nil => exact fun {ops b} hb _ => ⟨b, by rwa [List.append_nil]⟩
    | cons op ops' ih =>
      rintro ops b hb ⟨hvalid, hfresh, hrest⟩
      obtain ⟨b', hb'⟩ := hb.returns hvalid
      have hnext := Run.snoc hb ⟨⟨hvalid, hb.fresh_iff.mpr hfresh⟩, hb'⟩
      rw [← List.singleton_append, ← List.append_assoc]
      refine ih hnext ?_
      rwa [RefBook.run_snoc]
  exact hrun ops Run.nil h

/-- **The book refines the reference book**: after every run of allowed calls it abstracts to the
reference book after the same calls, and every allowed call returns. -/
theorem refines_reference (h : OrderBook.Reaches OrderBook.Allowed ops b) :
    b.Abstracts (RefBook.run ops) ∧ ∀ op, b.Allowed op → ∃ b', b.Calls op b' := by
  obtain ⟨v, hrep, hw, ha, habs⟩ := h.abs
  exact ⟨hrep.abstracts hw ha habs, fun op hop => h.returns hop.1⟩

/-- A bid that sweeps the ask at 100 and part of the ask at 101; the rest of that ask is modified
down. -/
theorem refines_reference_sweep :
    ∃ b, OrderBook.Reaches OrderBook.Allowed [.add 1 100 5 false, .add 2 101 4 false,
        .add 3 101 7 true, .modify 2 101 1] b ∧
      b.Abstracts [⟨2, false, 101, 1⟩] := by
  have hallows : RefBook.Allows [] [.add 1 100 5 false, .add 2 101 4 false, .add 3 101 7 true,
      .modify 2 101 1] := by decide +kernel
  have hrun : RefBook.run [.add 1 100 5 false, .add 2 101 4 false, .add 3 101 7 true,
      .modify 2 101 1] = [⟨2, false, 101, 1⟩] := by decide +kernel
  obtain ⟨b, hb⟩ := hallows.reaches
  exact ⟨b, hb, hrun ▸ (refines_reference hb).1⟩

end MarketHandler
