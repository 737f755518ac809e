import MarketHandler.QueueBook.Crossing

/-!
# Calls on queues

`QueueBook.Step v op v'` says once what a call can do to the queues: match and rest, remove the order
the id table names, change its quantity in place, or remove it and add it again; a call that names
an unknown id does nothing. From it:

* `Wf.step`: the invariant is kept when the tables hold the ids and prices and what is left to rest
  fits in 31 bits (`Fits`);
* `Uncrossed.step`, `PricePos.step`: the book stays uncrossed, and without orders at price 0;
* `Addressable.step`: with unique ids every order stays the id table's entry for its id;
* `Addressable.free_ne_nil`: with unique ids the pool never runs out.
-/

namespace MarketHandler

/-- Ids below `MAX_ORDERS`, prices from 1 to below `MAX_TICKS`. -/
def Op.InRange : Op → Prop
  | .add id price _ _ => id < maxOrders ∧ 1 ≤ price ∧ price < maxTicks
  | .cancel id => id < maxOrders
  | .modify id newPrice _ => id < maxOrders ∧ 1 ≤ newPrice ∧ newPrice < maxTicks

/-- Ids below `MAX_ORDERS`, prices below `MAX_TICKS`, 0 included. -/
def Op.InTables : Op → Prop
  | .add id price _ _ => id < maxOrders ∧ price < maxTicks
  | .cancel id => id < maxOrders
  | .modify id newPrice _ => id < maxOrders ∧ newPrice < maxTicks

theorem Op.InRange.inTables {op : Op} (h : op.InRange) : op.InTables := by
  cases op with
  | add id price qty isBuy => exact ⟨h.1, h.2.2⟩
  | cancel id => exact h
  | modify id price qty => exact ⟨h.1, h.2.2⟩

/-- Quantities below `2 ^ 31`. -/
def Op.SmallQuantity : Op → Prop
  | .add _ _ qty _ => qty < 2 ^ 31
  | .cancel _ => True
  | .modify _ _ newQty => newQty < 2 ^ 31

/-- Ids and prices in range, quantities below `2 ^ 31`. -/
def Op.Valid (op : Op) : Prop := op.InRange ∧ op.SmallQuantity

instance : DecidablePred Op.Valid
  | .add id price qty _ => inferInstanceAs
      (Decidable ((id < maxOrders ∧ 1 ≤ price ∧ price < maxTicks) ∧ qty < 2 ^ 31))
  | .cancel id => inferInstanceAs (Decidable (id < maxOrders ∧ True))
  | .modify id price qty => inferInstanceAs
      (Decidable ((id < maxOrders ∧ 1 ≤ price ∧ price < maxTicks) ∧ qty < 2 ^ 31))

namespace QueueBook

variable {v v' : QueueBook} {s s' isBuy : Bool} {p p' limit q id x : Nat} {o o' : Resting} {op : Op}

/-- What a call does to the queues. -/
inductive Step (v : QueueBook) : Op → QueueBook → Prop
  | add (id price qty : Nat) (isBuy : Bool) :
      Step v (.add id price qty isBuy) (v.add id price qty isBuy)
  | cancelUnknown {id : Nat} : v.byId id = none → Step v (.cancel id) v
  | cancel {s : Bool} {p : Nat} {o : Resting} :
      v.At s p o → v.byId o.id = some o.slot → Step v (.cancel o.id) (v.remove o.slot o.id)
  | modifyUnknown {id : Nat} (price qty : Nat) : v.byId id = none → Step v (.modify id price qty) v
  | modifyInPlace {s : Bool} {p qty : Nat} {o : Resting} :
      v.At s p o → v.byId o.id = some o.slot → 0 < qty → qty ≤ o.quantity →
      Step v (.modify o.id p qty) (v.setQuantity o.slot qty)
  | modifyZero {s : Bool} {p : Nat} {o : Resting} :
      v.At s p o → v.byId o.id = some o.slot → Step v (.modify o.id p 0) (v.remove o.slot o.id)
  | modifyReplace {s : Bool} {p price qty : Nat} {o : Resting} :
      v.At s p o → v.byId o.id = some o.slot → price ≠ p ∨ o.quantity < qty →
      Step v (.modify o.id price qty) ((v.remove o.slot o.id).add o.id price qty s)

/-- What is left to rest fits in 31 bits. -/
def Fits (v : QueueBook) : Op → Prop
  | .add _ price qty isBuy => qty - total (v.crossing isBuy price) < 2 ^ 31
  | .cancel _ => True
  | .modify id price qty => ∀ s p o, v.At s p o → v.byId id = some o.slot →
      price ≠ p ∨ o.quantity < qty → qty - total (v.crossing s price) < 2 ^ 31

/-- The matching of an add, or of the add of a replacing modify, comes to an end. -/
def Settles (v : QueueBook) : Op → Prop
  | .add _ price qty isBuy => v.Ends isBuy price qty
  | .cancel _ => True
  | .modify id price qty => ∀ s p o, v.At s p o → v.byId id = some o.slot →
      price ≠ p ∨ o.quantity < qty → v.Ends s price qty

theorem settles_of_inRange (h : op.InRange) : v.Settles op := by
  cases op with
  | add id price qty isBuy => exact .of_pos h.2.1
  | cancel id => trivial
  | modify id price qty => exact fun _ _ _ _ _ _ => .of_pos h.2.1

/-- An add names an id that no resting order has. -/
def Fresh (v : QueueBook) : Op → Prop
  | .add id _ _ _ => ∀ s p o, v.At s p o → o.id ≠ id
  | _ => True

theorem fits_of_smallQuantity (h : op.SmallQuantity) : v.Fits op := by
  cases op with
  | add id price qty isBuy => exact Nat.lt_of_le_of_lt (Nat.sub_le _ _) h
  | cancel id => trivial
  | modify id price qty => exact fun _ _ _ _ _ _ => Nat.lt_of_le_of_lt (Nat.sub_le _ _) h

/-! ## Removing an order and the crossing list -/

/-- The crossing orders, price by price. -/
theorem crossing_eq : v.crossing isBuy limit =
    ((priceOrder isBuy).filter (crosses isBuy limit)).flatMap (v.queue (!isBuy)) := by
  unfold crossing crossingPrices
  induction priceOrder isBuy with
  | nil => rfl
  | cons p ps ih =>
    by_cases hc : crosses isBuy limit p = true
    · by_cases hq : v.queue (!isBuy) p = []
      · rw [List.filter_cons_of_neg (by simp [hq]), List.filter_cons_of_pos hc,
          List.flatMap_cons, hq, List.nil_append, ih]
      · rw [List.filter_cons_of_pos (by simp [hc, hq]), List.filter_cons_of_pos hc,
          List.flatMap_cons, List.flatMap_cons, ih]
    · rw [List.filter_cons_of_neg (by simp [hc]), List.filter_cons_of_neg hc, ih]

/-- Removing an order removes it from the crossing list. -/
theorem crossing_remove (i : Nat) : (v.remove x i).crossing isBuy limit =
    (v.crossing isBuy limit).filter (·.slot ≠ x) := by
  rw [crossing_eq, crossing_eq, List.filter_flatMap]
  rfl

/-- The crossing orders behind the first are what is left without it. -/
theorem crossing_remove_cons {l : List Resting} (hw : v.Wf) (hc : v.crossing isBuy limit = o :: l) :
    (v.remove o.slot o.id).crossing isBuy limit = l := by
  have hn := (hw.lists_crossing isBuy limit).2
  rw [hc] at hn
  rw [crossing_remove, hc, List.filter_cons_of_neg (by simp)]
  refine List.filter_eq_self.mpr fun o' ho' => ?_
  simpa using fun he : o'.slot = o.slot =>
    (List.nodup_cons.mp hn).1 (he ▸ List.mem_map_of_mem ho')

/-- Removing an order leaves what its own side's orders can reach. -/
theorem crossing_remove_same (hw : v.Wf) (ho : v.At s p o) (i : Nat) :
    (v.remove o.slot i).crossing s limit = v.crossing s limit := by
  rw [crossing_remove]
  refine List.filter_eq_self.mpr fun o' ho' => ?_
  obtain ⟨p', -, -, h'⟩ := mem_crossing.mp ho'
  simpa using hw.slot_ne ho h' fun h => by simp at h

/-- No more orders cross than there are slots. -/
theorem length_crossing_le (hw : v.Wf) (isBuy : Bool) (limit : Nat) :
    (v.crossing isBuy limit).length ≤ maxOrders := by
  obtain ⟨hmem, hn⟩ := hw.lists_crossing isBuy limit
  have hsub : slots (v.crossing isBuy limit) ⊆ List.range maxOrders := by
    intro x hx
    obtain ⟨o, ho, rfl⟩ := List.mem_map.mp hx
    obtain ⟨s, p, h⟩ := hmem o ho
    exact List.mem_range.mpr (hw.slot_lt h)
  simpa using (hn.subperm hsub).length_le

/-! ## Invariants -/

theorem Wf.step (hw : v.Wf) (hin : op.InTables) (hf : v.Fits op) (h : v.Step op v') : v'.Wf := by
  cases h with
  | add id price qty isBuy => exact hw.add hf hin.1 hin.2
  | cancelUnknown => exact hw
  | cancel ho => exact hw.remove ho
  | modifyUnknown => exact hw
  | modifyInPlace ho _ h0 hq =>
    have := hw.quantity_lt ho
    exact hw.setQuantity h0 (by omega)
  | modifyZero ho => exact hw.remove ho
  | modifyReplace ho hx hne =>
    refine (hw.remove ho).add ?_ hin.1 hin.2
    rw [crossing_remove_same hw ho]
    exact hf _ _ _ ho hx hne

theorem Uncrossed.step (hu : v.Uncrossed) (hw : v.Wf) (h : v.Step op v') : v'.Uncrossed := by
  cases h with
  | add id price qty isBuy => exact hu.add hw
  | cancelUnknown => exact hu
  | cancel ho => exact hu.mono fun _ => remove_prices_subset
  | modifyUnknown => exact hu
  | modifyInPlace ho => exact hu.mono fun _ => setQuantity_prices.subset
  | modifyZero ho => exact hu.mono fun _ => remove_prices_subset
  | modifyReplace ho => exact (hu.mono fun _ => remove_prices_subset).add (hw.remove ho)

theorem PricePos.step (hp : v.PricePos) (hw : v.Wf) (hin : op.InRange) (h : v.Step op v') :
    v'.PricePos := by
  cases h with
  | add id price qty isBuy => exact hp.add hw hin.2.1
  | cancelUnknown => exact hp
  | cancel ho => exact hp.mono fun _ => remove_prices_subset
  | modifyUnknown => exact hp
  | modifyInPlace ho => exact hp.mono fun _ => setQuantity_prices.subset
  | modifyZero ho => exact hp.mono fun _ => remove_prices_subset
  | modifyReplace ho => exact (hp.mono fun _ => remove_prices_subset).add (hw.remove ho) hin.2.1

/-- Addressable orders have unique ids. -/
theorem Addressable.eq_of_id (ha : v.Addressable) (hw : v.Slots) (ho : v.At s p o)
    (ho' : v.At s' p' o') (he : o.id = o'.id) : s = s' ∧ p = p' ∧ o = o' := by
  have h1 := ha _ _ _ ho
  rw [he, ha _ _ _ ho'] at h1
  exact hw.slot_inj ho ho' (Option.some.inj h1).symm

theorem Addressable.not_at_remove (ha : v.Addressable) (hw : v.Slots) (ho : v.At s p o) :
    ∀ s' p' o', (v.remove o.slot o.id).At s' p' o' → o'.id ≠ o.id := by
  intro s' p' o' h he
  obtain ⟨h, hne⟩ := at_remove.mp h
  obtain ⟨-, -, rfl⟩ := ha.eq_of_id hw h ho he
  exact hne rfl

theorem Addressable.step (ha : v.Addressable) (hw : v.Wf) (hfresh : v.Fresh op)
    (h : v.Step op v') : v'.Addressable := by
  cases h with
  | add id price qty isBuy => exact ha.add hw hfresh
  | cancelUnknown => exact ha
  | cancel ho => exact ha.remove ho
  | modifyUnknown => exact ha
  | modifyInPlace => exact ha.setQuantity
  | modifyZero ho => exact ha.remove ho
  | modifyReplace ho => exact (ha.remove ho).add (hw.remove ho) (ha.not_at_remove hw.toSlots ho)

/-! ## The pool and the id table have the same size -/

/-- **With unique ids a slot is free whenever an id is.** -/
theorem Addressable.free_ne_nil (ha : v.Addressable) (hw : v.Wf) (hid : id < maxOrders)
    (hfresh : ∀ s p o, v.At s p o → o.id ≠ id) : v.free ≠ [] := by
  intro hfree
  -- every slot holds an order, so `maxOrders` distinct ids rest among the ids other than `id`
  have hall : ∀ x, x < maxOrders → ∃ i, i < maxOrders ∧ i ≠ id ∧ v.byId i = some x := by
    intro x hx
    rcases (hw.cover x).mp hx with hf | ⟨s, p, o, ho, rfl⟩
    · rw [hfree] at hf
      cases hf
    · exact ⟨o.id, hw.id_lt ho, hfresh _ _ _ ho, ha _ _ _ ho⟩
  choose! f hf using hall
  have hmaps : ∀ x ∈ Finset.range maxOrders, f x ∈ (Finset.range maxOrders).erase id := by
    intro x hx
    have := hf x (Finset.mem_range.mp hx)
    exact Finset.mem_erase.mpr ⟨this.2.1, Finset.mem_range.mpr this.1⟩
  have hinj : Set.InjOn f (Finset.range maxOrders) := by
    intro x hx y hy he
    have h1 := (hf x (Finset.mem_range.mp hx)).2.2
    rw [he, (hf y (Finset.mem_range.mp hy)).2.2] at h1
    exact (Option.some.inj h1).symm
  have := Finset.card_le_card_of_injOn f hmaps hinj
  rw [Finset.card_erase_of_mem (Finset.mem_range.mpr hid), Finset.card_range] at this
  omega

end QueueBook

end MarketHandler
