import MarketHandler.Determined
import MarketHandler.Truncation

/-!
# `modify_order`: in place, or cancel and add

`modify_order` lowers a quantity in place and replaces the order otherwise. Where it works in place,
cancelling the order and adding it again would lead to the same book but for the order's place in its
queue, because the book is uncrossed and the add finds nothing to trade.

* `QueueBook.at_replace`: the same orders rest either way.
* `Rep.sameOrders`: the id table's entries, the totals, the bitmaps and the best prices are
  determined by which orders rest, in whatever sequence.
* `Rep.modify_agrees`, `Rep.modify_stores`: one modify in place, and one that replaces.
* `modify_in_place`: **the two ways agree except for queue priority**, and a replacing modify rests
  what its match leaves.
-/

namespace MarketHandler

open Lib

namespace QueueBook

variable {v w : QueueBook} {s s' : Bool} {p p' q : Nat} {o o' : Resting}

/-- **The same orders rest** whether a quantity is written in place or the order is removed and rests
again. -/
theorem at_replace (hv : v.Slots) (ho : v.At s p o) :
    ((v.remove o.slot o.id).rest o.id p q s).At s' p' o' ↔
      (v.setQuantity o.slot q).At s' p' o' := by
  have hf : (v.remove o.slot o.id).free = o.slot :: v.free := rfl
  rw [at_rest hf, at_remove, at_setQuantity]
  constructor
  · rintro (⟨h, hne⟩ | ⟨rfl, rfl, rfl⟩)
    · exact ⟨o', h, by rw [if_neg hne]⟩
    · exact ⟨o, ho, by rw [if_pos rfl]⟩
  · rintro ⟨o₁, h₁, rfl⟩
    split_ifs with he
    · obtain ⟨rfl, rfl, rfl⟩ := hv.slot_inj h₁ ho he
      exact Or.inr ⟨rfl, rfl, rfl⟩
    · exact Or.inl ⟨h₁, he⟩

theorem byId_replace (hx : v.byId o.id = some o.slot) :
    ((v.remove o.slot o.id).rest o.id p q s).byId = v.byId := by
  simp only [rest, remove, Function.update_idem]
  rw [← hx, Function.update_eq_self]

/-- An add that finds no crossing price rests at once. -/
theorem add_of_not_crossing {id : Nat} (h : v.crossingPrices s p = []) :
    v.add id p q s = if q = 0 then v else v.rest id p q s := by
  unfold add
  rw [crossing_eq_nil_iff.mpr h]
  rfl

/-- A level's total depends on which orders rest in it only. -/
theorem total_eq_of_at (hv : v.Slots) (hw : w.Slots) (h : ∀ o, v.At s p o ↔ w.At s p o) :
    total (v.queue s p) = total (w.queue s p) := by
  have hperm : (v.queue s p).Perm (w.queue s p) :=
    (List.perm_ext_iff_of_nodup (hv.nodup s p).of_map (hw.nodup s p).of_map).mpr h
  exact (hperm.map Resting.quantity).sum_eq

theorem slots_remove {x i : Nat} :
    slots ((v.remove x i).queue s p) = (slots (v.queue s p)).filter (· ≠ x) := by
  rw [slots, List.filter_map]
  rfl

end QueueBook

/-- The books give the same entry for every id, and have the same totals, bitmaps and best prices. -/
structure OrderBook.SameOrders (b b' : OrderBook) : Prop where
  entry : ∀ id, (b.orderMap id).map b.entry = (b'.orderMap id).map b'.entry
  total : ∀ s p, (b.side s p).totalQuantity = (b'.side s p).totalQuantity
  bits : ∀ s, b.bits s = b'.bits s
  bestBid : b.bestBid = b'.bestBid
  bestAsk : b.bestAsk = b'.bestAsk

/-- Modifying the order in slot `x` to the quantity `q` in place leads from `b` to `b₁`, replacing it
to `b₂`: every other order keeps its entry, every queue its order, and a replaced order goes to the
tail of its own queue. -/
structure OrderBook.Reprioritises (b : OrderBook) (x q : Nat) (b₁ b₂ : OrderBook) : Prop where
  others : ∀ y, b.Rests y → y ≠ x → b₁.entry y = b.entry y ∧ b₂.entry y = b.entry y
  inPlace : ∀ s p l, b.Queue s p l → b₁.Queue s p (if q = 0 then l.filter (· ≠ x) else l)
  replaced : ∀ s p l, b.Queue s p l → b₂.Queue s p (l.filter (· ≠ x) ++
    if q ≠ 0 ∧ s = (b.entry x).isBuy ∧ p = (b.entry x).price then [x] else [])

variable {b b₁ b₂ : OrderBook} {v v₁ v₂ : QueueBook} {s isBuy : Bool} {p q id x price qty : Nat}
  {o : Resting} {ops : List Op}

/-- **Which orders rest determines** the id table's entries, the totals, the bitmaps and the best
prices. -/
theorem Rep.sameOrders (h₁ : Rep b₁ v₁) (h₂ : Rep b₂ v₂) (hw₁ : v₁.Wf) (hv₂ : v₂.Slots)
    (hat : ∀ s p o, v₁.At s p o ↔ v₂.At s p o) (hid : v₁.byId = v₂.byId) : b₁.SameOrders b₂ := by
  have hprices : ∀ s, v₁.prices s = v₂.prices s := by
    intro s
    ext p
    rw [QueueBook.mem_prices, QueueBook.mem_prices]
    exact exists_congr (hat s p)
  refine ⟨fun id => ?_, fun s p => ?_, fun s => h₁.bits_eq h₂ (hprices s),
    h₁.bestBid_eq h₂ (hprices true), h₁.bestAsk_eq h₂ (hprices false)⟩
  · rw [h₁.map, h₂.map, ← hid]
    cases hx : v₁.byId id with
    | none => rfl
    | some x =>
      obtain ⟨s, p, o, ho, rfl, -⟩ := hw₁.byId_sound hx
      rw [Option.map_some, Option.map_some, h₁.entry_eq ho, h₂.entry_eq ((hat s p o).mp ho)]
  · rw [(h₁.level s p).total_eq, (h₂.level s p).total_eq]
    exact QueueBook.total_eq_of_at hw₁.toSlots hv₂ (hat s p)

/-- An order that the step neither removes nor changes keeps its entry. -/
theorem Rep.entry_congr (h₁ : Rep b₁ v₁) (h₂ : Rep b₂ v₂) (h : v₁.At s p o) (h' : v₂.At s p o) :
    b₁.entry o.slot = b₂.entry o.slot := by
  rw [h₁.entry_eq h, h₂.entry_eq h']

/-- `modify_order` at the order's own price, to a quantity not above its own. -/
theorem Rep.modify_inPlace (h : Rep b v) (hw : v.Wf) (ho : v.At s p o)
    (hx : v.byId o.id = some o.slot) (hq : q ≤ o.quantity) :
    ∃ b', b.Calls (.modify o.id p q) b' ∧
      Rep b' (if q = 0 then v.remove o.slot o.id else v.setQuantity o.slot q) := by
  split_ifs with h0
  · obtain ⟨b', hb', hrep'⟩ := cancelOrder_spec h hw ho hx
    subst h0
    exact ⟨b', ⟨0, (modifyOrder_zero h hw ho hx sub64 0).trans (hb' sub64 exact_sub64)⟩, hrep'⟩
  · obtain ⟨b', hb', hrep'⟩ := modifyOrder_inPlace h hw ho hx (Nat.pos_of_ne_zero h0) hq
    exact ⟨b', ⟨0, hb' sub64 0 exact_sub64⟩, hrep'⟩

/-- What the two ways leave of the queues. -/
theorem Rep.reprioritises (h : Rep b v) (ho : v.At s p o)
    (h₁ : Rep b₁ (if q = 0 then v.remove o.slot o.id else v.setQuantity o.slot q))
    (h₂ : Rep b₂ (if q = 0 then v.remove o.slot o.id else
      (v.remove o.slot o.id).rest o.id p q s)) : b.Reprioritises o.slot q b₁ b₂ := by
  have hf : (v.remove o.slot o.id).free = o.slot :: v.free := rfl
  have hother : ∀ {s' p' o'}, v.At s' p' o' → o'.slot ≠ o.slot →
      (v.remove o.slot o.id).At s' p' o' := fun ho' hne => QueueBook.at_remove.mpr ⟨ho', hne⟩
  refine ⟨fun y hy hne => ?_, fun s' p' l hl => ?_, fun s' p' l hl => ?_⟩
  · obtain ⟨s', p', o', ho', rfl⟩ := h.rests_iff.mp hy
    constructor
    · refine h₁.entry_congr h ?_ ho'
      split_ifs
      · exact hother ho' hne
      · exact QueueBook.at_setQuantity.mpr ⟨o', ho', by rw [if_neg hne]⟩
    · refine h₂.entry_congr h ?_ ho'
      split_ifs
      · exact hother ho' hne
      · exact (QueueBook.at_rest hf).mpr (Or.inl (hother ho' hne))
  · obtain rfl := h.queue_iff.mp hl
    rw [h₁.queue_iff]
    split_ifs
    · exact QueueBook.slots_remove.symm
    · exact QueueBook.slots_setQuantity.symm
  · obtain rfl := h.queue_iff.mp hl
    rw [h₂.queue_iff, h.entry_eq ho]
    by_cases h0 : q = 0
    · rw [if_pos h0, if_neg fun hn => hn.1 h0, List.append_nil]
      exact QueueBook.slots_remove.symm
    · rw [if_neg h0, ← QueueBook.slots_remove (i := o.id)]
      simp only [QueueBook.rest, hf, Resting.entry, ne_eq, h0, not_false_eq_true, true_and]
      split_ifs
      · rw [slots, slots, List.map_append]
        rfl
      · rw [List.append_nil]

/-- The two ways to lower an order's quantity: an uncrossed book has nothing that the add after the
cancel could trade with. -/
theorem Rep.modify_agrees (h : Rep b v) (hw : v.Wf) (hu : v.Uncrossed) (ho : v.At s p o)
    (hpos : 0 < p) (hx : v.byId o.id = some o.slot) (hq : q ≤ o.quantity) :
    ∃ b₁ bc b₂, b.Calls (.modify o.id p q) b₁ ∧ b.Calls (.cancel o.id) bc ∧
      bc.Calls (.add o.id p q s) b₂ ∧ (∃ fuel, bc.matchOrder sub64 fuel p q s = .ok (bc, q)) ∧
      b₁.SameOrders b₂ ∧ b.Reprioritises o.slot q b₁ b₂ := by
  have hlt := hw.price_lt ho
  have hq31 := hw.quantity_lt ho
  have hwc := hw.remove ho
  obtain ⟨bc, hbc, hrepc⟩ := cancelOrder_spec h hw ho hx
  -- the book without the order is uncrossed at its price
  have hps : (v.remove o.slot o.id).crossingPrices s p = [] :=
    QueueBook.crossingPrices_eq_nil fun p' hp' =>
      hu.not_crosses ho (QueueBook.remove_prices_subset hp')
  have hend : (v.remove o.slot o.id).Ends s p q := .of_pos hpos
  obtain ⟨b₁, hb₁, hrep₁⟩ := h.modify_inPlace hw ho hx hq
  obtain ⟨b₂, hb₂, hrep₂⟩ := add_returns (q := q) hrepc hwc (hw.id_lt ho) hend hlt (by omega)
  rw [QueueBook.add_of_not_crossing hps] at hrep₂
  refine ⟨b₁, bc, b₂, hb₁, ⟨0, hbc sub64 exact_sub64⟩, hb₂.calls,
    ⟨1, matchLoop_none hrepc hwc hlt hend hps sub64 0⟩, ?_, h.reprioritises ho hrep₁ hrep₂⟩
  by_cases h0 : q = 0
  · rw [if_pos h0] at hrep₁ hrep₂
    exact hrep₁.sameOrders hrep₂ hwc hwc.toSlots (fun _ _ _ => Iff.rfl) rfl
  · rw [if_neg h0] at hrep₁ hrep₂
    exact hrep₁.sameOrders hrep₂ (hw.setQuantity (by omega) (by omega)) hwc.toSlots.rest
      (fun _ _ _ => (QueueBook.at_replace hw.toSlots ho).symm) (QueueBook.byId_replace hx).symm

/-- A replacing modify matches and rests what is left. -/
theorem Rep.modify_stores (h : Rep b v) (hw : v.Wf) (ha : v.Addressable) (ho : v.At s p o)
    (hvalid : (Op.modify o.id price q).Valid) (hne : price ≠ p ∨ o.quantity < q) :
    ∃ bc b', b.Calls (.cancel o.id) bc ∧ b.Calls (.modify o.id price q) b' ∧
      (∃ fuel r, bc.matchOrder sub64 fuel price q s = .ok r) ∧
      bc.StoresRemainder o.id price q s b' := by
  have hmap := ha _ _ _ ho
  have hfit := QueueBook.fits_of_smallQuantity (v := v) hvalid.2
  obtain ⟨-, h1, hp⟩ := hvalid.1
  obtain ⟨bc, hbc, hrepc⟩ := cancelOrder_spec h hw ho hmap
  obtain ⟨b', hb'⟩ := h.exists_calls hw hvalid
  obtain ⟨v', hstep, hrep'⟩ := h.calls hw hvalid.1.inTables hfit hb'
  have hstores := h.stores hw ha hvalid.1 trivial hstep hrep'
  obtain ⟨-, hprice, hquant, hbuy⟩ := h.fields ho
  have hrests := hstores o.slot bc (by rw [h.map, hmap]) (by rwa [hprice, hquant])
    (hbc sub64 exact_sub64)
  rw [hbuy] at hrests
  obtain ⟨fuel, bm, hbm, -⟩ :=
    matchOrder_returns hrepc (hw.remove ho) (.of_pos h1 : QueueBook.Ends _ s price q) hp
  exact ⟨bc, b', ⟨0, hbc sub64 exact_sub64⟩, hb', ⟨fuel, _, hbm⟩, hrests⟩

/-- **`modify_order` in place agrees with cancel and add except for queue priority.** For a resting
order and a quantity not above its own, at its own price: the add after the cancel trades nothing,
and both ways give every id the same entry, and the same totals, bitmaps and best prices; in place
every queue keeps its order, while the replaced order goes to the tail. For every other price or
quantity, what the match leaves of the quantity rests under the order's id and side at the new
price. -/
theorem modify_in_place (h : OrderBook.Reaches OrderBook.Allowed ops b) (hx : b.Rests x)
    (he : b.entry x = ⟨id, isBuy, price, qty⟩) :
    (∀ q ≤ qty, ∃ b₁ bc b₂, b.Calls (.modify id price q) b₁ ∧ b.Calls (.cancel id) bc ∧
      bc.Calls (.add id price q isBuy) b₂ ∧
      (∃ fuel, bc.matchOrder sub64 fuel price q isBuy = .ok (bc, q)) ∧
      b₁.SameOrders b₂ ∧ b.Reprioritises x q b₁ b₂) ∧
    ∀ p q, 1 ≤ p → p < maxTicks → q < 2 ^ 31 → p ≠ price ∨ qty < q →
      ∃ bc b', b.Calls (.cancel id) bc ∧ b.Calls (.modify id p q) b' ∧
        (∃ fuel r, bc.matchOrder sub64 fuel p q isBuy = .ok r) ∧
        bc.StoresRemainder id p q isBuy b' := by
  obtain ⟨v, hrep, hw, ha, hu, hpos⟩ := h.rep_uncrossed
  obtain ⟨s, p₀, o, ho, rfl⟩ := hrep.rests_iff.mp hx
  rw [hrep.entry_eq ho] at he
  obtain ⟨rfl, rfl, rfl, rfl⟩ := Entry.mk.inj he
  constructor
  · exact fun q hq => hrep.modify_agrees hw hu ho (hpos _ _ _ ho) (ha _ _ _ ho) hq
  · exact fun p q h1 hp hq => hrep.modify_stores hw ha ho ⟨⟨hw.id_lt ho, h1, hp⟩, hq⟩

/-- The first of two orders of a level, lowered in place, and moved to another price. -/
theorem modify_in_place_run : ∃ b x, OrderBook.Reaches OrderBook.Allowed
    [.add 1 100 5 true, .add 2 100 7 true] b ∧ b.entry x = ⟨1, true, 100, 5⟩ ∧
    (∃ b₁ b₂, b.Calls (.modify 1 100 3) b₁ ∧ b₁.SameOrders b₂ ∧ b.Reprioritises x 3 b₁ b₂) ∧
    ∃ bc b', b.Calls (.modify 1 101 5) b' ∧ OrderBook.StoresRemainder bc 1 101 5 true b' := by
  have hallows : RefBook.Allows [] [.add 1 100 5 true, .add 2 100 7 true] := by decide +kernel
  have hmem : ⟨1, true, 100, 5⟩ ∈ RefBook.run [.add 1 100 5 true, .add 2 100 7 true] := by
    decide +kernel
  obtain ⟨b, hb⟩ := hallows.reaches
  obtain ⟨x, hx, he⟩ := hb.exists_entry hmem
  obtain ⟨hinPlace, hreplace⟩ := modify_in_place hb hx he
  obtain ⟨b₁, -, b₂, h₁, -, -, -, hsame, hqueues⟩ := hinPlace 3 (by decide)
  obtain ⟨bc, b', -, h', -, hstores⟩ :=
    hreplace 101 5 (by decide) (by decide) (by decide) (Or.inl (by decide))
  exact ⟨b, x, hb, he, ⟨b₁, b₂, h₁, hsame, hqueues⟩, bc, b', h', hstores⟩

end MarketHandler
