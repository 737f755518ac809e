import Mathlib.Data.List.Flatten
import MarketHandler.Commute

/-!
# Price-time priority over runs

Of two orders on one side the one at the better price is ahead, and at one price the one that is
earlier in the queue (`OrderBook.Ahead`).

* `QueueBook.Ahead.trade`: filling a list of orders that has the one ahead first touches the other
  only once the one ahead is filled.
* `QueueBook.Holds.step`: the step lemma.
* `priority_kept`: **however many calls follow that name neither order, the one behind keeps its
  quantity and its place until the one ahead has left the book**. Unnamed, it leaves only by a fill:
  `cancel_order`, alone or inside `modify_order`, unlinks the order of the id it is given, and
  `match_order` one that it has taken down to zero.
-/

namespace MarketHandler

open Lib

/-! ## Pairs in a list -/

section Pairs

variable {α : Type} {a b c : α} {l : List α}

theorem pair_sublist_of_cons (h : [a, b].Sublist (c :: l)) (hne : c ≠ a) : [a, b].Sublist l := by
  rcases List.sublist_cons_iff.mp h with h | ⟨l', he, h⟩
  · exact h
  · exact absurd (List.cons.inj he).1.symm hne

/-- A list in order has the smaller of two elements first. -/
theorem pair_sublist_of_pairwise {R : α → α → Prop} (h : l.Pairwise R) (ha : a ∈ l) (hb : b ∈ l)
    (hne : a ≠ b) (hR : ¬ R b a) : [a, b].Sublist l := by
  induction l with
  | nil => cases ha
  | cons c l ih =>
    rcases List.mem_cons.mp ha with rfl | ha'
    · refine List.Sublist.cons_cons a (List.singleton_sublist.mpr ?_)
      exact List.mem_of_ne_of_mem hne.symm hb
    · rcases List.mem_cons.mp hb with rfl | hb'
      · exact absurd (List.rel_of_pairwise_cons h ha') hR
      · exact (ih h.of_cons ha' hb').cons c

end Pairs

namespace QueueBook

variable {v v' : QueueBook} {s isBuy : Bool} {p p' limit q id x i : Nat} {o o' : Resting}
  {l : List Resting} {op : Op}

theorem better_asymm (h : better isBuy p p') : ¬ better isBuy p' p := by
  cases isBuy <;> simp [better] at * <;> omega

/-! ## Being ahead -/

/-- On the side `s` the order `o` at `p` is ahead of `o'` at `p'`. -/
structure Ahead (v : QueueBook) (s : Bool) (p : Nat) (o : Resting) (p' : Nat) (o' : Resting) :
    Prop where
  at_left : v.At s p o
  at_right : v.At s p' o'
  ahead : better (!s) p p' ∨ p = p' ∧ [o, o'].Sublist (v.queue s p)

/-- The id of `o` has left the table, or what is left of `o` is ahead of `o'` as it was. -/
def Holds (v : QueueBook) (s : Bool) (p : Nat) (o : Resting) (p' : Nat) (o' : Resting) : Prop :=
  v.byId o.id = none ∨ ∃ n ≤ o.quantity, v.Ahead s p { o with quantity := n } p' o'

theorem Ahead.holds (h : v.Ahead s p o p' o') : v.Holds s p o p' o' := Or.inr ⟨_, le_refl _, h⟩

theorem Ahead.slot_ne (h : v.Ahead s p o p' o') (hv : v.Slots) : o.slot ≠ o'.slot := by
  intro he
  obtain ⟨-, hp, ho⟩ := hv.slot_inj h.at_left h.at_right he
  rcases h.ahead with hb | ⟨-, hsub⟩
  · exact better_ne hb hp
  · have hn := (hv.nodup s p).sublist (hsub.map Resting.slot)
    exact (List.nodup_cons.mp hn).1 (List.mem_singleton.mpr he)

/-- The removal of another order. -/
theorem Ahead.remove (h : v.Ahead s p o p' o') (ho : o.slot ≠ x) (ho' : o'.slot ≠ x) :
    (v.remove x i).Ahead s p o p' o' where
  at_left := at_remove.mpr ⟨h.at_left, ho⟩
  at_right := at_remove.mpr ⟨h.at_right, ho'⟩
  ahead := h.ahead.imp_right fun ⟨he, hsub⟩ => ⟨he, by
    have hfilter := hsub.filter fun o => decide (o.slot ≠ x)
    rwa [List.filter_cons_of_pos (by simpa using ho), List.filter_cons_of_pos (by simpa using ho'),
      List.filter_nil] at hfilter⟩

/-- A new quantity for any order but the one behind. -/
theorem Ahead.setQuantity (h : v.Ahead s p o p' o') (ho' : o'.slot ≠ x) :
    (v.setQuantity x q).Ahead s p (if o.slot = x then { o with quantity := q } else o) p' o' where
  at_left := at_setQuantity.mpr ⟨o, h.at_left, rfl⟩
  at_right := at_setQuantity.mpr ⟨o', h.at_right, (if_neg ho').symm⟩
  ahead := h.ahead.imp_right fun ⟨he, hsub⟩ => ⟨he, by
    have hmap := hsub.map fun o : Resting => if o.slot = x then { o with quantity := q } else o
    rwa [List.map_cons, List.map_cons, List.map_nil, if_neg ho'] at hmap⟩

/-- A new order goes behind both. -/
theorem Ahead.rest (h : v.Ahead s p o p' o') : (v.rest id limit q isBuy).Ahead s p o p' o' := by
  cases hf : v.free with
  | nil => simpa only [QueueBook.rest, hf] using h
  | cons slot free =>
    have hqueue : (v.queue s p).Sublist ((v.rest id limit q isBuy).queue s p) := by
      simp only [QueueBook.rest, hf]
      split_ifs
      · exact List.sublist_append_left _ _
      · exact List.Sublist.refl _
    exact ⟨(at_rest hf).mpr (Or.inl h.at_left), (at_rest hf).mpr (Or.inl h.at_right),
      h.ahead.imp_right (And.imp_right (·.trans hqueue))⟩

/-! ## Trading -/

theorem remove_byId_none {j : Nat} (h : v.byId i = none) : (v.remove x j).byId i = none := by
  show Function.update v.byId j none i = none
  rw [Function.update_apply, h, ite_self]

/-- An id that is not in the table does not come back by trading. -/
theorem trade_byId_none : ∀ {v : QueueBook} {l : List Resting} {q : Nat}, v.byId i = none →
    (v.trade l q).1.byId i = none
  | _, [], _, h => h
  | v, o :: l, q, h => by
    unfold QueueBook.trade
    split_ifs
    · exact h
    · exact trade_byId_none (remove_byId_none h)
    · exact h

/-- **The order ahead is filled first.** -/
theorem Ahead.trade (h : v.Ahead s p o p' o') (hw : v.Wf) (hl : v.Lists l)
    (hfirst : o' ∈ l → [o, o'].Sublist l) : (v.trade l q).1.Holds s p o p' o' := by
  induction l generalizing v q with
  | nil => exact h.holds
  | cons a l ih =>
    obtain ⟨s₁, p₁, ha⟩ := hl.head
    have hslots := h.slot_ne hw.toSlots
    -- the head is not the order behind, since that has the one ahead before it
    have hbehind : o'.slot ≠ a.slot := by
      intro he
      obtain ⟨-, -, rfl⟩ := hw.slot_inj h.at_right ha he
      have hsub := pair_sublist_of_cons (hfirst List.mem_cons_self)
        fun he => hslots (congrArg Resting.slot he).symm
      have hmem : o' ∈ l := hsub.subset (List.mem_cons_of_mem _ (List.mem_singleton.mpr rfl))
      exact (List.nodup_cons.mp hl.2).1 (List.mem_map_of_mem hmem)
    unfold QueueBook.trade
    split_ifs with h0 hle
    · exact h.holds
    · by_cases he : o.slot = a.slot
      · obtain ⟨-, -, rfl⟩ := hw.slot_inj h.at_left ha he
        exact Or.inl (trade_byId_none (Function.update_self ..))
      · refine ih (h.remove he hbehind) (hw.remove ha) hl.tail fun hmem => ?_
        exact pair_sublist_of_cons (hfirst (List.mem_cons_of_mem _ hmem))
          fun ha => he (congrArg Resting.slot ha).symm
    · have hset := h.setQuantity (q := a.quantity - q) hbehind
      split_ifs at hset with he
      · obtain ⟨-, -, rfl⟩ := hw.slot_inj h.at_left ha he
        exact Or.inr ⟨_, Nat.sub_le _ _, hset⟩
      · exact hset.holds

/-- The crossing orders have the one ahead first. -/
theorem Ahead.crossing (h : v.Ahead s p o p' o') (hw : v.Wf) (ho' : o' ∈ v.crossing isBuy limit) :
    [o, o'].Sublist (v.crossing isBuy limit) := by
  obtain ⟨p₁, -, hcross, h₁⟩ := mem_crossing.mp ho'
  obtain ⟨rfl, rfl, -⟩ := hw.slot_inj h₁ h.at_right rfl
  have hmem : ∀ {p o}, v.At (!isBuy) p o → crosses isBuy limit p = true →
      p ∈ (priceOrder isBuy).filter (crosses isBuy limit) := fun ho hc =>
    List.mem_filter.mpr ⟨mem_priceOrder.mpr (hw.price_lt ho), hc⟩
  rw [crossing_eq]
  rcases h.ahead with hb | ⟨rfl, hsub⟩
  · rw [Bool.not_not] at hb
    have hprices : [p, p₁].Sublist ((priceOrder isBuy).filter (crosses isBuy limit)) :=
      pair_sublist_of_pairwise ((priceOrder_pairwise isBuy).sublist List.filter_sublist)
        (hmem h.at_left (crosses_of_better hb hcross)) (hmem h.at_right hcross) (better_ne hb)
        (better_asymm hb)
    refine List.Sublist.trans ?_ (hprices.flatMap (v.queue (!isBuy)))
    rw [List.flatMap_cons, List.flatMap_cons, List.flatMap_nil, List.append_nil]
    exact (List.singleton_sublist.mpr h.at_left).append (List.singleton_sublist.mpr h.at_right)
  · exact hsub.trans (List.sublist_flatten_of_mem (List.mem_map_of_mem (hmem h.at_left hcross)))

/-! ## One call -/

theorem rest_byId_none (hi : i ≠ id) (h : v.byId i = none) :
    (v.rest id p q s).byId i = none := by
  cases hf : v.free with
  | nil => simpa only [QueueBook.rest, hf] using h
  | cons slot free => simpa only [QueueBook.rest, hf, Function.update_of_ne hi] using h

theorem add_byId_none (hi : i ≠ id) (h : v.byId i = none) : (v.add id p q s).byId i = none := by
  unfold QueueBook.add
  dsimp only
  split_ifs
  · exact trade_byId_none h
  · exact rest_byId_none hi (trade_byId_none h)

/-- Only a call that names an id brings it into the table. -/
theorem Step.byId_none (h : v.Step op v') (hi : i ≠ op.orderId) (hnone : v.byId i = none) :
    v'.byId i = none := by
  cases h with
  | add id price qty isBuy => exact add_byId_none hi hnone
  | cancelUnknown => exact hnone
  | cancel => exact remove_byId_none hnone
  | modifyUnknown => exact hnone
  | modifyInPlace => exact hnone
  | modifyZero => exact remove_byId_none hnone
  | modifyReplace => exact add_byId_none hi (remove_byId_none hnone)

theorem Ahead.add (h : v.Ahead s p o p' o') (hw : v.Wf) (hid : o.id ≠ id) :
    (v.add id limit q isBuy).Holds s p o p' o' := by
  have ht : (v.trade (v.crossing isBuy limit) q).1.Holds s p o p' o' :=
    h.trade hw (hw.lists_crossing isBuy limit) (h.crossing hw)
  unfold QueueBook.add
  dsimp only
  split_ifs
  · exact ht
  · exact ht.imp (rest_byId_none hid) fun ⟨n, hn, hn'⟩ => ⟨n, hn, hn'.rest⟩

/-- A call that names neither order. -/
theorem Ahead.step (h : v.Ahead s p o p' o') (hw : v.Wf) (hid : o.id ≠ op.orderId)
    (hid' : o'.id ≠ op.orderId) (hstep : v.Step op v') : v'.Holds s p o p' o' := by
  have hslot : ∀ {s₁ p₁ s₂ p₂ o₁ o₂}, v.At s₁ p₁ o₁ → v.At s₂ p₂ o₂ → o₁.id ≠ o₂.id →
      o₁.slot ≠ o₂.slot := fun h₁ h₂ hne he =>
    hne (congrArg Resting.id (hw.slot_inj h₁ h₂ he).2.2)
  cases hstep with
  | add id price qty isBuy => exact h.add hw hid
  | cancelUnknown => exact h.holds
  | cancel h₁ => exact (h.remove (hslot h.at_left h₁ hid) (hslot h.at_right h₁ hid')).holds
  | modifyUnknown => exact h.holds
  | @modifyInPlace _ _ qty _ h₁ =>
    have hset := h.setQuantity (q := qty) (hslot h.at_right h₁ hid')
    rw [if_neg (hslot h.at_left h₁ hid)] at hset
    exact hset.holds
  | modifyZero h₁ => exact (h.remove (hslot h.at_left h₁ hid) (hslot h.at_right h₁ hid')).holds
  | modifyReplace h₁ =>
    exact (h.remove (hslot h.at_left h₁ hid) (hslot h.at_right h₁ hid')).add (hw.remove h₁) hid

/-- **The step lemma.** -/
theorem Holds.step (h : v.Holds s p o p' o') (hw : v.Wf) (hid : o.id ≠ op.orderId)
    (hid' : o'.id ≠ op.orderId) (hstep : v.Step op v') : v'.Holds s p o p' o' := by
  rcases h with hnone | ⟨n, hn, h⟩
  · exact Or.inl (hstep.byId_none hid hnone)
  · rcases h.step hw hid hid' hstep with hnone | ⟨m, hm, h'⟩
    · exact Or.inl hnone
    · exact Or.inr ⟨m, hm.trans hn, h'⟩

end QueueBook

/-! ## The book -/

/-- The order in slot `x` is ahead of the one in slot `y`: on one side, at a better price, or
earlier in the queue of one level. -/
def OrderBook.Ahead (b : OrderBook) (x y : Nat) : Prop :=
  ∃ isBuy p p' l l', b.Queue isBuy p l ∧ b.Queue isBuy p' l' ∧ x ∈ l ∧ y ∈ l' ∧
    (QueueBook.better (!isBuy) p p' ∨ p = p' ∧ [x, y].Sublist l)

variable {b b' : OrderBook} {v : QueueBook} {s : Bool} {p p' x y : Nat} {o o' : Resting}
  {ops ops' : List Op}

theorem Rep.ahead (h : Rep b v) (ha : v.Ahead s p o p' o') : b.Ahead o.slot o'.slot :=
  ⟨s, p, p', _, _, h.queue_iff.mpr rfl, h.queue_iff.mpr rfl, List.mem_map_of_mem ha.at_left,
    List.mem_map_of_mem ha.at_right, ha.ahead.imp_right fun ⟨he, hsub⟩ => ⟨he, hsub.map _⟩⟩

theorem Rep.of_ahead (h : Rep b v) (hw : v.Wf) (ha : b.Ahead x y) :
    ∃ s p o p' o', v.Ahead s p o p' o' ∧ o.slot = x ∧ o'.slot = y := by
  obtain ⟨s, p, p', l, l', hl, hl', hx, hy, hahead⟩ := ha
  obtain rfl := h.queue_iff.mp hl
  obtain rfl := h.queue_iff.mp hl'
  obtain ⟨o, ho, rfl⟩ := List.mem_map.mp hx
  obtain ⟨o', ho', rfl⟩ := List.mem_map.mp hy
  refine ⟨s, p, o, p', o', ⟨ho, ho', hahead.imp_right fun ⟨he, hsub⟩ => ⟨he, ?_⟩⟩, rfl, rfl⟩
  obtain ⟨m, hm, hslots⟩ := List.sublist_map_iff.mp hsub
  obtain ⟨o₁, m, rfl, h₁, hslots⟩ := List.map_eq_cons_iff.mp hslots.symm
  obtain ⟨o₂, m, rfl, h₂, hnil⟩ := List.map_eq_cons_iff.mp hslots
  obtain rfl := List.map_eq_nil_iff.mp hnil
  have hat₁ : v.At s p o₁ := hm.subset List.mem_cons_self
  have hat₂ : v.At s p o₂ := hm.subset (List.mem_cons_of_mem _ List.mem_cons_self)
  obtain ⟨-, -, rfl⟩ := hw.slot_inj hat₁ ho h₁
  obtain ⟨-, -, rfl⟩ := hw.slot_inj hat₂ ho' h₂
  exact hm

/-- **Price-time priority, over every run.** After any further allowed calls that name neither of
two orders, one ahead of the other, the one ahead has left the book, or both rest where they did:
the one ahead with no more than its quantity, the one behind with all of it, and still behind. That
no call names the one ahead makes its leaving a fill: only `match_order` takes it out. -/
theorem priority_kept (h : OrderBook.Reaches OrderBook.Allowed ops b) (hahead : b.Ahead x y)
    (h' : Run (fun b op b' => b.Allowed op ∧ b.Calls op b') b ops' b')
    (hops : ∀ op ∈ ops', op.orderId ≠ (b.entry x).id ∧ op.orderId ≠ (b.entry y).id) :
    b'.orderMap (b.entry x).id = none ∨
      (b'.orderMap (b.entry x).id = some x ∧ b'.orderMap (b.entry y).id = some y ∧ b'.Ahead x y ∧
        b'.entry y = b.entry y ∧
        ∃ n, 0 < n ∧ n ≤ (b.entry x).quantity ∧ b'.entry x = { b.entry x with quantity := n }) := by
  obtain ⟨v, hrep, hw, ha⟩ := h.rep_allowed
  obtain ⟨s, p, o, p', o', hv, rfl, rfl⟩ := hrep.of_ahead hw hahead
  have he : b.entry o.slot = o.entry s p := hrep.entry_eq hv.at_left
  have he' : b.entry o'.slot = o'.entry s p' := hrep.entry_eq hv.at_right
  rw [he, he'] at hops ⊢
  obtain ⟨v', hrep', hw', ha', hholds⟩ : ∃ v', Rep b' v' ∧ v'.Wf ∧ v'.Addressable ∧
      ((∀ op ∈ ops', op.orderId ≠ o.id ∧ op.orderId ≠ o'.id) → v'.Holds s p o p' o') := by
    refine h'.simulation (R := fun ops b v => Rep b v ∧ v.Wf ∧ v.Addressable ∧
      ((∀ op ∈ ops, op.orderId ≠ o.id ∧ op.orderId ≠ o'.id) → v.Holds s p o p' o'))
      ⟨hrep, hw, ha, fun _ => hv.holds⟩ ?_
    rintro ops b v op b' ⟨hrep, hw, ha, hholds⟩ ⟨hop, hc⟩
    have hin := hop.1.1.inTables
    have hfit := QueueBook.fits_of_smallQuantity (v := v) hop.1.2
    obtain ⟨v', hstep, hrep'⟩ := hrep.calls hw hin hfit hc
    refine ⟨v', hrep', hw.step hin hfit hstep, ha.step hw (hrep.fresh hop.2) hstep, fun hids => ?_⟩
    obtain ⟨hbefore, hop⟩ := List.forall_mem_append.mp hids
    obtain ⟨hid, hid'⟩ := hop op (List.mem_singleton.mpr rfl)
    exact (hholds hbefore).step hw hid.symm hid'.symm hstep
  rw [hrep'.map]
  rcases hholds hops with hnone | ⟨n, hn, hv'⟩
  · exact Or.inl hnone
  · have hmap := ha' _ _ _ hv'.at_left
    have hahead' := hrep'.ahead hv'
    have hpos := hw'.quantity_pos hv'.at_left
    have hentry := hrep'.entry_eq hv'.at_left
    exact Or.inr ⟨hmap, ha' _ _ _ hv'.at_right, hahead', hrep'.entry_eq hv'.at_right, n, hpos, hn,
      hentry⟩

/-- Two bids at one price; a sell takes part of the first, then a third bid joins them. -/
theorem priority_kept_run : ∃ b b' x y, OrderBook.Reaches OrderBook.Allowed
      [.add 1 101 5 true, .add 2 101 4 true] b ∧ b.Ahead x y ∧
    OrderBook.Reaches OrderBook.Allowed ([.add 1 101 5 true, .add 2 101 4 true] ++
      [.add 3 100 3 false, .add 4 101 2 true]) b' ∧ b'.Ahead x y ∧
    b'.entry y = ⟨2, true, 101, 4⟩ := by
  have hallows : RefBook.Allows [] ([.add 1 101 5 true, .add 2 101 4 true] ++
    [.add 3 100 3 false, .add 4 101 2 true]) := by decide +kernel
  have hbefore : RefBook.run [.add 1 101 5 true, .add 2 101 4 true] =
    [⟨1, true, 101, 5⟩, ⟨2, true, 101, 4⟩] := by decide +kernel
  have hafter : (RefBook.run ([.add 1 101 5 true, .add 2 101 4 true] ++
    [.add 3 100 3 false, .add 4 101 2 true])).find? (·.id = 1) = some ⟨1, true, 101, 2⟩ := by
    decide +kernel
  obtain ⟨b', hb'⟩ := hallows.reaches
  obtain ⟨b, hb, hrest⟩ := Run.split hb'
  obtain ⟨v, hrep, hw, ha, habs⟩ := OrderBook.Reaches.abs hb
  obtain ⟨v', hrep', hw', ha', habs'⟩ := OrderBook.Reaches.abs hb'
  rw [hbefore] at habs
  have hlevel : (v.queue true 101).map (Resting.entry · true 101) =
    [⟨1, true, 101, 5⟩, ⟨2, true, 101, 4⟩] := habs true 101
  obtain ⟨o, l, hqueue, ho, hl⟩ := List.map_eq_cons_iff.mp hlevel
  obtain ⟨o', l, rfl, ho', hl⟩ := List.map_eq_cons_iff.mp hl
  obtain rfl := List.map_eq_nil_iff.mp hl
  have hv : v.Ahead true 101 o 101 o' :=
    ⟨by simp [QueueBook.At, hqueue], by simp [QueueBook.At, hqueue],
      Or.inr ⟨rfl, hqueue ▸ List.Sublist.refl _⟩⟩
  have he : b.entry o.slot = ⟨1, true, 101, 5⟩ := (hrep.entry_eq hv.at_left).trans ho
  have he' : b.entry o'.slot = ⟨2, true, 101, 4⟩ := (hrep.entry_eq hv.at_right).trans ho'
  have hmap := (hrep'.abstracts hw' ha' habs').map 1
  rw [hafter] at hmap
  rcases priority_kept hb (hrep.ahead hv) hrest (by rw [he, he']; decide) with hnone | hkept
  · rw [he] at hnone
    rw [hnone] at hmap
    cases hmap
  · obtain ⟨-, -, hahead, hbehind, -⟩ := hkept
    exact ⟨b, b', _, _, hb, hrep.ahead hv, hb', hahead, hbehind.trans he'⟩

end MarketHandler
