import MarketHandler.Determined
import MarketHandler.Invariants

/-!
# Add, then cancel

An `add_order` followed by a `cancel_order` of the same fresh id is an immediate-or-cancel match:
what rests is taken out again, whatever the add has traded.

* `QueueBook.rest_remove`: resting an order and removing it gives back the queues, the free list and
  the id table.
* `QueueBook.cancel_add`: on queues the two calls leave what matching alone leaves.
* `add_cancel`: **the two calls leave the book that `match_order` alone leaves**, and the book itself
  when nothing crosses.
-/

namespace MarketHandler

open Lib

variable {b b' : OrderBook} {v v₁ v₂ : QueueBook} {s isBuy : Bool} {p q id x : Nat} {free : List Nat}
  {ops : List Op}

namespace QueueBook

theorem byId_eq_none (hw : v.Wf) (hid : ∀ s p o, v.At s p o → o.id ≠ id) : v.byId id = none := by
  cases hx : v.byId id with
  | none => rfl
  | some x =>
    obtain ⟨s, p, o, ho, -, he⟩ := hw.byId_sound hx
    exact absurd he (hid s p o ho)

/-- **Resting an order and removing it changes nothing.** -/
theorem rest_remove (hv : v.Slots) (hf : v.free = x :: free) (hid : v.byId id = none) :
    (v.rest id p q s).remove x id = v := by
  have hold : ∀ s' p', (v.queue s' p').filter (·.slot ≠ x) = v.queue s' p' := by
    refine fun s' p' => List.filter_eq_self.mpr fun o ho => decide_eq_true fun he => ?_
    exact hv.free_disjoint ho (by rw [hf, he]; exact List.mem_cons_self)
  have hqueue : ((v.rest id p q s).remove x id).queue = v.queue := by
    funext s' p'
    simp only [remove, rest, hf]
    split_ifs
    · rw [List.filter_append, hold, List.filter_cons_of_neg (by simp), List.filter_nil,
        List.append_nil]
    · exact hold s' p'
  have hfree : ((v.rest id p q s).remove x id).free = v.free := by
    simp only [remove, rest, hf]
  have hbyId : ((v.rest id p q s).remove x id).byId = v.byId := by
    simp only [remove, rest, hf, Function.update_idem]
    rw [← hid, Function.update_eq_self]
  exact QueueBook.ext hqueue hfree hbyId

/-- **Cancelling what was added** leaves what matching leaves. -/
theorem cancel_add (hw : v.Wf) (ha : v.Addressable) (hid : id < maxOrders)
    (hfresh : ∀ s p o, v.At s p o → o.id ≠ id)
    (hstep : (v.add id p q isBuy).Step (.cancel id) v₂) :
    v₂ = (v.trade (v.crossing isBuy p) q).1 := by
  have hl := hw.lists_crossing isBuy p
  have hw₁ := hw.trade (q := q) hl
  have hfresh₁ := trade_ids (q := q) hw hl hfresh
  have hnone := byId_eq_none hw₁ hfresh₁
  obtain ⟨x, free, hf⟩ :=
    List.exists_cons_of_ne_nil ((ha.trade (q := q) hw hl).free_ne_nil hw₁ hid hfresh₁)
  unfold add at hstep
  set w := v.trade (v.crossing isBuy p) q
  by_cases h0 : w.2 = 0
  · rw [if_pos h0] at hstep
    cases hstep with
    | cancelUnknown => rfl
    | cancel ho => exact absurd rfl (hfresh₁ _ _ _ ho)
  · rw [if_neg h0] at hstep
    cases hstep with
    | cancelUnknown hx =>
      simp only [rest, hf, Function.update_self] at hx
      cases hx
    | cancel ho =>
      rcases (at_rest hf).mp ho with ho | ⟨-, -, ho⟩
      · exact absurd rfl (hfresh₁ _ _ _ ho)
      · rw [show _ = x from congrArg Resting.slot ho]
        exact rest_remove hw₁.toSlots hf hnone

end QueueBook

/-- Where the crossing test fails no order crosses. -/
theorem Rep.crossing_eq_nil (h : Rep b v) (hno : b.isMatch p isBuy = false) :
    v.crossing isBuy p = [] := by
  refine QueueBook.crossing_eq_nil_iff.mpr ?_
  by_contra hne
  rw [isMatch_of_crossing h.bbo hne] at hno
  cases hno

/-- **Add followed by cancel is an immediate-or-cancel match**: for an add of a fresh id both calls
return, and they leave the levels, links, totals, bitmaps, id table, best prices and free slots that
`match_order` alone leaves; those of the book itself when the order does not cross. -/
theorem add_cancel (h : OrderBook.Reaches OrderBook.Allowed ops b)
    (hop : b.Allowed (.add id p q isBuy)) :
    (∃ b₁ b₂, b.Calls (.add id p q isBuy) b₁ ∧ b₁.Calls (.cancel id) b₂) ∧
      ∀ b₁ b₂, b.Calls (.add id p q isBuy) b₁ → b₁.Calls (.cancel id) b₂ →
        (∃ fuel bm rem, b.matchOrder sub64 fuel p q isBuy = .ok (bm, rem) ∧ bm.Agrees b₂) ∧
        (b.isMatch p isBuy = false → b.Agrees b₂) := by
  obtain ⟨v, hrep, hw, ha⟩ := h.rep_allowed
  obtain ⟨hvalid, hfresh⟩ := hop
  have hfresh := hrep.fresh hfresh
  have hfit := QueueBook.fits_of_smallQuantity (v := v) hvalid.2
  have hcancel : (Op.cancel id).Valid := ⟨hvalid.1.1, trivial⟩
  constructor
  · obtain ⟨b₁, hb₁⟩ := hrep.exists_calls hw hvalid
    obtain ⟨v₁, hstep, hrep₁⟩ := hrep.calls hw hvalid.1.inTables hfit hb₁
    obtain ⟨b₂, hb₂⟩ := hrep₁.exists_calls (hw.step hvalid.1.inTables hfit hstep) hcancel
    exact ⟨b₁, b₂, hb₁, hb₂⟩
  intro b₁ b₂ hadd hcan
  obtain ⟨v₁, hstep₁, hrep₁⟩ := hrep.calls hw hvalid.1.inTables hfit hadd
  have hw₁ := hw.step hvalid.1.inTables hfit hstep₁
  obtain ⟨v₂, hstep₂, hrep₂⟩ := hrep₁.calls hw₁ hcancel.1.inTables trivial hcan
  cases hstep₁
  obtain rfl := QueueBook.cancel_add hw ha hvalid.1.1 hfresh hstep₂
  have hw₂ := hw.trade (q := q) (hw.lists_crossing isBuy p)
  constructor
  · obtain ⟨fuel, bm, hbm, hrepm⟩ :=
      matchOrder_returns hrep hw (.of_pos hvalid.1.2.1) hvalid.1.2.2
    exact ⟨fuel, bm, _, hbm, hrepm.agrees hrep₂ hw₂.toSlots⟩
  · intro hno
    rw [hrep.crossing_eq_nil hno] at hrep₂
    exact hrep.agrees hrep₂ hw.toSlots

/-- An order that sweeps the ask at 100 and rests at 101. -/
theorem add_cancel_sweep : ∃ b b₁ b₂, OrderBook.Reaches OrderBook.Allowed [.add 1 100 5 false] b ∧
    b.Calls (.add 2 101 8 true) b₁ ∧ b₁.Calls (.cancel 2) b₂ ∧
    ∃ fuel bm rem, b.matchOrder sub64 fuel 101 8 true = .ok (bm, rem) ∧ bm.Agrees b₂ := by
  have hallows : RefBook.Allows [] [.add 1 100 5 false] := by decide +kernel
  obtain ⟨b, hb⟩ := hallows.reaches
  have hfresh : (RefBook.run [.add 1 100 5 false]).Fresh (.add 2 101 8 true) := by decide +kernel
  have hvalid : (Op.add 2 101 8 true).Valid := by decide
  obtain ⟨⟨b₁, b₂, h₁, h₂⟩, hall⟩ := add_cancel hb ⟨hvalid, hb.fresh_iff.mpr hfresh⟩
  exact ⟨b, b₁, b₂, hb, h₁, h₂, (hall b₁ b₂ h₁ h₂).1⟩

end MarketHandler
