import MarketHandler.AddCancel
import MarketHandler.Modify

/-!
# Independent calls commute

A cancel, a modify in place and an add that crosses nothing each edit the entry of their own id and
append at most one entry. Two such calls with different ids commute, unless both append to one queue.

* `Op.edit`, `Op.tail`: what such a call does to each entry, and what it appends.
* `RefBook.apply_quiet`: so the call is one pass over the reference book.
* `RefBook.level_comm`: the levels are the same whichever call is first.
* `Reaches.sameContents`: the levels of the reference book determine the contents of the book.
* `commute`: **independent calls lead to the same contents in either order**.
-/

namespace MarketHandler

open Lib

namespace Op

/-- The id a call names. -/
def orderId : Op → Nat
  | .add id _ _ _ => id
  | .cancel id => id
  | .modify id _ _ => id

/-- Both calls add to the same side and price. -/
def SameLevel : Op → Op → Prop
  | .add _ price _ isBuy, .add _ price' _ isBuy' => isBuy = isBuy' ∧ price = price'
  | _, _ => False

/-- What a call that trades nothing does to an entry. -/
def edit : Op → Entry → Option Entry
  | .add _ _ _ _, e => some e
  | .cancel id, e => if e.id = id then none else some e
  | .modify id _ newQty, e =>
    if e.id = id then if newQty = 0 then none else some { e with quantity := newQty } else some e

/-- What a call that trades nothing appends. -/
def tail : Op → RefBook
  | .add id price qty isBuy => if qty = 0 then [] else [⟨id, isBuy, price, qty⟩]
  | .cancel _ => []
  | .modify _ _ _ => []

variable {op op' : Op} {e e' : Entry} {s : Bool} {p : Nat}

theorem SameLevel.symm (h : op.SameLevel op') : op'.SameLevel op := by
  cases op <;> cases op' <;> try exact h.elim
  exact ⟨h.1.symm, h.2.symm⟩

theorem edit_of_ne (h : e.id ≠ op.orderId) : op.edit e = some e := by
  cases op with
  | add id price qty isBuy => rfl
  | cancel id => exact if_neg h
  | modify id price qty => exact if_neg h

/-- An edited entry stays at its level, with its id. -/
theorem edit_keeps (h : op.edit e = some e') :
    e'.id = e.id ∧ e'.isBuy = e.isBuy ∧ e'.price = e.price := by
  cases op with
  | add id price qty isBuy =>
    obtain rfl := Option.some.inj h
    exact ⟨rfl, rfl, rfl⟩
  | cancel id =>
    simp only [edit] at h
    split_ifs at h
    obtain rfl := Option.some.inj h
    exact ⟨rfl, rfl, rfl⟩
  | modify id price qty =>
    simp only [edit] at h
    split_ifs at h <;> obtain rfl := Option.some.inj h <;> exact ⟨rfl, rfl, rfl⟩

/-- **Edits of different entries commute.** -/
theorem edit_comm (h : op.orderId ≠ op'.orderId) (e : Entry) :
    (op.edit e).bind op'.edit = (op'.edit e).bind op.edit := by
  have hhalf : ∀ {op op' : Op}, op.orderId ≠ op'.orderId → e.id = op.orderId →
      (op.edit e).bind op'.edit = (op'.edit e).bind op.edit := by
    intro op op' h he
    rw [edit_of_ne (show e.id ≠ op'.orderId from he ▸ h), Option.bind_some]
    cases hop : op.edit e with
    | none => rfl
    | some e' =>
      have hid := (edit_keeps hop).1
      rw [Option.bind_some, edit_of_ne (hid ▸ he ▸ h)]
  by_cases he : e.id = op.orderId
  · exact hhalf h he
  by_cases he' : e.id = op'.orderId
  · exact (hhalf (Ne.symm h) he').symm
  · rw [edit_of_ne he, edit_of_ne he', Option.bind_some, Option.bind_some, edit_of_ne he,
      edit_of_ne he']

theorem id_of_mem_tail (h : e ∈ op.tail) : e.id = op.orderId := by
  cases op with
  | add id price qty isBuy =>
    simp only [tail] at h
    split_ifs at h
    · cases h
    · rw [List.mem_singleton.mp h]
      rfl
  | cancel id => cases h
  | modify id price qty => cases h

/-- The other call leaves what a call appends. -/
theorem filterMap_tail (h : op.orderId ≠ op'.orderId) : op.tail.filterMap op'.edit = op.tail := by
  conv_rhs => rw [← List.filterMap_some (l := op.tail)]
  refine List.filterMap_congr fun e he => edit_of_ne ?_
  rw [id_of_mem_tail he]
  exact h

theorem level_of_mem_tail (h : e ∈ op.tail) (h' : e' ∈ op'.tail) (hs : e.isBuy = e'.isBuy)
    (hp : e.price = e'.price) : op.SameLevel op' := by
  cases op with
  | add id price qty isBuy =>
    cases op' with
    | add id' price' qty' isBuy' =>
      simp only [tail] at h h'
      split_ifs at h h'
      · cases h
      · cases h
      · cases h'
      · rw [List.mem_singleton] at h h'
        subst h h'
        exact ⟨hs, hp⟩
    | cancel id' => cases h'
    | modify id' price' qty' => cases h'
  | cancel id => cases h
  | modify id price qty => cases h

end Op

/-! ## The reference book -/

namespace RefBook

/-- The entries of a level. -/
def level (r : RefBook) (s : Bool) (p : Nat) : RefBook :=
  r.filter fun e => e.isBuy = s ∧ e.price = p

/-- A modify works in place, and an add finds nothing to trade with. -/
def Quiet (r : RefBook) : Op → Prop
  | .add _ price _ isBuy => r.best isBuy price = none
  | .cancel _ => True
  | .modify id newPrice newQty => ∀ e ∈ r, e.id = id → newPrice = e.price ∧ newQty ≤ e.quantity

variable {r : RefBook} {op op' : Op} {e : Entry} {s : Bool} {p : Nat}

theorem filterMap_edit_of_none (h : r.find? (·.id = op.orderId) = none) :
    r.filterMap op.edit = r := by
  conv_rhs => rw [← List.filterMap_some (l := r)]
  refine List.filterMap_congr fun e he => Op.edit_of_ne fun hid => ?_
  exact List.find?_eq_none.mp h e he (decide_eq_true hid)

theorem filterMap_cancel (r : RefBook) (id : Nat) :
    r.filterMap (Op.cancel id).edit = r.remove id := by
  rw [remove, ← List.filterMap_eq_filter]
  refine List.filterMap_congr fun e _ => ?_
  by_cases he : e.id = id
  · simp [Op.edit, Option.guard, he]
  · simp [Op.edit, Option.guard, he]

theorem filterMap_modify {id price qty : Nat} (h0 : qty ≠ 0) :
    r.filterMap (Op.modify id price qty).edit = r.setQuantity id qty := by
  rw [setQuantity, ← List.filterMap_eq_map]
  refine List.filterMap_congr fun e _ => ?_
  by_cases he : e.id = id
  · simp [Op.edit, he, h0]
  · simp [Op.edit, he]

/-- **A call that trades nothing** edits the entry of its id and appends at most one entry. -/
theorem apply_quiet (h : r.Quiet op) : r.apply op = r.filterMap op.edit ++ op.tail := by
  cases op with
  | add id price qty isBuy =>
    show r.add id price qty isBuy = r.filterMap some ++ _
    rw [List.filterMap_some]
    unfold add
    rw [trade_none h]
    by_cases h0 : qty = 0
    · rw [if_pos h0, Op.tail, if_pos h0, List.append_nil]
    · rw [if_neg h0, Op.tail, if_neg h0]
  | cancel id => exact ((List.append_nil _).trans (filterMap_cancel r id)).symm
  | modify id price qty =>
    rw [show Op.tail (.modify id price qty) = [] from rfl, List.append_nil]
    cases hf : r.find? (·.id = id) with
    | none =>
      rw [show r.filterMap (Op.edit (.modify id price qty)) = r from filterMap_edit_of_none hf]
      simp only [apply, hf]
    | some e =>
      have hid := List.find?_some hf
      have hq := h e (List.mem_of_find?_eq_some hf) (of_decide_eq_true hid)
      simp only [apply, hf, if_pos hq]
      split_ifs with h0
      · rw [h0, ← filterMap_cancel]
        rfl
      · exact (filterMap_modify h0).symm

/-- Entries with other ids were there before the call. -/
theorem mem_of_mem_apply (h : r.Quiet op) (he : e ∈ r.apply op) (hid : e.id ≠ op.orderId) :
    e ∈ r := by
  rw [apply_quiet h] at he
  rcases List.mem_append.mp he with he | he
  · obtain ⟨e₀, he₀, hedit⟩ := List.mem_filterMap.mp he
    rw [Op.edit_of_ne ((Op.edit_keeps hedit).1 ▸ hid)] at hedit
    exact Option.some.inj hedit ▸ he₀
  · exact absurd (Op.id_of_mem_tail he) hid

theorem level_filterMap (op : Op) (r : RefBook) :
    level (r.filterMap op.edit) s p = (r.level s p).filterMap op.edit := by
  unfold level
  rw [List.filter_filterMap, List.filterMap_filter]
  refine List.filterMap_congr fun e _ => ?_
  cases hedit : op.edit e with
  | none => simp
  | some e' =>
    obtain ⟨-, hs, hp⟩ := Op.edit_keeps hedit
    simp [Option.filter, hs, hp]

/-- The calls do not both append to the level. -/
theorem level_tail_comm (h : ¬ op.SameLevel op') :
    level op.tail s p ++ level op'.tail s p = level op'.tail s p ++ level op.tail s p := by
  by_cases hnil : level op.tail s p = []
  · rw [hnil, List.append_nil, List.nil_append]
  by_cases hnil' : level op'.tail s p = []
  · rw [hnil', List.append_nil, List.nil_append]
  obtain ⟨e, he⟩ := List.exists_mem_of_ne_nil _ hnil
  obtain ⟨e', he'⟩ := List.exists_mem_of_ne_nil _ hnil'
  obtain ⟨hm, hl⟩ := List.mem_filter.mp he
  obtain ⟨hm', hl'⟩ := List.mem_filter.mp he'
  have hl := of_decide_eq_true hl
  have hl' := of_decide_eq_true hl'
  exact absurd (Op.level_of_mem_tail hm hm' (hl.1.trans hl'.1.symm) (hl.2.trans hl'.2.symm)) h

/-- **The levels are the same whichever call is first.** -/
theorem level_comm (hid : op.orderId ≠ op'.orderId) (hl : ¬ op.SameLevel op') (h : r.Quiet op)
    (h' : r.Quiet op') (h₁ : (r.apply op).Quiet op') (h₂ : (r.apply op').Quiet op) :
    level ((r.apply op).apply op') s p = level ((r.apply op').apply op) s p := by
  -- both calls edit the level's entries, and the other call leaves what a call appends
  have hboth : ∀ {op op' : Op}, op.orderId ≠ op'.orderId → r.Quiet op → (r.apply op).Quiet op' →
      level ((r.apply op).apply op') s p =
        ((r.level s p).filterMap fun e => (op.edit e).bind op'.edit) ++
          (level op.tail s p ++ level op'.tail s p) := by
    intro op op' hid h h₁
    rw [apply_quiet h₁, apply_quiet h, List.filterMap_append, Op.filterMap_tail hid,
      List.filterMap_filterMap, ← List.filterMap_filterMap]
    unfold level
    rw [List.filter_append, List.filter_append, List.append_assoc]
    congr 1
    show level _ s p = _
    rw [level_filterMap, level_filterMap, List.filterMap_filterMap]
    rfl
  rw [hboth hid h h₁, hboth (Ne.symm hid) h' h₂, level_tail_comm hl]
  congr 1
  exact List.filterMap_congr fun e _ => Op.edit_comm hid e

end RefBook

/-! ## The book -/

/-- The books have the same queues, entry by entry, and give the same entry for every id, the same
totals, bitmaps and best prices. -/
structure OrderBook.SameContents (b b' : OrderBook) : Prop extends b.SameOrders b' where
  queue : ∀ s p, ∃ l l', b.Queue s p l ∧ b'.Queue s p l' ∧ l.map b.entry = l'.map b'.entry

/-- An add crosses nothing. -/
def OrderBook.CrossesNothing (b : OrderBook) : Op → Prop
  | .add _ price _ isBuy => b.isMatch price isBuy = false
  | .cancel _ => True
  | .modify _ _ _ => True

/-- A modify stays at the order's price, with a quantity not above its own. -/
def OrderBook.InPlace (b : OrderBook) : Op → Prop
  | .add _ _ _ _ => True
  | .cancel _ => True
  | .modify id newPrice newQty => ∀ order, b.orderMap id = some order →
      newPrice = (b.pool.pool order).price ∧ newQty ≤ (b.pool.pool order).quantity

/-- Both calls are allowed, name different ids and trade nothing, whichever is first; they are not
both adds to one level. -/
structure OrderBook.Independent (b : OrderBook) (op op' : Op) : Prop where
  allowed : b.Allowed op ∧ b.Allowed op'
  id_ne : op.orderId ≠ op'.orderId
  level : ¬ op.SameLevel op'
  inPlace : b.InPlace op ∧ b.InPlace op'
  crosses : b.CrossesNothing op ∧ b.CrossesNothing op'
  crosses_second : ∀ b₁, b.Calls op b₁ → b₁.CrossesNothing op'
  crosses_first : ∀ b₁, b.Calls op' b₁ → b₁.CrossesNothing op

variable {b b₁ b₂ : OrderBook} {v : QueueBook} {r : RefBook} {op op' : Op} {id p : Nat} {s : Bool}
  {e : Entry} {ops ops₁ ops₂ : List Op}

theorem OrderBook.Independent.symm (h : b.Independent op op') : b.Independent op' op where
  allowed := h.allowed.symm
  id_ne := Ne.symm h.id_ne
  level hl := h.level hl.symm
  inPlace := h.inPlace.symm
  crosses := h.crosses.symm
  crosses_second := h.crosses_first
  crosses_first := h.crosses_second

theorem Abs.find_iff (h : Abs v r) (ha : v.Addressable) (hw : v.Slots) :
    r.find? (·.id = id) = some e ↔ e ∈ r ∧ e.id = id := by
  constructor
  · intro hf
    have hid := List.find?_some hf
    exact ⟨List.mem_of_find?_eq_some hf, of_decide_eq_true hid⟩
  · rintro ⟨he, rfl⟩
    obtain ⟨s, p, o, ho, rfl⟩ := h.mem_iff.mp he
    exact h.find_some ha hw ho

theorem Abs.mem_prices (h : Abs v r) : p ∈ v.prices s ↔ r.level s p ≠ [] := by
  rw [RefBook.level, ← h s p]
  exact not_congr List.map_eq_nil_iff.symm

theorem Abs.total_eq (h : Abs v r) (s : Bool) (p : Nat) :
    total (v.queue s p) = ((r.level s p).map Entry.quantity).sum := by
  rw [RefBook.level, ← h s p, List.map_map]
  rfl

/-- **The levels of the reference book determine the contents.** -/
theorem OrderBook.Reaches.sameContents (h₁ : OrderBook.Reaches OrderBook.Allowed ops₁ b₁)
    (h₂ : OrderBook.Reaches OrderBook.Allowed ops₂ b₂)
    (hl : ∀ s p, (RefBook.run ops₁).level s p = (RefBook.run ops₂).level s p) :
    b₁.SameContents b₂ := by
  obtain ⟨v₁, hrep₁, hw₁, ha₁, hr₁⟩ := h₁.abs
  obtain ⟨v₂, hrep₂, hw₂, ha₂, hr₂⟩ := h₂.abs
  have habs₁ := hrep₁.abstracts hw₁ ha₁ hr₁
  have habs₂ := hrep₂.abstracts hw₂ ha₂ hr₂
  have hprices : ∀ s, v₁.prices s = v₂.prices s := by
    intro s
    ext p
    rw [hr₁.mem_prices, hr₂.mem_prices, hl]
  have hmem : ∀ e, e ∈ RefBook.run ops₁ ↔ e ∈ RefBook.run ops₂ := by
    intro e
    have hin : ∀ r : RefBook, e ∈ r ↔ e ∈ r.level e.isBuy e.price := by simp [RefBook.level]
    rw [hin, hl, ← hin]
  refine ⟨⟨fun id => ?_, fun s p => ?_, fun s => hrep₁.bits_eq hrep₂ (hprices s),
    hrep₁.bestBid_eq hrep₂ (hprices true), hrep₁.bestAsk_eq hrep₂ (hprices false)⟩,
    fun s p => ?_⟩
  · rw [habs₁.map, habs₂.map]
    ext e
    rw [hr₁.find_iff ha₁ hw₁.toSlots, hr₂.find_iff ha₂ hw₂.toSlots, hmem]
  · rw [(hrep₁.level s p).total_eq, (hrep₂.level s p).total_eq, hr₁.total_eq, hr₂.total_eq, hl]
  · obtain ⟨l₁, hl₁, he₁⟩ := habs₁.queue s p
    obtain ⟨l₂, hl₂, he₂⟩ := habs₂.queue s p
    exact ⟨l₁, l₂, hl₁, hl₂, he₁.trans ((hl s p).trans he₂.symm)⟩

/-- A call that trades nothing is quiet in the reference book. -/
theorem OrderBook.Reaches.quiet (h : OrderBook.Reaches OrderBook.Allowed ops b)
    (hin : b.InPlace op) (hc : b.CrossesNothing op) : (RefBook.run ops).Quiet op := by
  obtain ⟨v, hrep, hw, ha, habs⟩ := h.abs
  cases op with
  | add id price qty isBuy => exact habs.best_none hw (hrep.crossing_eq_nil hc)
  | cancel id => trivial
  | modify id price qty =>
    rintro e he rfl
    obtain ⟨s, p, o, ho, rfl⟩ := habs.mem_iff.mp he
    obtain ⟨-, hprice, hquant, -⟩ := hrep.fields ho
    have := hin o.slot (by rw [hrep.map]; exact ha _ _ _ ho)
    rwa [hprice, hquant] at this

/-- An add that is quiet in the reference book fails the code's crossing test. -/
theorem OrderBook.Reaches.crossesNothing (h : OrderBook.Reaches OrderBook.Allowed ops b)
    (hop : op.Valid) (hq : (RefBook.run ops).Quiet op) : b.CrossesNothing op := by
  obtain ⟨v, hrep, hw, -, habs⟩ := h.abs
  cases op with
  | add id price qty isBuy =>
    have hc : v.crossing isBuy price = [] := by
      cases hc : v.crossing isBuy price with
      | nil => rfl
      | cons o l =>
        obtain ⟨p, -, hbest⟩ := habs.best_some hw hc
        exact nomatch hq.symm.trans hbest
    exact not_isMatch hrep.bbo hw (Or.inr hop.1.2.1) hop.1.2.2
      (QueueBook.crossing_eq_nil_iff.mp hc)
  | cancel id => trivial
  | modify id price qty => trivial

/-- The first call leaves the second's id fresh. -/
theorem RefBook.Fresh.apply_of_ne (hf : r.Fresh op') (h : r.Quiet op)
    (hid : op.orderId ≠ op'.orderId) : (r.apply op).Fresh op' := by
  cases op' with
  | add id price qty isBuy =>
    exact fun e he heid => hf e (mem_of_mem_apply h he (heid ▸ Ne.symm hid)) heid
  | cancel id => trivial
  | modify id price qty => trivial

/-- One order of execution: the first call leaves the second allowed and quiet. -/
theorem OrderBook.Independent.then (h : OrderBook.Reaches OrderBook.Allowed ops b)
    (hi : b.Independent op op') (h₁ : b.Calls op b₁) :
    (RefBook.run ops).Quiet op ∧ ((RefBook.run ops).apply op).Quiet op' ∧
      OrderBook.Reaches OrderBook.Allowed (ops ++ [op]) b₁ ∧ b₁.Allowed op' := by
  have hreach : OrderBook.Reaches OrderBook.Allowed (ops ++ [op]) b₁ :=
    Run.snoc h ⟨hi.allowed.1, h₁⟩
  have hq := h.quiet hi.inPlace.1 hi.crosses.1
  have hq' := h.quiet hi.inPlace.2 hi.crosses.2
  have hfresh := (h.fresh_iff.mp hi.allowed.2.2).apply_of_ne hq hi.id_ne
  refine ⟨hq, ?_, hreach, hi.allowed.2.1, hreach.fresh_iff.mpr (RefBook.run_snoc ops op ▸ hfresh)⟩
  cases op' with
  | add id price qty isBuy =>
    rw [← RefBook.run_snoc]
    exact hreach.quiet trivial (hi.crosses_second b₁ h₁)
  | cancel id => trivial
  | modify id price qty =>
    have hne : id ≠ op.orderId := Ne.symm hi.id_ne
    exact fun e he heid => hq' e (RefBook.mem_of_mem_apply hq he (heid ▸ hne)) heid

/-- **Independent calls commute**: in every book that calls with fresh ids lead to, both orders of
execution return, and they lead to the same queues, totals, bitmaps, best prices and entries of the
id table. -/
theorem commute (h : OrderBook.Reaches OrderBook.Allowed ops b) (hi : b.Independent op op') :
    (∃ b₁ b₁₂, b.Calls op b₁ ∧ b₁.Calls op' b₁₂) ∧
      (∃ b₂ b₂₁, b.Calls op' b₂ ∧ b₂.Calls op b₂₁) ∧
      ∀ b₁ b₁₂ b₂ b₂₁, b.Calls op b₁ → b₁.Calls op' b₁₂ → b.Calls op' b₂ → b₂.Calls op b₂₁ →
        b₁₂.SameContents b₂₁ := by
  have hreturns : ∀ {op op'}, b.Independent op op' → ∃ b₁ b₁₂, b.Calls op b₁ ∧ b₁.Calls op' b₁₂ := by
    intro op op' hi
    obtain ⟨b₁, hb₁⟩ := h.returns hi.allowed.1.1
    obtain ⟨-, -, hreach, hallowed⟩ := hi.then h hb₁
    obtain ⟨b₁₂, hb₁₂⟩ := hreach.returns hallowed.1
    exact ⟨b₁, b₁₂, hb₁, hb₁₂⟩
  refine ⟨hreturns hi, hreturns hi.symm, fun b₁ b₁₂ b₂ b₂₁ h₁ h₁₂ h₂ h₂₁ => ?_⟩
  obtain ⟨hq, hq₁, hreach₁, hallowed₁⟩ := hi.then h h₁
  obtain ⟨hq', hq₂, hreach₂, hallowed₂⟩ := hi.symm.then h h₂
  refine OrderBook.Reaches.sameContents (Run.snoc hreach₁ ⟨hallowed₁, h₁₂⟩)
    (Run.snoc hreach₂ ⟨hallowed₂, h₂₁⟩) fun s p => ?_
  rw [RefBook.run_snoc, RefBook.run_snoc, RefBook.run_snoc, RefBook.run_snoc]
  exact RefBook.level_comm hi.id_ne hi.level hq hq' hq₁ hq₂

/-- The cancel of a level's only order, and an add that revives the level. -/
theorem commute_revive : ∃ b b₁ b₁₂ b₂ b₂₁, OrderBook.Reaches OrderBook.Allowed
    [.add 1 100 5 false, .add 2 99 7 true] b ∧ b.Calls (.cancel 1) b₁ ∧
    b₁.Calls (.add 3 100 4 false) b₁₂ ∧ b.Calls (.add 3 100 4 false) b₂ ∧
    b₂.Calls (.cancel 1) b₂₁ ∧ b₁₂.SameContents b₂₁ := by
  have hallows : RefBook.Allows [] [.add 1 100 5 false, .add 2 99 7 true] := by decide +kernel
  have hadd : (Op.add 3 100 4 false).Valid := by decide
  have hcancel : (Op.cancel 1).Valid := by decide
  have hfresh : (RefBook.run [.add 1 100 5 false, .add 2 99 7 true]).Fresh (.add 3 100 4 false) := by
    decide +kernel
  have hquiet : (RefBook.run [.add 1 100 5 false, .add 2 99 7 true]).best false 100 = none := by
    decide +kernel
  have hquiet₁ : (RefBook.run [.add 1 100 5 false, .add 2 99 7 true, .cancel 1]).best false 100 =
      none := by decide +kernel
  obtain ⟨b, hb⟩ := hallows.reaches
  have hi : b.Independent (.cancel 1) (.add 3 100 4 false) :=
    { allowed := ⟨⟨hcancel, trivial⟩, hadd, hb.fresh_iff.mpr hfresh⟩
      id_ne := by decide
      level := not_false
      inPlace := ⟨trivial, trivial⟩
      crosses := ⟨trivial, hb.crossesNothing hadd hquiet⟩
      crosses_second := fun b₁ h₁ => OrderBook.Reaches.crossesNothing
        (Run.snoc hb ⟨⟨hcancel, trivial⟩, h₁⟩) hadd hquiet₁
      crosses_first := fun _ _ => trivial }
  obtain ⟨⟨b₁, b₁₂, h₁, h₁₂⟩, ⟨b₂, b₂₁, h₂, h₂₁⟩, hsame⟩ := commute hb hi
  exact ⟨b, b₁, b₁₂, b₂, b₂₁, hb, h₁, h₁₂, h₂, h₂₁, hsame b₁ b₁₂ b₂ b₂₁ h₁ h₁₂ h₂ h₂₁⟩

end MarketHandler
