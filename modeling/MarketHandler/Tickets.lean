import MarketHandler.Invariants

/-!
# The reference book with ids reused

`add_order` does not check that an id is new, so several orders may rest under one id. The id table
then finds the last of them to arrive, and none once any of them is filled or cancelled, until the
id is used again. The reference book for such runs numbers its entries as they arrive (`Ticket`) and
keeps a table from ids to numbers.

* `TicketBook.apply`: the three calls. An entry is named by its number, never by its id.
* `TicketAbs`: each queue lists the tickets of its level, and the id table finds slots as the table
  finds numbers.
* `TicketAbs.step`: the queues follow the ticket book.
* `refines_tickets`: **the code's book refines the ticket book**, whatever ids are used.
-/

namespace MarketHandler

open Lib

/-- A resting entry, numbered in the order of arrival. -/
structure Ticket extends Entry where
  number : Nat
  deriving DecidableEq, Repr

/-- Resting tickets in arrival order, the id table, and how many tickets were issued. -/
structure TicketBook where
  tickets : List Ticket
  table : Nat → Option Nat
  issued : Nat

namespace TicketBook

def empty : TicketBook := ⟨[], fun _ => none, 0⟩

/-- The ticket leaves, and the table forgets its id. -/
def remove (r : TicketBook) (t : Ticket) : TicketBook :=
  { r with
    tickets := r.tickets.filter (·.number ≠ t.number)
    table := Function.update r.table t.id none }

/-- Change the ticket's quantity in place. -/
def setQuantity (r : TicketBook) (t : Ticket) (q : Nat) : TicketBook :=
  { r with tickets := r.tickets.map fun t' =>
      if t'.number = t.number then { t' with quantity := q } else t' }

/-- A new ticket, unless `MAX_ORDERS` rest; the table's ticket for the id is the new one. -/
def rest (r : TicketBook) (id price q : Nat) (isBuy : Bool) : TicketBook :=
  if r.tickets.length < maxOrders then
    { tickets := r.tickets ++ [⟨⟨id, isBuy, price, q⟩, r.issued⟩]
      table := Function.update r.table id (some r.issued)
      issued := r.issued + 1 }
  else r

/-- The opposing tickets whose price the limit crosses, in arrival order. -/
def crossing (r : TicketBook) (isBuy : Bool) (limit : Nat) : List Ticket :=
  r.tickets.filter fun t => t.isBuy = !isBuy ∧ (if isBuy then t.price ≤ limit else limit ≤ t.price)

/-- The crossing ticket of best price and, among equals, earliest arrival. -/
def best (r : TicketBook) (isBuy : Bool) (limit : Nat) : Option Ticket :=
  (r.crossing isBuy limit).find? fun t =>
    (r.crossing isBuy limit).all fun t' => RefBook.noWorse isBuy t.price t'.price

theorem best_mem {r : TicketBook} {isBuy : Bool} {limit : Nat} {t : Ticket}
    (h : r.best isBuy limit = some t) : t ∈ r.tickets :=
  (List.mem_filter.mp (List.mem_of_find?_eq_some h)).1

/-- While quantity remains and an opposing ticket crosses the limit, trade with the best one. -/
def trade (r : TicketBook) (isBuy : Bool) (limit qty : Nat) : TicketBook × Nat :=
  if qty = 0 then (r, 0)
  else
    match _h : r.best isBuy limit with
    | none => (r, qty)
    | some t =>
      if t.quantity ≤ qty then (r.remove t).trade isBuy limit (qty - t.quantity)
      else (r.setQuantity t (t.quantity - qty), 0)
termination_by r.tickets.length
decreasing_by
  refine List.length_filter_lt_length_iff_exists.mpr ⟨t, best_mem _h, ?_⟩
  simp

/-- Trade, then rest with what is left. -/
def add (r : TicketBook) (id price qty : Nat) (isBuy : Bool) : TicketBook :=
  let t := r.trade isBuy price qty
  if t.2 = 0 then t.1 else t.1.rest id price t.2 isBuy

/-- The ticket that the table has for the id. -/
def find (r : TicketBook) (id : Nat) : Option Ticket :=
  (r.table id).bind fun n => r.tickets.find? (·.number = n)

/-- The three calls. -/
def apply (r : TicketBook) : Op → TicketBook
  | .add id price qty isBuy => r.add id price qty isBuy
  | .cancel id =>
    match r.find id with
    | none => r
    | some t => r.remove t
  | .modify id newPrice newQty =>
    match r.find id with
    | none => r
    | some t =>
      if newPrice = t.price ∧ newQty ≤ t.quantity then
        if newQty = 0 then r.remove t else r.setQuantity t newQty
      else (r.remove t).add id newPrice newQty t.isBuy

/-- The ticket book after a sequence of calls. -/
def run (ops : List Op) : TicketBook := ops.foldl apply empty

theorem run_snoc (ops : List Op) (op : Op) : run (ops ++ [op]) = (run ops).apply op := by
  rw [run, List.foldl_append]
  rfl

variable {r : TicketBook} {isBuy : Bool} {limit qty : Nat} {t : Ticket}

theorem trade_zero (r : TicketBook) (isBuy : Bool) (limit : Nat) :
    r.trade isBuy limit 0 = (r, 0) := by
  unfold trade
  rfl

/-- Trading ends when no ticket crosses. -/
theorem trade_none (h : r.best isBuy limit = none) : r.trade isBuy limit qty = (r, qty) := by
  unfold trade
  split_ifs with h0
  · rw [h0]
  · split
    · rfl
    · rename_i t ht
      rw [h] at ht
      cases ht

/-- A trade with the best ticket, in full or in part. -/
theorem trade_some (h0 : qty ≠ 0) (h : r.best isBuy limit = some t) :
    r.trade isBuy limit qty =
      if t.quantity ≤ qty then (r.remove t).trade isBuy limit (qty - t.quantity)
      else (r.setQuantity t (t.quantity - qty), 0) := by
  rw [trade, if_neg h0]
  split
  · rename_i hnone
    rw [h] at hnone
    cases hnone
  · rename_i t' ht
    rw [h] at ht
    obtain rfl := Option.some.inj ht
    rfl

/-- Without the numbers the best ticket is the reference book's best entry. -/
theorem map_best (r : TicketBook) (isBuy : Bool) (limit : Nat) :
    (r.best isBuy limit).map Ticket.toEntry =
      RefBook.best (r.tickets.map Ticket.toEntry) isBuy limit := by
  unfold best RefBook.best crossing RefBook.crossing
  rw [List.filter_map, List.find?_map]
  simp only [Function.comp_def, List.all_map]

end TicketBook

/-! ## The abstraction -/

/-- The ticket of a resting order, for the numbers `num` of the slots. -/
def Resting.ticket (o : Resting) (num : Nat → Nat) (s : Bool) (p : Nat) : Ticket :=
  ⟨o.entry s p, num o.slot⟩

/-- Each queue lists the tickets of its level in arrival order, the id table finds the slots of the
tickets that the table finds, and there is room for a ticket when a slot is free. -/
structure TicketAbs (v : QueueBook) (r : TicketBook) (num : Nat → Nat) : Prop where
  queue : ∀ s p, (v.queue s p).map (Resting.ticket · num s p) =
    r.tickets.filter fun t => t.isBuy = s ∧ t.price = p
  table : ∀ id, r.table id = (v.byId id).map num
  nodup : (r.tickets.map Ticket.number).Nodup
  issued : ∀ t ∈ r.tickets, t.number < r.issued
  room : r.tickets.length + v.free.length = maxOrders

variable {v v' : QueueBook} {r : TicketBook} {num : Nat → Nat} {s s' isBuy : Bool}
  {p p' limit q id : Nat} {o o' : Resting} {l : List Resting} {t : Ticket} {op : Op}

/-- The first crossing order is the front of its queue. -/
theorem QueueBook.front_of_crossing (hc : v.crossing isBuy limit = o :: l) :
    ∃ p l', v.queue (!isBuy) p = o :: l' := by
  cases hps : v.crossingPrices isBuy limit with
  | nil =>
    rw [crossing, hps] at hc
    cases hc
  | cons p ps =>
    obtain ⟨hp, -, -⟩ := crossingPrices_cons hps
    rw [crossing_cons hps] at hc
    cases hq : v.queue (!isBuy) p with
    | nil => exact absurd hq hp
    | cons o' l' =>
      rw [hq, List.cons_append] at hc
      obtain rfl : o' = o := (List.cons.inj hc).1
      exact ⟨p, l', hq⟩

/-- Two searches that each accept what the other finds find the same. -/
theorem find?_unique {α : Type} {f g : α → Bool} {l : List α} {a b : α}
    (ha : l.find? f = some a) (hb : l.find? g = some b) (hfb : f b = true) (hga : g a = true) :
    a = b := by
  induction l with
  | nil => cases ha
  | cons x l ih =>
    by_cases hf : f x = true
    · rw [List.find?_cons_of_pos hf] at ha
      obtain rfl := Option.some.inj ha
      rw [List.find?_cons_of_pos hga] at hb
      exact Option.some.inj hb
    · rw [List.find?_cons_of_neg hf] at ha
      by_cases hg : g x = true
      · rw [List.find?_cons_of_pos hg] at hb
        exact absurd (Option.some.inj hb ▸ hfb) hf
      · rw [List.find?_cons_of_neg hg] at hb
        exact ih ha hb

namespace TicketAbs

theorem mem_iff (h : TicketAbs v r num) :
    t ∈ r.tickets ↔ ∃ s p o, v.At s p o ∧ o.ticket num s p = t := by
  have hfilter : t ∈ r.tickets ↔
      t ∈ r.tickets.filter fun t' => t'.isBuy = t.isBuy ∧ t'.price = t.price := by simp
  rw [hfilter, ← h.queue, List.mem_map]
  constructor
  · rintro ⟨o, ho, he⟩
    exact ⟨_, _, o, ho, he⟩
  · rintro ⟨s, p, o, ho, rfl⟩
    exact ⟨o, ho, rfl⟩

theorem mem (h : TicketAbs v r num) (ho : v.At s p o) : o.ticket num s p ∈ r.tickets :=
  h.mem_iff.mpr ⟨s, p, o, ho, rfl⟩

/-- A number names one ticket. -/
theorem eq_of_number (h : TicketAbs v r num) {t' : Ticket} (ht : t ∈ r.tickets)
    (ht' : t' ∈ r.tickets) (he : t.number = t'.number) : t = t' :=
  List.inj_on_of_nodup_map h.nodup ht ht' he

/-- Resting orders have the same number only in the same slot. -/
theorem num_eq_iff (h : TicketAbs v r num) (ho : v.At s p o) (ho' : v.At s' p' o') :
    num o'.slot = num o.slot ↔ o'.slot = o.slot := by
  refine ⟨fun he => ?_, fun he => congrArg num he⟩
  have ht := h.eq_of_number (h.mem ho') (h.mem ho) he
  have hentry : o'.entry s' p' = o.entry s p := congrArg Ticket.toEntry ht
  obtain rfl : s' = s := congrArg Entry.isBuy hentry
  obtain rfl : p' = p := congrArg Entry.price hentry
  -- within a level the numbers are those of a part of the tickets
  have hn : ((v.queue s' p').map fun o => num o.slot).Nodup := by
    have hsub := (List.filter_sublist (l := r.tickets)
      (p := fun t => t.isBuy = s' ∧ t.price = p')).map Ticket.number
    have := h.nodup.sublist hsub
    rwa [← h.queue, List.map_map] at this
  exact congrArg Resting.slot (List.inj_on_of_nodup_map hn ho' ho he)

/-- Without the numbers the tickets are the entries of the reference book. -/
theorem abs (h : TicketAbs v r num) : Abs v (r.tickets.map Ticket.toEntry) := by
  intro s p
  have hmap := congrArg (List.map Ticket.toEntry) (h.queue s p)
  rw [List.map_map] at hmap
  rw [List.filter_map]
  exact hmap

theorem empty : TicketAbs .empty .empty num where
  queue _ _ := rfl
  table _ := rfl
  nodup := List.nodup_nil
  issued t ht := absurd ht List.not_mem_nil
  room := by
    -- rewritten as it stands: the sum of two closed terms would be computed
    have hfree : QueueBook.empty.free.length = maxOrders := QueueBook.length_pushSlots maxOrders
    rw [hfree]
    exact Nat.zero_add maxOrders

/-- The ticket of an order is one of the tickets, so the others are one less. -/
theorem length_remove (h : TicketAbs v r num) (ho : v.At s p o) :
    (r.remove (o.ticket num s p)).tickets.length + 1 = r.tickets.length := by
  have hsplit := List.length_eq_countP_add_countP
    (fun t : Ticket => decide (t.number ≠ num o.slot)) (l := r.tickets)
  have hone : (r.tickets.map Ticket.number).count (num o.slot) = 1 :=
    List.count_eq_one_of_mem h.nodup (List.mem_map_of_mem (h.mem ho))
  rw [List.count, List.countP_map] at hone
  rw [List.countP_eq_length_filter] at hsplit
  have hrest : (fun t : Ticket => decide ¬ (decide (t.number ≠ num o.slot) = true)) =
      ((· == num o.slot) ∘ Ticket.number) := by
    funext t
    rw [Bool.eq_iff_iff]
    simp
  rw [hrest, hone] at hsplit
  exact hsplit.symm

theorem remove (h : TicketAbs v r num) (ho : v.At s p o) :
    TicketAbs (v.remove o.slot o.id) (r.remove (o.ticket num s p)) num where
  queue s' p' := by
    have hnums : (v.queue s' p').filter (·.slot ≠ o.slot) =
        (v.queue s' p').filter (num ·.slot ≠ num o.slot) :=
      List.filter_congr fun o' ho' => by simp only [ne_eq, h.num_eq_iff ho ho']
    show List.map _ ((v.queue s' p').filter (·.slot ≠ o.slot)) = _
    rw [hnums, TicketBook.remove, List.filter_comm, ← h.queue s' p', List.filter_map]
    rfl
  table id := by
    show Function.update r.table o.id none id = (Function.update v.byId o.id none id).map num
    by_cases he : id = o.id
    · rw [he, Function.update_self, Function.update_self, Option.map_none]
    · rw [Function.update_of_ne he, Function.update_of_ne he, h.table]
  nodup := h.nodup.sublist (List.filter_sublist.map _)
  issued t ht := h.issued t (List.mem_filter.mp ht).1
  room := by
    have hlen := h.length_remove ho
    have hroom := h.room
    show _ + (v.free.length + 1) = _
    omega

theorem setQuantity (h : TicketAbs v r num) (ho : v.At s p o) :
    TicketAbs (v.setQuantity o.slot q) (r.setQuantity (o.ticket num s p) q) num := by
  have hnumber : ∀ t : Ticket,
      (if t.number = num o.slot then { t with quantity := q } else t : Ticket).number =
        t.number := fun t => by split_ifs <;> rfl
  refine ⟨fun s' p' => ?_, h.table, ?_, fun t ht => ?_, ?_⟩
  · have hcomm : (r.setQuantity (o.ticket num s p) q).tickets.filter
        (fun t => t.isBuy = s' ∧ t.price = p') =
        (r.tickets.filter fun t => t.isBuy = s' ∧ t.price = p').map
          fun t => if t.number = num o.slot then { t with quantity := q } else t := by
      unfold TicketBook.setQuantity
      rw [List.filter_map]
      congr 1
      refine List.filter_congr fun t _ => ?_
      by_cases he : t.number = num o.slot <;> simp [Resting.ticket, he]
    rw [hcomm, ← h.queue s' p', QueueBook.setQuantity, List.map_map, List.map_map]
    refine List.map_congr_left fun o' ho' => ?_
    by_cases he : o'.slot = o.slot
    · simp [Resting.ticket, Resting.entry, he]
    · have hne : num o'.slot ≠ num o.slot := fun hn => he ((h.num_eq_iff ho ho').mp hn)
      simp [Resting.ticket, Resting.entry, he, hne]
  · have hnums : (r.setQuantity (o.ticket num s p) q).tickets.map Ticket.number =
        r.tickets.map Ticket.number := by
      unfold TicketBook.setQuantity
      rw [List.map_map]
      exact List.map_congr_left fun t _ => hnumber t
    rw [hnums]
    exact h.nodup
  · obtain ⟨t', ht', rfl⟩ := List.mem_map.mp ht
    exact lt_of_eq_of_lt (hnumber t') (h.issued t' ht')
  · show (r.tickets.map _).length + _ = _
    rw [List.length_map]
    exact h.room

/-- A new ticket is numbered like no other. -/
theorem rest (h : TicketAbs v r num) (hw : v.Wf) :
    ∃ num', TicketAbs (v.rest id p q s) (r.rest id p q s) num' := by
  have hroom := h.room
  cases hf : v.free with
  | nil =>
    rw [hf, List.length_nil] at hroom
    refine ⟨num, ?_⟩
    simp only [QueueBook.rest, hf, TicketBook.rest,
      if_neg (by omega : ¬ r.tickets.length < maxOrders)]
    exact h
  | cons x free =>
    rw [hf, List.length_cons] at hroom
    have hne : ∀ {s' p' o'}, v.At s' p' o' → o'.slot ≠ x := fun ho' he =>
      hw.free_disjoint ho' (by rw [hf, he]; exact List.mem_cons_self)
    have hkeep : ∀ s' p',
        (v.queue s' p').map (Resting.ticket · (Function.update num x r.issued) s' p') =
          (v.queue s' p').map (Resting.ticket · num s' p') := fun s' p' =>
      List.map_congr_left fun o' ho' => by
        rw [Resting.ticket, Resting.ticket, Function.update_of_ne (hne ho')]
    refine ⟨Function.update num x r.issued, ?_⟩
    simp only [QueueBook.rest, hf, TicketBook.rest,
      if_pos (by omega : r.tickets.length < maxOrders)]
    refine ⟨fun s' p' => ?_, fun i => ?_, ?_, fun t ht => ?_, ?_⟩
    · rw [List.filter_append, ← h.queue s' p', ← hkeep s' p']
      by_cases hsp : s' = s ∧ p' = p
      · obtain ⟨rfl, rfl⟩ := hsp
        simp [Resting.ticket, Resting.entry]
      · have : ¬(s = s' ∧ p = p') := fun h => hsp ⟨h.1.symm, h.2.symm⟩
        simp only [if_neg hsp]
        rw [List.filter_cons_of_neg (by simpa using this), List.filter_nil, List.append_nil]
    · dsimp only
      by_cases he : i = id
      · rw [he, Function.update_self, Function.update_self, Option.map_some, Function.update_self]
      · rw [Function.update_of_ne he, Function.update_of_ne he, h.table]
        cases hx : v.byId i with
        | none => rfl
        | some y =>
          obtain ⟨s', p', o', ho', rfl, -⟩ := hw.byId_sound hx
          rw [Option.map_some, Option.map_some, Function.update_of_ne (hne ho')]
    · rw [List.map_append, List.map_singleton, List.nodup_append]
      refine ⟨h.nodup, List.nodup_singleton _, fun n hn m hm => ?_⟩
      obtain ⟨t, ht, rfl⟩ := List.mem_map.mp hn
      rw [List.mem_singleton.mp hm]
      exact (h.issued t ht).ne
    · rcases List.mem_append.mp ht with ht | ht
      · exact (h.issued t ht).trans (Nat.lt_succ_self _)
      · rw [List.mem_singleton.mp ht]
        exact Nat.lt_succ_self _
    · dsimp only
      rw [List.length_append, List.length_singleton]
      omega

/-! ### Matching -/

theorem best_none (h : TicketAbs v r num) (hw : v.Wf) (hc : v.crossing isBuy limit = []) :
    r.best isBuy limit = none := by
  have hbest := h.abs.best_none hw hc
  rw [← TicketBook.map_best] at hbest
  exact Option.map_eq_none_iff.mp hbest

/-- **The ticket book's best ticket is that of the first crossing order.** Its entry is the one the
reference book finds; among the tickets with this entry it is the first, as the order is the first
of its queue. -/
theorem best_some (h : TicketAbs v r num) (hw : v.Wf) (hc : v.crossing isBuy limit = o :: l) :
    ∃ p, v.At (!isBuy) p o ∧ r.best isBuy limit = some (o.ticket num (!isBuy) p) := by
  obtain ⟨p, ho, hbest⟩ := h.abs.best_some hw hc
  refine ⟨p, ho, ?_⟩
  rw [← TicketBook.map_best] at hbest
  obtain ⟨t, ht, hentry⟩ := Option.map_eq_some_iff.mp hbest
  obtain ⟨p', l', hqueue⟩ := QueueBook.front_of_crossing hc
  obtain ⟨-, rfl, -⟩ := hw.slot_inj ho (QueueBook.at_of_cons hqueue) rfl
  have hfront : r.tickets.find? (fun t => t.isBuy = (!isBuy) ∧ t.price = p) =
      some (o.ticket num (!isBuy) p) := by
    rw [← List.head?_filter, ← h.queue, hqueue]
    rfl
  rw [ht]
  unfold TicketBook.best at ht
  rw [TicketBook.crossing, List.find?_filter] at ht
  obtain ⟨e, n⟩ := t
  obtain rfl : e = o.entry (!isBuy) p := hentry
  have hfound := List.find?_some ht
  exact congrArg some (find?_unique ht hfront hfound (by simp [Resting.entry]))

/-- **Matching agrees** with the ticket book's loop. -/
theorem trade (isBuy : Bool) (limit : Nat) (l : List Resting) :
    ∀ {v : QueueBook} {r : TicketBook} (q : Nat), TicketAbs v r num → v.Wf →
      v.crossing isBuy limit = l → TicketAbs (v.trade l q).1 (r.trade isBuy limit q).1 num ∧
        (v.trade l q).2 = (r.trade isBuy limit q).2 := by
  induction l with
  | nil =>
    intro v r q h hw hc
    rw [TicketBook.trade_none (h.best_none hw hc)]
    exact ⟨h, rfl⟩
  | cons o l ih =>
    intro v r q h hw hc
    obtain ⟨p, ho, hbest⟩ := h.best_some hw hc
    by_cases h0 : q = 0
    · rw [h0, TicketBook.trade_zero, QueueBook.trade_zero]
      exact ⟨h, rfl⟩
    have hquantity : (o.ticket num (!isBuy) p).quantity = o.quantity := rfl
    rw [QueueBook.trade, if_neg h0, TicketBook.trade_some h0 hbest, hquantity]
    by_cases hle : o.quantity ≤ q
    · rw [if_pos hle, if_pos hle]
      exact ih _ (h.remove ho) (hw.remove ho) (QueueBook.crossing_remove_cons hw hc)
    · rw [if_neg hle, if_neg hle]
      exact ⟨h.setQuantity ho, rfl⟩

theorem add (h : TicketAbs v r num) (hw : v.Wf) :
    ∃ num', TicketAbs (v.add id p q isBuy) (r.add id p q isBuy) num' := by
  obtain ⟨habs, hrem⟩ := TicketAbs.trade isBuy p _ q h hw rfl
  unfold QueueBook.add TicketBook.add
  simp only [← hrem]
  split_ifs
  · exact ⟨num, habs⟩
  · exact habs.rest (hw.trade (hw.lists_crossing isBuy p))

/-! ### Calls -/

theorem find_none (h : TicketAbs v r num) (hx : v.byId id = none) : r.find id = none := by
  rw [TicketBook.find, h.table, hx]
  rfl

theorem find_some (h : TicketAbs v r num) (ho : v.At s p o) (hx : v.byId o.id = some o.slot) :
    r.find o.id = some (o.ticket num s p) := by
  rw [TicketBook.find, h.table, hx]
  show r.tickets.find? (fun t => decide (t.number = num o.slot)) = _
  cases hf : r.tickets.find? fun t => decide (t.number = num o.slot) with
  | none =>
    have := List.find?_eq_none.mp hf _ (h.mem ho)
    exact absurd (decide_eq_true rfl) this
  | some t =>
    have hnumber := List.find?_some hf
    exact congrArg some (h.eq_of_number (List.mem_of_find?_eq_some hf) (h.mem ho)
      (of_decide_eq_true hnumber))

/-- **Each call on the queues is the ticket book's.** -/
theorem step (h : TicketAbs v r num) (hw : v.Wf) (hstep : v.Step op v') :
    ∃ num', TicketAbs v' (r.apply op) num' := by
  cases hstep with
  | add id price qty isBuy => exact h.add hw
  | cancelUnknown hx =>
    refine ⟨num, ?_⟩
    simp only [TicketBook.apply, h.find_none hx]
    exact h
  | cancel ho hx =>
    refine ⟨num, ?_⟩
    simp only [TicketBook.apply, h.find_some ho hx]
    exact h.remove ho
  | modifyUnknown price qty hx =>
    refine ⟨num, ?_⟩
    simp only [TicketBook.apply, h.find_none hx]
    exact h
  | @modifyInPlace s p qty o ho hx h0 hq =>
    refine ⟨num, ?_⟩
    have : r.apply (.modify o.id p qty) = r.setQuantity (o.ticket num s p) qty := by
      simp only [TicketBook.apply, h.find_some ho hx, Resting.ticket, Resting.entry, true_and, hq,
        if_true]
      rw [if_neg (by omega)]
    rw [this]
    exact h.setQuantity ho
  | @modifyZero s p o ho hx =>
    refine ⟨num, ?_⟩
    have : r.apply (.modify o.id p 0) = r.remove (o.ticket num s p) := by
      simp [TicketBook.apply, h.find_some ho hx, Resting.ticket, Resting.entry]
    rw [this]
    exact h.remove ho
  | @modifyReplace s p price qty o ho hx hne =>
    have : r.apply (.modify o.id price qty) =
        (r.remove (o.ticket num s p)).add o.id price qty s := by
      simp only [TicketBook.apply, h.find_some ho hx, Resting.ticket, Resting.entry]
      rw [if_neg (by omega)]
    rw [this]
    exact (h.remove ho).add (hw.remove ho)

end TicketAbs

/-! ## Runs -/

/-- The ticket of the order in a slot. -/
def OrderBook.ticket (b : OrderBook) (num : Nat → Nat) (x : Nat) : Ticket := ⟨b.entry x, num x⟩

/-- The book abstracts to the ticket book: no two orders have one number, the queue of each level
lists the level's tickets in arrival order, and the id table finds linked slots as the table finds
numbers. -/
structure OrderBook.AbstractsTickets (b : OrderBook) (r : TicketBook) (num : Nat → Nat) : Prop where
  distinct : ∀ x y, b.Rests x → b.Rests y → num x = num y → x = y
  queue : ∀ isBuy price, ∃ l, b.Queue isBuy price l ∧
    l.map (b.ticket num) = r.tickets.filter fun t => t.isBuy = isBuy ∧ t.price = price
  table : ∀ id, r.table id = (b.orderMap id).map num
  linked : ∀ id x, b.orderMap id = some x → b.Rests x

variable {b : OrderBook} {ops : List Op}

theorem Rep.abstractsTickets (h : Rep b v) (hw : v.Wf) (hr : TicketAbs v r num) :
    b.AbstractsTickets r num where
  distinct x y hx hy he := by
    obtain ⟨s, p, o, ho, rfl⟩ := h.rests_iff.mp hx
    obtain ⟨s', p', o', ho', rfl⟩ := h.rests_iff.mp hy
    exact (hr.num_eq_iff ho' ho).mp he
  queue s p := by
    refine ⟨_, h.queue_iff.mpr rfl, ?_⟩
    rw [← hr.queue s p, slots, List.map_map]
    refine List.map_congr_left fun o ho => ?_
    show (⟨b.entry o.slot, num o.slot⟩ : Ticket) = ⟨o.entry s p, num o.slot⟩
    rw [h.entry_eq ho]
  table id := by rw [h.map, hr.table]
  linked id x hx := by
    rw [h.map] at hx
    obtain ⟨s, p, o, ho, rfl, -⟩ := hw.byId_sound hx
    exact h.rests ho

/-- **The book refines the ticket book, whatever ids are used**: after every run of calls in bounds
it abstracts to the ticket book after the same calls, and every valid call returns. -/
theorem refines_tickets (h : OrderBook.Reaches OrderBook.InBounds ops b) :
    (∃ num, b.AbstractsTickets (TicketBook.run ops) num) ∧
      ∀ op, op.Valid → ∃ b', b.Calls op b' := by
  obtain ⟨v, hrep, hw, num, habs⟩ : ∃ v, Rep b v ∧ v.Wf ∧
      ∃ num, TicketAbs v (TicketBook.run ops) num := by
    refine h.rep_of (I := fun ops v => ∃ num, TicketAbs v (TicketBook.run ops) num)
      (fun hop => hop) ⟨id, .empty⟩ ?_
    rintro ops b op v v' - hw ⟨num, habs⟩ - hstep
    rw [TicketBook.run_snoc]
    exact habs.step hw hstep
  exact ⟨⟨num, hrep.abstractsTickets hw habs⟩, fun op hop => hrep.exists_calls hw hop⟩

/-- A second order takes the id of the first; once the first is filled, no cancel finds the
second. -/
theorem refines_tickets_orphan : ∃ b num, OrderBook.Reaches OrderBook.InBounds
      [.add 1 100 5 true, .add 1 99 3 true, .add 2 100 5 false, .cancel 1] b ∧
    b.AbstractsTickets (TicketBook.run
      [.add 1 100 5 true, .add 1 99 3 true, .add 2 100 5 false, .cancel 1]) num ∧
    ∃ l, b.Queue true 99 l ∧ l.map (b.ticket num) = [⟨⟨1, true, 99, 3⟩, 1⟩] := by
  obtain ⟨b, hb⟩ := OrderBook.exists_reaches_valid
    [.add 1 100 5 true, .add 1 99 3 true, .add 2 100 5 false, .cancel 1] (by decide)
  obtain ⟨⟨num, habs⟩, -⟩ := refines_tickets hb.inBounds
  obtain ⟨l, hl, htickets⟩ := habs.queue true 99
  have hrun : (TicketBook.run
      [.add 1 100 5 true, .add 1 99 3 true, .add 2 100 5 false, .cancel 1]).tickets =
      [⟨⟨1, true, 99, 3⟩, 1⟩] := by decide +kernel
  rw [hrun] at htickets
  exact ⟨b, num, hb.inBounds, habs, l, hl, htickets⟩

end MarketHandler
