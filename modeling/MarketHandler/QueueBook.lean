import Mathlib.Algebra.GroupWithZero.Nat
import Mathlib.Algebra.Order.BigOperators.Group.List
import Mathlib.Algebra.Order.Group.Nat
import Mathlib.Data.List.Nodup
import MarketHandler.OrderBook

/-!
# `QueueBook`: the book as queues of resting orders

The abstract book between the pointers of `OrderBook` and a plain list of entries: for each side
and price the queue of resting orders (slot, id, quantity) in arrival order, the free slots, and
the id table. Nothing here mentions links, totals, bitmaps or cached prices.

The operations are `remove`, `setQuantity` and `rest` for a single order, `trade` for filling a list
of resting orders in turn, and `crossing` for the opposing orders a limit price reaches, best price
first and in queue order within a price. `Wf` is the invariant that holds even when ids are reused;
`Addressable` (every resting order is the table's entry for its id) needs unique ids; `Uncrossed`
says that every bid is below every ask, `PricePos` that no order rests at price 0.
-/

namespace MarketHandler

/-- An order at rest: its slot, id and quantity. -/
structure Resting where
  slot : Nat
  id : Nat
  quantity : Nat
  deriving DecidableEq, Repr

/-- Queues by side (`true` for bids) and price, free slots, and the id table. -/
@[ext]
structure QueueBook where
  queue : Bool → Nat → List Resting
  free : List Nat
  byId : Nat → Option Nat

/-- The total quantity of a list of resting orders. -/
def total (l : List Resting) : Nat := (l.map Resting.quantity).sum

@[simp] theorem total_nil : total [] = 0 := rfl

@[simp] theorem total_cons (o : Resting) (l : List Resting) :
    total (o :: l) = o.quantity + total l := by
  simp [total]

@[simp] theorem total_append (l l' : List Resting) : total (l ++ l') = total l + total l' := by
  simp [total]

theorem le_total {o : Resting} {l : List Resting} (h : o ∈ l) : o.quantity ≤ total l :=
  List.le_sum_of_mem (List.mem_map_of_mem h)

/-- The slots of a list of resting orders. -/
abbrev slots (l : List Resting) : List Nat := l.map Resting.slot

namespace QueueBook

/-- No orders: every slot is free and no id is known. -/
def empty : QueueBook := ⟨fun _ _ => [], OrderPool.pushSlots maxOrders, fun _ => none⟩

/-- The order in `slot`, whose id is `id`, leaves. -/
def remove (v : QueueBook) (slot id : Nat) : QueueBook where
  queue s p := (v.queue s p).filter (·.slot ≠ slot)
  free := slot :: v.free
  byId := Function.update v.byId id none

/-- The order in `slot` keeps its place with quantity `q`. -/
def setQuantity (v : QueueBook) (slot q : Nat) : QueueBook :=
  { v with queue := fun s p =>
      (v.queue s p).map fun o => if o.slot = slot then { o with quantity := q } else o }

/-- A new order goes to the back of its queue, in the first free slot (dropped if there is none). -/
def rest (v : QueueBook) (id price q : Nat) (isBuy : Bool) : QueueBook :=
  match v.free with
  | [] => v
  | slot :: free =>
    { queue := fun s p =>
        if s = isBuy ∧ p = price then v.queue s p ++ [⟨slot, id, q⟩] else v.queue s p
      free := free
      byId := Function.update v.byId id (some slot) }

/-- Fill the orders of a list in turn with the quantity `q`; the book and what is left of `q`. -/
def trade : QueueBook → List Resting → Nat → QueueBook × Nat
  | v, [], q => (v, q)
  | v, o :: l, q =>
    if q = 0 then (v, 0)
    else if o.quantity ≤ q then (v.remove o.slot o.id).trade l (q - o.quantity)
    else (v.setQuantity o.slot (o.quantity - q), 0)

/-- The limit `limit` of an incoming order crosses an opposing price `p`. -/
def crosses (isBuy : Bool) (limit p : Nat) : Bool := if isBuy then p ≤ limit else limit ≤ p

/-- The prices, best first for an incoming order. -/
def priceOrder (isBuy : Bool) : List Nat :=
  if isBuy then List.range maxTicks else (List.range maxTicks).reverse

/-- The opposing prices with resting orders that `limit` crosses, best first. -/
def crossingPrices (v : QueueBook) (isBuy : Bool) (limit : Nat) : List Nat :=
  (priceOrder isBuy).filter fun p => crosses isBuy limit p && !(v.queue (!isBuy) p).isEmpty

/-- The opposing orders that `limit` crosses, in the order they trade. -/
def crossing (v : QueueBook) (isBuy : Bool) (limit : Nat) : List Resting :=
  (v.crossingPrices isBuy limit).flatMap (v.queue (!isBuy))

/-- Match, then rest what is left. -/
def add (v : QueueBook) (id price qty : Nat) (isBuy : Bool) : QueueBook :=
  let r := v.trade (v.crossing isBuy price) qty
  if r.2 = 0 then r.1 else r.1.rest id price r.2 isBuy

/-! ## Invariants -/

/-- `o` rests on side `s` at price `p`. -/
def At (v : QueueBook) (s : Bool) (p : Nat) (o : Resting) : Prop := o ∈ v.queue s p

/-- The prices of a side with resting orders. -/
def prices (v : QueueBook) (s : Bool) : Set Nat := {p | v.queue s p ≠ []}

/-- Each slot is free or holds exactly one order. -/
structure Slots (v : QueueBook) : Prop where
  slot_inj : ∀ {s p o s' p' o'}, v.At s p o → v.At s' p' o' → o.slot = o'.slot →
    s = s' ∧ p = p' ∧ o = o'
  nodup : ∀ s p, (slots (v.queue s p)).Nodup
  free_nodup : v.free.Nodup
  free_disjoint : ∀ {s p o}, v.At s p o → o.slot ∉ v.free
  cover : ∀ x, x < maxOrders ↔ x ∈ v.free ∨ ∃ s p o, v.At s p o ∧ o.slot = x

/-- The invariant of every book, with ids reused or not: slots are used once, fields are in range,
and an id table entry points to an order with that id. -/
structure Wf (v : QueueBook) : Prop extends v.Slots where
  quantity_pos : ∀ {s p o}, v.At s p o → 0 < o.quantity
  quantity_lt : ∀ {s p o}, v.At s p o → o.quantity < 2 ^ 31
  id_lt : ∀ {s p o}, v.At s p o → o.id < maxOrders
  price_lt : ∀ {s p o}, v.At s p o → p < maxTicks
  byId_sound : ∀ {i x}, v.byId i = some x → ∃ s p o, v.At s p o ∧ o.slot = x ∧ o.id = i

/-- Every resting order is the id table's entry for its id. -/
def Addressable (v : QueueBook) : Prop := ∀ s p o, v.At s p o → v.byId o.id = some o.slot

/-- Every bid is strictly below every ask. -/
def Uncrossed (v : QueueBook) : Prop := ∀ p o p' o', v.At true p o → v.At false p' o' → p < p'

/-- No order rests at price 0. -/
def PricePos (v : QueueBook) : Prop := ∀ s p o, v.At s p o → 0 < p

theorem mem_prices {v : QueueBook} {s : Bool} {p : Nat} : p ∈ v.prices s ↔ ∃ o, v.At s p o :=
  ⟨List.exists_mem_of_ne_nil _, fun ⟨_, ho⟩ => List.ne_nil_of_mem ho⟩

variable {v : QueueBook} {s s' : Bool} {p p' q id x : Nat} {o o' : Resting} {l : List Resting}

theorem Wf.slot_lt (hw : v.Wf) (h : v.At s p o) : o.slot < maxOrders :=
  (hw.cover _).mpr (Or.inr ⟨s, p, o, h, rfl⟩)

theorem Wf.price_mem_lt (hw : v.Wf) {s : Bool} {p : Nat} (h : p ∈ v.prices s) : p < maxTicks := by
  obtain ⟨o, ho⟩ := mem_prices.mp h
  exact hw.price_lt ho

/-- A queue has no more orders than the pool has slots. -/
theorem Wf.length_le (hw : v.Wf) (s : Bool) (p : Nat) : (v.queue s p).length ≤ maxOrders := by
  have hsub : slots (v.queue s p) ⊆ List.range maxOrders := by
    intro x hx
    obtain ⟨o, ho, rfl⟩ := List.mem_map.mp hx
    exact List.mem_range.mpr (hw.slot_lt ho)
  simpa using ((hw.nodup s p).subperm hsub).length_le

/-- A level's total fits in 64 bits. -/
theorem Wf.total_lt (hw : v.Wf) (s : Bool) (p : Nat) : total (v.queue s p) < 2 ^ 63 := by
  have h1 : total (v.queue s p) ≤ (v.queue s p).length * 2 ^ 31 := by
    have := List.sum_le_card_nsmul ((v.queue s p).map Resting.quantity) (2 ^ 31) fun x hx => by
      obtain ⟨o, ho, rfl⟩ := List.mem_map.mp hx
      exact (hw.quantity_lt ho).le
    simpa [total] using this
  have h2 := hw.length_le s p
  unfold maxOrders at h2
  omega

theorem Wf.total_eq_zero_iff (hw : v.Wf) (s : Bool) (p : Nat) :
    total (v.queue s p) = 0 ↔ v.queue s p = [] := by
  constructor
  · intro h
    by_contra hne
    obtain ⟨o, ho⟩ := List.exists_mem_of_ne_nil _ hne
    have := hw.quantity_pos ho
    have := le_total ho
    omega
  · intro h
    rw [h, total_nil]

/-! ## One order -/

theorem at_remove {i : Nat} : (v.remove x i).At s p o ↔ v.At s p o ∧ o.slot ≠ x := by
  simp [At, remove]

theorem at_setQuantity :
    (v.setQuantity x q).At s p o ↔
      ∃ o', v.At s p o' ∧ o = if o'.slot = x then { o' with quantity := q } else o' := by
  simp only [At, setQuantity, List.mem_map, eq_comm]

theorem of_at_setQuantity (h : (v.setQuantity x q).At s p o) :
    ∃ o', v.At s p o' ∧ o.slot = o'.slot ∧ o.id = o'.id ∧ (o.quantity = q ∨ o = o') := by
  obtain ⟨o', h', rfl⟩ := at_setQuantity.mp h
  refine ⟨o', h', ?_⟩
  split_ifs
  · exact ⟨rfl, rfl, Or.inl rfl⟩
  · exact ⟨rfl, rfl, Or.inr rfl⟩

/-- A queue is empty after a quantity change iff it was. -/
theorem setQuantity_prices : (v.setQuantity x q).prices s = v.prices s := by
  ext p
  simp [prices, setQuantity]

theorem slots_setQuantity : slots ((v.setQuantity x q).queue s p) = slots (v.queue s p) := by
  simp only [slots, setQuantity, List.map_map]
  refine List.map_congr_left fun o _ => ?_
  simp only [Function.comp]
  split_ifs <;> rfl

theorem at_rest {slot : Nat} {free : List Nat} (hf : v.free = slot :: free) :
    (v.rest id p q s).At s' p' o ↔ v.At s' p' o ∨ s' = s ∧ p' = p ∧ o = ⟨slot, id, q⟩ := by
  unfold At rest
  rw [hf]
  dsimp only
  split_ifs with h
  · simp [h]
  · grind

theorem mem_pushSlots : ∀ {n : Nat}, x ∈ OrderPool.pushSlots n ↔ x < n
  | 0 => by simp [OrderPool.pushSlots]
  | n + 1 => by
    rw [OrderPool.pushSlots, List.mem_cons, mem_pushSlots]
    omega

theorem nodup_pushSlots : ∀ n : Nat, (OrderPool.pushSlots n).Nodup
  | 0 => List.nodup_nil
  | n + 1 => List.nodup_cons.mpr
    ⟨fun h => absurd (mem_pushSlots.mp h) (Nat.lt_irrefl n), nodup_pushSlots n⟩

theorem length_pushSlots : ∀ n : Nat, (OrderPool.pushSlots n).length = n
  | 0 => rfl
  | n + 1 => congrArg Nat.succ (length_pushSlots n)

theorem Slots.empty : QueueBook.empty.Slots where
  slot_inj h := absurd h List.not_mem_nil
  nodup _ _ := List.nodup_nil
  free_nodup := nodup_pushSlots _
  free_disjoint h := absurd h List.not_mem_nil
  cover x := by
    constructor
    · exact fun h => Or.inl (mem_pushSlots.mpr h)
    · rintro (h | ⟨_, _, _, h, _⟩)
      · exact mem_pushSlots.mp h
      · exact absurd h List.not_mem_nil

theorem Slots.remove (hw : v.Slots) (ho : v.At s p o) (i : Nat) : (v.remove o.slot i).Slots where
  slot_inj h h' := hw.slot_inj (at_remove.mp h).1 (at_remove.mp h').1
  nodup s p := (hw.nodup s p).sublist (List.filter_sublist.map _)
  free_nodup := List.nodup_cons.mpr ⟨hw.free_disjoint ho, hw.free_nodup⟩
  free_disjoint h hm := by
    rcases List.mem_cons.mp hm with he | hm
    · exact (at_remove.mp h).2 he
    · exact hw.free_disjoint (at_remove.mp h).1 hm
  cover y := by
    rw [hw.cover y]
    constructor
    · rintro (hf | ⟨s', p', o', h', rfl⟩)
      · exact Or.inl (List.mem_cons_of_mem _ hf)
      · by_cases he : o'.slot = o.slot
        · exact Or.inl (he ▸ List.mem_cons_self)
        · exact Or.inr ⟨s', p', o', at_remove.mpr ⟨h', he⟩, rfl⟩
    · rintro (hf | ⟨s', p', o', h', rfl⟩)
      · rcases List.mem_cons.mp hf with rfl | hf
        · exact Or.inr ⟨s, p, o, ho, rfl⟩
        · exact Or.inl hf
      · exact Or.inr ⟨s', p', o', (at_remove.mp h').1, rfl⟩

theorem Slots.setQuantity (hw : v.Slots) (x q : Nat) : (v.setQuantity x q).Slots where
  slot_inj h h' he := by
    obtain ⟨o₁, h₁, rfl⟩ := at_setQuantity.mp h
    obtain ⟨o₂, h₂, rfl⟩ := at_setQuantity.mp h'
    obtain ⟨rfl, rfl, rfl⟩ := hw.slot_inj h₁ h₂ (by split_ifs at he <;> exact he)
    exact ⟨rfl, rfl, rfl⟩
  nodup s p := by
    rw [slots_setQuantity]
    exact hw.nodup s p
  free_nodup := hw.free_nodup
  free_disjoint h := by
    obtain ⟨o', h', he, -⟩ := of_at_setQuantity h
    rw [he]
    exact hw.free_disjoint h'
  cover y := by
    rw [hw.cover y]
    refine or_congr Iff.rfl ⟨?_, ?_⟩
    · rintro ⟨s, p, o, h, rfl⟩
      exact ⟨s, p, _, at_setQuantity.mpr ⟨o, h, rfl⟩, by split_ifs <;> rfl⟩
    · rintro ⟨s, p, o, h, rfl⟩
      obtain ⟨o', h', he, -⟩ := of_at_setQuantity h
      exact ⟨s, p, o', h', he.symm⟩

theorem Slots.rest (hw : v.Slots) : (v.rest id p q s).Slots := by
  cases hf : v.free with
  | nil => simpa only [QueueBook.rest, hf] using hw
  | cons slot free =>
    have hfree : (v.rest id p q s).free = free := by simp only [QueueBook.rest, hf]
    have hnew : ∀ {s' p' o'}, v.At s' p' o' → o'.slot ≠ slot := fun h he =>
      hw.free_disjoint h (by rw [hf, he]; exact List.mem_cons_self)
    have hn := hw.free_nodup
    rw [hf, List.nodup_cons] at hn
    refine
      { slot_inj := fun h h' he => ?_, nodup := fun s' p' => ?_, free_nodup := ?_,
        free_disjoint := fun h => ?_, cover := fun y => ?_ }
    · rcases (at_rest hf).mp h with h₁ | ⟨hs₁, hp₁, ho₁⟩ <;>
        rcases (at_rest hf).mp h' with h₂ | ⟨hs₂, hp₂, ho₂⟩
      · exact hw.slot_inj h₁ h₂ he
      · exact absurd (he.trans (congrArg Resting.slot ho₂)) (hnew h₁)
      · exact absurd (he.symm.trans (congrArg Resting.slot ho₁)) (hnew h₂)
      · exact ⟨hs₁.trans hs₂.symm, hp₁.trans hp₂.symm, ho₁.trans ho₂.symm⟩
    · unfold QueueBook.rest
      rw [hf]
      dsimp only
      split_ifs
      · rw [slots, List.map_append, List.nodup_append]
        refine ⟨hw.nodup s' p', by simp, fun a ha b hb => ?_⟩
        obtain ⟨o', ho', rfl⟩ := List.mem_map.mp ha
        obtain rfl : b = slot := by simpa using hb
        exact hnew ho'
      · exact hw.nodup s' p'
    · rw [hfree]
      exact hn.2
    · rw [hfree]
      rcases (at_rest hf).mp h with h | ⟨rfl, rfl, rfl⟩
      · exact fun hm => hw.free_disjoint h (by rw [hf]; exact List.mem_cons_of_mem _ hm)
      · exact hn.1
    · rw [hw.cover y, hfree, hf, List.mem_cons]
      constructor
      · rintro ((rfl | hm) | ⟨s', p', o', h', rfl⟩)
        · exact Or.inr ⟨s, p, _, (at_rest hf).mpr (Or.inr ⟨rfl, rfl, rfl⟩), rfl⟩
        · exact Or.inl hm
        · exact Or.inr ⟨s', p', o', (at_rest hf).mpr (Or.inl h'), rfl⟩
      · rintro (hm | ⟨s', p', o', h', rfl⟩)
        · exact Or.inl (Or.inr hm)
        · rcases (at_rest hf).mp h' with h' | ⟨-, -, rfl⟩
          · exact Or.inr ⟨s', p', o', h', rfl⟩
          · exact Or.inl (Or.inl rfl)

theorem Wf.empty : QueueBook.empty.Wf where
  toSlots := Slots.empty
  quantity_pos h := absurd h List.not_mem_nil
  quantity_lt h := absurd h List.not_mem_nil
  id_lt h := absurd h List.not_mem_nil
  price_lt h := absurd h List.not_mem_nil
  byId_sound h := nomatch h

theorem Wf.remove (hw : v.Wf) (ho : v.At s p o) : (v.remove o.slot o.id).Wf where
  toSlots := hw.toSlots.remove ho _
  quantity_pos h := hw.quantity_pos (at_remove.mp h).1
  quantity_lt h := hw.quantity_lt (at_remove.mp h).1
  id_lt h := hw.id_lt (at_remove.mp h).1
  price_lt h := hw.price_lt (at_remove.mp h).1
  byId_sound {i y} h := by
    have hi : i ≠ o.id := fun e => by
      rw [e] at h
      simp [QueueBook.remove] at h
    have h0 : v.byId i = some y := by
      simpa [QueueBook.remove, Function.update_of_ne hi] using h
    obtain ⟨s', p', o', h', rfl, rfl⟩ := hw.byId_sound h0
    refine ⟨s', p', o', at_remove.mpr ⟨h', fun he => hi ?_⟩, rfl, rfl⟩
    rw [(hw.slot_inj h' ho he).2.2]

theorem Wf.setQuantity (hw : v.Wf) (hq : 0 < q) (hq' : q < 2 ^ 31) : (v.setQuantity x q).Wf where
  toSlots := hw.toSlots.setQuantity x q
  quantity_pos h := by
    obtain ⟨o', h', -, -, he | rfl⟩ := of_at_setQuantity h
    · exact he ▸ hq
    · exact hw.quantity_pos h'
  quantity_lt h := by
    obtain ⟨o', h', -, -, he | rfl⟩ := of_at_setQuantity h
    · exact he ▸ hq'
    · exact hw.quantity_lt h'
  id_lt h := by
    obtain ⟨o', h', -, he, -⟩ := of_at_setQuantity h
    rw [he]
    exact hw.id_lt h'
  price_lt h := by
    obtain ⟨o', h', -⟩ := of_at_setQuantity h
    exact hw.price_lt h'
  byId_sound h := by
    obtain ⟨s, p, o, h', rfl, rfl⟩ := hw.byId_sound h
    exact ⟨s, p, _, at_setQuantity.mpr ⟨o, h', rfl⟩, by split_ifs <;> rfl, by split_ifs <;> rfl⟩

theorem Wf.rest (hw : v.Wf) (hq : 0 < q) (hq' : q < 2 ^ 31) (hid : id < maxOrders)
    (hp : p < maxTicks) : (v.rest id p q s).Wf := by
  cases hf : v.free with
  | nil => simpa only [QueueBook.rest, hf] using hw
  | cons slot free =>
    have hbyId : (v.rest id p q s).byId = Function.update v.byId id (some slot) := by
      simp only [QueueBook.rest, hf]
    refine
      { toSlots := hw.toSlots.rest, quantity_pos := fun h => ?_, quantity_lt := fun h => ?_,
        id_lt := fun h => ?_, price_lt := fun h => ?_, byId_sound := fun {i y} h => ?_ }
    · rcases (at_rest hf).mp h with h | ⟨-, -, rfl⟩
      · exact hw.quantity_pos h
      · exact hq
    · rcases (at_rest hf).mp h with h | ⟨-, -, rfl⟩
      · exact hw.quantity_lt h
      · exact hq'
    · rcases (at_rest hf).mp h with h | ⟨-, -, rfl⟩
      · exact hw.id_lt h
      · exact hid
    · rcases (at_rest hf).mp h with h | ⟨-, rfl, -⟩
      · exact hw.price_lt h
      · exact hp
    · rw [hbyId] at h
      by_cases hi : i = id
      · subst hi
        obtain rfl : slot = y := by simpa using h
        exact ⟨s, p, _, (at_rest hf).mpr (Or.inr ⟨rfl, rfl, rfl⟩), rfl, rfl⟩
      · rw [Function.update_of_ne hi] at h
        obtain ⟨s', p', o', h', rfl, rfl⟩ := hw.byId_sound h
        exact ⟨s', p', o', (at_rest hf).mpr (Or.inl h'), rfl, rfl⟩

theorem Addressable.remove (ha : v.Addressable) (ho : v.At s p o) :
    (v.remove o.slot o.id).Addressable := by
  intro s' p' o' h'
  obtain ⟨h', hne⟩ := at_remove.mp h'
  have hid : o'.id ≠ o.id := fun e => hne (by
    have h1 := ha _ _ _ h'
    rw [e, ha _ _ _ ho] at h1
    exact (Option.some.inj h1).symm)
  simp only [QueueBook.remove, Function.update_of_ne hid]
  exact ha _ _ _ h'

theorem Addressable.setQuantity (ha : v.Addressable) : (v.setQuantity x q).Addressable := by
  intro s p o h
  obtain ⟨o', h', hs, hi, -⟩ := of_at_setQuantity h
  rw [hs, hi]
  exact ha _ _ _ h'

theorem Addressable.rest (ha : v.Addressable) (hid : ∀ s p o, v.At s p o → o.id ≠ id) :
    (v.rest id p q s).Addressable := by
  cases hf : v.free with
  | nil =>
    have : v.rest id p q s = v := by simp only [QueueBook.rest, hf]
    rw [this]
    exact ha
  | cons slot free =>
    intro s' p' o' h'
    have hbyId : (v.rest id p q s).byId = Function.update v.byId id (some slot) := by
      simp only [QueueBook.rest, hf]
    rw [hbyId]
    rcases (at_rest hf).mp h' with h' | ⟨-, -, rfl⟩
    · rw [Function.update_of_ne (hid _ _ _ h')]
      exact ha _ _ _ h'
    · exact Function.update_self ..

theorem Uncrossed.mono {w : QueueBook} (hu : v.Uncrossed) (h : ∀ s, w.prices s ⊆ v.prices s) :
    w.Uncrossed := by
  intro p o p' o' hb ha
  obtain ⟨o₁, h₁⟩ := mem_prices.mp (h true (mem_prices.mpr ⟨o, hb⟩))
  obtain ⟨o₂, h₂⟩ := mem_prices.mp (h false (mem_prices.mpr ⟨o', ha⟩))
  exact hu _ _ _ _ h₁ h₂

theorem PricePos.mono {w : QueueBook} (hv : v.PricePos) (h : ∀ s, w.prices s ⊆ v.prices s) :
    w.PricePos := by
  intro s p o ho
  obtain ⟨o', ho'⟩ := mem_prices.mp (h s (mem_prices.mpr ⟨o, ho⟩))
  exact hv _ _ _ ho'

theorem remove_prices_subset {i : Nat} : (v.remove x i).prices s ⊆ v.prices s := by
  intro p h
  obtain ⟨o, ho⟩ := mem_prices.mp h
  exact mem_prices.mpr ⟨o, (at_remove.mp ho).1⟩

theorem remove_queue_eq {i : Nat} (h : ∀ o ∈ v.queue s p, o.slot ≠ x) :
    (v.remove x i).queue s p = v.queue s p :=
  List.filter_eq_self.mpr fun o ho => by simpa using h o ho

theorem setQuantity_queue_eq (h : ∀ o ∈ v.queue s p, o.slot ≠ x) :
    (v.setQuantity x q).queue s p = v.queue s p := by
  refine (List.map_congr_left fun o ho => ?_).trans (List.map_id _)
  rw [if_neg (h o ho)]
  rfl

/-- Orders of different levels, and of different places in a level, have different slots. -/
theorem Slots.slot_ne (hv : v.Slots) (ho : v.At s p o) (ho' : v.At s' p' o')
    (hne : ¬(s' = s ∧ p' = p)) : o'.slot ≠ o.slot := fun e =>
  hne ⟨(hv.slot_inj ho' ho e).1, (hv.slot_inj ho' ho e).2.1⟩

/-- Removing an order takes it out of its queue. -/
theorem Slots.remove_queue {l l' : List Resting} {i : Nat} (hv : v.Slots)
    (hl : v.queue s p = l ++ o :: l') : (v.remove o.slot i).queue s p = l ++ l' := by
  have hn := hv.nodup s p
  rw [hl, slots, List.map_append, List.map_cons, List.nodup_append, List.nodup_cons] at hn
  obtain ⟨-, ⟨h2, -⟩, h3⟩ := hn
  have h4 : ∀ o' ∈ l, o'.slot ≠ o.slot := fun o' ho' =>
    h3 _ (List.mem_map_of_mem ho') _ List.mem_cons_self
  have h5 : ∀ o' ∈ l', o'.slot ≠ o.slot := fun o' ho' e => h2 (e ▸ List.mem_map_of_mem ho')
  show (v.queue s p).filter (·.slot ≠ o.slot) = _
  rw [hl, List.filter_append, List.filter_cons_of_neg (by simp),
    List.filter_eq_self.mpr fun o' ho' => by simpa using h4 o' ho',
    List.filter_eq_self.mpr fun o' ho' => by simpa using h5 o' ho']

theorem remove_setQuantity (i : Nat) : (v.setQuantity x q).remove x i = v.remove x i := by
  have hslot : ∀ o : Resting,
      (if o.slot = x then { o with quantity := q } else o : Resting).slot = o.slot := by
    intro o
    split_ifs <;> rfl
  unfold remove setQuantity
  congr 1
  funext s p
  simp only [List.filter_map, Function.comp_def, hslot]
  refine (List.map_congr_left fun o ho => ?_).trans (List.map_id _)
  rw [if_neg (by simpa using (List.mem_filter.mp ho).2)]
  rfl

/-- The total of a queue after a quantity change. -/
theorem total_setQuantity (hn : (slots (v.queue s p)).Nodup) (ho : v.At s p o) :
    total ((v.setQuantity o.slot q).queue s p) + o.quantity = total (v.queue s p) + q := by
  obtain ⟨l, l', hl⟩ := List.append_of_mem ho
  rw [hl, slots, List.map_append, List.map_cons, List.nodup_append, List.nodup_cons] at hn
  obtain ⟨-, ⟨h2, -⟩, h3⟩ := hn
  have hid : ∀ m : List Resting, (∀ o' ∈ m, o'.slot ≠ o.slot) →
      m.map (fun o' => if o'.slot = o.slot then { o' with quantity := q } else o') = m := by
    intro m hm
    refine (List.map_congr_left fun o' ho' => ?_).trans (List.map_id _)
    rw [if_neg (hm o' ho')]
    rfl
  have hl1 := hid l fun o' ho' => h3 _ (List.mem_map_of_mem ho') _ List.mem_cons_self
  have hl2 := hid l' fun o' ho' e => h2 (e ▸ List.mem_map_of_mem ho')
  simp only [setQuantity, hl, List.map_append, List.map_cons, if_true, total_append, total_cons,
    hl1, hl2]
  omega

/-! ## Trading -/

@[simp] theorem trade_zero (v : QueueBook) (l : List Resting) : v.trade l 0 = (v, 0) := by
  cases l with
  | nil => rfl
  | cons o l => simp [trade]

theorem trade_append (l l' : List Resting) :
    ∀ (v : QueueBook) (q : Nat), v.trade (l ++ l') q = (v.trade l q).1.trade l' (v.trade l q).2 := by
  induction l with
  | nil => exact fun v q => rfl
  | cons o l ih =>
    intro v q
    simp only [List.cons_append, trade]
    split_ifs
    · simp
    · exact ih _ _
    · simp

/-- What is left after trading. -/
theorem trade_snd : ∀ (v : QueueBook) (l : List Resting) (q : Nat),
    (v.trade l q).2 = q - total l
  | v, [], q => rfl
  | v, o :: l, q => by
    simp only [trade, total_cons]
    split_ifs with h0 hle
    · omega
    · rw [trade_snd]
      omega
    · simp only
      omega

/-- `l` lists distinct resting orders of `v`. -/
def Lists (v : QueueBook) (l : List Resting) : Prop :=
  (∀ o ∈ l, ∃ s p, v.At s p o) ∧ (slots l).Nodup

theorem Lists.tail (h : v.Lists (o :: l)) : (v.remove o.slot o.id).Lists l := by
  obtain ⟨h1, h2⟩ := h
  obtain ⟨hnot, hnd⟩ := List.nodup_cons.mp h2
  refine ⟨fun o' ho' => ?_, hnd⟩
  obtain ⟨s, p, h⟩ := h1 o' (List.mem_cons_of_mem _ ho')
  exact ⟨s, p, at_remove.mpr ⟨h, fun e => hnot (List.mem_map.mpr ⟨o', ho', e⟩)⟩⟩

theorem Lists.head (h : v.Lists (o :: l)) : ∃ s p, v.At s p o := h.1 o List.mem_cons_self

/-- A predicate kept by removals and by quantity decreases is kept by `trade`. -/
theorem trade_induct {P : QueueBook → Prop} (hw : v.Wf) (hl : v.Lists l) (hv : P v)
    (hrem : ∀ {v s p o}, v.Wf → P v → v.At s p o → P (v.remove o.slot o.id))
    (hset : ∀ {v s p o q}, v.Wf → P v → v.At s p o → 0 < q → q < o.quantity →
      P (v.setQuantity o.slot q)) : P (v.trade l q).1 := by
  induction l generalizing v q with
  | nil => exact hv
  | cons o l ih =>
    obtain ⟨s, p, ho⟩ := hl.head
    unfold trade
    split_ifs
    · exact hv
    · exact ih (hw.remove ho) hl.tail (hrem hw hv ho)
    · exact hset hw hv ho (by omega) (by omega)

theorem Wf.trade (hw : v.Wf) (hl : v.Lists l) : (v.trade l q).1.Wf :=
  trade_induct hw hl hw (fun hw _ ho => hw.remove ho) fun hw _ ho hq hlt =>
    hw.setQuantity hq (hlt.trans (hw.quantity_lt ho))

theorem Addressable.trade (ha : v.Addressable) (hw : v.Wf) (hl : v.Lists l) :
    (v.trade l q).1.Addressable :=
  trade_induct hw hl ha (fun _ ha ho => ha.remove ho) fun _ ha _ _ _ => ha.setQuantity

theorem trade_prices_subset (hw : v.Wf) (hl : v.Lists l) :
    (v.trade l q).1.prices s ⊆ v.prices s :=
  trade_induct (P := fun w => w.prices s ⊆ v.prices s) hw hl subset_rfl
    (fun _ h _ => remove_prices_subset.trans h) fun _ h _ _ _ => by
      rw [setQuantity_prices]
      exact h

/-- Trading a whole list removes exactly its orders. -/
theorem at_trade_of_le (hq : total l ≤ q) (hpos : ∀ o ∈ l, 0 < o.quantity) :
    (v.trade l q).1.At s p o ↔ v.At s p o ∧ o.slot ∉ slots l := by
  induction l generalizing v q with
  | nil => simp [trade]
  | cons o' l ih =>
    rw [total_cons] at hq
    have h0 := hpos o' List.mem_cons_self
    unfold trade
    rw [if_neg (by omega), if_pos (by omega),
      ih (by omega) fun o ho => hpos o (List.mem_cons_of_mem _ ho), at_remove, and_assoc]
    simp [slots]

/-- Queues without traded orders are untouched. -/
theorem trade_queue_eq (h : ∀ o ∈ v.queue s p, o.slot ∉ slots l) :
    (v.trade l q).1.queue s p = v.queue s p := by
  induction l generalizing v q with
  | nil => rfl
  | cons o' l ih =>
    have hne : ∀ o ∈ v.queue s p, o.slot ≠ o'.slot := fun o ho e =>
      h o ho (e ▸ List.mem_cons_self)
    have hrem : (v.remove o'.slot o'.id).queue s p = v.queue s p := remove_queue_eq hne
    unfold trade
    split_ifs
    · rfl
    · rw [ih, hrem]
      rw [hrem]
      exact fun o ho hm => h o ho (List.mem_cons_of_mem _ hm)
    · exact setQuantity_queue_eq hne

end QueueBook

end MarketHandler
