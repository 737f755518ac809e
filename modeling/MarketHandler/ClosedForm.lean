import MarketHandler.Determined
import MarketHandler.Invariants
import MarketHandler.Lib.Ration

/-!
# The closed form of a match

What `match_order` does to the book, said without its loops: the opposing orders whose price crosses
the limit, best price first and in queue order, are served in turn (`Lib.left`) from the incoming
quantity.

* `QueueBook.trade_eq_fill`: on queues, trading order by order is this allocation. The induction is
  on the list of crossing orders, with one lemma for each way a trade ends.
* `closed_form`: **what `match_order` returns and the book it leaves.**
-/

namespace MarketHandler

open Lib

/-- The order with the quantity `r` gives it, if any. -/
def Resting.short (r : Nat → Nat) (o : Resting) : Option Resting :=
  if 0 < r o.slot then some { o with quantity := r o.slot } else none

namespace QueueBook

variable {v : QueueBook} {s : Bool} {p q : Nat} {o : Resting} {l : List Resting} {done : List Nat}
  {amount r r' : Nat → Nat}

/-- Every order keeps the quantity `r` gives to its slot; the slots `done` are freed in turn. -/
def fill (v : QueueBook) (r : Nat → Nat) (done : List Nat) : QueueBook where
  queue s p := (v.queue s p).filterMap (Resting.short r)
  free := done.reverse ++ v.free
  byId id := (v.byId id).filter fun x => 0 < r x

theorem at_fill : (v.fill r done).At s p o ↔
    ∃ o', v.At s p o' ∧ 0 < r o'.slot ∧ o = { o' with quantity := r o'.slot } := by
  unfold At fill Resting.short
  simp only [List.mem_filterMap]
  constructor
  · rintro ⟨o', ho', he⟩
    split_ifs at he with hpos
    exact ⟨o', ho', hpos, (Option.some.inj he).symm⟩
  · rintro ⟨o', ho', hpos, rfl⟩
    exact ⟨o', ho', by rw [if_pos hpos]⟩

theorem slots_fill : slots ((v.fill r done).queue s p) =
    (slots (v.queue s p)).filter fun x => 0 < r x := by
  unfold fill
  dsimp only
  induction v.queue s p with
  | nil => rfl
  | cons o l ih =>
    simp only [slots, List.map_cons, List.filterMap_cons, Resting.short, List.filter_cons,
      decide_eq_true_eq]
    split_ifs
    · rw [List.map_cons]
      exact congrArg (o.slot :: ·) ih
    · exact ih

/-- A queue none of whose orders is served is as it was. -/
theorem fill_queue_eq (h : ∀ o ∈ v.queue s p, r o.slot = o.quantity ∧ 0 < o.quantity) :
    (v.fill r done).queue s p = v.queue s p := by
  show (v.queue s p).filterMap (Resting.short r) = v.queue s p
  rw [List.filterMap_congr (g := some) fun o ho => ?_, List.filterMap_some]
  obtain ⟨hr, hpos⟩ := h o ho
  rw [Resting.short, if_pos (by omega), hr]

/-- Nothing is served. -/
theorem fill_self (hw : v.Wf) (hr : ∀ {s p o}, v.At s p o → r o.slot = o.quantity) :
    v.fill r [] = v := by
  refine QueueBook.ext ?_ rfl ?_
  · funext s p
    exact fill_queue_eq fun o ho => ⟨hr ho, hw.quantity_pos ho⟩
  · funext id
    show (v.byId id).filter _ = v.byId id
    cases hx : v.byId id with
    | none => rfl
    | some x =>
      obtain ⟨s, p, o, ho, rfl, -⟩ := hw.byId_sound hx
      have := hw.quantity_pos ho
      rw [Option.filter_some, hr ho, if_pos (decide_eq_true this)]

/-- The order that is served in full leaves, and its slot is the first freed. -/
theorem fill_remove (hw : v.Wf) (ha : v.Addressable) (ho : v.At s p o) (h0 : r o.slot = 0)
    (hr : ∀ x, x ≠ o.slot → r' x = r x) :
    (v.remove o.slot o.id).fill r' done = v.fill r (o.slot :: done) := by
  refine QueueBook.ext ?_ ?_ ?_
  · funext s' p'
    show ((v.queue s' p').filter (·.slot ≠ o.slot)).filterMap (Resting.short r') =
      (v.queue s' p').filterMap (Resting.short r)
    rw [List.filterMap_filter]
    refine List.filterMap_congr fun o' _ => ?_
    unfold Resting.short
    by_cases he : o'.slot = o.slot
    · simp [he, h0]
    · simp [he, hr _ he]
  · simp [fill, remove]
  · funext id
    show (Function.update v.byId o.id none id).filter _ = (v.byId id).filter _
    by_cases hid : id = o.id
    · subst hid
      rw [Function.update_self, ha _ _ _ ho, Option.filter_some, h0]
      rfl
    · rw [Function.update_of_ne hid]
      cases hx : v.byId id with
      | none => rfl
      | some x =>
        obtain ⟨s', p', o', ho', rfl, rfl⟩ := hw.byId_sound hx
        have hne : o'.slot ≠ o.slot := fun he =>
          hid (congrArg Resting.id (hw.slot_inj ho' ho he).2.2)
        rw [Option.filter_some, Option.filter_some, hr _ hne]

/-- The order that is served in part keeps its place. -/
theorem fill_setQuantity (hw : v.Wf) (hq : 0 < q) (hself : r o.slot = q)
    (hr : ∀ {s' p' o'}, v.At s' p' o' → o'.slot ≠ o.slot → r o'.slot = o'.quantity) :
    v.fill r [] = v.setQuantity o.slot q := by
  refine QueueBook.ext ?_ rfl ?_
  · funext s' p'
    show (v.queue s' p').filterMap (Resting.short r) = (v.queue s' p').map _
    rw [← List.filterMap_eq_map]
    refine List.filterMap_congr fun o' ho' => ?_
    unfold Resting.short
    by_cases he : o'.slot = o.slot
    · simp [he, hself, hq]
    · simp [he, hr ho' he, hw.quantity_pos ho']
  · funext id
    show (v.byId id).filter _ = v.byId id
    cases hx : v.byId id with
    | none => rfl
    | some x =>
      obtain ⟨s', p', o', ho', rfl, -⟩ := hw.byId_sound hx
      have hpos : 0 < r o'.slot := by
        by_cases he : o'.slot = o.slot
        · rw [he, hself]
          exact hq
        · rw [hr ho' he]
          exact hw.quantity_pos ho'
      rw [Option.filter_some, if_pos (decide_eq_true hpos)]

/-- **Trading is serving the orders in turn.** -/
theorem trade_eq_fill (hw : v.Wf) (ha : v.Addressable) (hl : v.Lists l)
    (hamount : ∀ {s p o}, v.At s p o → amount o.slot = o.quantity) :
    (v.trade l q).1 = v.fill (left amount (slots l) q)
      ((slots l).filter fun x => left amount (slots l) q x = 0) := by
  induction l generalizing v q with
  | nil => exact (fill_self hw fun ho => (left_of_not_mem List.not_mem_nil).trans (hamount ho)).symm
  | cons o l ih =>
    obtain ⟨s, p, ho⟩ := hl.head
    have hpos := hw.quantity_pos ho
    have hnot : o.slot ∉ slots l := (List.nodup_cons.mp hl.2).1
    have hself : left amount (o.slot :: slots l) q o.slot = o.quantity - min o.quantity q := by
      rw [left_cons_self, hamount ho]
    have hother : ∀ x, x ≠ o.slot → left amount (slots l) (q - o.quantity) x =
        left amount (o.slot :: slots l) q x := fun x hx => by
      rw [left_cons_of_ne hx, hamount ho]
    simp only [List.map_cons] at hself hother ⊢
    unfold trade
    by_cases hle : o.quantity ≤ q
    -- the order is served in full, and the rest of the list from what is left
    · rw [if_neg (by omega), if_pos hle]
      have hzero : left amount (o.slot :: slots l) q o.slot = 0 := by omega
      rw [ih (hw.remove ho) (ha.remove ho) hl.tail fun h => hamount (at_remove.mp h).1,
        fill_remove hw ha ho hzero hother]
      have hdone : (slots l).filter (fun x => left amount (slots l) (q - o.quantity) x = 0) =
          (slots l).filter fun x => left amount (o.slot :: slots l) q x = 0 :=
        List.filter_congr fun x hx => by rw [hother x (ne_of_mem_of_not_mem hx hnot)]
      rw [List.filter_cons_of_pos (by simpa using hzero), hdone]
    -- nothing is freed
    have hnone : (o.slot :: slots l).filter
        (fun x => left amount (o.slot :: slots l) q x = 0) = [] := by
      refine List.filter_eq_nil_iff.mpr fun x hx => ?_
      rw [decide_eq_true_eq]
      rcases List.mem_cons.mp hx with rfl | hx
      · omega
      · obtain ⟨o', ho', rfl⟩ := List.mem_map.mp hx
        obtain ⟨s', p', ho'⟩ := hl.1 o' (List.mem_cons_of_mem _ ho')
        rw [← hother _ (ne_of_mem_of_not_mem hx hnot), Nat.sub_eq_zero_of_le (by omega), left_zero,
          hamount ho']
        exact (hw.quantity_pos ho').ne'
    have hrest : ∀ {s' p' o'}, v.At s' p' o' → o'.slot ≠ o.slot →
        left amount (o.slot :: slots l) q o'.slot = o'.quantity := fun ho' hne => by
      rw [← hother _ hne, Nat.sub_eq_zero_of_le (by omega), left_zero, hamount ho']
    rw [hnone, if_neg hle]
    split_ifs with h0
    · refine (fill_self hw fun {s' p' o'} ho' => ?_).symm
      rw [h0, left_zero, hamount ho']
    · exact (fill_setQuantity hw (by omega) (by omega) hrest).symm

end QueueBook

namespace OrderBook

/-- The quantity of the order in slot `x`. -/
def quantity (b : OrderBook) (x : Nat) : Nat := (b.pool.pool x).quantity

/-- `l` lists the opposing resting orders whose price crosses `limit`, best price first and in queue
order within a price. -/
def Crossing (b : OrderBook) (isBuy : Bool) (limit : Nat) (l : List Nat) : Prop :=
  ∃ queue : Nat → List Nat, (∀ p, b.Queue (!isBuy) p (queue p)) ∧
    l = ((QueueBook.priceOrder isBuy).filter (QueueBook.crosses isBuy limit)).flatMap queue

/-- `match_order` with the quantity `q` served the orders `l` in turn: `left b.quantity l q x` is left
of the order in slot `x`. -/
structure Serves (b : OrderBook) (isBuy : Bool) (l : List Nat) (q : Nat) (b' : OrderBook) :
    Prop where
  nodup : l.Nodup
  /-- An order with quantity left keeps its id, side and price. -/
  entry : ∀ x, b.Rests x → 0 < left b.quantity l q x →
    b'.entry x = { b.entry x with quantity := left b.quantity l q x }
  /-- Exactly the orders with nothing left are unlinked. -/
  queue : ∀ s p k, b.Queue s p k → b'.Queue s p (k.filter fun x => 0 < left b.quantity l q x)
  total : ∀ s p k, b.Queue s p k →
    (b'.side s p).totalQuantity = (k.map (left b.quantity l q)).sum
  /-- Exactly these are removed from the id table. -/
  map : ∀ id, b'.orderMap id = (b.orderMap id).filter fun x => 0 < left b.quantity l q x
  /-- Exactly these return to the pool. -/
  freeList : b'.pool.freeList =
    (l.filter fun x => left b.quantity l q x = 0).reverse ++ b.pool.freeList
  /-- None is touched while a better-ranked one has quantity left. -/
  priority : ∀ l₁ x l₂, l = l₁ ++ x :: l₂ → ∀ y ∈ l₂, left b.quantity l q y ≠ b.quantity y →
    left b.quantity l q x = 0
  /-- At most one is left partially filled. -/
  partly : ∀ x ∈ l, ∀ y ∈ l, 0 < left b.quantity l q x → left b.quantity l q x < b.quantity x →
    0 < left b.quantity l q y → left b.quantity l q y < b.quantity y → x = y
  /-- Every level without a touched order is as it was, with its orders. -/
  level : ∀ s p k, b.Queue s p k → (∀ x ∈ k, left b.quantity l q x = b.quantity x) →
    b'.side s p = b.side s p ∧ ∀ x ∈ k, b'.pool.pool x = b.pool.pool x
  /-- The side of the incoming order is as it was. -/
  own : ∀ p k, b.Queue isBuy p k →
    b'.side isBuy p = b.side isBuy p ∧ ∀ x ∈ k, b'.pool.pool x = b.pool.pool x
  ownBits : b'.bits isBuy = b.bits isBuy
  ownBest : if isBuy then b'.bestBid = b.bestBid else b'.bestAsk = b.bestAsk

end OrderBook

open OrderBook

variable {b b' : OrderBook} {v : QueueBook} {s isBuy : Bool} {p q : Nat} {o : Resting}
  {l done : List Nat} {r : Nat → Nat} {ops : List Op}

theorem Rep.quantity_eq (h : Rep b v) (ho : v.At s p o) : b.quantity o.slot = o.quantity :=
  (h.fields ho).2.2.1

/-- The crossing orders of the book are those of its queues. -/
theorem Rep.crossing (h : Rep b v) (isBuy : Bool) (p : Nat) :
    b.Crossing isBuy p (slots (v.crossing isBuy p)) := by
  refine ⟨fun p => slots (v.queue (!isBuy) p), fun p => h.queue_iff.mpr rfl, ?_⟩
  rw [QueueBook.crossing_eq, slots, List.map_flatMap]

/-- No order of the incoming side is served. -/
theorem QueueBook.Slots.left_own (hv : v.Slots) (ho : v.At isBuy p o) {amount : Nat → Nat}
    {limit : Nat} : left amount (slots (v.crossing isBuy limit)) q o.slot = amount o.slot := by
  refine left_of_not_mem fun hm => ?_
  obtain ⟨o', ho', he⟩ := List.mem_map.mp hm
  obtain ⟨p', -, -, ho'⟩ := QueueBook.mem_crossing.mp ho'
  have := (hv.slot_inj ho' ho he).1
  simp at this

/-- A level whose orders are not served is as it was, with its orders. -/
theorem Rep.fill_level (h : Rep b v) (hw : v.Wf) (h' : Rep b' (v.fill r done))
    (hr : ∀ o ∈ v.queue s p, r o.slot = b.quantity o.slot) :
    b'.side s p = b.side s p ∧ ∀ x ∈ slots (v.queue s p), b'.pool.pool x = b.pool.pool x := by
  have hq : (v.fill r done).queue s p = v.queue s p := QueueBook.fill_queue_eq fun o ho =>
    ⟨(hr o ho).trans (h.quantity_eq ho), hw.quantity_pos ho⟩
  refine ⟨h'.side_eq h hq, fun x hx => ?_⟩
  obtain ⟨o, ho, rfl⟩ := List.mem_map.mp hx
  refine h'.order_eq h hq (s := s) (p := p) ?_
  unfold QueueBook.At
  rw [hq]
  exact ho

/-- The total of a level after its orders are served. -/
theorem QueueBook.total_fill :
    total ((v.fill r done).queue s p) = ((slots (v.queue s p)).map r).sum := by
  show total ((v.queue s p).filterMap (Resting.short r)) = _
  induction v.queue s p with
  | nil => rfl
  | cons o k ih =>
    rw [slots, List.map_cons, List.map_cons, List.sum_cons, ← slots, ← ih, List.filterMap_cons]
    unfold Resting.short
    split_ifs with hpos
    · rfl
    · rw [Nat.eq_zero_of_not_pos hpos, Nat.zero_add]

/-- **The book after a match, in closed form.** -/
theorem Rep.serves (h : Rep b v) (hw : v.Wf) (hl : l = slots (v.crossing isBuy p))
    (h' : Rep b' (v.fill (left b.quantity l q) (l.filter fun x => left b.quantity l q x = 0))) :
    b.Serves isBuy l q b' := by
  have hn : l.Nodup := hl ▸ (hw.lists_crossing isBuy p).2
  have hown : ∀ p', ∀ o ∈ v.queue isBuy p', left b.quantity l q o.slot = b.quantity o.slot :=
    fun p' o ho => by rw [hl, hw.toSlots.left_own ho]
  have hprices : (v.fill (left b.quantity l q)
      (l.filter fun x => left b.quantity l q x = 0)).prices isBuy = v.prices isBuy := by
    ext p'
    unfold QueueBook.prices
    rw [Set.mem_ofPred_eq, Set.mem_ofPred_eq, QueueBook.fill_queue_eq fun o ho =>
      ⟨(hown p' o ho).trans (h.quantity_eq ho), hw.quantity_pos ho⟩]
  refine
    { nodup := hn, entry := fun x hx hpos => ?_, queue := fun s p' k hk => ?_,
      total := fun s p' k hk => ?_, map := fun id => ?_, freeList := ?_,
      priority := fun l₁ x l₂ he y hy hne => ?_,
      partly := fun x hx y hy => partial_unique hn hx hy, level := fun s p' k hk hr => ?_,
      own := fun p' k hk => ?_, ownBits := h'.bits_eq h hprices, ownBest := ?_ }
  · obtain ⟨s, p', o, ho, rfl⟩ := h.rests_iff.mp hx
    rw [h.entry_eq ho]
    exact h'.entry_eq (QueueBook.at_fill.mpr ⟨o, ho, hpos, rfl⟩)
  · obtain rfl := h.queue_iff.mp hk
    rw [h'.queue_iff, QueueBook.slots_fill]
  · obtain rfl := h.queue_iff.mp hk
    rw [(h'.level s p').total_eq]
    exact QueueBook.total_fill
  · rw [h'.map, h.map]
    rfl
  · rw [h'.free, h.free]
    rfl
  · subst he
    exact left_eq_zero_of_touched hn hy hne
  · obtain rfl := h.queue_iff.mp hk
    exact h.fill_level hw h' fun o ho => hr _ (List.mem_map_of_mem ho)
  · obtain rfl := h.queue_iff.mp hk
    exact h.fill_level hw h' (hown p')
  · cases isBuy
    · exact h'.bestAsk_eq h hprices
    · exact h'.bestBid_eq h hprices

/-- **The closed form of a match.** In every book that calls with fresh ids lead to, and for every
price in range and every quantity: `match_order` returns the quantity less what the crossing orders
have, and serves them in turn. -/
theorem closed_form (h : Reaches Allowed ops b) (h1 : 1 ≤ p) (hp : p < maxTicks) (q : Nat)
    (isBuy : Bool) : ∃ l fuel b', b.Crossing isBuy p l ∧
      b.matchOrder sub64 fuel p q isBuy = .ok (b', q - min q (l.map b.quantity).sum) ∧
      b.Serves isBuy l q b' := by
  obtain ⟨v, hrep, hw, ha⟩ := h.rep_allowed
  obtain ⟨fuel, b', hb', hrep'⟩ := matchOrder_returns hrep hw
    (.of_pos h1 : v.Ends isBuy p q) hp
  have hl := hw.lists_crossing isBuy p
  have hsum : ((slots (v.crossing isBuy p)).map b.quantity).sum = total (v.crossing isBuy p) := by
    rw [slots, List.map_map]
    refine congrArg List.sum (List.map_congr_left fun o ho => ?_)
    obtain ⟨s, p', ho⟩ := hl.1 o ho
    exact hrep.quantity_eq ho
  have hrem : (v.trade (v.crossing isBuy p) q).2 =
      q - min q ((slots (v.crossing isBuy p)).map b.quantity).sum := by
    rw [QueueBook.trade_snd, hsum]
    omega
  rw [QueueBook.trade_eq_fill hw ha hl hrep.quantity_eq] at hrep'
  exact ⟨_, fuel, b', hrep.crossing isBuy p, hrem ▸ hb', hrep.serves hw rfl hrep'⟩

/-- A bid that sweeps the ask at 100 and part of the ask at 101. -/
theorem closed_form_sweep : ∃ b l fuel b', Reaches Allowed
    [.add 1 100 5 false, .add 2 101 4 false] b ∧ b.Crossing true 101 l ∧
    b.matchOrder sub64 fuel 101 7 true = .ok (b', 7 - min 7 (l.map b.quantity).sum) ∧
    b.Serves true l 7 b' := by
  have hallows : RefBook.Allows [] [.add 1 100 5 false, .add 2 101 4 false] := by decide +kernel
  obtain ⟨b, hb⟩ := hallows.reaches
  obtain ⟨l, fuel, b', hl, hrun, hserves⟩ :=
    closed_form hb (p := 101) (by decide) (by decide) 7 true
  exact ⟨b, l, fuel, b', hb, hl, hrun, hserves⟩

end MarketHandler
