import MarketHandler.Calls
import MarketHandler.Lib.Run

/-!
# Runs of calls

What the pointers of a book say (`OrderBook.Queue`, `RestsAt`, `HasId`), the conditions a call may
be asked to meet in the state it finds (`Op.Valid`, `OrderBook.Fresh`, `OrderBook.Fits`), and the
books that runs of such calls lead to (`OrderBook.Reaches`).

* `Mem.queue_iff`, `Mem.restsAt_iff`, `Mem.hasId_iff`: the pointers say what the queues say.
* `Reaches.rep_of`: runs of calls that the tables hold and whose remainders fit lead to books that
  represent well-formed queues.
* `Reaches.rep_fresh`: with fresh ids every resting order is addressable, too.
-/

namespace MarketHandler

open Lib

namespace OrderBook

/-- The level at `price` on the side `isBuy` links the slots `l`, front first. -/
def Queue (b : OrderBook) (isBuy : Bool) (price : Nat) (l : List Nat) : Prop :=
  Linked b.pool.prev b.pool.next (b.side isBuy price).head (b.side isBuy price).tail l

instance (b : OrderBook) (isBuy : Bool) (price : Nat) (l : List Nat) :
    Decidable (b.Queue isBuy price l) :=
  inferInstanceAs (Decidable (Linked ..))

/-- The order in slot `x` is linked in the level. -/
def RestsAt (b : OrderBook) (isBuy : Bool) (price x : Nat) : Prop :=
  ∃ l, b.Queue isBuy price l ∧ x ∈ l

/-- The order in slot `x` is linked in some level. -/
def Rests (b : OrderBook) (x : Nat) : Prop := ∃ isBuy price, b.RestsAt isBuy price x

/-- Some resting order has the id. -/
def HasId (b : OrderBook) (id : Nat) : Prop := ∃ x, b.Rests x ∧ (b.pool.pool x).id = id

/-- An add names an id that no resting order has. -/
def Fresh (b : OrderBook) : Op → Prop
  | .add id _ _ _ => ¬ b.HasId id
  | .cancel _ => True
  | .modify _ _ _ => True

/-- A call in range with a small quantity; an add's id is fresh. -/
def Allowed (b : OrderBook) (op : Op) : Prop := op.Valid ∧ b.Fresh op

/-- The quantity that rests at the opposing prices a limit price crosses. -/
def crossingQuantity (b : OrderBook) (isBuy : Bool) (price : Nat) : Nat :=
  (((List.range maxTicks).filter (QueueBook.crosses isBuy price)).map
    fun p => (b.side (!isBuy) p).totalQuantity).sum

/-- What an add, or the add of a replacing modify, leaves to rest fits in the bit-field. -/
def Fits (b : OrderBook) : Op → Prop
  | .add _ price qty isBuy => qty - b.crossingQuantity isBuy price < 2 ^ 31
  | .cancel _ => True
  | .modify id newPrice newQty => ∀ order, b.orderMap id = some order →
      newPrice ≠ (b.pool.pool order).price ∨ (b.pool.pool order).quantity < newQty →
      newQty - b.crossingQuantity (b.pool.pool order).isBuy newPrice < 2 ^ 31

/-- The ids and prices of a call fit the tables, and what it leaves to rest fits the bit-field. -/
def InBounds (b : OrderBook) (op : Op) : Prop := op.InTables ∧ b.Fits op

/-- The books that runs of calls from the empty book lead to, each call allowed by `ok` in the
state it meets. -/
def Reaches (ok : OrderBook → Op → Prop) : List Op → OrderBook → Prop :=
  Run (fun b op b' => ok b op ∧ b.Calls op b') OrderBook.init

theorem fits_of_smallQuantity {b : OrderBook} {op : Op} (h : op.SmallQuantity) : b.Fits op := by
  cases op with
  | add id price qty isBuy => exact Nat.lt_of_le_of_lt (Nat.sub_le _ _) h
  | cancel id => trivial
  | modify id price qty => exact fun _ _ _ => Nat.lt_of_le_of_lt (Nat.sub_le _ _) h

theorem Reaches.inBounds {ops : List Op} {b : OrderBook} (h : Reaches (fun _ op => op.Valid) ops b) :
    Reaches InBounds ops b :=
  Run.mono h fun h => ⟨⟨h.1.1.inTables, fits_of_smallQuantity h.1.2⟩, h.2⟩

end OrderBook

variable {b b' : OrderBook} {v v' : QueueBook} {op : Op} {ops : List Op} {s isBuy : Bool}
  {p id x : Nat} {l : List Nat}

/-! ## From pointers to queues -/

theorem Mem.queue_iff (h : Mem b v) : b.Queue s p l ↔ l = slots (v.queue s p) := by
  constructor
  · exact fun hl => hl.unique (h.level s p).linked
  · rintro rfl
    exact (h.level s p).linked

theorem Mem.restsAt_iff (h : Mem b v) : b.RestsAt s p x ↔ ∃ o, v.At s p o ∧ o.slot = x := by
  unfold OrderBook.RestsAt
  simp only [h.queue_iff, exists_eq_left, slots, List.mem_map, QueueBook.At]

theorem Mem.rests_iff (h : Mem b v) : b.Rests x ↔ ∃ s p o, v.At s p o ∧ o.slot = x := by
  simp only [OrderBook.Rests, h.restsAt_iff]

theorem Mem.rests (h : Mem b v) {o : Resting} (ho : v.At s p o) : b.Rests o.slot :=
  h.rests_iff.mpr ⟨s, p, o, ho, rfl⟩

theorem Mem.hasId_iff (h : Mem b v) : b.HasId id ↔ ∃ s p o, v.At s p o ∧ o.id = id := by
  unfold OrderBook.HasId
  simp only [h.rests_iff]
  constructor
  · rintro ⟨_, ⟨s, p, o, ho, rfl⟩, he⟩
    exact ⟨s, p, o, ho, (h.fields ho).1.symm.trans he⟩
  · rintro ⟨s, p, o, ho, he⟩
    exact ⟨o.slot, ⟨s, p, o, ho, rfl⟩, (h.fields ho).1.trans he⟩

/-- An addressable order is the id table's entry for its id. -/
theorem Rep.map_eq_of_rests (h : Rep b v) (ha : v.Addressable) (hx : b.Rests x) :
    b.orderMap (b.pool.pool x).id = some x := by
  obtain ⟨s, p, o, ho, rfl⟩ := h.rests_iff.mp hx
  rw [h.map, (h.fields ho).1]
  exact ha _ _ _ ho

theorem Rep.fresh (h : Rep b v) (hf : b.Fresh op) : v.Fresh op := by
  cases op with
  | add id price qty isBuy => exact fun s p o ho he => hf (h.hasId_iff.mpr ⟨s, p, o, ho, he⟩)
  | cancel id => trivial
  | modify id price qty => trivial

theorem total_flatMap (ps : List Nat) (f : Nat → List Resting) :
    total (ps.flatMap f) = (ps.map fun p => total (f p)).sum := by
  induction ps with
  | nil => rfl
  | cons p ps ih => rw [List.flatMap_cons, total_append, ih, List.map_cons, List.sum_cons]

/-- The level totals of the crossed prices add up to the quantity of the crossing orders. -/
theorem Rep.crossingQuantity_eq (h : Rep b v) (isBuy : Bool) (p : Nat) :
    b.crossingQuantity isBuy p = total (v.crossing isBuy p) := by
  have htot : ∀ p', (b.side (!isBuy) p').totalQuantity = total (v.queue (!isBuy) p') :=
    fun p' => (h.level _ p').total_eq
  rw [QueueBook.crossing_eq, total_flatMap]
  unfold OrderBook.crossingQuantity
  simp only [htot]
  cases isBuy
  · simp only [QueueBook.priceOrder, Bool.false_eq_true, if_false, List.filter_reverse,
      List.map_reverse, List.sum_reverse]
  · simp only [QueueBook.priceOrder, if_true]

theorem QueueBook.Wf.total_crossing_eq_zero (hw : v.Wf) {limit : Nat}
    (h0 : total (v.crossing isBuy limit) = 0) : v.crossing isBuy limit = [] := by
  by_contra hne
  obtain ⟨o, ho⟩ := List.exists_mem_of_ne_nil _ hne
  obtain ⟨p, -, -, h⟩ := QueueBook.mem_crossing.mp ho
  have := hw.quantity_pos h
  have := le_total ho
  omega

theorem Rep.fits (h : Rep b v) (hf : b.Fits op) : v.Fits op := by
  cases op with
  | add id price qty isBuy =>
    show qty - total _ < 2 ^ 31
    rw [← h.crossingQuantity_eq]
    exact hf
  | cancel id => trivial
  | modify id price qty =>
    intro s p o ho hx hne
    obtain ⟨-, hprice, hquant, hbuy⟩ := h.fields ho
    have := hf o.slot (by rw [h.map, hx])
    rw [hprice, hquant, hbuy, h.crossingQuantity_eq] at this
    exact this hne

/-! ## Runs -/

theorem Rep.returns (h : Rep b v) (hw : v.Wf) (hop : op.Valid) : ∃ b', b.Returns op b' := by
  obtain ⟨b', -, hb', -⟩ := apply_spec h hw hop.1.inTables
    (QueueBook.fits_of_smallQuantity hop.2) (QueueBook.settles_of_inRange hop.1)
  exact ⟨b', hb'⟩

theorem Rep.exists_calls (h : Rep b v) (hw : v.Wf) (hop : op.Valid) : ∃ b', b.Calls op b' := by
  obtain ⟨b', hb'⟩ := h.returns hw hop
  exact ⟨b', hb'.calls⟩

namespace OrderBook

variable {ok : OrderBook → Op → Prop}

/-- **Runs of calls the tables hold and whose remainders fit represent well-formed queues**, and
whatever else every call keeps of the queues and the calls so far. -/
theorem Reaches.rep_of {I : List Op → QueueBook → Prop}
    (hok : ∀ {b op}, ok b op → op.InTables ∧ b.Fits op) (h : Reaches ok ops b) (h0 : I [] .empty)
    (hstep : ∀ {ops b op v v'}, Rep b v → v.Wf → I ops v → ok b op → v.Step op v' →
      I (ops ++ [op]) v') : ∃ v, Rep b v ∧ v.Wf ∧ I ops v := by
  refine Run.simulation (R := fun ops b v => Rep b v ∧ v.Wf ∧ I ops v) h ⟨rep_init, .empty, h0⟩ ?_
  rintro ops b v op b' ⟨hrep, hw, hI⟩ ⟨hop, hc⟩
  obtain ⟨hin, hfit⟩ := hok hop
  have hfit := hrep.fits hfit
  obtain ⟨v', hcall, hrep'⟩ := hrep.calls hw hin hfit hc
  exact ⟨v', hrep', hw.step hin hfit hcall, hstep hrep hw hI hop hcall⟩

/-- **With fresh ids every resting order is addressable.** -/
theorem Reaches.rep_fresh (hok : ∀ {b op}, ok b op → op.InTables ∧ b.Fits op ∧ b.Fresh op)
    (h : Reaches ok ops b) : ∃ v, Rep b v ∧ v.Wf ∧ v.Addressable :=
  h.rep_of (I := fun _ v => v.Addressable) (fun hop => ⟨(hok hop).1, (hok hop).2.1⟩)
    (fun _ _ _ h => absurd h List.not_mem_nil)
    fun hrep hw ha hop hstep => ha.step hw (hrep.fresh (hok hop).2.2) hstep

end OrderBook

end MarketHandler
