import Mathlib.Algebra.BigOperators.Ring.Finset
import Mathlib.Algebra.Order.Group.Int
import MarketHandler.Additive
import MarketHandler.Lib.Loop
import MarketHandler.Termination

/-!
# The work of the matching engine

The loops of `match_order` without a bound on their iterations, each iteration with what it trades:
a call comes with the passes of its outer loop, a pass with the quantities its inner loop trades.
The potential of a match is the slots in use, and one more while there is a quantity left to fill: a
trade frees a slot or ends the match, and only an add takes a slot that its call does not free.

* `matchOrder_iff`, `OrderBook.calls_iff`: a call returns exactly what its loops end in.
* `trades_potential`, `works_potential`: what a trade and a call take off any book's potential.
* `Mem.trades_pos`, `Rep.passes_pos`: on a book that represents queues, no iteration is idle.
* `work_amortized`: **the trades of all calls of a run are at most its adds**.
-/

namespace MarketHandler

open Lib

/-! ## The loops of `match_order` -/

namespace OrderBook

/-- `resting_order && remaining_qty > 0`. -/
def Filling (x : OrderBook × Option Nat × Nat) : Prop := x.2.1 ≠ none ∧ x.2.2 ≠ 0

/-- An iteration of the inner loop, with the quantity it trades. -/
def Trades (isBuy : Bool) (price : Nat) (x : OrderBook × Option Nat × Nat) (tradeQty : Nat)
    (y : OrderBook × Option Nat × Nat) : Prop :=
  ∃ r, x.2.1 = some r ∧ tradeQty = min (x.1.pool.pool r).quantity x.2.2 ∧
    x.1.tradeOne sub64 isBuy price r x.2.2 = .ok y

/-- `remaining_qty > 0 && is_match`. -/
def Matching (price : Nat) (isBuy : Bool) (x : OrderBook × Nat) : Prop :=
  x.2 ≠ 0 ∧ x.1.isMatch price isBuy = true

/-- An iteration of the outer loop, with the quantities its inner loop trades. -/
def Passes (isBuy : Bool) (x : OrderBook × Nat) (pass : List Nat) (y : OrderBook × Nat) : Prop :=
  ∃ level z, x.1.level (!isBuy) (x.1.matchPrice isBuy) = .ok level ∧
    Loop Filling (Trades (!isBuy) (x.1.matchPrice isBuy)) (x.1, level.head, x.2) pass z ∧
    z.1.settleLevel (!isBuy) (x.1.matchPrice isBuy) = .ok y.1 ∧ y.2 = z.2.2

/-- `match_order`, with its passes. -/
def Matches (b : OrderBook) (price qty : Nat) (isBuy : Bool) (passes : List (List Nat)) :
    OrderBook × Nat → Prop :=
  Loop (Matching price isBuy) (Passes isBuy) (b, qty) passes

/-- What `add_order` does with what its match leaves. -/
def restRemaining (id price : Nat) (isBuy : Bool) (x : OrderBook × Nat) : Exec OrderBook :=
  if x.2 = 0 then return x.1
  else
    match x.1.pool.allocate with
    | (none, _) => return x.1
    | (some order, m) => restOrder { x.1 with pool := m } order id price x.2 isBuy

/-- `add_order`, with the passes of its match. -/
def Adds (b : OrderBook) (id price qty : Nat) (isBuy : Bool) (b' : OrderBook)
    (passes : List (List Nat)) : Prop :=
  ∃ x, b.Matches price qty isBuy passes x ∧ restRemaining id price isBuy x = .ok b'

/-- The call `op` on `b` returns and leaves `b'`, with the passes of its match. -/
inductive Works (b : OrderBook) : Op → OrderBook → List (List Nat) → Prop
  | add {id price qty : Nat} {isBuy : Bool} {b' : OrderBook} {passes : List (List Nat)} :
      b.Adds id price qty isBuy b' passes → Works b (.add id price qty isBuy) b' passes
  | cancel {id : Nat} {b' : OrderBook} :
      b.cancelOrder sub64 id = .ok b' → Works b (.cancel id) b' []
  | modifyUnknown {id newPrice newQty : Nat} :
      b.lookup id = .ok none → Works b (.modify id newPrice newQty) b []
  | modifyReplace {id newPrice newQty order : Nat} {b₁ b' : OrderBook} {passes : List (List Nat)} :
      b.lookup id = .ok (some order) →
      newPrice ≠ (b.pool.pool order).price ∨ (b.pool.pool order).quantity < newQty →
      b.cancelOrder sub64 id = .ok b₁ →
      b₁.Adds id newPrice newQty (b.pool.pool order).isBuy b' passes →
      Works b (.modify id newPrice newQty) b' passes
  | modifyKeep {id newPrice newQty order : Nat} {b' : OrderBook} :
      b.lookup id = .ok (some order) →
      ¬ (newPrice ≠ (b.pool.pool order).price ∨ (b.pool.pool order).quantity < newQty) →
      b.modifyOrder sub64 0 id newPrice newQty = .ok b' → Works b (.modify id newPrice newQty) b' []

end OrderBook

variable {b b' : OrderBook} {v : QueueBook} {s isBuy : Bool} {p limit rem rem' : Nat}
  {r : Option Nat} {op : Op} {ops : List Op} {passes : List (List Nat)}

/-- The inner loop returns what it ends in. -/
theorem fillLevel_iff {x : OrderBook × Option Nat × Nat} {y : OrderBook × Nat} :
    (∃ fuel, x.1.fillLevel sub64 fuel s p x.2.1 x.2.2 = .ok y) ↔
      ∃ pass z, Loop OrderBook.Filling (OrderBook.Trades s p) x pass z ∧ (z.1, z.2.2) = y := by
  refine Loop.iff_fuel (f := fun z : OrderBook × Option Nat × Nat => (z.1, z.2.2))
    (F := fun n (x : OrderBook × Option Nat × Nat) => x.1.fillLevel sub64 n s p x.2.1 x.2.2)
    (B := fun _ (x : OrderBook × Option Nat × Nat) => x.2.1.elim (.error .nullDeref) fun r =>
      x.1.tradeOne sub64 s p r x.2.2) (fun _ => rfl) ?_ ?_ (fun _ _ => Approx.refl _) ?_
  · rintro n ⟨b, r, rem⟩ hg
    cases r with
    | none => rfl
    | some r =>
      have h0 : rem = 0 := by
        by_contra h0
        exact hg ⟨Option.some_ne_none r, h0⟩
      exact if_pos h0
  · rintro n ⟨b, r, rem⟩ ⟨hr, h0⟩
    cases r with
    | none => exact absurd rfl hr
    | some r => exact if_neg h0
  · rintro ⟨b, r, rem⟩ y
    cases r with
    | none =>
      constructor
      · rintro ⟨_, h⟩
        cases h
      · rintro ⟨_, _, h, _⟩
        cases h
    | some r =>
      constructor
      · rintro ⟨_, h⟩
        exact ⟨_, r, rfl, rfl, h⟩
      · rintro ⟨_, r', hr, _, h⟩
        obtain rfl := Option.some.inj hr
        exact ⟨0, h⟩

/-- A pass returns what it ends in. -/
theorem matchPass_iff {x y : OrderBook × Nat} :
    (∃ fuel, x.1.matchPass sub64 fuel isBuy x.2 = .ok y) ↔
      ∃ pass, OrderBook.Passes isBuy x pass y := by
  constructor
  · rintro ⟨fuel, h⟩
    obtain ⟨level, hlevel, h⟩ := bind_eq_ok.mp h
    obtain ⟨⟨b₁, rem₁⟩, hfill, h⟩ := bind_eq_ok.mp h
    obtain ⟨b₂, hsettle, h⟩ := bind_eq_ok.mp h
    obtain rfl := Except.ok.inj h
    obtain ⟨pass, z, hloop, hz⟩ := fillLevel_iff (x := (x.1, level.head, x.2)).mp ⟨fuel, hfill⟩
    obtain ⟨rfl, rfl⟩ := Prod.mk.inj hz
    exact ⟨pass, level, z, hlevel, hloop, hsettle, rfl⟩
  · rintro ⟨pass, level, z, hlevel, hloop, hsettle, hy⟩
    obtain ⟨fuel, hfill⟩ := fillLevel_iff.mpr ⟨pass, z, hloop, rfl⟩
    refine ⟨fuel, bind_eq_ok.mpr ⟨level, hlevel, bind_eq_ok.mpr ⟨_, hfill, ?_⟩⟩⟩
    exact bind_eq_ok.mpr ⟨y.1, hsettle, by rw [← hy]; rfl⟩

/-- **`match_order` returns what its loops end in.** -/
theorem matchOrder_iff {qty : Nat} {y : OrderBook × Nat} :
    (∃ fuel, b.matchOrder sub64 fuel limit qty isBuy = .ok y) ↔
      ∃ passes, b.Matches limit qty isBuy passes y := by
  have h : (∃ fuel, b.matchLoop sub64 fuel limit isBuy qty = .ok y) ↔ ∃ passes z,
      Loop (OrderBook.Matching limit isBuy) (OrderBook.Passes isBuy) (b, qty) passes z ∧
        id z = y := by
    refine Loop.iff_fuel (F := fun n (x : OrderBook × Nat) => x.1.matchLoop sub64 n limit isBuy x.2)
      (B := fun n (x : OrderBook × Nat) => x.1.matchPass sub64 n isBuy x.2) (s := (b, qty))
      (fun _ => rfl) ?_ ?_ (fun n x => OrderBook.matchPass_approx n x.1 isBuy x.2) matchPass_iff
    · rintro n ⟨b, rem⟩ hg
      by_cases h0 : rem = 0
      · exact if_pos h0
      · exact (if_neg h0).trans (if_neg fun hm => hg ⟨h0, hm⟩)
    · rintro n ⟨b, rem⟩ ⟨h0, hm⟩
      exact (if_neg h0).trans (if_pos hm)
  exact h.trans ⟨fun ⟨passes, z, hloop, hz⟩ => ⟨passes, hz ▸ hloop⟩,
    fun ⟨passes, hloop⟩ => ⟨passes, y, hloop, rfl⟩⟩

theorem addOrder_iff {id price qty : Nat} :
    (∃ fuel, b.addOrder sub64 fuel id price qty isBuy = .ok b') ↔
      ∃ passes, b.Adds id price qty isBuy b' passes := by
  constructor
  · rintro ⟨fuel, h⟩
    obtain ⟨x, hmatch, hrest⟩ := bind_eq_ok.mp h
    obtain ⟨passes, hloop⟩ := matchOrder_iff.mp ⟨fuel, hmatch⟩
    exact ⟨passes, x, hloop, hrest⟩
  · rintro ⟨passes, x, hloop, hrest⟩
    obtain ⟨fuel, hmatch⟩ := matchOrder_iff.mpr ⟨passes, hloop⟩
    exact ⟨fuel, bind_eq_ok.mpr ⟨x, hmatch, hrest⟩⟩

/-- A modify that does not replace its order runs no loop. -/
theorem modifyOrder_keep {id price qty order : Nat} (hx : b.lookup id = .ok (some order))
    (hne : ¬ (price ≠ (b.pool.pool order).price ∨ (b.pool.pool order).quantity < qty))
    (fuel : Nat) : b.modifyOrder sub64 fuel id price qty = b.modifyOrder sub64 0 id price qty := by
  unfold OrderBook.modifyOrder
  simp only [hx, ok_bind, if_neg hne]

/-- A modify that replaces its order is a cancel and an add. -/
theorem modifyOrder_replaces {id price qty order : Nat} (hx : b.lookup id = .ok (some order))
    (hne : price ≠ (b.pool.pool order).price ∨ (b.pool.pool order).quantity < qty) (fuel : Nat) :
    b.modifyOrder sub64 fuel id price qty = b.cancelOrder sub64 id >>= fun b₁ =>
      b₁.addOrder sub64 fuel id price qty (b.pool.pool order).isBuy := by
  unfold OrderBook.modifyOrder
  simp only [hx, ok_bind, if_pos hne]

/-- **A call returns what it leaves after some passes.** -/
theorem OrderBook.calls_iff : b.Calls op b' ↔ ∃ passes, b.Works op b' passes := by
  constructor
  · rintro ⟨fuel, h⟩
    cases op with
    | add id price qty isBuy =>
      obtain ⟨passes, hadds⟩ := addOrder_iff.mp ⟨fuel, h⟩
      exact ⟨passes, .add hadds⟩
    | cancel id => exact ⟨[], .cancel h⟩
    | modify id price qty =>
      obtain ⟨x, hx, hrun⟩ := bind_eq_ok.mp h
      cases x with
      | none =>
        obtain rfl := Except.ok.inj hrun
        exact ⟨[], .modifyUnknown hx⟩
      | some order =>
        by_cases hne : price ≠ (b.pool.pool order).price ∨ (b.pool.pool order).quantity < qty
        · obtain ⟨b₁, hb₁, hadd⟩ := bind_eq_ok.mp ((modifyOrder_replaces hx hne fuel).symm.trans h)
          obtain ⟨passes, hadds⟩ := addOrder_iff.mp ⟨fuel, hadd⟩
          exact ⟨passes, .modifyReplace hx hne hb₁ hadds⟩
        · exact ⟨[], .modifyKeep hx hne ((modifyOrder_keep hx hne fuel).symm.trans h)⟩
  · rintro ⟨passes, h⟩
    cases h with
    | add hadds =>
      obtain ⟨fuel, hadd⟩ := addOrder_iff.mpr ⟨passes, hadds⟩
      exact ⟨fuel, hadd⟩
    | cancel h => exact ⟨0, h⟩
    | modifyUnknown hx => exact ⟨0, bind_eq_ok.mpr ⟨none, hx, rfl⟩⟩
    | modifyReplace hx hne hb₁ hadds =>
      obtain ⟨fuel, hadd⟩ := addOrder_iff.mpr ⟨passes, hadds⟩
      exact ⟨fuel, (modifyOrder_replaces hx hne fuel).trans (bind_eq_ok.mpr ⟨_, hb₁, hadd⟩)⟩
    | modifyKeep hx hne h => exact ⟨0, h⟩

/-! ## The potential -/

theorem OrderPool.unlink_freeList (m : OrderPool) (level : PriceLevel) (x : Nat) :
    (m.unlink level x).1.freeList = m.freeList := by
  unfold OrderPool.unlink
  cases (m.pool x).prev
  all_goals
    dsimp only
    split <;> rfl

theorem OrderPool.deallocate_freeList (m : OrderPool) (x : Nat) :
    (m.deallocate x).freeList = x :: m.freeList := rfl

theorem setOrderMap_pool {id : Nat} (h : b.setOrderMap id r = .ok b') : b'.pool = b.pool := by
  obtain ⟨_, -, hret⟩ := bind_eq_ok.mp h
  rw [← Except.ok.inj hret]

/-- A trade frees the slot of the order it fills, or it is the last one. -/
theorem tradeOne_free {x : Nat} (hrun : b.tradeOne sub64 s p x rem = .ok (b', r, rem')) :
    b'.pool.freeList.length = b.pool.freeList.length + 1 ∨
      b'.pool.freeList.length = b.pool.freeList.length ∧ rem' = 0 := by
  obtain ⟨m, lv, hm, -, -, hpool⟩ := tradeOne_pool hrun
  rw [hpool]
  split_ifs with hz
  · left
    rw [OrderPool.deallocate_freeList, List.length_cons, OrderPool.unlink_freeList, hm]
    rfl
  · right
    refine ⟨by rw [hm]; rfl, ?_⟩
    have hquant : rem < (b.pool.pool x).quantity := by
      rw [hm, OrderPool.write_self] at hz
      simp only at hz
      omega
    unfold OrderBook.tradeOne at hrun
    obtain ⟨t, -, hrun⟩ := bind_eq_ok.mp hrun
    rw [if_neg (by rw [← hm]; exact hz)] at hrun
    rw [← (Prod.mk.inj (Prod.mk.inj (Except.ok.inj hrun)).2).2]
    omega

/-- What the next iterations of a match can draw on: the slots in use, less a constant, and one more
trade while there is a quantity left. -/
def OrderBook.potential (b : OrderBook) (rem : Nat) : ℤ :=
  (if rem = 0 then 0 else 1) - (b.pool.freeList.length : ℤ)

/-- **A trade costs what it takes off the potential.** -/
theorem trades_potential {x y : OrderBook × Option Nat × Nat} {q : Nat} (hg : OrderBook.Filling x)
    (h : OrderBook.Trades s p x q y) : 1 + y.1.potential y.2.2 ≤ x.1.potential x.2.2 := by
  obtain ⟨b, r, rem⟩ := x
  obtain ⟨b', r', rem'⟩ := y
  obtain ⟨o, -, -, hrun⟩ := h
  replace hrun : b.tradeOne sub64 s p o rem = .ok (b', r', rem') := hrun
  have h0 : rem ≠ 0 := hg.2
  simp only [OrderBook.potential, if_neg h0]
  rcases tradeOne_free hrun with hfree | ⟨hfree, rfl⟩
  · rw [hfree]
    split_ifs <;> push_cast <;> omega
  · rw [hfree, if_pos rfl]
    omega

/-- A pass costs as many trades as its inner loop makes; settling the level is free. -/
theorem passes_potential {x y : OrderBook × Nat} {pass : List Nat}
    (h : OrderBook.Passes isBuy x pass y) :
    (pass.length : ℤ) + y.1.potential y.2 ≤ x.1.potential x.2 := by
  obtain ⟨level, z, -, hloop, hsettle, hy⟩ := h
  have hcost := hloop.amortized (f := fun z => z.1.potential z.2.2) (c := fun _ => 1)
    trades_potential
  have hpool : y.1.pool = z.1.pool := (settleLevel_sameMem hsettle).pool
  rw [List.map_const', List.sum_replicate, nsmul_one] at hcost
  rw [OrderBook.potential, hy, hpool]
  exact hcost

/-- The trades of some passes. -/
def tradeCount (passes : List (List Nat)) : Nat := (passes.map List.length).sum

theorem cast_tradeCount (passes : List (List Nat)) :
    (tradeCount passes : ℤ) = (passes.map fun pass => (pass.length : ℤ)).sum := by
  rw [tradeCount, Nat.cast_list_sum, List.map_map]
  rfl

theorem matches_potential {price qty : Nat} {y : OrderBook × Nat}
    (h : b.Matches price qty isBuy passes y) :
    (tradeCount passes : ℤ) + y.1.potential y.2 ≤ b.potential qty := by
  rw [cast_tradeCount]
  exact h.amortized (f := fun z => z.1.potential z.2) fun _ => passes_potential

/-! ## The work of a call -/

theorem joinLevel_pool {level : PriceLevel} (h : b.joinLevel s p level = .ok b') :
    b'.pool = b.pool := by
  unfold OrderBook.joinLevel at h
  split_ifs at h
  · obtain ⟨w, -, h⟩ := bind_eq_ok.mp h
    rw [← Except.ok.inj h]
  · obtain ⟨w, -, h⟩ := bind_eq_ok.mp h
    rw [← Except.ok.inj h]
  · rw [← Except.ok.inj h]

theorem linkOrder_freeList {m m' : OrderPool} {level level' : PriceLevel} {x : Nat}
    (h : OrderBook.linkOrder m level x = .ok (m', level')) : m'.freeList = m.freeList := by
  unfold OrderBook.linkOrder at h
  split at h
  · rw [← (Prod.mk.inj (Except.ok.inj h)).1]
  · split at h
    · cases h
    · rw [← (Prod.mk.inj (Except.ok.inj h)).1]
      rfl

theorem improveBest_pool (b : OrderBook) (s : Bool) (p : Nat) :
    (b.improveBest s p).pool = b.pool := by
  unfold OrderBook.improveBest
  split_ifs <;> rfl

theorem restOrder_freeList {x id q : Nat} (h : b.restOrder x id p q s = .ok b') :
    b'.pool.freeList = b.pool.freeList := by
  obtain ⟨b₁, hb₁, h⟩ := bind_eq_ok.mp h
  obtain ⟨level, -, h⟩ := bind_eq_ok.mp h
  obtain ⟨b₂, hb₂, h⟩ := bind_eq_ok.mp h
  obtain ⟨⟨m, level'⟩, hlink, h⟩ := bind_eq_ok.mp h
  rw [← Except.ok.inj h, improveBest_pool, OrderBook.setLevel_pool]
  show m.freeList = _
  rw [linkOrder_freeList hlink, joinLevel_pool hb₂, setOrderMap_pool hb₁]
  rfl

/-- What rests takes one slot, and rests only if a quantity is left. -/
theorem restRemaining_potential {id : Nat} {x : OrderBook × Nat}
    (h : OrderBook.restRemaining id p isBuy x = .ok b') : b'.potential 0 ≤ x.1.potential x.2 := by
  obtain ⟨b, rem⟩ := x
  unfold OrderBook.restRemaining at h
  simp only [OrderBook.potential, if_true]
  split_ifs at h ⊢ with h0
  · rw [← Except.ok.inj h]
  · unfold OrderPool.allocate at h
    cases hfree : b.pool.freeList with
    | nil =>
      simp only [hfree] at h
      rw [← Except.ok.inj h, hfree]
      omega
    | cons x l =>
      simp only [hfree] at h
      rw [restOrder_freeList h, List.length_cons]
      push_cast
      omega

theorem adds_potential {id price qty : Nat} (h : b.Adds id price qty isBuy b' passes) :
    (tradeCount passes : ℤ) + b'.potential 0 ≤ b.potential 0 + 1 := by
  obtain ⟨x, hloop, hrest⟩ := h
  have hmatch := matches_potential hloop
  have hle := restRemaining_potential hrest
  have hqty : b.potential qty ≤ b.potential 0 + 1 := by
    simp only [OrderBook.potential, if_true]
    split_ifs <;> omega
  omega

/-- A cancel frees the slot of the order it finds. -/
theorem cancelOrder_potential {id : Nat} (h : b.cancelOrder sub64 id = .ok b') :
    b'.potential 0 = b.potential 0 ∧ b.lookup id = .ok none ∨
      b'.potential 0 + 1 = b.potential 0 ∧ ∃ order, b.lookup id = .ok (some order) := by
  obtain ⟨x, hx, h⟩ := bind_eq_ok.mp h
  cases x with
  | none =>
    left
    rw [← Except.ok.inj h]
    exact ⟨rfl, hx⟩
  | some order =>
    right
    refine ⟨?_, order, hx⟩
    obtain ⟨level, -, h⟩ := bind_eq_ok.mp h
    obtain ⟨t, -, h⟩ := bind_eq_ok.mp h
    obtain ⟨b₁, hsettle, h⟩ := bind_eq_ok.mp h
    obtain ⟨b₂, hmap, h⟩ := bind_eq_ok.mp h
    have hpool : b₁.pool = (b.pool.unlink { level with totalQuantity := t } order).1 :=
      (settleLevel_sameMem hsettle).pool.trans (OrderBook.setLevel_pool _ _ _ _)
    rw [← Except.ok.inj h]
    simp only [OrderBook.potential, if_true, OrderPool.deallocate_freeList, List.length_cons,
      setOrderMap_pool hmap, hpool, OrderPool.unlink_freeList]
    push_cast
    omega

/-- A modify that does not replace its order takes no slot. -/
theorem modifyOrder_keep_potential {id price qty order : Nat}
    (hx : b.lookup id = .ok (some order))
    (hne : ¬ (price ≠ (b.pool.pool order).price ∨ (b.pool.pool order).quantity < qty))
    (h : b.modifyOrder sub64 0 id price qty = .ok b') : b'.potential 0 ≤ b.potential 0 := by
  unfold OrderBook.modifyOrder at h
  simp only [hx, ok_bind, if_neg hne] at h
  split_ifs at h with h0
  · rcases cancelOrder_potential h with ⟨he, -⟩ | ⟨he, -⟩
    · exact he.le
    · omega
  · obtain ⟨level, -, h⟩ := bind_eq_ok.mp h
    obtain ⟨t, -, h⟩ := bind_eq_ok.mp h
    rw [← Except.ok.inj h, OrderBook.potential, OrderBook.setLevel_pool]
    exact le_refl _

/-- The call may take a slot that it does not free first. -/
def Op.isAdd : Op → Bool
  | .add _ _ _ _ => true
  | .cancel _ => false
  | .modify _ _ _ => false

/-- **A call's trades are paid for by what it takes off the potential**, and by one more if it is an
add. -/
theorem works_potential (h : b.Works op b' passes) :
    (tradeCount passes : ℤ) + b'.potential 0 ≤ b.potential 0 + (op.isAdd.toNat : ℤ) := by
  cases h with
  | add h => exact adds_potential h
  | cancel h =>
    show 0 + b'.potential 0 ≤ b.potential 0 + 0
    rcases cancelOrder_potential h with ⟨he, -⟩ | ⟨he, -⟩ <;> omega
  | modifyUnknown h => exact (zero_add _).trans_le (add_zero _).ge
  | modifyReplace hx _ hcancel hadds =>
    have hcost := adds_potential hadds
    show _ ≤ b.potential 0 + 0
    rcases cancelOrder_potential hcancel with ⟨-, hnone⟩ | ⟨he, -⟩
    · rw [hx] at hnone
      cases hnone
    · omega
  | modifyKeep hx hne h =>
    show 0 + b'.potential 0 ≤ b.potential 0 + 0
    have := modifyOrder_keep_potential hx hne h
    omega

/-! ## No iteration is idle -/

/-- **Every trade of the inner loop is of a positive quantity.** The induction is on the level's
queue: a trade fills its first order, or is the last one. -/
theorem Mem.trades_pos (l : List Resting) : ∀ {b : OrderBook} {v : QueueBook} {rem : Nat}
    {pass : List Nat} {y : OrderBook × Option Nat × Nat}, Mem b v → v.Wf → v.queue s p = l →
    Loop OrderBook.Filling (OrderBook.Trades s p) (b, (slots l).head?, rem) pass y →
    ∀ q ∈ pass, 0 < q := by
  induction l with
  | nil =>
    intro b v rem pass y h hw hl hloop
    cases hloop with
    | stop => exact fun q hq => absurd hq List.not_mem_nil
    | step hg => exact absurd rfl hg.1
  | cons o l ih =>
    intro b v rem pass y h hw hl hloop
    cases hloop with
    | stop => exact fun q hq => absurd hq List.not_mem_nil
    | step hg hstep hrest =>
      obtain ⟨r, hr, rfl, hrun⟩ := hstep
      obtain rfl : o.slot = r := Option.some.inj hr
      have ho := QueueBook.at_of_cons hl
      have h0 : rem ≠ 0 := hg.2
      have hpos := hw.quantity_pos ho
      replace hrun : b.tradeOne sub64 s p o.slot rem = _ := hrun
      have hquant : (b.pool.pool o.slot).quantity = o.quantity := (h.fields ho).2.2.1
      refine List.forall_mem_cons.mpr ⟨?_, ?_⟩
      · show 0 < min (b.pool.pool o.slot).quantity rem
        omega
      by_cases hq : o.quantity ≤ rem
      · obtain ⟨b₁, hb₁, hm₁, -⟩ := tradeOne_full h hw hl hq
        rw [hb₁ sub64 exact_sub64] at hrun
        rw [← Except.ok.inj hrun] at hrest
        exact ih hm₁ (hw.remove ho) (hw.toSlots.remove_queue (l := []) hl) hrest
      · obtain ⟨b₁, hb₁, hm₁, -⟩ := tradeOne_partial h hw ho (Nat.lt_of_not_le hq)
        rw [hb₁ sub64 exact_sub64] at hrun
        rw [← Except.ok.inj hrun] at hrest
        cases hrest with
        | stop => exact fun q hq => absurd hq List.not_mem_nil
        | step hg => exact absurd rfl hg.2

/-- **Every pass of a match that ends trades something**: while the match goes on some level
crosses, and a pass finds the best of them. -/
theorem Rep.passes_pos {x y : OrderBook × Nat} (hlimit : limit < maxTicks)
    (hloop : Loop (OrderBook.Matching limit isBuy) (OrderBook.Passes isBuy) x passes y) :
    ∀ {v : QueueBook}, Rep x.1 v → v.Wf → ∀ pass ∈ passes, pass ≠ [] ∧ ∀ q ∈ pass, 0 < q := by
  induction hloop with
  | stop => exact fun _ _ pass hp => absurd hp List.not_mem_nil
  | @step x x₁ y pass passes hg hpass hrest ih =>
    intro v h hw
    obtain ⟨fuel, hrun⟩ := matchOrder_iff.mpr ⟨_, Loop.step hg hpass hrest⟩
    have hend := h.ends hw hrun
    cases hps : v.crossingPrices isBuy limit with
    | nil =>
      have hc : v.crossing isBuy limit = [] := QueueBook.crossing_eq_nil_iff.mpr hps
      rcases hend with hbuy | hpos | hle
      · exact absurd hg.2 (by simp [not_isMatch h.bbo hw (Or.inl hbuy) hlimit hps])
      · exact absurd hg.2 (by simp [not_isMatch h.bbo hw (Or.inr hpos) hlimit hps])
      · rw [hc] at hle
        exact absurd (Nat.le_zero.mp hle) hg.1
    | cons p ps =>
      obtain ⟨hp, -, hbest⟩ := QueueBook.crossingPrices_cons hps
      have hprice : x.1.matchPrice isBuy = p :=
        h.bbo.best_eq hp fun p' hp' => hbest p' hp' (hw.price_mem_lt hp')
      obtain ⟨fuel, hrun⟩ := matchPass_iff.mpr ⟨pass, hpass⟩
      obtain ⟨level, z, hlevel, hfill, -⟩ := hpass
      rw [hprice] at hlevel hfill
      obtain rfl : x.1.side (!isBuy) p = level :=
        Except.ok.inj ((index_of_lt (hw.price_mem_lt hp) _).symm.trans hlevel)
      rw [(h.level (!isBuy) p).linked.head_eq] at hfill
      -- the pass leaves the book that the specification of a pass names
      obtain ⟨b₁, hb₁, hrep₁⟩ := matchPass_spec h hw hps x.2
      have he := Approx.ok_unique (fun n => OrderBook.matchPass_approx n x.1 isBuy x.2) hrun
        (hb₁ sub64 _ exact_sub64 (Nat.lt_succ_self _))
      have hrep : Rep x₁.1 (v.trade (v.queue (!isBuy) p) x.2).1 := by
        rw [he]
        exact hrep₁
      refine List.forall_mem_cons.mpr ⟨⟨?_, Mem.trades_pos _ h.toMem hw rfl hfill⟩,
        ih hrep (hw.trade (hw.lists_queue (!isBuy) p))⟩
      rintro rfl
      cases hfill with
      | stop hstop =>
        refine hstop ⟨fun hhead => ?_, hg.1⟩
        exact hp (List.map_eq_nil_iff.mp (List.head?_eq_none_iff.mp hhead))

/-- No iteration of a call is idle. -/
theorem Rep.works_pos (h : Rep b v) (hw : v.Wf) (hin : op.InTables)
    (hworks : b.Works op b' passes) : ∀ pass ∈ passes, pass ≠ [] ∧ ∀ q ∈ pass, 0 < q := by
  cases hworks with
  | add hadds =>
    obtain ⟨x, hloop, -⟩ := hadds
    exact Rep.passes_pos hin.2 hloop h hw
  | cancel | modifyUnknown | modifyKeep => exact fun pass hp => absurd hp List.not_mem_nil
  | modifyReplace hx hne hcancel hadds =>
    obtain ⟨x, hloop, -⟩ := hadds
    rw [lookup_spec h.toMem hin.1] at hx
    obtain ⟨s, p, o, ho, rfl, rfl⟩ := hw.byId_sound (Except.ok.inj hx)
    obtain ⟨b₁, hb₁, hrep₁⟩ := cancelOrder_spec h hw ho (Except.ok.inj hx)
    obtain rfl := Except.ok.inj ((hb₁ sub64 exact_sub64).symm.trans hcancel)
    exact Rep.passes_pos hin.2 hloop hrep₁ (hw.remove ho)

/-! ## Runs -/

/-- Runs of calls in bounds, each with the passes of its match. -/
def OrderBook.Worked : List (Op × List (List Nat)) → OrderBook → Prop :=
  Run (fun b call b' => b.InBounds call.1 ∧ b.Works call.1 b' call.2) .init

/-- The slots that the free list lacks: the resting orders. -/
def OrderBook.inUse (b : OrderBook) : Nat := maxOrders - b.pool.freeList.length

variable {run : List (Op × List (List Nat))}

/-- Every run of calls is a run with passes. -/
theorem OrderBook.Reaches.exists_worked (h : OrderBook.Reaches OrderBook.InBounds ops b) :
    ∃ run, OrderBook.Worked run b ∧ run.map Prod.fst = ops := by
  induction h with
  | nil => exact ⟨[], Run.nil, rfl⟩
  | snoc _ hs ih =>
    obtain ⟨run, hrun, rfl⟩ := ih
    obtain ⟨passes, hworks⟩ := OrderBook.calls_iff.mp hs.2
    exact ⟨run ++ [(_, passes)], hrun.snoc ⟨hs.1, hworks⟩, List.map_append⟩

/-- The books along such runs represent queues, and no iteration so far was idle. -/
theorem OrderBook.Worked.rep (h : OrderBook.Worked run b) :
    ∃ v, Rep b v ∧ v.Wf ∧ ∀ call ∈ run, ∀ pass ∈ call.2, pass ≠ [] ∧ ∀ q ∈ pass, 0 < q := by
  refine Run.simulation (R := fun run b v => Rep b v ∧ v.Wf ∧
    ∀ call ∈ run, ∀ pass ∈ call.2, pass ≠ [] ∧ ∀ q ∈ pass, 0 < q) h
    ⟨rep_init, .empty, fun call hc => absurd hc List.not_mem_nil⟩ ?_
  rintro run b v ⟨op, passes⟩ b' ⟨hrep, hw, hpos⟩ ⟨⟨hin, hfit⟩, hworks⟩
  have hfit := hrep.fits hfit
  obtain ⟨v', hstep, hrep'⟩ := hrep.calls hw hin hfit (OrderBook.calls_iff.mpr ⟨passes, hworks⟩)
  refine ⟨v', hrep', hw.step hin hfit hstep, fun call hc => ?_⟩
  rcases List.mem_append.mp hc with hc | hc
  · exact hpos call hc
  · obtain rfl := List.mem_singleton.mp hc
    exact hrep.works_pos hw hin hworks

theorem init_potential : OrderBook.init.potential 0 = -(maxOrders : ℤ) := by
  show (0 : ℤ) - ((OrderPool.pushSlots maxOrders).length : ℤ) = _
  rw [QueueBook.length_pushSlots, zero_sub]

theorem sum_isAdd (ops : List Op) :
    (ops.map fun op => (op.isAdd.toNat : ℤ)).sum = (ops.countP Op.isAdd : ℤ) := by
  induction ops with
  | nil => rfl
  | cons op ops ih =>
    rw [List.map_cons, List.sum_cons, ih, List.countP_cons]
    cases op.isAdd <;> simp [add_comm]

/-- **The trades of a run are paid for by its adds**, together with the slots still in use. -/
theorem OrderBook.Worked.amortized (h : OrderBook.Worked run b) :
    ((run.map fun call => tradeCount call.2).sum : ℤ) + b.potential 0 ≤
      (run.map Prod.fst).countP Op.isAdd - maxOrders := by
  have hcost := Run.amortized h (f := fun b => b.potential 0)
    (c := fun call => (tradeCount call.2 : ℤ)) (d := fun call => (call.1.isAdd.toNat : ℤ))
    fun hs => works_potential hs.2
  rw [init_potential] at hcost
  have hadds := sum_isAdd (run.map Prod.fst)
  rw [List.map_map] at hadds
  have hsum : ((run.map fun call => tradeCount call.2).sum : ℤ) =
      (run.map fun call => (tradeCount call.2 : ℤ)).sum := by
    rw [Nat.cast_list_sum, List.map_map]
    rfl
  simp only [Function.comp_def] at hadds
  omega

/-- **The work of the matching engine is linear in the adds.** After every run of calls that the
tables hold and whose remainders fit, the iterations of the inner loop in all calls together are no
more than the adds less the slots still in use, and each iteration of either loop trades a positive
quantity, so the outer loop makes no more. The next call makes at most one more than the slots in
use. -/
theorem work_amortized (h : OrderBook.Reaches OrderBook.InBounds ops b) :
    (∃ run, OrderBook.Worked run b ∧ run.map Prod.fst = ops) ∧
      ∀ run, OrderBook.Worked run b → run.map Prod.fst = ops →
        (∀ call ∈ run, ∀ pass ∈ call.2, pass ≠ [] ∧ ∀ q ∈ pass, 0 < q) ∧
        (run.map fun call => tradeCount call.2).sum + b.inUse ≤ ops.countP Op.isAdd ∧
        ∀ op b' passes, b.InBounds op → b.Works op b' passes → tradeCount passes ≤ b.inUse + 1 := by
  refine ⟨h.exists_worked, ?_⟩
  rintro run hrun rfl
  obtain ⟨v, hrep, hw, hpos⟩ := hrun.rep
  have hlen := (hrep.partitioned hw).length_le
  have htotal := hrun.amortized
  simp only [OrderBook.potential, if_true] at htotal
  refine ⟨hpos, ?_, fun op b' passes hop hworks => ?_⟩
  · unfold OrderBook.inUse
    omega
  · have hnext : OrderBook.Worked (run ++ [(op, passes)]) b' := hrun.snoc ⟨hop, hworks⟩
    obtain ⟨v', hrep', hw', -⟩ := hnext.rep
    have hlen' := (hrep'.partitioned hw').length_le
    have hcost := works_potential hworks
    have hone := op.isAdd.toNat_le
    simp only [OrderBook.potential, if_true] at hcost
    unfold OrderBook.inUse
    omega

/-- A sell of 8 fills two bids in two passes and rests with what is left, until it is cancelled. -/
theorem work_amortized_run : ∃ run b, OrderBook.Worked run b ∧
    run.map Prod.fst = [.add 1 100 5 true, .add 2 99 2 true, .add 3 99 8 false, .cancel 3] ∧
    (run.map fun call => tradeCount call.2).sum + b.inUse ≤ 3 := by
  obtain ⟨b, hb⟩ := OrderBook.exists_reaches_valid
    [.add 1 100 5 true, .add 2 99 2 true, .add 3 99 8 false, .cancel 3] (by decide)
  obtain ⟨⟨run, hrun, hops⟩, hbound⟩ := work_amortized hb.inBounds
  exact ⟨run, b, hrun, hops, (hbound run hrun hops).2.1⟩

end MarketHandler
