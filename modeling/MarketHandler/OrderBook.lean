import MarketHandler.PriceBitSet

/-!
# `OrderBook`: the book as the code keeps it

Model of `include/OrderBook.h`. A pointer into the pool is a slot index, `nullptr` is `none`; a
vector is a total function with every access checked against its size. Quantities, prices and ids
are naturals; what the code truncates is reduced explicitly: the 31-bit bit-field `quantity` on
assignment, the 64-bit `total_quantity` on every update.

The two loops of `match_order` take fuel, one unit an iteration; a call that needs more has not
returned yet. Calls are `Op`s, `OrderBook.apply` runs one, and `OrderBook.Calls b op b'` says that
the call returns with the book in state `b'`.
-/

namespace MarketHandler

open Lib

/-- `Order`. The pool value-initialises its slots, so every field starts at zero. -/
structure Order where
  id : Nat := 0
  prev : Option Nat := none
  next : Option Nat := none
  price : Nat := 0
  quantity : Nat := 0
  isBuy : Bool := false
  deriving DecidableEq, Repr

/-- `PriceLevel`. -/
structure PriceLevel where
  head : Option Nat := none
  tail : Option Nat := none
  totalQuantity : Nat := 0
  deriving DecidableEq, Repr

/-- `uint64_t` addition. -/
def add64 (a b : Nat) : Nat := (a + b) % 2 ^ 64

/-- A subtraction on `uint64_t`. The operations take theirs as an argument: the code's is `sub64`,
and `checkedSub` tells whether a subtraction of a run wraps. -/
abbrev Subtraction := Nat → Nat → Exec Nat

/-- `uint64_t` subtraction. -/
def sub64 : Subtraction := fun a b => .ok ((a + (2 ^ 64 - b)) % 2 ^ 64)

/-- `uint64_t` subtraction that faults instead of wrapping. -/
def checkedSub : Subtraction := fun a b => if b ≤ a then .ok (a - b) else .error .wrapped

/-- Assignment to the bit-field `quantity : 31`. -/
def toQuantity (q : Nat) : Nat := q % 2 ^ 31

/-! ## `OrderPool` -/

/-- `OrderPool`: the slots and the free list, whose head is the back of the vector. -/
@[ext]
structure OrderPool where
  pool : Nat → Order
  freeList : List Nat

namespace OrderPool

/-- The free list after `push_back(&_pool[i])` for `i = 0, …, n - 1`. -/
def pushSlots : Nat → List Nat
  | 0 => []
  | n + 1 => n :: pushSlots n

/-- The constructor. -/
def init (capacity : Nat) : OrderPool := ⟨fun _ => {}, pushSlots capacity⟩

/-- `allocate`. -/
def allocate (m : OrderPool) : Option Nat × OrderPool :=
  match m.freeList with
  | [] => (none, m)
  | order :: rest => (some order, { m with freeList := rest })

/-- A write through an order pointer. -/
def write (m : OrderPool) (order : Nat) (f : Order → Order) : OrderPool :=
  { m with pool := Function.update m.pool order (f (m.pool order)) }

/-- `deallocate`. -/
def deallocate (m : OrderPool) (order : Nat) : OrderPool :=
  let m := m.write order fun o => { o with prev := none, next := none }
  { m with freeList := order :: m.freeList }

/-- The unlinking of `order` from its level, which stands in `cancel_order` and in `match_order`. -/
def unlink (m : OrderPool) (level : PriceLevel) (order : Nat) : OrderPool × PriceLevel :=
  let (m, level) := match (m.pool order).prev with
    | some q => (m.write q fun o => { o with next := (m.pool order).next }, level)
    | none => (m, { level with head := (m.pool order).next })
  match (m.pool order).next with
  | some q => (m.write q fun o => { o with prev := (m.pool order).prev }, level)
  | none => (m, { level with tail := (m.pool order).prev })

end OrderPool

/-! ## `OrderBook` -/

/-- `MAX_TICKS`. -/
def maxTicks : Nat := 262144

/-- `MAX_ORDERS`. -/
def maxOrders : Nat := 1500000

theorem maxTicks_pos : 0 < maxTicks := by decide

theorem maxOrders_pos : 0 < maxOrders := by decide

@[ext]
structure OrderBook where
  pool : OrderPool
  bids : Nat → PriceLevel
  asks : Nat → PriceLevel
  orderMap : Nat → Option Nat
  bidBits : PriceBitSet maxTicks
  askBits : PriceBitSet maxTicks
  bestBid : Nat
  bestAsk : Nat

namespace OrderBook

/-- The constructor. -/
def init : OrderBook where
  pool := .init maxOrders
  bids := fun _ => {}
  asks := fun _ => {}
  orderMap := fun _ => none
  bidBits := .empty
  askBits := .empty
  bestBid := 0
  bestAsk := uint32Max

/-- `get_best_bid`. -/
def getBestBid (b : OrderBook) : Nat := b.bestBid

/-- `get_best_ask`. -/
def getBestAsk (b : OrderBook) : Nat := b.bestAsk

/-- `is_buy ? _bids : _asks`. -/
def side (b : OrderBook) (isBuy : Bool) : Nat → PriceLevel := if isBuy then b.bids else b.asks

/-- `is_buy ? _bid_bits : _ask_bits`. -/
def bits (b : OrderBook) (isBuy : Bool) : PriceBitSet maxTicks :=
  if isBuy then b.bidBits else b.askBits

/-- `is_buy ? _bids[price] : _asks[price]`. -/
def level (b : OrderBook) (isBuy : Bool) (price : Nat) : Exec PriceLevel :=
  index maxTicks (b.side isBuy) price

/-- A write through the reference `is_buy ? _bids[price] : _asks[price]`. -/
def setLevel (b : OrderBook) (isBuy : Bool) (price : Nat) (l : PriceLevel) : OrderBook :=
  if isBuy then { b with bids := Function.update b.bids price l }
  else { b with asks := Function.update b.asks price l }

/-- What `add_order` does to the bitmap before it joins the level: the first order of a level sets
the price's bit. -/
def joinLevel (b : OrderBook) (isBuy : Bool) (price : Nat) (level : PriceLevel) : Exec OrderBook :=
  if level.totalQuantity = 0 then
    if isBuy then do
      let s ← b.bidBits.set price
      return { b with bidBits := s }
    else do
      let s ← b.askBits.set price
      return { b with askBits := s }
  else return b

/-- What `cancel_order` and `match_order` do at the end to the level they took quantity from: an
emptied level leaves the bitmap, and both best prices are read off the bitmaps again. -/
def settleLevel (b : OrderBook) (isBuy : Bool) (price : Nat) : Exec OrderBook :=
  if (b.side isBuy price).totalQuantity = 0 then do
    let b ← if isBuy then do
        let s ← b.bidBits.clear price
        pure { b with bidBits := s }
      else do
        let s ← b.askBits.clear price
        pure { b with askBits := s }
    let bid ← b.bidBits.getHighest
    let ask ← b.askBits.getLowest
    return { b with bestBid := bid, bestAsk := ask }
  else return b

/-- `_order_map[id]`. -/
def lookup (b : OrderBook) (id : Nat) : Exec (Option Nat) := index maxOrders b.orderMap id

/-- `_order_map[id] = order`. -/
def setOrderMap (b : OrderBook) (id : Nat) (order : Option Nat) : Exec OrderBook := do
  let m ← store maxOrders b.orderMap id order
  return { b with orderMap := m }

section Operations

variable (sub : Subtraction)

/-! ### `match_order` -/

/-- `is_match`: the limit `price` crosses the opposing best price. -/
def isMatch (b : OrderBook) (price : Nat) (isBuy : Bool) : Bool :=
  if isBuy then b.bestAsk ≤ price else price ≤ b.bestBid

/-- One trade of the inner loop with the resting order `r` of the level at `price` on the side
`isBuy`: the book, the next resting order and the quantity still to fill. -/
def tradeOne (b : OrderBook) (isBuy : Bool) (price r remainingQty : Nat) :
    Exec (OrderBook × Option Nat × Nat) := do
  let tradeQty := min (b.pool.pool r).quantity remainingQty
  let remainingQty := remainingQty - tradeQty
  let m := b.pool.write r fun o => { o with quantity := o.quantity - tradeQty }
  let level := b.side isBuy price
  let totalQuantity ← sub level.totalQuantity tradeQty
  let level := { level with totalQuantity := totalQuantity }
  if (m.pool r).quantity = 0 then
    let nextOrder := (m.pool r).next
    let (m, level) := m.unlink level r
    let b := { b with pool := m }.setLevel isBuy price level
    let b ← b.setOrderMap (m.pool r).id none
    return ({ b with pool := b.pool.deallocate r }, nextOrder, remainingQty)
  else
    return ({ b with pool := m }.setLevel isBuy price level, some r, remainingQty)

/-- The inner loop, `while (resting_order && remaining_qty > 0)`. -/
def fillLevel : Nat → OrderBook → Bool → Nat → Option Nat → Nat → Exec (OrderBook × Nat)
  | 0, _, _, _, _, _ => .error .fuel
  | _ + 1, b, _, _, none, remainingQty => return (b, remainingQty)
  | fuel + 1, b, isBuy, price, some r, remainingQty =>
    if remainingQty = 0 then return (b, remainingQty)
    else do
      let (b, restingOrder, remainingQty) ← b.tradeOne sub isBuy price r remainingQty
      fillLevel fuel b isBuy price restingOrder remainingQty

/-- One pass of the outer loop, on the opposing level at the cached best price. -/
def matchPass (fuel : Nat) (b : OrderBook) (isBuy : Bool) (remainingQty : Nat) :
    Exec (OrderBook × Nat) := do
  let matchPrice := if isBuy then b.bestAsk else b.bestBid
  let level ← b.level (!isBuy) matchPrice
  let (b, remainingQty) ← fillLevel sub fuel b (!isBuy) matchPrice level.head remainingQty
  let b ← b.settleLevel (!isBuy) matchPrice
  return (b, remainingQty)

/-- The outer loop, `while (remaining_qty > 0)`. -/
def matchLoop : Nat → OrderBook → Nat → Bool → Nat → Exec (OrderBook × Nat)
  | 0, _, _, _, _ => .error .fuel
  | fuel + 1, b, price, isBuy, remainingQty =>
    if remainingQty = 0 then return (b, remainingQty)
    else if b.isMatch price isBuy then do
      let (b, remainingQty) ← b.matchPass sub fuel isBuy remainingQty
      matchLoop fuel b price isBuy remainingQty
    else return (b, remainingQty)

/-- `match_order`. -/
def matchOrder (fuel : Nat) (b : OrderBook) (price qty : Nat) (isBuy : Bool) :
    Exec (OrderBook × Nat) :=
  matchLoop sub fuel b price isBuy qty

/-! ### `add_order`, `cancel_order`, `modify_order` -/

/-- The links of `add_order`: the new order behind the level's tail. -/
def linkOrder (m : OrderPool) (level : PriceLevel) (order : Nat) : Exec (OrderPool × PriceLevel) :=
  match level.head with
  | none => return (m, { level with head := some order, tail := some order })
  | some _ =>
    let m := m.write order fun o => { o with prev := level.tail }
    match level.tail with
    | none => .error .nullDeref
    | some t =>
      return (m.write t fun o => { o with next := some order }, { level with tail := some order })

/-- What `add_order` does at the end: the new order may improve its side's best price. -/
def improveBest (b : OrderBook) (isBuy : Bool) (price : Nat) : OrderBook :=
  if isBuy then if b.bestBid < price then { b with bestBid := price } else b
  else if price < b.bestAsk then { b with bestAsk := price } else b

/-- The second half of `add_order`: the allocated `order` rests with the remaining quantity. -/
def restOrder (b : OrderBook) (order id price remainingQty : Nat) (isBuy : Bool) :
    Exec OrderBook := do
  let m := b.pool.write order fun o =>
    { o with id := id, price := price, quantity := toQuantity remainingQty, isBuy := isBuy }
  let b := { b with pool := m }
  let b ← b.setOrderMap id (some order)
  let level ← b.level isBuy price
  let b ← b.joinLevel isBuy price level
  let level := { level with totalQuantity := add64 level.totalQuantity remainingQty }
  let (m, level) ← linkOrder b.pool level order
  return ({ b with pool := m }.setLevel isBuy price level).improveBest isBuy price

/-- `add_order`. -/
def addOrder (fuel : Nat) (b : OrderBook) (id price qty : Nat) (isBuy : Bool) :
    Exec OrderBook := do
  let (b, remainingQty) ← b.matchOrder sub fuel price qty isBuy
  if remainingQty = 0 then return b
  else
    match b.pool.allocate with
    | (none, _) => return b
    | (some order, m) => restOrder { b with pool := m } order id price remainingQty isBuy

/-- `cancel_order`. -/
def cancelOrder (b : OrderBook) (id : Nat) : Exec OrderBook := do
  match ← b.lookup id with
  | none => return b
  | some order =>
    let o := b.pool.pool order
    let level ← b.level o.isBuy o.price
    let totalQuantity ← sub level.totalQuantity o.quantity
    let level := { level with totalQuantity := totalQuantity }
    let (m, level) := b.pool.unlink level order
    let b := { b with pool := m }.setLevel o.isBuy o.price level
    let b ← b.settleLevel o.isBuy o.price
    let b ← b.setOrderMap id none
    return { b with pool := b.pool.deallocate order }

/-- `modify_order`. -/
def modifyOrder (fuel : Nat) (b : OrderBook) (id newPrice newQty : Nat) : Exec OrderBook := do
  match ← b.lookup id with
  | none => return b
  | some order =>
    let o := b.pool.pool order
    if newPrice ≠ o.price ∨ o.quantity < newQty then
      let b ← b.cancelOrder sub id
      b.addOrder sub fuel id newPrice newQty o.isBuy
    else
      let qtyReduction := o.quantity - newQty
      if newQty = 0 then b.cancelOrder sub id
      else
        let m := b.pool.write order fun o => { o with quantity := toQuantity newQty }
        let level ← b.level o.isBuy o.price
        let totalQuantity ← sub level.totalQuantity qtyReduction
        return { b with pool := m }.setLevel o.isBuy o.price
          { level with totalQuantity := totalQuantity }

end Operations

end OrderBook

/-- A call of one of the three message operations. -/
inductive Op where
  | add (id price qty : Nat) (isBuy : Bool)
  | cancel (id : Nat)
  | modify (id newPrice newQty : Nat)
  deriving DecidableEq, Repr

/-- Run one call. -/
def OrderBook.apply (sub : Subtraction) (fuel : Nat) (b : OrderBook) : Op → Exec OrderBook
  | .add id price qty isBuy => b.addOrder sub fuel id price qty isBuy
  | .cancel id => b.cancelOrder sub id
  | .modify id newPrice newQty => b.modifyOrder sub fuel id newPrice newQty

/-- The call `op` on `b` returns and leaves `b'`. -/
def OrderBook.Calls (b : OrderBook) (op : Op) (b' : OrderBook) : Prop :=
  ∃ fuel, b.apply sub64 fuel op = .ok b'

end MarketHandler
