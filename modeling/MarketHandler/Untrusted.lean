import MarketHandler.Lib.Run
import MarketHandler.Protocol

/-!
# Untrusted packets

No check stands between a packet's id and price and the tables they index. `OrderBook.Indexed` is
what a book keeps as long as the calls it runs are `Guarded`, whatever their quantities, with prices
of zero, ids reused, and levels whose totals outlive their orders.

* `apply_safe`: a guarded call on an indexed book makes no access out of range and no shift by 64 or
  more, however long it runs, and leaves an indexed book.
* `memory_safe`: in runs of guarded packets every guarded packet is safe, and one that names an id or
  a price the book cannot hold leaves it unchanged, as an unknown type does.
* `out_of_range`: the code does not guard; a cancel of id 1500000 reads past the id table.
-/

namespace MarketHandler

open Lib

/-! ## What indexing needs -/

/-- Every index the book holds is within its table, and the bitmaps are consistent. -/
structure OrderBook.Indexed (b : OrderBook) : Prop where
  id_lt : ∀ x, (b.pool.pool x).id < maxOrders
  price_lt : ∀ x, (b.pool.pool x).price < maxTicks
  bidBits : ∃ S, b.bidBits.Holds S
  askBits : ∃ S, b.askBits.Holds S
  bestBid_lt : b.bestBid < maxTicks
  bestAsk_lt : b.bestAsk < maxTicks ∨ b.bestAsk = uint32Max

/-- Every slot's id and price is within the tables. -/
def OrderPool.Indexed (m : OrderPool) : Prop :=
  ∀ x, (m.pool x).id < maxOrders ∧ (m.pool x).price < maxTicks

variable {b b' : OrderBook} {m : OrderPool} {p x q id : Nat} {s isBuy : Bool} {lv : PriceLevel}
  {op : Op}

namespace OrderPool

theorem Indexed.write (h : m.Indexed) {f : Order → Order}
    (hf : (f (m.pool x)).id < maxOrders ∧ (f (m.pool x)).price < maxTicks) :
    (m.write x f).Indexed := by
  intro y
  by_cases hy : y = x
  · subst hy
    rwa [write_self]
  · rw [write_of_ne hy]
    exact h y

theorem Indexed.deallocate (h : m.Indexed) : (m.deallocate x).Indexed :=
  h.write (f := fun o => { o with prev := none, next := none }) (h x)

theorem Indexed.unlink (h : m.Indexed) (lv : PriceLevel) (x : Nat) :
    (m.unlink lv x).1.Indexed := by
  unfold OrderPool.unlink
  cases (m.pool x).prev with
  | none =>
    dsimp only
    cases (m.pool x).next with
    | none => exact h
    | some d => exact h.write (f := fun o => { o with prev := _ }) (h d)
  | some c =>
    have hc : (m.write c fun o => { o with next := (m.pool x).next }).Indexed :=
      h.write (f := fun o => { o with next := (m.pool x).next }) (h c)
    dsimp only
    split
    · rename_i d hd
      exact hc.write (f := fun o => { o with prev := _ }) (hc d)
    · exact hc

end OrderPool

namespace OrderBook

theorem Indexed.pool (h : b.Indexed) : b.pool.Indexed := fun x => ⟨h.id_lt x, h.price_lt x⟩

/-- Indexing does not depend on the levels, the id table or the free list. -/
theorem Indexed.withPool (h : b.Indexed) (hm : m.Indexed) (hpool : b'.pool.pool = m.pool)
    (hbid : b'.bidBits = b.bidBits) (hask : b'.askBits = b.askBits)
    (hbb : b'.bestBid = b.bestBid) (hba : b'.bestAsk = b.bestAsk) : b'.Indexed where
  id_lt x := by
    rw [hpool]
    exact (hm x).1
  price_lt x := by
    rw [hpool]
    exact (hm x).2
  bidBits := hbid ▸ h.bidBits
  askBits := hask ▸ h.askBits
  bestBid_lt := hbb ▸ h.bestBid_lt
  bestAsk_lt := hba ▸ h.bestAsk_lt

theorem Indexed.setLevel (h : b.Indexed) (hm : m.Indexed) :
    ({ b with pool := m }.setLevel s p lv).Indexed := by
  cases s <;> exact h.withPool hm rfl rfl rfl rfl rfl

theorem indexed_init : OrderBook.init.Indexed where
  id_lt _ := maxOrders_pos
  price_lt _ := maxTicks_pos
  bidBits := ⟨∅, PriceBitSet.holds_empty⟩
  askBits := ⟨∅, PriceBitSet.holds_empty⟩
  bestBid_lt := maxTicks_pos
  bestAsk_lt := Or.inr rfl

/-! ## Steps -/

theorem setOrderMap_safe (h : b.Indexed) (hid : id < maxOrders) (o : Option Nat) :
    Safe (b.setOrderMap id o) fun b' => b'.Indexed ∧ b'.pool = b.pool := by
  unfold setOrderMap
  rw [store_of_lt hid]
  exact ⟨h.withPool h.pool rfl rfl rfl rfl rfl, rfl⟩

/-- The best prices read off consistent bitmaps are prices or the sentinels. -/
theorem getHighest_lt {w : PriceBitSet maxTicks} {S : Set Nat} (h : w.Holds S) :
    ∃ p, w.getHighest = .ok p ∧ p < maxTicks := by
  have hmax : maxTicks ≤ 262144 := le_refl _
  obtain ⟨p, hp, ⟨-, rfl⟩ | ⟨hm, -⟩⟩ := PriceBitSet.getHighest_spec hmax h
  · exact ⟨0, hp, maxTicks_pos⟩
  · exact ⟨p, hp, h.lt p hm⟩

theorem getLowest_lt {w : PriceBitSet maxTicks} {S : Set Nat} (h : w.Holds S) :
    ∃ p, w.getLowest = .ok p ∧ (p < maxTicks ∨ p = uint32Max) := by
  have hmax : maxTicks ≤ 262144 := le_refl _
  obtain ⟨p, hp, ⟨-, rfl⟩ | ⟨hm, -⟩⟩ := PriceBitSet.getLowest_spec hmax h
  · exact ⟨_, hp, Or.inr rfl⟩
  · exact ⟨p, hp, Or.inl (h.lt p hm)⟩

theorem settleLevel_safe (h : b.Indexed) (hp : p < maxTicks) :
    Safe (b.settleLevel s p) fun b' => b'.Indexed ∧ b'.pool = b.pool := by
  have hmax : maxTicks ≤ 262144 := le_refl _
  obtain ⟨S, hS⟩ := h.bidBits
  obtain ⟨T, hT⟩ := h.askBits
  unfold settleLevel
  by_cases hz : (b.side s p).totalQuantity = 0
  swap
  · rw [if_neg hz]
    exact ⟨h, rfl⟩
  rw [if_pos hz]
  cases s
  · obtain ⟨w, hw, hw'⟩ := PriceBitSet.clear_spec hmax hT hp
    obtain ⟨bid, hbid, hbid'⟩ := getHighest_lt hS
    obtain ⟨ask, hask, hask'⟩ := getLowest_lt hw'
    simp only [Bool.false_eq_true, if_false, hw, hbid, hask, ok_bind, pure_eq_ok]
    exact ⟨⟨h.id_lt, h.price_lt, h.bidBits, ⟨_, hw'⟩, hbid', hask'⟩, rfl⟩
  · obtain ⟨w, hw, hw'⟩ := PriceBitSet.clear_spec hmax hS hp
    obtain ⟨bid, hbid, hbid'⟩ := getHighest_lt hw'
    obtain ⟨ask, hask, hask'⟩ := getLowest_lt hT
    simp only [if_true, hw, hbid, hask, ok_bind, pure_eq_ok]
    exact ⟨⟨h.id_lt, h.price_lt, ⟨_, hw'⟩, h.askBits, hbid', hask'⟩, rfl⟩

theorem tradeOne_safe (h : b.Indexed) (r rem : Nat) :
    Safe (b.tradeOne sub64 s p r rem) fun t => t.1.Indexed := by
  unfold tradeOne
  have hm : (b.pool.write r fun o => { o with
      quantity := o.quantity - min (b.pool.pool r).quantity rem }).Indexed :=
    h.pool.write (h.pool r)
  simp only [sub64, ok_bind]
  split_ifs
  · have hu := hm.unlink { b.side s p with totalQuantity := ((b.side s p).totalQuantity +
      (2 ^ 64 - min (b.pool.pool r).quantity rem)) % 2 ^ 64 } r
    refine Safe.bind (setOrderMap_safe (h.setLevel hu) (hu r).1 none) fun b₂ hb₂ => ?_
    exact hb₂.1.withPool hb₂.1.pool.deallocate rfl rfl rfl rfl rfl
  · exact h.setLevel hm

theorem fillLevel_safe (fuel : Nat) : ∀ {b : OrderBook}, b.Indexed → ∀ (s : Bool) (p : Nat)
    (r : Option Nat) (rem : Nat), Safe (b.fillLevel sub64 fuel s p r rem) fun t => t.1.Indexed := by
  induction fuel with
  | zero => exact fun _ _ _ _ _ => safe_fuel
  | succ n ih =>
    intro b h s p r rem
    cases r with
    | none => exact h
    | some x =>
      simp only [fillLevel]
      split_ifs
      · exact h
      · exact Safe.bind (tradeOne_safe h x rem) fun t ht => ih ht _ _ _ _

/-- The price a pass reads is an index as soon as the limit price is. -/
theorem matchPass_safe (h : b.Indexed) (hp : p < maxTicks) (hmatch : b.isMatch p isBuy = true)
    (fuel rem : Nat) : Safe (b.matchPass sub64 fuel isBuy rem) fun t => t.1.Indexed := by
  have hlt : (if isBuy then b.bestAsk else b.bestBid) < maxTicks := by
    cases isBuy
    · exact h.bestBid_lt
    · have : b.bestAsk ≤ p := by simpa [isMatch] using hmatch
      exact Nat.lt_of_le_of_lt this hp
  unfold matchPass level
  refine Safe.bind (safe_index hlt (Q := fun _ => True) trivial) fun l _ => ?_
  refine Safe.bind (fillLevel_safe fuel h _ _ _ _) fun t ht => ?_
  exact Safe.bind (settleLevel_safe ht hlt) fun b' hb' => hb'.1

theorem matchLoop_safe (hp : p < maxTicks) (fuel : Nat) : ∀ {b : OrderBook}, b.Indexed →
    ∀ (isBuy : Bool) (rem : Nat), Safe (b.matchLoop sub64 fuel p isBuy rem) fun t => t.1.Indexed := by
  induction fuel with
  | zero => exact fun _ _ _ => safe_fuel
  | succ n ih =>
    intro b h isBuy rem
    rw [matchLoop]
    split_ifs with h0 hmatch
    · exact h
    · exact Safe.bind (matchPass_safe h hp hmatch n rem) fun t ht => ih ht _ _
    · exact h

theorem joinLevel_safe (h : b.Indexed) (hp : p < maxTicks) :
    Safe (b.joinLevel s p lv) fun b' => b'.Indexed := by
  have hmax : maxTicks ≤ 262144 := le_refl _
  obtain ⟨S, hS⟩ := h.bidBits
  obtain ⟨T, hT⟩ := h.askBits
  unfold joinLevel
  by_cases h0 : lv.totalQuantity = 0
  swap
  · rw [if_neg h0]
    exact h
  rw [if_pos h0]
  cases s
  · obtain ⟨w, hw, hw'⟩ := PriceBitSet.set_spec hmax hT hp
    simp only [Bool.false_eq_true, if_false, hw, ok_bind]
    exact ⟨h.id_lt, h.price_lt, h.bidBits, ⟨_, hw'⟩, h.bestBid_lt, h.bestAsk_lt⟩
  · obtain ⟨w, hw, hw'⟩ := PriceBitSet.set_spec hmax hS hp
    simp only [if_true, hw, ok_bind]
    exact ⟨h.id_lt, h.price_lt, ⟨_, hw'⟩, h.askBits, h.bestBid_lt, h.bestAsk_lt⟩

theorem linkOrder_safe (hm : m.Indexed) : Safe (linkOrder m lv x) fun t => t.1.Indexed := by
  unfold linkOrder
  cases lv.head with
  | none => exact hm
  | some a =>
    dsimp only
    cases lv.tail with
    | none => exact safe_nullDeref
    | some t =>
      have hm' : (m.write x fun o => { o with prev := some t }).Indexed :=
        hm.write (f := fun o => { o with prev := some t }) (hm x)
      exact hm'.write (f := fun o => { o with next := some x }) (hm' t)

theorem Indexed.improveBest (h : b.Indexed) (hp : p < maxTicks) : (b.improveBest s p).Indexed := by
  unfold OrderBook.improveBest
  split_ifs
  · exact ⟨h.id_lt, h.price_lt, h.bidBits, h.askBits, hp, h.bestAsk_lt⟩
  · exact h
  · exact ⟨h.id_lt, h.price_lt, h.bidBits, h.askBits, h.bestBid_lt, Or.inl hp⟩
  · exact h

theorem restOrder_safe (h : b.Indexed) (hid : id < maxOrders) (hp : p < maxTicks) (order rem : Nat) :
    Safe (b.restOrder order id p rem isBuy) fun b' => b'.Indexed := by
  have hm : (b.pool.write order fun o => { o with
      id := id, price := p, quantity := toQuantity rem, isBuy := isBuy }).Indexed :=
    h.pool.write ⟨hid, hp⟩
  have hb₁ : { b with pool := b.pool.write order fun o => { o with
      id := id, price := p, quantity := toQuantity rem, isBuy := isBuy } }.Indexed :=
    h.withPool hm rfl rfl rfl rfl rfl
  unfold restOrder level
  refine Safe.bind (setOrderMap_safe hb₁ hid _) fun b₂ hb₂ => ?_
  refine Safe.bind (safe_index hp (Q := fun _ => True) trivial) fun l _ => ?_
  refine Safe.bind (joinLevel_safe hb₂.1 hp) fun b₃ hb₃ => ?_
  refine Safe.bind (linkOrder_safe hb₃.pool) fun t ht => ?_
  exact (hb₃.setLevel ht).improveBest hp

/-! ## Calls -/

theorem addOrder_safe (h : b.Indexed) (hid : id < maxOrders) (hp : p < maxTicks) (fuel : Nat) :
    Safe (b.addOrder sub64 fuel id p q isBuy) fun b' => b'.Indexed := by
  unfold addOrder matchOrder
  refine Safe.bind (matchLoop_safe hp fuel h isBuy q) fun t ht => ?_
  dsimp only
  split_ifs
  · exact ht
  cases hf : t.1.pool.freeList with
  | nil =>
    simp only [OrderPool.allocate, hf]
    exact ht
  | cons x free =>
    simp only [OrderPool.allocate, hf]
    have ht' : { t.1 with pool := { t.1.pool with freeList := free } }.Indexed :=
      ht.withPool ht.pool rfl rfl rfl rfl rfl
    exact restOrder_safe ht' hid hp x t.2

theorem cancelOrder_safe (h : b.Indexed) (hid : id < maxOrders) :
    Safe (b.cancelOrder sub64 id) fun b' => b'.Indexed := by
  unfold cancelOrder lookup level
  refine Safe.bind (safe_index hid (Q := fun _ => True) trivial) fun o _ => ?_
  cases o with
  | none => exact h
  | some x =>
    have hp := h.price_lt x
    refine Safe.bind (safe_index hp (Q := fun _ => True) trivial) fun l _ => ?_
    simp only [sub64, ok_bind]
    refine Safe.bind (settleLevel_safe (h.setLevel (h.pool.unlink _ _)) hp) fun b₂ hb₂ => ?_
    refine Safe.bind (setOrderMap_safe hb₂.1 hid none) fun b₃ hb₃ => ?_
    exact hb₃.1.withPool hb₃.1.pool.deallocate rfl rfl rfl rfl rfl

/-- A modify of a resting order indexes with the new price only when it replaces the order. -/
theorem modifyOrder_safe (h : b.Indexed) (hid : id < maxOrders)
    (hp : p < maxTicks ∨ b.orderMap id = none) (fuel : Nat) :
    Safe (b.modifyOrder sub64 fuel id p q) fun b' => b'.Indexed := by
  unfold modifyOrder lookup
  rw [index_of_lt hid, ok_bind]
  cases ho : b.orderMap id with
  | none => exact h
  | some x =>
    have hp : p < maxTicks := hp.resolve_right (by rw [ho]; exact Option.some_ne_none x)
    dsimp only
    split_ifs
    · exact Safe.bind (cancelOrder_safe h hid) fun b' hb' => addOrder_safe hb' hid hp fuel
    · exact cancelOrder_safe h hid
    · have hm : (b.pool.write x fun o => { o with quantity := toQuantity q }).Indexed :=
        h.pool.write (f := fun o => { o with quantity := toQuantity q }) (h.pool x)
      unfold level
      refine Safe.bind (safe_index (h.price_lt x) (Q := fun _ => True) trivial) fun l _ => ?_
      simp only [sub64, ok_bind]
      exact h.setLevel hm

/-- The call names only ids and prices that the tables hold, or does not come to use them: an add of
nothing, an add that crosses nothing while the pool is empty, a modify of an id that is not there. -/
def Guarded (b : OrderBook) : Op → Prop
  | .add id price qty isBuy => (id < maxOrders ∧ price < maxTicks) ∨ qty = 0 ∨
      (b.isMatch price isBuy = false ∧ b.pool.freeList = [])
  | .cancel id => id < maxOrders
  | .modify id newPrice _ => id < maxOrders ∧ (newPrice < maxTicks ∨ b.orderMap id = none)

/-- An add that has nothing to trade or to rest, and no slot for it otherwise, does nothing. -/
theorem addOrder_idle (h : q = 0 ∨ b.isMatch p isBuy = false ∧ b.pool.freeList = [])
    (fuel : Nat) : b.addOrder sub64 (fuel + 1) id p q isBuy = .ok b := by
  unfold addOrder matchOrder matchLoop
  by_cases h0 : q = 0
  · rw [if_pos h0]
    exact if_pos h0
  · obtain ⟨hmatch, hfree⟩ := h.resolve_left h0
    rw [if_neg h0, hmatch, if_neg Bool.false_ne_true, pure_eq_ok, ok_bind]
    simp only [OrderPool.allocate, hfree]
    exact if_neg h0

/-- **A guarded call is safe**, and leaves an indexed book. -/
theorem apply_safe (h : b.Indexed) (hg : b.Guarded op) (fuel : Nat) :
    Safe (b.apply sub64 fuel op) fun b' => b'.Indexed := by
  cases op with
  | add id p q isBuy =>
    rcases hg with ⟨hid, hp⟩ | hidle
    · exact addOrder_safe h hid hp fuel
    · cases fuel with
      | zero => exact safe_fuel
      | succ n =>
        show Safe (b.addOrder sub64 (n + 1) id p q isBuy) _
        rw [addOrder_idle hidle]
        exact h
  | cancel id => exact cancelOrder_safe h hg
  | modify id p q => exact modifyOrder_safe h hg.1 hg.2 fuel

end OrderBook

/-- The call names an id or a price that the tables do not hold. -/
def Op.OutOfRange : Op → Prop
  | .add id price _ _ => maxOrders ≤ id ∨ maxTicks ≤ price
  | .cancel id => maxOrders ≤ id
  | .modify id newPrice _ => maxOrders ≤ id ∨ maxTicks ≤ newPrice

/-- A guarded call that names an id or a price out of range leaves the book unchanged. -/
theorem OrderBook.Guarded.ignores (hg : b.Guarded op) (hout : op.OutOfRange) : b.Calls op b := by
  cases op with
  | add id p q isBuy =>
    rcases hg with ⟨hid, hp⟩ | hidle
    · unfold Op.OutOfRange at hout
      omega
    · exact ⟨1, OrderBook.addOrder_idle hidle 0⟩
  | cancel id => exact absurd hg (Nat.not_lt.mpr hout)
  | modify id p q =>
    obtain ⟨hid, hp⟩ := hg
    have hnone : b.orderMap id = none := by
      refine hp.resolve_left fun hlt => ?_
      unfold Op.OutOfRange at hout
      omega
    refine ⟨0, ?_⟩
    show b.modifyOrder sub64 0 id p q = _
    unfold OrderBook.modifyOrder OrderBook.lookup
    rw [index_of_lt hid, ok_bind, hnone]
    rfl

/-! ## Packets -/

namespace PacketPayload

/-- The packet's call, if it asks for one, is guarded. -/
def Guarded (p : PacketPayload) (b : OrderBook) : Prop := ∀ op, p.call? = some op → b.Guarded op

/-- The packet names an id or a price that the tables do not hold. -/
def OutOfRange (p : PacketPayload) : Prop := ∃ op, p.call? = some op ∧ op.OutOfRange

/-- Dispatching the packet makes no access out of range and no shift by 64 or more, and changes
nothing if the packet names an id or a price that the tables do not hold or is of unknown type. -/
def Tolerated (p : PacketPayload) (b : OrderBook) : Prop :=
  (∀ fuel, p.dispatch fuel b ≠ .error .outOfRange ∧ p.dispatch fuel b ≠ .error .badShift) ∧
    (p.OutOfRange ∨ p.call? = none → ∀ b', p.Dispatches b b' ↔ b' = b)

theorem guarded_of_call {p : PacketPayload} (hc : p.call? = some op) (hg : b.Guarded op) :
    p.Guarded b := fun op' hop => by
  obtain rfl := Option.some.inj (hc.symm.trans hop)
  exact hg

theorem Guarded.safe {p : PacketPayload} (hg : p.Guarded b) (h : b.Indexed) (fuel : Nat) :
    Safe (p.dispatch fuel b) fun b' => b'.Indexed := by
  rw [dispatch_eq]
  cases hc : p.call? with
  | none => exact h
  | some op => exact OrderBook.apply_safe h (hg op hc) fuel

theorem Guarded.tolerated {p : PacketPayload} (hg : p.Guarded b) (h : b.Indexed) :
    p.Tolerated b := by
  refine ⟨fun fuel => ?_, fun hout b' => ?_⟩
  · have hsafe := hg.safe h fuel
    cases hd : p.dispatch fuel b with
    | ok b' => exact ⟨(nomatch ·), (nomatch ·)⟩
    | error e =>
      rw [hd] at hsafe
      exact ⟨fun he => hsafe.1 (Except.error.inj he), fun he => hsafe.2 (Except.error.inj he)⟩
  · have hself : p.Dispatches b b := by
      rcases hout with ⟨op, hc, hout⟩ | hc
      · exact (dispatches_some hc b b).mpr ((hg op hc).ignores hout)
      · exact (dispatches_none hc b b).mpr rfl
    constructor
    · exact fun h' => h'.unique hself
    · rintro rfl
      exact hself

end PacketPayload

/-- **Untrusted packets are harmless in runs of guarded packets**: no guarded packet makes an access
out of range or a shift by 64 or more, and one that names an id or a price that the tables do not
hold leaves the book unchanged. -/
theorem memory_safe {packets : List PacketPayload}
    (h : Run (fun b p b' => p.Guarded b ∧ p.Dispatches b b') OrderBook.init packets b)
    (p : PacketPayload) (hp : p.Guarded b) : p.Tolerated b := by
  refine hp.tolerated (Run.invariant (I := OrderBook.Indexed) h OrderBook.indexed_init ?_)
  rintro b p b' hi ⟨hg, fuel, hd⟩
  have := hg.safe hi fuel
  rwa [hd] at this

/-- The packet with these fields; a cancel has no price and no quantity, and only an add a side. -/
def wirePacket (messageType side : Char) (id price qty : Nat) : PacketPayload :=
  ⟨0, Vector.ofFn fun i =>
    if i = 0 then messageType.toUInt8
    else if i < 9 then (id / 256 ^ (i.val - 1)).toUInt8
    else if i < 13 then (price / 256 ^ (i.val - 9)).toUInt8
    else if i < 17 then (qty / 256 ^ (i.val - 13)).toUInt8
    else if i = 17 then side.toUInt8 else 0⟩

/-- A bid fills an ask in part; then a modify of an unknown id to a price out of range and an add of
nothing under an id out of range. A modify of the filled bid to such a price is ignored as well. -/
theorem memory_safe_run : ∃ b,
    Run (fun b (p : PacketPayload) b' => p.Guarded b ∧ p.Dispatches b b') OrderBook.init
      [wirePacket 'A' 'S' 1 100 5, wirePacket 'A' 'B' 2 101 3, wirePacket 'M' ' ' 7 300000 5,
        wirePacket 'A' 'B' 2000000 100 0] b ∧
      (b.side false 100).totalQuantity = 2 ∧ (wirePacket 'M' ' ' 2 300000 9).OutOfRange ∧
      (wirePacket 'M' ' ' 2 300000 9).Tolerated b := by
  have hcheck : ((OrderBook.init.apply sub64 3 (.add 1 100 5 false) >>= fun b =>
      b.apply sub64 3 (.add 2 101 3 true)).toOption.any fun b =>
        decide ((b.side false 100).totalQuantity = 2 ∧ b.orderMap 2 = none ∧ b.orderMap 7 = none)) =
      true := by decide +kernel
  obtain ⟨b, hb, hP⟩ := exists_ok_of_any hcheck
  obtain ⟨htotal, hfilled, hunknown⟩ := of_decide_eq_true hP
  obtain ⟨b₁, hb₁, hb⟩ := bind_eq_ok.mp hb
  have hc₁ : (wirePacket 'A' 'S' 1 100 5).call? = some (.add 1 100 5 false) := by decide +kernel
  have hc₂ : (wirePacket 'A' 'B' 2 101 3).call? = some (.add 2 101 3 true) := by decide +kernel
  have hc₃ : (wirePacket 'M' ' ' 7 300000 5).call? = some (.modify 7 300000 5) := by decide +kernel
  have hc₄ : (wirePacket 'A' 'B' 2000000 100 0).call? = some (.add 2000000 100 0 true) := by
    decide +kernel
  have hc₅ : (wirePacket 'M' ' ' 2 300000 9).call? = some (.modify 2 300000 9) := by decide +kernel
  have hg₁ : OrderBook.init.Guarded (.add 1 100 5 false) := Or.inl ⟨by decide, by decide⟩
  have hg₂ : b₁.Guarded (.add 2 101 3 true) := Or.inl ⟨by decide, by decide⟩
  have hg₃ : b.Guarded (.modify 7 300000 5) := ⟨by decide, Or.inr hunknown⟩
  have hg₄ : b.Guarded (.add 2000000 100 0 true) := Or.inr (Or.inl rfl)
  have hg₅ : b.Guarded (.modify 2 300000 9) := ⟨by decide, Or.inr hfilled⟩
  have hout : (Op.modify 2 300000 9).OutOfRange := Or.inr (by decide)
  have hstep : ∀ {p : PacketPayload} {op : Op} {b b' : OrderBook}, p.call? = some op → b.Guarded op →
      b.Calls op b' → p.Guarded b ∧ p.Dispatches b b' := fun hc hg hcall =>
    ⟨PacketPayload.guarded_of_call hc hg, (PacketPayload.dispatches_some hc _ _).mpr hcall⟩
  have hrun : Run (fun b (p : PacketPayload) b' => p.Guarded b ∧ p.Dispatches b b') OrderBook.init
      [wirePacket 'A' 'S' 1 100 5, wirePacket 'A' 'B' 2 101 3, wirePacket 'M' ' ' 7 300000 5,
        wirePacket 'A' 'B' 2000000 100 0] b :=
    .cons (hstep hc₁ hg₁ ⟨3, hb₁⟩) <| .cons (hstep hc₂ hg₂ ⟨3, hb⟩) <|
      .cons (hstep hc₃ hg₃ (hg₃.ignores (Or.inr (by decide)))) <|
        .cons (hstep hc₄ hg₄ (hg₄.ignores (Or.inl (by decide)))) .nil
  exact ⟨b, hrun, htotal, ⟨_, hc₅, hout⟩,
    memory_safe hrun _ (PacketPayload.guarded_of_call hc₅ hg₅)⟩

/-- **The code indexes with what it is sent**: as a first packet, a cancel of id 1500000 reads past
the id table. -/
theorem out_of_range : ¬ ∀ packets b,
    Run (fun b (p : PacketPayload) b' => p.Dispatches b b') OrderBook.init packets b →
      ∀ p : PacketPayload, p.Tolerated b := by
  intro h
  have hc : (wirePacket 'X' ' ' 1500000 0 0).call? = some (.cancel 1500000) := by decide +kernel
  refine ((h [] _ Run.nil (wirePacket 'X' ' ' 1500000 0 0)).1 0).1 ?_
  rw [PacketPayload.dispatch_eq, hc]
  rfl

end MarketHandler
