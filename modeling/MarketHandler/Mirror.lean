import Mathlib.Data.List.Find
import MarketHandler.Determined
import MarketHandler.Invariants

/-!
# Buy/sell mirror symmetry

The mirror image of a sequence of calls flips every side and takes every price `p` to
`MAX_TICKS - p`. The code treats the two sides by separate branches with opposite comparisons,
opposite bit scans and different sentinels, so the symmetry is one of its results only.

* `RefBook.apply_mirror`: the reference book is symmetric, call by call: its one comparison of
  prices is reversed when both prices are mirrored.
* `Reaches.mirror`: the mirrored calls run to their end, to the mirrored reference book.
* `mirrored`: **the mirrored run leads to the mirrored book**, sentinels exchanged.
-/

namespace MarketHandler

open Lib

/-- The price on the other side of the book. -/
def mirrorPrice (p : Nat) : Nat := maxTicks - p

/-- The call with its side flipped and its price mirrored. -/
def Op.mirror : Op → Op
  | .add id price qty isBuy => .add id (mirrorPrice price) qty (!isBuy)
  | .cancel id => .cancel id
  | .modify id newPrice newQty => .modify id (mirrorPrice newPrice) newQty

/-- The entry on the other side of the book. -/
def Entry.mirror (e : Entry) : Entry :=
  { e with isBuy := !e.isBuy, price := mirrorPrice e.price }

/-- The book with its sides exchanged. -/
def RefBook.mirror (r : RefBook) : RefBook := r.map Entry.mirror

variable {e : Entry} {r : RefBook} {op : Op} {isBuy : Bool} {p p' limit qty id : Nat}

theorem mirrorPrice_le_iff (hp : p ≤ maxTicks) (hp' : p' ≤ maxTicks) :
    mirrorPrice p ≤ mirrorPrice p' ↔ p' ≤ p := by
  unfold mirrorPrice
  omega

theorem mirrorPrice_eq_iff (hp : p ≤ maxTicks) (hp' : p' ≤ maxTicks) :
    mirrorPrice p = mirrorPrice p' ↔ p = p' := by
  unfold mirrorPrice
  omega

theorem Op.Valid.mirror (h : op.Valid) : op.mirror.Valid := by
  obtain ⟨hin, hsmall⟩ := h
  cases op with
  | add id price qty isBuy =>
    obtain ⟨hid, h1, hlt⟩ := hin
    refine ⟨⟨hid, ?_, ?_⟩, hsmall⟩ <;> unfold mirrorPrice <;> omega
  | cancel id => exact ⟨hin, hsmall⟩
  | modify id price qty =>
    obtain ⟨hid, h1, hlt⟩ := hin
    refine ⟨⟨hid, ?_, ?_⟩, hsmall⟩ <;> unfold mirrorPrice <;> omega

/-! ## The reference book -/

namespace RefBook

/-- No entry lies outside the price range. -/
def InTicks (r : RefBook) : Prop := ∀ e ∈ r, e.price ≤ maxTicks

theorem InTicks.remove (h : r.InTicks) (id : Nat) : (r.remove id).InTicks :=
  fun e he => h e (List.mem_filter.mp he).1

theorem crossing_mirror (h : r.InTicks) (hl : limit ≤ maxTicks) :
    r.mirror.crossing (!isBuy) (mirrorPrice limit) = (r.crossing isBuy limit).mirror := by
  unfold crossing mirror
  rw [List.filter_map]
  congr 1
  refine List.filter_congr fun e he => ?_
  have h1 := mirrorPrice_le_iff (h e he) hl
  have h2 := mirrorPrice_le_iff hl (h e he)
  cases isBuy <;> simp [Entry.mirror, h1, h2]

theorem best_mirror (h : r.InTicks) (hl : limit ≤ maxTicks) :
    r.mirror.best (!isBuy) (mirrorPrice limit) = (r.best isBuy limit).map Entry.mirror := by
  unfold best
  rw [crossing_mirror h hl]
  unfold mirror
  rw [List.find?_map]
  refine congrArg (Option.map Entry.mirror) (List.find?_congr fun e he => ?_)
  have hle : ∀ e ∈ r.crossing isBuy limit, e.price ≤ maxTicks := fun e he =>
    h e (List.mem_filter.mp he).1
  rw [Function.comp_apply, List.all_map, Bool.eq_iff_iff, List.all_eq_true, List.all_eq_true]
  refine forall₂_congr fun e' he' => ?_
  have h1 := mirrorPrice_le_iff (hle e he) (hle e' he')
  have h2 := mirrorPrice_le_iff (hle e' he') (hle e he)
  cases isBuy <;> simp [noWorse, Entry.mirror, h1, h2]

theorem remove_mirror (id : Nat) : r.mirror.remove id = (r.remove id).mirror := by
  unfold remove mirror
  rw [List.filter_map]
  rfl

theorem setQuantity_mirror (id q : Nat) :
    r.mirror.setQuantity id q = (r.setQuantity id q).mirror := by
  unfold setQuantity mirror
  rw [List.map_map, List.map_map]
  refine List.map_congr_left fun e _ => ?_
  simp only [Function.comp_apply]
  split_ifs with h1 h2 h2
  · rfl
  · exact absurd h1 h2
  · exact absurd h2 h1
  · rfl

theorem trade_mirror (h : r.InTicks) (hl : limit ≤ maxTicks) :
    r.mirror.trade (!isBuy) (mirrorPrice limit) qty =
      ((r.trade isBuy limit qty).1.mirror, (r.trade isBuy limit qty).2) := by
  fun_induction RefBook.trade r isBuy limit qty with
  | case1 r => rw [trade_zero]
  | case2 r qty h0 hnone => rw [trade_none (by rw [best_mirror h hl, hnone]; rfl)]
  | case3 r qty h0 e he hle ih =>
    have hbest : r.mirror.best (!isBuy) (mirrorPrice limit) = some e.mirror := by
      rw [best_mirror h hl, he]
      rfl
    rw [trade_full h0 hbest hle]
    show (r.mirror.remove e.id).trade _ _ (qty - e.quantity) = _
    rw [remove_mirror]
    exact ih (h.remove e.id)
  | case4 r qty h0 e he hle =>
    have hbest : r.mirror.best (!isBuy) (mirrorPrice limit) = some e.mirror := by
      rw [best_mirror h hl, he]
      rfl
    rw [trade_part h0 hbest hle]
    show (r.mirror.setQuantity e.id (e.quantity - qty), 0) = _
    rw [setQuantity_mirror]

theorem add_mirror (h : r.InTicks) (hl : limit ≤ maxTicks) :
    r.mirror.add id (mirrorPrice limit) qty (!isBuy) = (r.add id limit qty isBuy).mirror := by
  unfold add
  rw [trade_mirror h hl]
  dsimp only
  split_ifs
  · rfl
  · rw [mirror, mirror, List.map_append]
    rfl

theorem find_mirror (id : Nat) :
    r.mirror.find? (·.id = id) = (r.find? (·.id = id)).map Entry.mirror := by
  unfold mirror
  rw [List.find?_map]
  rfl

/-- **The reference book is symmetric**, call by call. -/
theorem apply_mirror (h : r.InTicks) (hop : op.Valid) :
    r.mirror.apply op.mirror = (r.apply op).mirror := by
  cases op with
  | add id price qty isBuy => exact add_mirror h hop.1.2.2.le
  | cancel id => exact remove_mirror id
  | modify id price qty =>
    simp only [Op.mirror, apply, find_mirror]
    cases hf : r.find? (·.id = id) with
    | none => rfl
    | some e =>
      have he := h e (List.mem_of_find?_eq_some hf)
      have hprice := mirrorPrice_eq_iff (show price ≤ maxTicks from hop.1.2.2.le) he
      simp only [Option.map_some, Entry.mirror, hprice, remove_mirror, setQuantity_mirror,
        add_mirror (h.remove id) hop.1.2.2.le]
      split_ifs <;> rfl

end RefBook

/-! ## The code's book -/

variable {b b' : OrderBook} {v v' : QueueBook} {s : Bool} {x : Nat} {ops : List Op}

theorem Abs.inTicks (h : Abs v r) (hw : v.Wf) : r.InTicks := by
  intro e he
  obtain ⟨s, p, o, ho, rfl⟩ := h.mem_iff.mp he
  exact (hw.price_lt ho).le

/-- **The mirrored calls run to their end**, and lead the reference book to the mirrored one. -/
theorem OrderBook.Reaches.mirror (h : OrderBook.Reaches OrderBook.Allowed ops b) :
    (∃ b', OrderBook.Reaches OrderBook.Allowed (ops.map Op.mirror) b') ∧
      RefBook.run (ops.map Op.mirror) = (RefBook.run ops).mirror := by
  induction h with
  | nil => exact ⟨⟨_, Run.nil⟩, rfl⟩
  | @snoc ops b b₁ op hrun hstep ih =>
    obtain ⟨⟨b', hb'⟩, hmirror⟩ := ih
    obtain ⟨⟨hvalid, hfresh⟩, -⟩ := hstep
    obtain ⟨v, hrep, hw, ha, habs⟩ := OrderBook.Reaches.abs hrun
    -- the mirrored id is as fresh as the id
    have hfresh' : b'.Fresh op.mirror := by
      have hfresh := (OrderBook.Reaches.fresh_iff hrun).mp hfresh
      rw [hb'.fresh_iff, hmirror]
      cases op with
      | add id price qty isBuy =>
        intro e he
        obtain ⟨e', he', rfl⟩ := List.mem_map.mp he
        exact hfresh e' he'
      | cancel id => trivial
      | modify id price qty => trivial
    obtain ⟨b₁', hb₁'⟩ := hb'.returns hvalid.mirror
    rw [List.map_append, List.map_singleton]
    refine ⟨⟨b₁', Run.snoc hb' ⟨⟨hvalid.mirror, hfresh'⟩, hb₁'⟩⟩, ?_⟩
    rw [RefBook.run_snoc, RefBook.run_snoc, hmirror]
    exact RefBook.apply_mirror (habs.inTicks hw) hvalid

/-- `b'` is `b` with the sides exchanged: every queue holds the mirrored entries in order, and the
best prices are mirrored, the sentinels exchanged. -/
structure OrderBook.Mirrors (b b' : OrderBook) : Prop where
  queue : ∀ isBuy price, 1 ≤ price → price < maxTicks → ∃ l l', b.Queue isBuy price l ∧
    b'.Queue (!isBuy) (mirrorPrice price) l' ∧ l'.map b'.entry = l.map fun x => (b.entry x).mirror
  bestAsk : b'.getBestAsk =
    if b.getBestBid = 0 then uint32Max else mirrorPrice b.getBestBid
  bestBid : b'.getBestBid =
    if b.getBestAsk = uint32Max then 0 else mirrorPrice b.getBestAsk

theorem Abs.queue_mirror (h : Abs v r) (h' : Abs v' r.mirror) (hr : r.InTicks) (hp : p ≤ maxTicks) :
    (v'.queue (!s) (mirrorPrice p)).map (Resting.entry · (!s) (mirrorPrice p)) =
      (v.queue s p).map fun o => (o.entry s p).mirror := by
  rw [h', RefBook.mirror, List.filter_map]
  have hfilter : r.filter (fun e => e.mirror.isBuy = !s ∧ e.mirror.price = mirrorPrice p) =
      r.filter fun e => e.isBuy = s ∧ e.price = p := by
    refine List.filter_congr fun e he => ?_
    simp only [Entry.mirror, mirrorPrice_eq_iff (hr e he) hp]
    cases e.isBuy <;> cases s <;> simp
  show (r.filter fun e => e.mirror.isBuy = !s ∧ e.mirror.price = mirrorPrice p).map Entry.mirror = _
  rw [hfilter, ← h, List.map_map]
  rfl

theorem Abs.prices_mirror (h : Abs v r) (h' : Abs v' r.mirror) (hr : r.InTicks)
    (hp : p ≤ maxTicks) : mirrorPrice p ∈ v'.prices (!s) ↔ p ∈ v.prices s := by
  have hq := congrArg (· = []) (h.queue_mirror (s := s) h' hr hp)
  simp only [List.map_eq_nil_iff] at hq
  exact not_congr (iff_of_eq hq)

theorem mirrorPrice_mirrorPrice (hp : p ≤ maxTicks) : mirrorPrice (mirrorPrice p) = p := by
  unfold mirrorPrice
  omega

theorem mirrorPrice_le : mirrorPrice p ≤ maxTicks := Nat.sub_le _ _

section Best

variable {S S' : Set Nat} (hS : ∀ p ∈ S, 0 < p ∧ p < maxTicks) (hS' : ∀ p ∈ S', p < maxTicks)
  (hiff : ∀ p ≤ maxTicks, mirrorPrice p ∈ S' ↔ p ∈ S)

include hS' hiff

theorem mem_of_mem_mirror (hp : p ∈ S') : mirrorPrice p ∈ S := by
  rw [← mirrorPrice_mirrorPrice (hS' p hp).le] at hp
  exact (hiff _ mirrorPrice_le).mp hp

theorem mirror_eq_empty (h : S = ∅) : S' = ∅ :=
  Set.eq_empty_of_forall_notMem fun _ hp =>
    Set.notMem_empty _ (h ▸ mem_of_mem_mirror hS' hiff hp)

include hS

/-- The best bid becomes the best ask. -/
theorem IsBestBid.mirror (h : IsBestBid S x) :
    IsBestAsk S' (if x = 0 then uint32Max else mirrorPrice x) := by
  rcases h with ⟨hempty, rfl⟩ | ⟨hx, hge⟩
  · exact Or.inl ⟨mirror_eq_empty hS' hiff hempty, if_pos rfl⟩
  · obtain ⟨hpos, hlt⟩ := hS x hx
    rw [if_neg hpos.ne']
    refine Or.inr ⟨(hiff x hlt.le).mpr hx, fun p hp => ?_⟩
    rw [← mirrorPrice_mirrorPrice (hS' p hp).le, mirrorPrice_le_iff hlt.le mirrorPrice_le]
    exact hge (mem_of_mem_mirror hS' hiff hp)

/-- The best ask becomes the best bid. -/
theorem IsBestAsk.mirror (h : IsBestAsk S x) :
    IsBestBid S' (if x = uint32Max then 0 else mirrorPrice x) := by
  rcases h with ⟨hempty, rfl⟩ | ⟨hx, hle⟩
  · exact Or.inl ⟨mirror_eq_empty hS' hiff hempty, if_pos rfl⟩
  · obtain ⟨-, hlt⟩ := hS x hx
    have hne : x ≠ uint32Max := by
      unfold maxTicks at hlt
      unfold uint32Max
      omega
    rw [if_neg hne]
    refine Or.inr ⟨(hiff x hlt.le).mpr hx, fun p hp => ?_⟩
    rw [← mirrorPrice_mirrorPrice (hS' p hp).le, mirrorPrice_le_iff mirrorPrice_le hlt.le]
    exact hle (mem_of_mem_mirror hS' hiff hp)

end Best

/-- The prices with resting orders are in range, from 1. -/
theorem OrderBook.Reaches.prices_pos (h : OrderBook.Reaches OrderBook.Allowed ops b)
    (hrep : Rep b v) (hw : v.Wf) : ∀ p ∈ v.prices s, 0 < p ∧ p < maxTicks := by
  intro p hp
  refine ⟨?_, hw.price_mem_lt hp⟩
  obtain ⟨v₁, hrep₁, -, -, -, hpos⟩ := h.rep_uncrossed
  rw [hrep.prices_eq, ← hrep₁.prices_eq] at hp
  obtain ⟨o, ho⟩ := QueueBook.mem_prices.mp hp
  exact hpos _ _ _ ho

/-- **Buy/sell mirror symmetry.** For every sequence of calls with fresh ids, the mirrored sequence
runs to its end and leads to the mirrored book. -/
theorem mirrored (h : OrderBook.Reaches OrderBook.Allowed ops b) :
    (∃ b', OrderBook.Reaches OrderBook.Allowed (ops.map Op.mirror) b') ∧
      ∀ b', OrderBook.Reaches OrderBook.Allowed (ops.map Op.mirror) b' → b.Mirrors b' := by
  obtain ⟨hruns, hmirror⟩ := h.mirror
  refine ⟨hruns, fun b' h' => ?_⟩
  obtain ⟨v, hrep, hw, -, habs⟩ := h.abs
  obtain ⟨v', hrep', hw', -, habs'⟩ := h'.abs
  rw [hmirror] at habs'
  have hr := habs.inTicks hw
  have hprices : ∀ s, ∀ p ≤ maxTicks, mirrorPrice p ∈ v'.prices (!s) ↔ p ∈ v.prices s :=
    fun s p hp => habs.prices_mirror habs' hr hp
  refine ⟨fun s p _ hlt => ?_, ?_, ?_⟩
  · refine ⟨_, _, hrep.queue_iff.mpr rfl, hrep'.queue_iff.mpr rfl, ?_⟩
    rw [slots, slots, List.map_map, List.map_map]
    calc (v'.queue (!s) (mirrorPrice p)).map (b'.entry ∘ Resting.slot)
        = (v'.queue (!s) (mirrorPrice p)).map (Resting.entry · (!s) (mirrorPrice p)) :=
          List.map_congr_left fun o ho => hrep'.entry_eq ho
      _ = (v.queue s p).map fun o => (o.entry s p).mirror := habs.queue_mirror habs' hr hlt.le
      _ = (v.queue s p).map ((fun x => (b.entry x).mirror) ∘ Resting.slot) :=
          List.map_congr_left fun o ho => congrArg Entry.mirror (hrep.entry_eq ho).symm
  · exact hrep'.bbo.bestAsk.unique (hrep.bbo.bestBid.mirror (h.prices_pos hrep hw)
      (fun p => hw'.price_mem_lt) (hprices true))
  · exact hrep'.bbo.bestBid.unique (hrep.bbo.bestAsk.mirror (h.prices_pos hrep hw)
      (fun p => hw'.price_mem_lt) (hprices false))

/-- A bid that sweeps an ask and rests, and its mirror image. -/
theorem mirrored_run : ∃ b b', OrderBook.Reaches OrderBook.Allowed
    [.add 1 100 5 false, .add 2 101 8 true] b ∧ OrderBook.Reaches OrderBook.Allowed
    [.add 1 262044 5 true, .add 2 262043 8 false] b' ∧ b.Mirrors b' := by
  have hallows : RefBook.Allows [] [.add 1 100 5 false, .add 2 101 8 true] := by decide +kernel
  obtain ⟨b, hb⟩ := hallows.reaches
  obtain ⟨⟨b', hb'⟩, hall⟩ := mirrored hb
  exact ⟨b, b', hb, hb', hall b' hb'⟩

end MarketHandler
