import Mathlib.Logic.Relation
import MarketHandler.Runs

/-!
# `match_order` and its loops

`match_order` has no bound of its own on its loops: they end because every pass of the outer loop
uses up the incoming quantity or empties a level. This file says when that is so, for every book
that calls lead to, with prices from 0 and ids that may be reused.

* `OrderBook.Pass`: one pass of the outer loop, `OrderBook.Advances`: what it must achieve.
* `Rep.pass`: a pass of matching that comes to an end advances and leaves such a matching to the
  next pass; `Rep.passes` is the induction on passes.
* `terminates_iff`: **the loops end, with every pass advancing, exactly when** the call is not a sell
  at 0 that is larger than all bids. Such a call finds the sentinel 0 of the empty bid side at its
  limit and goes round for ever (`matchLoop_runs_on`).
-/

namespace MarketHandler

open Lib Relation

namespace OrderBook

/-- The price of the level that the next pass of the outer loop selects. -/
def matchPrice (b : OrderBook) (isBuy : Bool) : Nat := if isBuy then b.bestAsk else b.bestBid

/-- One pass of the outer loop of `match_order`, from the book and the remaining quantity at its
head to those at its end. -/
def Pass (price : Nat) (isBuy : Bool) (s s' : OrderBook × Nat) : Prop :=
  s.2 ≠ 0 ∧ s.1.isMatch price isBuy = true ∧ ∃ fuel, s.1.matchPass sub64 fuel isBuy s.2 = .ok s'

/-- The cached best price that `match_order` trades against is further away in `b'`. -/
def BestMoves (b b' : OrderBook) (isBuy : Bool) : Prop :=
  if isBuy then b.bestAsk < b'.bestAsk else b'.bestBid < b.bestBid

/-- The pass selects an opposing level with a resting order, and uses up the remaining quantity or
empties the level and moves the cached best strictly away. -/
structure Advances (isBuy : Bool) (s s' : OrderBook × Nat) : Prop where
  rests : ∃ x, s.1.RestsAt (!isBuy) (s.1.matchPrice isBuy) x
  progress : s'.2 = 0 ∨
    s'.1.Queue (!isBuy) (s.1.matchPrice isBuy) [] ∧ s.1.BestMoves s'.1 isBuy

/-- `match_order` returns, and every pass on its way advances. -/
structure Terminates (b : OrderBook) (price qty : Nat) (isBuy : Bool) : Prop where
  returns : ∃ fuel r, b.matchOrder sub64 fuel price qty isBuy = .ok r
  advances : ∀ s s', ReflTransGen (Pass price isBuy) (b, qty) s → Pass price isBuy s s' →
    Advances isBuy s s'

end OrderBook

open OrderBook

variable {b b' : OrderBook} {v : QueueBook} {isBuy : Bool} {p price qty rem rem' : Nat}
  {ps : List Nat} {ops : List Op}

/-- A sell that goes on with quantity left has filled a bid above 0 or has bids left. -/
theorem QueueBook.Ends.bid_left (hend : v.Ends isBuy price rem) (hrem : rem ≠ 0)
    (hcross : QueueBook.crosses isBuy price p = true) :
    isBuy = true ∨ 0 < p ∨ v.prices (!isBuy) ≠ ∅ := by
  rcases hend with hbuy | hpos | hle
  · exact Or.inl hbuy
  · cases isBuy
    · have : price ≤ p := by simpa [QueueBook.crosses] using hcross
      exact Or.inr (Or.inl (by omega))
    · exact Or.inl rfl
  · refine Or.inr (Or.inr fun hempty => hrem ?_)
    rw [QueueBook.crossing_eq_nil hempty] at hle
    exact Nat.le_zero.mp hle

/-- The cached best price moves away once the best level is filled. -/
theorem Rep.bestMoves (h : Rep b v) (hw : v.Wf) {w : QueueBook} (h' : Rep b' w)
    (hps : v.crossingPrices isBuy price = p :: ps) (hgone : w.queue (!isBuy) p = [])
    (hsub : w.prices (!isBuy) ⊆ v.prices (!isBuy))
    (h0 : isBuy = true ∨ 0 < p ∨ w.prices (!isBuy) ≠ ∅) : b.BestMoves b' isBuy := by
  obtain ⟨hp, -, hbest⟩ := QueueBook.crossingPrices_cons hps
  have hprice := h.bbo.best_eq hp fun p' hp' => hbest p' hp' (hw.price_mem_lt hp')
  have hlt := hw.price_mem_lt hp
  -- a price that is left is worse than `p`
  have hworse : ∀ p' ∈ w.prices (!isBuy), QueueBook.better isBuy p p' := by
    intro p' hp'
    refine (hbest p' (hsub hp') (hw.price_mem_lt (hsub hp'))).resolve_left ?_
    rintro rfl
    exact hp' hgone
  unfold BestMoves
  cases isBuy
  · simp only [Bool.false_eq_true, if_false, Bool.not_false, false_or] at hprice hworse h0 ⊢
    rw [hprice]
    rcases h'.bbo.bestBid with ⟨hempty, hb⟩ | ⟨hmem, -⟩
    · rw [hb]
      exact h0.resolve_right fun hne => hne hempty
    · simpa [QueueBook.better] using hworse _ hmem
  · simp only [if_true, Bool.not_true] at hprice hworse ⊢
    rw [hprice]
    rcases h'.bbo.bestAsk with ⟨-, hb⟩ | ⟨hmem, -⟩
    · rw [hb]
      unfold maxTicks at hlt
      unfold uint32Max
      omega
    · simpa [QueueBook.better] using hworse _ hmem

/-- **A pass of matching that comes to an end**: what it leaves, and that it advances. -/
theorem Rep.pass (h : Rep b v) (hw : v.Wf) (hlt : price < maxTicks)
    (hend : v.Ends isBuy price rem) (hpass : Pass price isBuy (b, rem) (b', rem')) :
    Advances isBuy (b, rem) (b', rem') ∧ ∃ w, Rep b' w ∧ w.Wf ∧ w.Ends isBuy price rem' := by
  obtain ⟨hrem, hmatch, fuel, hrun⟩ := hpass
  simp only at hrem hmatch hrun
  cases hps : v.crossingPrices isBuy price with
  | nil =>
    -- no opposing price crosses, so the loop would not have been entered
    have hc : v.crossing isBuy price = [] := QueueBook.crossing_eq_nil_iff.mpr hps
    unfold QueueBook.Ends at hend
    rw [hc, total_nil, ← or_assoc] at hend
    have h0 := hend.resolve_right fun hz => hrem (Nat.le_zero.mp hz)
    rw [not_isMatch h.bbo hw h0 hlt hps] at hmatch
    cases hmatch
  | cons p ps =>
    obtain ⟨hp, hcross, hbest⟩ := QueueBook.crossingPrices_cons hps
    have hprice : b.matchPrice isBuy = p :=
      h.bbo.best_eq hp fun p' hp' => hbest p' hp' (hw.price_mem_lt hp')
    obtain ⟨b₁, hb₁, hrep₁⟩ := matchPass_spec h hw hps rem
    have hw₁ := hw.trade (q := rem) (hw.lists_queue (!isBuy) p)
    have he := Approx.ok_unique (fun n => matchPass_approx n b isBuy rem) hrun
      (hb₁ sub64 _ exact_sub64 (Nat.lt_succ_self _))
    obtain ⟨rfl, rfl⟩ := Prod.mk.inj he
    have hrests : ∃ x, b.RestsAt (!isBuy) (b.matchPrice isBuy) x := by
      obtain ⟨o, ho⟩ := QueueBook.mem_prices.mp hp
      exact ⟨o.slot, h.restsAt_iff.mpr ⟨o, hprice ▸ ho, rfl⟩⟩
    by_cases hz : rem - total (v.queue (!isBuy) p) = 0
    · have hzero : (v.trade (v.queue (!isBuy) p) rem).2 = 0 := by rw [QueueBook.trade_snd, hz]
      refine ⟨⟨hrests, Or.inl hzero⟩, _, hrep₁, hw₁, Or.inr (Or.inr ?_)⟩
      rw [hzero]
      exact Nat.zero_le _
    · have hle : total (v.queue (!isBuy) p) ≤ rem := by omega
      have hgone := QueueBook.trade_queue_self hw hle
      have hend₁ := hend.trade hw hps hle
      refine ⟨⟨hrests, Or.inr ⟨?_, ?_⟩⟩, _, hrep₁, hw₁, hend₁⟩
      · rw [hrep₁.queue_iff]
        simp only [hprice, hgone, List.map_nil]
      · refine h.bestMoves hw hrep₁ hps hgone
          (QueueBook.trade_prices_subset hw (hw.lists_queue _ p)) ?_
        exact hend₁.bid_left (by rwa [QueueBook.trade_snd]) hcross

/-- Every state that passes lead to is one from which matching comes to an end. -/
theorem Rep.passes (h : Rep b v) (hw : v.Wf) (hlt : price < maxTicks)
    (hend : v.Ends isBuy price qty) {s : OrderBook × Nat}
    (hs : ReflTransGen (Pass price isBuy) (b, qty) s) :
    ∃ w, Rep s.1 w ∧ w.Wf ∧ w.Ends isBuy price s.2 := by
  induction hs with
  | refl => exact ⟨v, h, hw, hend⟩
  | tail _ hpass ih =>
    obtain ⟨w, hrep, hw', hend'⟩ := ih
    exact (hrep.pass hw' hlt hend' hpass).2

theorem Rep.terminates (h : Rep b v) (hw : v.Wf) (hlt : price < maxTicks) :
    b.Terminates price qty isBuy ↔ v.Ends isBuy price qty := by
  constructor
  · rintro ⟨⟨fuel, ⟨b', rem⟩, hrun⟩, -⟩
    exact h.ends hw hrun
  · intro hend
    obtain ⟨fuel, b', hb', -⟩ := matchOrder_returns h hw hend hlt
    refine ⟨⟨fuel, _, hb'⟩, fun s s' hs hpass => ?_⟩
    obtain ⟨w, hrep, hw', hend'⟩ := h.passes hw hlt hend hs
    exact (hrep.pass hw' hlt hend' hpass).1

/-- A crossed level is a part of the crossed quantity. -/
theorem OrderBook.total_le_crossingQuantity (b : OrderBook) (hlt : p < maxTicks)
    (hcross : QueueBook.crosses isBuy price p = true) :
    (b.side (!isBuy) p).totalQuantity ≤ b.crossingQuantity isBuy price := by
  unfold crossingQuantity
  refine List.le_sum_of_mem (List.mem_map.mpr ⟨p, ?_, rfl⟩)
  exact List.mem_filter.mpr ⟨List.mem_range.mpr hlt, hcross⟩

/-- Runs of calls with prices from 0 and ids that may be reused represent well-formed queues. -/
theorem OrderBook.Reaches.rep_inTables
    (h : Reaches (fun _ op => op.InTables ∧ op.SmallQuantity) ops b) : ∃ v, Rep b v ∧ v.Wf := by
  obtain ⟨v, hrep, hw, -⟩ := h.rep_of (I := fun _ _ => True)
    (fun hop => ⟨hop.1, OrderBook.fits_of_smallQuantity hop.2⟩) trivial fun _ _ _ _ _ => trivial
  exact ⟨v, hrep, hw⟩

/-- **When `match_order` terminates.** In every book that calls lead to, and for every price the
tables hold: the loops end, with every pass advancing, exactly when the call is a buy, or its price
is not 0, or the bids have the quantity. -/
theorem terminates_iff (h : Reaches (fun _ op => op.InTables ∧ op.SmallQuantity) ops b)
    (hlt : price < maxTicks) : b.Terminates price qty isBuy ↔
      isBuy = true ∨ 0 < price ∨ qty ≤ b.crossingQuantity isBuy price := by
  obtain ⟨v, hrep, hw⟩ := h.rep_inTables
  rw [hrep.terminates hw hlt, hrep.crossingQuantity_eq]
  rfl

/-- A sell at 0 that takes the whole of a bid at 0. -/
theorem terminates_at_zero : ∃ b, Reaches (fun _ op => op.InTables ∧ op.SmallQuantity)
    [.add 1 0 5 true] b ∧ b.Terminates 0 5 false := by
  have hcheck : ((OrderBook.init.apply sub64 1 (.add 1 0 5 true)).toOption.any fun b =>
      decide ((b.side true 0).totalQuantity = 5)) = true := by decide +kernel
  obtain ⟨b, hb, hP⟩ := exists_ok_of_any hcheck
  have hin : (Op.add 1 0 5 true).InTables ∧ (Op.add 1 0 5 true).SmallQuantity :=
    ⟨⟨by decide, by decide⟩, (by decide : 5 < 2 ^ 31)⟩
  have hrun : Reaches (fun _ op => op.InTables ∧ op.SmallQuantity) [.add 1 0 5 true] b :=
    Run.snoc Run.nil ⟨hin, 1, hb⟩
  have hcross : QueueBook.crosses false 0 0 = true := rfl
  have hbids : (b.side true 0).totalQuantity ≤ b.crossingQuantity false 0 :=
    b.total_le_crossingQuantity maxTicks_pos hcross
  rw [of_decide_eq_true hP] at hbids
  exact ⟨b, hrun, (terminates_iff hrun maxTicks_pos).mpr (Or.inr (Or.inr hbids))⟩

/-- **`match_order` does not terminate on every price in range**: a sell at 0 on the empty book. -/
theorem not_terminates : ¬ ∀ ops b, Reaches (fun _ op => op.InTables ∧ op.SmallQuantity) ops b →
    ∀ price qty isBuy, price < maxTicks → b.Terminates price qty isBuy := by
  intro h
  have hend := (rep_init.terminates .empty maxTicks_pos).mp
    (h [] _ Run.nil 0 1 false maxTicks_pos)
  unfold QueueBook.Ends at hend
  rw [QueueBook.crossing_empty] at hend
  simp at hend

end MarketHandler
