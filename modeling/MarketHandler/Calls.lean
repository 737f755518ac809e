import MarketHandler.QueueBook.Step
import MarketHandler.Refine

/-!
# Calls

* `OrderBook.Calls.unique`: a call has at most one result, whatever the fuel.
* `apply_spec`: on a book that represents queues, a call in range whose remainder fits in the
  bit-field returns within `maxOrders + 2` iterations of either loop, no subtraction wraps, and the
  book represents the queues after the abstract call.
* `matchLoop_runs_on`: a sell at 0 that is larger than all bids never returns, so
  `Rep.calls`: whatever a call returns represents what the abstract call leaves.
-/

namespace MarketHandler

open Lib

/-! ## Fuel -/

namespace OrderBook

variable {sub : Subtraction}

theorem fillLevel_approx (n : Nat) : ∀ (b : OrderBook) (s : Bool) (p : Nat) (r : Option Nat)
    (rem : Nat), Approx (b.fillLevel sub n s p r rem) (b.fillLevel sub (n + 1) s p r rem) := by
  induction n with
  | zero => exact fun b s p r rem => Approx.fuel _
  | succ n ih =>
    intro b s p r rem
    cases r with
    | none => exact Approx.refl _
    | some x =>
      simp only [fillLevel]
      split_ifs
      · exact Approx.refl _
      · exact Approx.bind (Approx.refl _) fun a => ih _ _ _ _ _

theorem matchPass_approx (n : Nat) (b : OrderBook) (isBuy : Bool) (rem : Nat) :
    Approx (b.matchPass sub n isBuy rem) (b.matchPass sub (n + 1) isBuy rem) := by
  unfold matchPass
  exact Approx.bind (Approx.refl _) fun l =>
    Approx.bind (fillLevel_approx n _ _ _ _ _) fun a => Approx.refl _

theorem matchLoop_approx (n : Nat) : ∀ (b : OrderBook) (price : Nat) (isBuy : Bool) (rem : Nat),
    Approx (b.matchLoop sub n price isBuy rem) (b.matchLoop sub (n + 1) price isBuy rem) := by
  induction n with
  | zero => exact fun b price isBuy rem => Approx.fuel _
  | succ n ih =>
    intro b price isBuy rem
    simp only [matchLoop]
    split_ifs
    · exact Approx.refl _
    · exact Approx.bind (matchPass_approx n b isBuy rem) fun a => ih _ _ _ _
    · exact Approx.refl _

theorem addOrder_approx (n : Nat) (b : OrderBook) (id price qty : Nat) (isBuy : Bool) :
    Approx (b.addOrder sub n id price qty isBuy) (b.addOrder sub (n + 1) id price qty isBuy) := by
  unfold addOrder matchOrder
  exact Approx.bind (matchLoop_approx n b price isBuy qty) fun a => Approx.refl _

theorem modifyOrder_approx (n : Nat) (b : OrderBook) (id price qty : Nat) :
    Approx (b.modifyOrder sub n id price qty) (b.modifyOrder sub (n + 1) id price qty) := by
  unfold modifyOrder
  refine Approx.bind (Approx.refl _) fun x => ?_
  cases x with
  | none => exact Approx.refl _
  | some x =>
    dsimp only
    split_ifs
    · exact Approx.bind (Approx.refl _) fun b => addOrder_approx n b _ _ _ _
    · exact Approx.refl _
    · exact Approx.refl _

/-- More fuel changes nothing once a call has returned or faulted. -/
theorem apply_approx (n : Nat) (b : OrderBook) (op : Op) :
    Approx (b.apply sub n op) (b.apply sub (n + 1) op) := by
  cases op with
  | add id price qty isBuy => exact addOrder_approx n b _ _ _ _
  | cancel id => exact Approx.refl _
  | modify id price qty => exact modifyOrder_approx n b _ _ _

/-- **A call has at most one result.** -/
theorem Calls.unique {b b₁ b₂ : OrderBook} {op : Op} (h₁ : b.Calls op b₁) (h₂ : b.Calls op b₂) :
    b₁ = b₂ := by
  obtain ⟨n, hn⟩ := h₁
  obtain ⟨m, hm⟩ := h₂
  exact Approx.ok_unique (fun k => apply_approx k b op) hn hm

end OrderBook

/-! ## One call -/

variable {b b' : OrderBook} {v v' : QueueBook} {op : Op}

/-- The book that a call leaves, whatever the fuel above the bound and however the subtractions
behave where they would wrap. -/
def OrderBook.Returns (b : OrderBook) (op : Op) (b' : OrderBook) : Prop :=
  ∀ (sub : Subtraction) fuel, sub.Exact → maxOrders + 1 < fuel → b.apply sub fuel op = .ok b'

theorem OrderBook.Returns.calls (h : b.Returns op b') : b.Calls op b' :=
  ⟨maxOrders + 2, h sub64 _ exact_sub64 (Nat.lt_succ_self _)⟩

/-- Matching that comes to an end returns, and is `trade` on the crossing orders. -/
theorem matchOrder_returns {isBuy : Bool} {p q : Nat} (h : Rep b v) (hw : v.Wf)
    (hend : v.Ends isBuy p q) (hp : p < maxTicks) :
    ∃ fuel b', b.matchOrder sub64 fuel p q isBuy =
        .ok (b', (v.trade (v.crossing isBuy p) q).2) ∧
      Rep b' (v.trade (v.crossing isBuy p) q).1 := by
  obtain ⟨b', hb', hrep⟩ := matchOrder_spec h hw hend hp
  exact ⟨_, b', hb' sub64 _ exact_sub64 (Nat.lt_succ_self _), hrep⟩

theorem add_returns {id p q : Nat} {isBuy : Bool} (h : Rep b v) (hw : v.Wf) (hid : id < maxOrders)
    (hend : v.Ends isBuy p q) (hp : p < maxTicks) (hr : q - total (v.crossing isBuy p) < 2 ^ 31) :
    ∃ b', b.Returns (.add id p q isBuy) b' ∧ Rep b' (v.add id p q isBuy) := by
  obtain ⟨b', hb', hrep⟩ := addOrder_spec h hw hid hend hp hr
  have hlen := QueueBook.length_crossing_le hw isBuy p
  exact ⟨b', fun sub fuel hsub hf => hb' sub fuel hsub (by omega), hrep⟩

/-- **Every call in range whose remainder fits and whose matching ends returns, and refines the
abstract call.** -/
theorem apply_spec (h : Rep b v) (hw : v.Wf) (hin : op.InTables) (hfit : v.Fits op)
    (hend : v.Settles op) : ∃ b' v', b.Returns op b' ∧ v.Step op v' ∧ Rep b' v' := by
  cases op with
  | add id p q isBuy =>
    obtain ⟨b', hb', hrep⟩ := add_returns h hw hin.1 hend hin.2 hfit
    exact ⟨b', _, hb', .add id p q isBuy, hrep⟩
  | cancel id =>
    cases hx : v.byId id with
    | none => exact ⟨b, v, fun sub _ _ _ => cancelOrder_unknown h.toMem hin hx sub,
        .cancelUnknown hx, h⟩
    | some x =>
      obtain ⟨s, p, o, ho, rfl, rfl⟩ := hw.byId_sound hx
      obtain ⟨b', hb', hrep⟩ := cancelOrder_spec h hw ho hx
      exact ⟨b', _, fun sub _ hsub _ => hb' sub hsub, .cancel ho hx, hrep⟩
  | modify id price q =>
    cases hx : v.byId id with
    | none => exact ⟨b, v, fun sub fuel _ _ => modifyOrder_unknown h.toMem hin.1 hx sub fuel,
        .modifyUnknown _ _ hx, h⟩
    | some x =>
      obtain ⟨s, p, o, ho, rfl, rfl⟩ := hw.byId_sound hx
      by_cases hne : price ≠ p ∨ o.quantity < q
      · obtain ⟨b₁, hb₁, hrep₁⟩ := cancelOrder_spec h hw ho hx
        have hr := hfit _ _ _ ho hx hne
        have hc : (v.remove o.slot o.id).crossing s price = v.crossing s price :=
          QueueBook.crossing_remove_same hw ho o.id
        rw [← hc] at hr
        obtain ⟨b', hb', hrep⟩ := add_returns hrep₁ (hw.remove ho) hin.1
          ((hend _ _ _ ho hx hne).congr hc) hin.2 hr
        refine ⟨b', _, fun sub fuel hsub hf => ?_, .modifyReplace ho hx hne, hrep⟩
        show b.modifyOrder sub fuel o.id price q = _
        rw [modifyOrder_replace h hw ho hx hne, hb₁ sub hsub, ok_bind]
        exact hb' sub fuel hsub hf
      · obtain ⟨rfl, hq⟩ : price = p ∧ q ≤ o.quantity := by
          constructor <;> omega
        rcases Nat.eq_zero_or_pos q with rfl | h0
        · obtain ⟨b', hb', hrep⟩ := cancelOrder_spec h hw ho hx
          refine ⟨b', _, fun sub fuel hsub _ => ?_, .modifyZero ho hx, hrep⟩
          exact (modifyOrder_zero h hw ho hx sub fuel).trans (hb' sub hsub)
        · obtain ⟨b', hb', hrep⟩ := modifyOrder_inPlace h hw ho hx h0 hq
          exact ⟨b', _, fun sub fuel hsub _ => hb' sub fuel hsub, .modifyInPlace ho hx h0 hq, hrep⟩

/-- The empty book represents empty queues. -/
theorem rep_init : Rep .init .empty where
  level s p := by cases s <;> exact ⟨Linked.nil, fun _ ho => absurd ho List.not_mem_nil, rfl⟩
  free := rfl
  free_links _ _ := ⟨rfl, rfl⟩
  map := rfl
  bbo := by
    have hempty : ∀ s, QueueBook.empty.prices s = ∅ := fun s => by
      simp [QueueBook.prices, QueueBook.empty]
    refine ⟨fun s => ?_, Or.inl ⟨hempty _, rfl⟩, Or.inl ⟨hempty _, rfl⟩⟩
    rw [hempty]
    cases s <;> exact PriceBitSet.holds_empty

/-! ## A sell at 0 that is larger than all bids -/

/-- With no bids left a pass of the outer loop at limit 0 finds the sentinel 0 for a best bid, trades
nothing at level 0, and settles it. -/
theorem matchPass_sentinel (h : Rep b v) (hw : v.Wf) (hps : v.crossingPrices false 0 = [])
    (rem : Nat) :
    ∃ b', (∀ (sub : Subtraction) fuel, 0 < fuel → b.matchPass sub fuel false rem = .ok (b', rem)) ∧
      Rep b' v := by
  have hempty : v.prices true = ∅ := by
    refine Set.eq_empty_of_forall_notMem fun p hp => ?_
    have : p ∈ v.crossingPrices false 0 := QueueBook.mem_crossingPrices.mpr
      ⟨hw.price_mem_lt hp, by simp [QueueBook.crosses], hp⟩
    rw [hps] at this
    cases this
  have hbest : b.bestBid = 0 := by
    rcases h.bbo.bestBid with ⟨-, hb⟩ | ⟨hmem, -⟩
    · exact hb
    · rw [hempty] at hmem
      exact absurd hmem (Set.notMem_empty _)
  have hqueue : v.queue true 0 = [] := by
    by_contra hne
    exact absurd (show 0 ∈ v.prices true from hne) (by rw [hempty]; exact Set.notMem_empty 0)
  have hhead : (b.side true 0).head = none := by
    rw [(h.level true 0).linked.head_eq, hqueue]
    rfl
  obtain ⟨b', hb', hmem', hbbo'⟩ := settleLevel_spec (s := true) h.bbo maxTicks_pos rfl
    (fun _ => rfl) fun _ => by rw [hempty, Set.empty_sdiff]
  refine ⟨b', fun sub fuel hf => ?_, hmem'.mem h.toMem, hbbo'⟩
  obtain ⟨n, rfl⟩ := Nat.exists_eq_succ_of_ne_zero hf.ne'
  unfold OrderBook.matchPass OrderBook.level
  simp only [Bool.false_eq_true, if_false, Bool.not_false, hbest, index_of_lt maxTicks_pos, ok_bind,
    hhead, OrderBook.fillLevel, pure_eq_ok, hb']

theorem QueueBook.not_ends_iff {rem : Nat} :
    ¬ v.Ends false 0 rem ↔ total (v.crossing false 0) < rem := by
  unfold QueueBook.Ends
  simp

/-- A pass of a sell at 0 that is larger than all bids leaves such a sell, or has not ended itself. -/
theorem matchPass_runs_on (h : Rep b v) (hw : v.Wf) (n : Nat) {rem : Nat}
    (hend : ¬ v.Ends false 0 rem) : ∃ b' v' rem',
      Approx (b.matchPass sub64 n false rem) (.ok (b', rem')) ∧ Rep b' v' ∧ v'.Wf ∧
        ¬ v'.Ends false 0 rem' := by
  have happrox : ∀ {b' rem'} m, b.matchPass sub64 (n + m) false rem = .ok (b', rem') →
      Approx (b.matchPass sub64 n false rem) (.ok (b', rem')) := by
    intro b' rem' m hm
    rw [← hm]
    exact Approx.le (fun k => OrderBook.matchPass_approx k b false rem) n m
  cases hps : v.crossingPrices false 0 with
  | nil =>
    obtain ⟨b', hb', hrep'⟩ := matchPass_sentinel h hw hps rem
    exact ⟨b', v, rem, happrox 1 (hb' sub64 _ (Nat.succ_pos n)), hrep', hw, hend⟩
  | cons p ps =>
    obtain ⟨b', hb', hrep'⟩ := matchPass_spec h hw hps rem
    have hlt := QueueBook.not_ends_iff.mp hend
    rw [QueueBook.crossing_cons hps, total_append] at hlt
    refine ⟨b', _, _, happrox _ (hb' sub64 _ exact_sub64 (Nat.lt_of_lt_of_le
      (Nat.lt_succ_self _) (Nat.le_add_left _ n))), hrep', hw.trade (hw.lists_queue _ p), ?_⟩
    rw [QueueBook.not_ends_iff, QueueBook.crossing_trade hw hps (by omega), QueueBook.trade_snd]
    omega

/-- **A sell at 0 that is larger than all bids runs on**: however many iterations are allowed, the
outer loop has not ended. -/
theorem matchLoop_runs_on (n : Nat) : ∀ {b : OrderBook} {v : QueueBook} {rem : Nat}, Rep b v →
    v.Wf → ¬ v.Ends false 0 rem → b.matchLoop sub64 n 0 false rem = .error .fuel := by
  induction n with
  | zero => exact fun _ _ _ => rfl
  | succ n ih =>
    intro b v rem h hw hend
    obtain ⟨b', v', rem', hpass, hrep', hw', hend'⟩ := matchPass_runs_on h hw n hend
    have hrem : rem ≠ 0 := Nat.ne_zero_of_lt (QueueBook.not_ends_iff.mp hend)
    have hmatch : b.isMatch 0 false = true := by simp [OrderBook.isMatch]
    rw [OrderBook.matchLoop, if_neg hrem, if_pos hmatch]
    rcases hpass with hfuel | hok
    · rw [hfuel, error_bind]
    · rw [hok, ok_bind]
      exact ih hrep' hw' hend'

/-- Matching that returns comes to an end. -/
theorem Rep.ends (h : Rep b v) (hw : v.Wf) {isBuy : Bool} {p q fuel rem : Nat}
    (hrun : b.matchOrder sub64 fuel p q isBuy = .ok (b', rem)) : v.Ends isBuy p q := by
  by_contra hend
  obtain ⟨rfl, rfl⟩ : isBuy = false ∧ p = 0 := by
    unfold QueueBook.Ends at hend
    rw [not_or, not_or] at hend
    exact ⟨by simpa using hend.1, by omega⟩
  rw [OrderBook.matchOrder, matchLoop_runs_on fuel h hw hend] at hrun
  cases hrun

/-- What `match_order` returns and leaves. -/
theorem Rep.matched (h : Rep b v) (hw : v.Wf) {isBuy : Bool} {p q fuel rem : Nat}
    (hp : p < maxTicks) (hrun : b.matchOrder sub64 fuel p q isBuy = .ok (b', rem)) :
    Rep b' (v.trade (v.crossing isBuy p) q).1 ∧ rem = (v.trade (v.crossing isBuy p) q).2 := by
  obtain ⟨fuel', b₁, hb₁, hrep₁⟩ := matchOrder_returns h hw (h.ends hw hrun) hp
  have he := Approx.ok_unique (fun n => OrderBook.matchLoop_approx n b p isBuy q) hrun hb₁
  obtain ⟨rfl, rfl⟩ := Prod.mk.inj he
  exact ⟨hrep₁, rfl⟩

/-- The matching of a call that returns comes to an end. -/
theorem Rep.settles (h : Rep b v) (hw : v.Wf) (hc : b.Calls op b') : v.Settles op := by
  obtain ⟨fuel, hrun⟩ := hc
  cases op with
  | add id p q isBuy =>
    obtain ⟨⟨b₁, rem⟩, hmatch, -⟩ := bind_eq_ok.mp hrun
    exact h.ends hw hmatch
  | cancel id => trivial
  | modify id p q =>
    intro s p₀ o ho hx hne
    obtain ⟨s', p', o', ho', hs, rfl⟩ := hw.byId_sound hx
    obtain ⟨rfl, rfl, rfl⟩ := hw.slot_inj ho ho' hs.symm
    obtain ⟨b₁, hb₁, hrep₁⟩ := cancelOrder_spec h hw ho hx
    replace hrun : b.modifyOrder sub64 fuel o.id p q = .ok b' := hrun
    rw [modifyOrder_replace h hw ho hx hne, hb₁ sub64 exact_sub64, ok_bind] at hrun
    obtain ⟨⟨b₂, rem⟩, hmatch, -⟩ := bind_eq_ok.mp hrun
    exact (hrep₁.ends (hw.remove ho) hmatch).congr (QueueBook.crossing_remove_same hw ho o.id).symm

/-- A call's result represents what the abstract call leaves. -/
theorem Rep.calls (h : Rep b v) (hw : v.Wf) (hin : op.InTables) (hfit : v.Fits op)
    (hc : b.Calls op b') : ∃ v', v.Step op v' ∧ Rep b' v' := by
  obtain ⟨b₁, v', hb₁, hstep, hrep⟩ := apply_spec h hw hin hfit (h.settles hw hc)
  obtain rfl := hb₁.calls.unique hc
  exact ⟨v', hstep, hrep⟩

end MarketHandler
