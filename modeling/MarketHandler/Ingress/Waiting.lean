import MarketHandler.Ingress.Accounting
import MarketHandler.SPSCQueue.Progress

/-!
# Bounded waiting

A pass of the worker's loop takes at most eight steps, and a pass that starts with a packet in the ring
dispatches one. So an accepted packet waits for eight steps of the worker for each packet that is not
behind it, whatever the network thread does meanwhile; a `pop` that has found the ring empty before the
packet came costs one more.

* `Ingress.toGo`: a bound on the worker's steps until `n` packets are dispatched.
* `Step.toGo`: a step of the worker lowers it, a step of the network thread leaves it.
* `dispatched_within`: **every accepted packet is dispatched within eight steps of the worker for each
  packet in the ring, and one**.
-/

namespace MarketHandler

open Lib

namespace Ingress

/-- A step of the worker thread. -/
def Act.ofWorker : Act → Bool
  | .poll => true
  | .pop _ => true
  | .dispatch _ => true
  | _ => false

/-- The packets of the first `n` that are not yet popped. -/
def behind (n : Nat) (s : Ingress) : Nat := n - s.queue.popped.length

/-- The first `n` packets are not all dispatched. -/
def Waits (n : Nat) (s : Ingress) : Prop := s.queue.popped.length < n + s.inFlight.length

/-- The worker's steps at most until the first `n` packets are dispatched. A `pop` that has loaded the
cursors of an empty ring fails, and the loop polls again. -/
def toGo (n : Nat) (s : Ingress) : Nat :=
  match s.enginePc with
  | .polling => 8 * s.behind n
  | .dispatching _ => 8 * s.behind n + 1
  | .popping =>
    match s.queue.popPc with
    | .idle => 8 * s.behind n
    | .loadPop => 8 * s.behind n - 1
    | .loadPush _ => 8 * s.behind n - 2
    | .update popCursor pushCursor _ =>
      if pushCursor = popCursor then 8 * s.behind n + 1 else 8 * s.behind n - 3
    | .move _ => 8 * s.behind n - 4
    | .destroy _ _ => 8 * s.behind n - 5
    | .store _ _ => 8 * s.behind n - 6

variable {c k n : Nat} {acts acts' : List Act} {s s' : Ingress} {a : Act}

theorem toGo_le (n : Nat) (s : Ingress) : s.toGo n ≤ 8 * s.behind n + 1 := by
  unfold toGo
  split
  · omega
  · omega
  · split
    all_goals try omega
    split_ifs <;> omega

theorem Waits.behind_pos (h : s.Waits n) (hpc : s.inFlight = []) : 0 < s.behind n := by
  unfold Waits at h
  rw [hpc, List.length_nil, Nat.add_zero] at h
  exact Nat.sub_pos_of_lt h

theorem Waits.toGo_pos (h : s.Waits n) : 0 < s.toGo n := by
  unfold toGo
  cases hpc : s.enginePc with
  | dispatching packet => exact Nat.succ_pos _
  | polling =>
    have hpos := h.behind_pos (by simp only [inFlight, hpc])
    dsimp only
    omega
  | popping =>
    have hpos := h.behind_pos (by simp only [inFlight, hpc])
    dsimp only
    split
    all_goals try omega
    split_ifs <;> omega

/-- A step that the worker does not notice. -/
theorem toGo_congr (hengine : s'.enginePc = s.enginePc) (hpc : s'.queue.popPc = s.queue.popPc)
    (hpopped : s'.queue.popped = s.queue.popped) :
    s'.toGo n = s.toGo n ∧ (s'.Waits n ↔ s.Waits n) := by
  unfold toGo Waits behind inFlight
  rw [hengine, hpc, hpopped]
  exact ⟨rfl, Iff.rfl⟩

/-- A step of `pop`. -/
theorem popStep_toGo (hq : s.queue.Inv c) (hpc : s.enginePc = .popping)
    (hn : n ≤ s.queue.accepted.length) {queue : SPSCQueue PacketPayload}
    {r : Option (Option PacketPayload)} (hbusy : s.queue.popPc ≠ .idle)
    (hrun : s.queue.popStep c = .ok (queue, r)) (hw : (s.popped queue r).Waits n) :
    s.Waits n ∧ (s.popped queue r).toGo n < s.toGo n := by
  have hfly : s.inFlight = [] := by simp only [inFlight, hpc]
  have hlen : s.queue.popped.length = s.queue.popCursor := by
    rw [hq.popped_eq, List.length_take, hq.length_eq]
    exact Nat.min_eq_left (hq.pop_le.trans hq.pushCached_le)
  have hok := hq.popOk
  unfold SPSCQueue.PopOk at hok
  unfold SPSCQueue.popStep at hrun
  -- inside the call the engine keeps popping and has popped nothing yet
  have hinside : ∀ q : SPSCQueue PacketPayload, q.popped = s.queue.popped →
      (s.popped q none).Waits n → s.Waits n ∧ 0 < s.behind n := by
    intro q hpopped hw
    have hwaits : s.Waits n := by
      unfold Waits at hw ⊢
      rwa [show (s.popped q none).inFlight = s.inFlight from rfl,
        show (s.popped q none).queue.popped = s.queue.popped from hpopped] at hw
    exact ⟨hwaits, hwaits.behind_pos hfly⟩
  cases hpp : s.queue.popPc with
  | idle => exact absurd hpp hbusy
  | loadPop =>
    simp only [hpp] at hrun
    split_ifs at hrun <;> obtain ⟨rfl, rfl⟩ := Prod.mk.inj (Except.ok.inj hrun) <;>
    · obtain ⟨hwaits, hpos⟩ := hinside _ rfl hw
      refine ⟨hwaits, ?_⟩
      simp only [toGo, popped, behind, hpc, hpp] at hpos ⊢
      omega
  | loadPush p =>
    simp only [hpp] at hrun hok
    obtain ⟨rfl, rfl⟩ := Prod.mk.inj (Except.ok.inj hrun)
    obtain ⟨hwaits, hpos⟩ := hinside _ rfl hw
    refine ⟨hwaits, ?_⟩
    have hne : s.queue.pushCursor ≠ p := by
      rw [hok, ← hq.length_eq, ← hlen]
      unfold behind at hpos
      omega
    simp only [toGo, popped, behind, hpc, hpp, if_neg hne] at hpos ⊢
    omega
  | update p r held =>
    simp only [hpp] at hrun
    split_ifs at hrun with hempty <;> obtain ⟨rfl, rfl⟩ := Prod.mk.inj (Except.ok.inj hrun)
    · have he : r = p := by simpa [SPSCQueue.empty] using hempty
      have hwaits : s.Waits n := by
        unfold Waits at hw ⊢
        rw [hfly]
        exact hw
      refine ⟨hwaits, ?_⟩
      simp only [toGo, popped, behind, hpc, hpp, if_pos he]
      omega
    · have he : r ≠ p := by simpa [SPSCQueue.empty] using hempty
      obtain ⟨hwaits, hpos⟩ := hinside _ rfl hw
      refine ⟨hwaits, ?_⟩
      simp only [toGo, popped, behind, hpc, hpp, if_neg he] at hpos ⊢
      omega
  | move p =>
    simp only [hpp] at hrun
    obtain ⟨cell, -, hcell⟩ := bind_eq_ok.mp hrun
    cases cell with
    | live value =>
      obtain ⟨rfl, rfl⟩ := Prod.mk.inj (Except.ok.inj hcell)
      obtain ⟨hwaits, hpos⟩ := hinside _ rfl hw
      refine ⟨hwaits, ?_⟩
      simp only [toGo, popped, behind, hpc, hpp] at hpos ⊢
      omega
    | raw => cases hcell
    | moved => cases hcell
  | destroy p value =>
    simp only [hpp] at hrun
    obtain ⟨cell, -, hcell⟩ := bind_eq_ok.mp hrun
    cases cell with
    | raw => cases hcell
    | _ =>
      obtain ⟨rfl, rfl⟩ := Prod.mk.inj (Except.ok.inj hcell)
      obtain ⟨hwaits, hpos⟩ := hinside _ rfl hw
      refine ⟨hwaits, ?_⟩
      simp only [toGo, popped, behind, hpc, hpp] at hpos ⊢
      omega
  | store p value =>
    simp only [hpp] at hrun
    obtain ⟨rfl, rfl⟩ := Prod.mk.inj (Except.ok.inj hrun)
    have hwaits : s.queue.popped.length < n := by
      unfold Waits at hw
      simp only [inFlight, popped, List.length_append, List.length_singleton] at hw
      omega
    refine ⟨by unfold Waits; rwa [hfly], ?_⟩
    simp only [toGo, popped, behind, hpc, hpp, List.length_append, List.length_singleton]
    omega

/-- **One step**: a step of the worker brings the first `n` packets nearer, and the network thread's
leave them where they are. -/
theorem Step.toGo (hinv : s.Inv c acts) (hn : n ≤ s.queue.accepted.length) (hs : Step c s a s')
    (hw : s'.Waits n) : s.Waits n ∧ a.ofWorker.toNat + s'.toGo n ≤ s.toGo n := by
  cases hs with
  | receive r hpc =>
    have hsame := toGo_congr (n := n) (receive_enginePc s r) (by rw [receive_queue])
      (by rw [receive_queue])
    exact ⟨hsame.2.mp hw, by rw [hsame.1]; exact Nat.le_of_eq (Nat.zero_add _)⟩
  | @handle ec bytesRecvd tsc hpc =>
    have hsame : (s.handle tsc ec bytesRecvd).toGo n = s.toGo n ∧
        ((s.handle tsc ec bytesRecvd).Waits n ↔ s.Waits n) := by
      unfold Ingress.handle
      split_ifs <;> exact toGo_congr rfl rfl rfl
    exact ⟨hsame.2.mp hw, by rw [hsame.1]; exact Nat.le_of_eq (Nat.zero_add _)⟩
  | @push queue r hpc hrun =>
    have hbusy : s.queue.pushPc ≠ .idle := fun hidle => hinv.settled.idle.mp hidle hpc
    have hp := SPSCQueue.pushStep_pushed hbusy hinv.settled.holds hrun
    have hsame : (s.pushed queue r).toGo n = s.toGo n ∧
        ((s.pushed queue r).Waits n ↔ s.Waits n) := by
      cases r <;> exact toGo_congr rfl hp.popPc hp.popped
    exact ⟨hsame.2.mp hw, by rw [hsame.1]; exact Nat.le_of_eq (Nat.zero_add _)⟩
  | poll hpc =>
    have hfly : s.inFlight = [] := by simp only [inFlight, hpc]
    have hwaits : s.Waits n := by
      unfold Waits
      rw [hfly]
      exact hw
    have hpos := hwaits.behind_pos hfly
    refine ⟨hwaits, ?_⟩
    simp only [Ingress.toGo, SPSCQueue.callPop, behind, hpc, Act.ofWorker, Bool.toNat_true] at hpos ⊢
    omega
  | @pop queue r hpc hrun =>
    have hbusy : s.queue.popPc ≠ .idle := fun hidle => hinv.consumed.idle.mp hidle hpc
    obtain ⟨hwaits, hlt⟩ := popStep_toGo hinv.queue hpc hn hbusy hrun hw
    exact ⟨hwaits, by rw [Act.ofWorker, Bool.toNat_true]; omega⟩
  | @dispatch packet book hpc hd =>
    have hlt : s.queue.popped.length < n := by simpa [Waits, inFlight] using hw
    refine ⟨Nat.lt_of_lt_of_le hlt (Nat.le_add_right _ _), ?_⟩
    simp only [Ingress.toGo, behind, hpc, Act.ofWorker, Bool.toNat_true]
    omega

/-- Accepted packets stay accepted. -/
theorem Step.accepted (hinv : s.Inv c acts) (hs : Step c s a s') :
    s.queue.accepted <+: s'.queue.accepted := by
  cases hs with
  | receive r hpc => rw [receive_queue]
  | handle tsc hpc =>
    unfold Ingress.handle
    split_ifs <;> exact List.prefix_rfl
  | @push queue r hpc hrun =>
    have hbusy : s.queue.pushPc ≠ .idle := fun hidle => hinv.settled.idle.mp hidle hpc
    have hp := (SPSCQueue.pushStep_pushed hbusy hinv.settled.holds hrun).accepted
    cases r <;> exact hp ▸ List.prefix_append _ _
  | poll hpc => exact List.prefix_rfl
  | @pop queue r hpc hrun =>
    have hbusy : s.queue.popPc ≠ .idle := fun hidle => hinv.consumed.idle.mp hidle hpc
    have hp := (SPSCQueue.popStep_popped hbusy hrun).accepted
    match r with
    | none => exact hp ▸ List.prefix_rfl
    | some none => exact hp ▸ List.prefix_rfl
    | some (some packet) => exact hp ▸ List.prefix_rfl
  | dispatch hpc hd => exact List.prefix_rfl

/-- While the packets accepted by `s` are not all dispatched, the worker's steps are counted. -/
theorem waits_budget (hinv : s.Inv (2 ^ k) acts) (h : Run (Step (2 ^ k)) s acts' s') :
    s'.Inv (2 ^ k) (acts ++ acts') ∧ s.queue.accepted <+: s'.queue.accepted ∧
      (s'.Waits s.queue.accepted.length → acts'.countP Act.ofWorker +
        s'.toGo s.queue.accepted.length ≤ s.toGo s.queue.accepted.length) := by
  refine h.history (I := fun acts' s' => s'.Inv (2 ^ k) (acts ++ acts') ∧
    s.queue.accepted <+: s'.queue.accepted ∧ (s'.Waits s.queue.accepted.length →
      acts'.countP Act.ofWorker + s'.toGo s.queue.accepted.length ≤
        s.toGo s.queue.accepted.length))
    ⟨by rwa [List.append_nil], List.prefix_rfl, fun _ => Nat.le_of_eq (Nat.zero_add _)⟩ ?_
  rintro acts' s₁ a s₂ ⟨hinv, hprefix, hbudget⟩ hs
  refine ⟨List.append_assoc acts acts' [a] ▸ hs.inv hinv, hprefix.trans (hs.accepted hinv),
    fun hw => ?_⟩
  obtain ⟨hwaits, hle⟩ := hs.toGo hinv hprefix.length_le hw
  have hsofar := hbudget hwaits
  rw [countP_snoc]
  omega

end Ingress

/-- **Bounded waiting.** The packets that the ring has accepted by `s` are all dispatched, in their
order, once the worker has taken more than eight steps for each packet in the ring, however the network
thread interleaves with it; and in every state the worker has a step, unless it hangs in a dispatch. -/
theorem dispatched_within {k : Nat} {buffer : PacketPayload} {acts acts' : List Ingress.Act}
    {s s' : Ingress} (h : Run (Ingress.Step (2 ^ k)) (Ingress.init buffer) acts s)
    (h' : Run (Ingress.Step (2 ^ k)) s acts' s') :
    (8 * s.queue.size < acts'.countP Ingress.Act.ofWorker →
      s.queue.accepted <+: (acts ++ acts').filterMap Ingress.Act.dispatched?) ∧
    ((∃ a t, a.ofWorker = true ∧ Ingress.Step (2 ^ k) s' a t) ∨
      ∃ packet, s'.enginePc = .dispatching packet ∧
        ¬ ∃ book, packet.Dispatches s'.book book) := by
  have hinv : s.Inv (2 ^ k) acts :=
    h.history (I := Ingress.Inv (2 ^ k)) (Ingress.inv_init buffer) Ingress.Step.inv
  obtain ⟨hinv', hprefix, hbudget⟩ := Ingress.waits_budget hinv h'
  constructor
  · intro hsteps
    have hbehind : s.behind s.queue.accepted.length = s.queue.size := by
      rw [Ingress.behind, hinv.queue.popped_eq, List.length_take, hinv.queue.length_eq,
        Nat.min_eq_left (hinv.queue.pop_le.trans hinv.queue.pushCached_le), SPSCQueue.size]
    have hdone : ¬ s'.Waits s.queue.accepted.length := by
      intro hw
      have hle := hbudget hw
      have hpos := hw.toGo_pos
      have htoGo := s.toGo_le s.queue.accepted.length
      omega
    have hpopped : s'.queue.popped <+: s'.queue.accepted := by
      rw [hinv'.queue.popped_eq]
      exact List.take_prefix _ _
    have hdispatched := hinv'.consumed.popped
    refine List.prefix_of_prefix_length_le hprefix
      ((List.prefix_append _ _).trans (hdispatched ▸ hpopped)) ?_
    have hlen := congrArg List.length hdispatched
    rw [List.length_append] at hlen
    unfold Ingress.Waits at hdone
    omega
  · cases hpc : s'.enginePc with
    | polling => exact Or.inl ⟨_, _, rfl, .poll hpc⟩
    | popping =>
      obtain ⟨⟨queue, r⟩, hrun⟩ := hinv'.queue.safe.2
      exact Or.inl ⟨_, _, rfl, .pop hpc hrun⟩
    | dispatching packet =>
      by_cases hd : ∃ book, packet.Dispatches s'.book book
      · obtain ⟨book, hd⟩ := hd
        exact Or.inl ⟨_, _, rfl, .dispatch hpc hd⟩
      · exact Or.inr ⟨packet, rfl, hd⟩

/-- A packet of no known type goes through a ring of one, and the worker polls again. -/
theorem dispatched_within_run : ∃ acts acts' s s',
    Run (Ingress.Step (2 ^ 0)) (Ingress.init ⟨0, Vector.replicate 56 255⟩) acts s ∧
      Run (Ingress.Step (2 ^ 0)) s acts' s' ∧ acts'.countP Ingress.Act.ofWorker = 9 ∧
      s.queue.accepted <+: (acts ++ acts').filterMap Ingress.Act.dispatched? := by
  let full : Completion := ⟨false, List.replicate 56 0, by decide⟩
  let packet := (Ingress.init ⟨0, Vector.replicate 56 255⟩).buffered full 1
  have hcall : packet.call? = none := by decide +kernel
  let s := (Ingress.init ⟨0, Vector.replicate 56 255⟩).admitted (2 ^ 0) full 1
  have hs : Run (Ingress.Step (2 ^ 0)) (Ingress.init ⟨0, Vector.replicate 56 255⟩) _ s :=
    Ingress.run_accept rfl (by decide) 1 rfl rfl
  have hs' := ((Ingress.run_take (k := 0) (s := s) rfl rfl rfl rfl).append
    (Ingress.run_dispatch rfl ((PacketPayload.dispatches_none hcall _ _).mpr rfl))).snoc (.poll rfl)
  exact ⟨_, _, _, _, hs, hs', rfl, (dispatched_within hs hs').1 (by decide)⟩

end MarketHandler
