import MarketHandler.Ingress.Accounting
import MarketHandler.Lib.Binary64
import MarketHandler.Lib.OrderStatistic

/-!
# Latency samples and their report

Model of the samples that `run_matching_engine` in `src/main.cpp` takes around its dispatches and of
the report it makes of them. Time stamps are chosen by the environment. The conversion of cycles to
nanoseconds is left out.

* `p99Index_eq`: the index of the 99th percentile is exact, although it is a rounded product.
* `Ingress.Step.stamped`: a packet carries the stamp of its own handler through the ring.
* `latency_samples`: **each sample is the time of one packet**, in the order of dispatch.
* `latency_report`: **the report reads the order statistics of these times**, all in range.
-/

namespace MarketHandler

open Lib

/-! ## The samples -/

/-- `MAX_SAMPLES`. -/
def maxSamples : Nat := 1000000

/-- The worker's local variables that count and sample. -/
structure Samples where
  cycleDeltas : Nat → UInt64
  sampleCount : Nat
  messagesProcessed : UInt64

/-- `<=` on cycles. -/
def cyclesLe (a b : UInt64) : Bool := a ≤ b

namespace Samples

def init : Samples := ⟨fun _ => 0, 0, 0⟩

/-- What follows a dispatch in the loop. -/
def record (w : Samples) (egressTsc : UInt64) (packet : PacketPayload) : Exec Samples := do
  let w ← if w.sampleCount < maxSamples then do
      let cycleDeltas ← store maxSamples w.cycleDeltas w.sampleCount (egressTsc - packet.ingressTsc)
      pure { w with cycleDeltas := cycleDeltas, sampleCount := w.sampleCount + 1 }
    else pure w
  pure { w with messagesProcessed := w.messagesProcessed + 1 }

/-- `cycle_deltas` up to `sample_count`. -/
def filled (w : Samples) : List UInt64 := (List.range w.sampleCount).map w.cycleDeltas

/-- `std::sort(begin, end)`. -/
def sorted (w : Samples) : Nat → UInt64 := fun i =>
  (w.filled.mergeSort cyclesLe)[i]?.getD (w.cycleDeltas i)

end Samples

/-- `static_cast<size_t>(sample_count * 0.99)`. -/
def p99Index (sampleCount : Nat) : Nat := ((UInt64.ofNat sampleCount).toFloat * 0.99).toUInt64.toNat

/-- The cycles that the report prints. -/
structure LatencyReport where
  medianCycles : UInt64
  p99Cycles : UInt64
  maxCycles : UInt64

/-- The report after the loop, if there is a sample. -/
def Samples.report (w : Samples) : Exec (Option LatencyReport) :=
  if 0 < w.sampleCount then do
    let medianCycles ← index maxSamples w.sorted (w.sampleCount / 2)
    let p99Cycles ← index maxSamples w.sorted (p99Index w.sampleCount)
    let maxCycles ← index maxSamples w.sorted (w.sampleCount - 1)
    pure (some ⟨medianCycles, p99Cycles, maxCycles⟩)
  else pure none

/-! ## The index of the 99th percentile -/

/-- **The product is rounded so that its integer part is exact.** -/
theorem p99Index_eq {n : Nat} (h0 : 0 < n) (hn : n < 2 ^ 46) : p99Index n = 99 * n / 100 := by
  obtain ⟨k, hx, hk, hlow, hhigh, hfloat⟩ := toFloat_unpack h0 (hn.trans (by decide))
  have hlog : n.log2 < 46 := (Nat.log2_lt (by omega)).mpr hn
  -- the literal is short of 0.99 by 8 in 100 units of its last place
  have hliteral : (0.99 : Float).toModel.unpack =
    .finite .positive 8917127262193582 (-(53 : Nat)) (by decide) := rfl
  obtain ⟨s, y, hs, hs', hnear, hindex⟩ := toUInt64_mul hfloat hliteral ⟨hlow, hhigh⟩ (by decide)
    (by omega) (by omega)
  have hpow : 2 ^ 6 ≤ 2 ^ k := Nat.pow_le_pow_right (by decide) (by omega)
  have hstep : 2 ^ 52 ≤ 2 ^ s := Nat.pow_le_pow_right (by decide) hs
  have hstep' : 2 ^ s ≤ 2 ^ 53 := Nat.pow_le_pow_right (by decide) hs'
  -- `99 * n = 100 * i + r`, scaled like the mantissa
  obtain ⟨i, hi⟩ : ∃ i, i = 99 * n / 100 := ⟨_, rfl⟩
  obtain ⟨r, hr⟩ : ∃ r, r = 99 * n % 100 := ⟨_, rfl⟩
  have hdiv : 99 * (n * 2 ^ k) = 100 * (i * 2 ^ k) + r * 2 ^ k := by
    have hmod := Nat.div_add_mod (99 * n) 100
    rw [← hi, ← hr] at hmod
    rw [← Nat.mul_assoc, ← hmod, Nat.add_mul, Nat.mul_assoc]
  have hrlt : r * 2 ^ k ≤ 99 * 2 ^ k := Nat.mul_le_mul_right _ (by omega)
  have hmultiple : i * 2 ^ k * 2 ^ 53 = i * 2 ^ k * 2 ^ (53 - s) * 2 ^ s := by
    rw [Nat.mul_assoc (i * 2 ^ k), ← pow_add, Nat.sub_add_cancel hs']
  have hle : i * 2 ^ k * 2 ^ 53 ≤ y * 2 ^ s := by
    rcases Nat.eq_zero_or_pos r with h0 | h0
    · -- the exact value is a multiple, and the product is short of it by less than half a step
      rw [h0, Nat.zero_mul] at hdiv
      refine (hnear.mul_eq (x := i * 2 ^ k * 2 ^ (53 - s))
        (j := i * 2 ^ k * 2 ^ 53 - n * 2 ^ k * 8917127262193582) ?_ ?_).ge.trans' hmultiple.le
      · omega
      · omega
    · have hrpos : 1 * 2 ^ k ≤ r * 2 ^ k := Nat.mul_le_mul_right _ h0
      exact hmultiple.trans_le (hnear.mul_le (by omega))
  have hlt : y * 2 ^ s < (i * 2 ^ k + 2 ^ k) * 2 ^ 53 := by
    have := hnear.le
    omega
  unfold p99Index
  rw [hindex, ← hi, pow_add]
  refine Nat.div_eq_of_lt_le ?_ ?_
  · rwa [← Nat.mul_assoc]
  · rwa [← Nat.mul_assoc, Nat.add_mul, Nat.one_mul]

/-! ## Stamps -/

/-- The elements whose flag is set. -/
def pick {α : Type} (xs : List α) (flags : List Bool) : List α :=
  ((xs.zip flags).filter Prod.snd).map Prod.fst

section Pick

variable {α : Type} {xs ys : List α} {flags flags' : List Bool}

theorem pick_append (h : xs.length = flags.length) :
    pick (xs ++ ys) (flags ++ flags') = pick xs flags ++ pick ys flags' := by
  simp only [pick, List.zip_append h, List.filter_append, List.map_append]

/-- Elements without a flag are not picked. -/
theorem pick_left (h : xs.length = flags.length) : pick (xs ++ ys) flags = pick xs flags := by
  have happend : pick (xs ++ ys) (flags ++ []) = _ := pick_append h
  rwa [List.append_nil, show pick ys [] = [] by simp [pick], List.append_nil] at happend

theorem pick_right (h : xs.length = flags.length) : pick xs (flags ++ flags') = pick xs flags := by
  have happend : pick (xs ++ []) (flags ++ flags') = _ := pick_append h
  rwa [List.append_nil, show pick [] flags' = [] from rfl, List.append_nil] at happend

/-- What has no partner is left out. -/
theorem zipWith_left {β γ : Type} {f : α → β → γ} {zs zs' : List β} (h : xs.length = zs.length) :
    List.zipWith f xs (zs ++ zs') = List.zipWith f xs zs := by
  have happend : List.zipWith f (xs ++ []) (zs ++ zs') = _ := List.zipWith_append h
  rwa [List.append_nil, List.zipWith_nil_left, List.append_nil] at happend

end Pick

namespace Ingress

/-- The stamp of a handler. -/
def Act.stamp? : Act → Option UInt64
  | .handle tsc => some tsc
  | _ => none

/-- Whether a completion is a packet. -/
def Act.full? : Act → Option Bool
  | .receive r => some (isPacket r.ec r.data.length)
  | _ => none

/-- The stamps of the handlers whose packets were accepted. -/
def acceptedStamps (acts : List Act) : List UInt64 :=
  pick (pick (acts.filterMap Act.stamp?) (acts.filterMap Act.full?)) (acts.filterMap Act.returned?)

/-- The completion whose handler has not run. -/
def awaiting (s : Ingress) : List Bool :=
  match s.handlerPc with
  | .completed ec bytesRecvd => [isPacket ec bytesRecvd]
  | _ => []

/-- The stamp of the packet that is being pushed. -/
def stamped (s : Ingress) : List UInt64 :=
  match s.handlerPc with
  | .pushing => [s.recvBuffer.ingressTsc]
  | _ => []

variable {c k : Nat} {acts : List Act} {s s' : Ingress} {a : Act}

/-- Each accepted packet carries the stamp of its own handler. -/
def Stamped (acts : List Act) (s : Ingress) : Prop :=
  ∃ full settled, acts.filterMap Act.full? = full ++ s.awaiting ∧
    (acts.filterMap Act.stamp?).length = full.length ∧
    pick (acts.filterMap Act.stamp?) full = settled ++ s.stamped ∧
    settled.length = (acts.filterMap Act.returned?).length ∧
    s.queue.accepted.map (·.ingressTsc) = pick settled (acts.filterMap Act.returned?)

theorem Stamped.accepted_eq (h : s.Stamped acts) :
    s.queue.accepted.map (·.ingressTsc) = acceptedStamps acts := by
  obtain ⟨full, settled, hfull, hlen, hpick, hlen', hacc⟩ := h
  rw [acceptedStamps, hfull, pick_right hlen, hpick, pick_left hlen', hacc]

/-- An action of the worker. -/
theorem Stamped.frame (h : s.Stamped acts) (hh : s'.handlerPc = s.handlerPc)
    (hb : s'.recvBuffer = s.recvBuffer) (hq : s'.queue.accepted = s.queue.accepted)
    (hfull : a.full? = none) (hstamp : a.stamp? = none) (hret : a.returned? = none) :
    s'.Stamped (acts ++ [a]) := by
  have hunhandled : s'.awaiting = s.awaiting := by
    unfold awaiting
    rw [hh]
  have hstamped : s'.stamped = s.stamped := by
    unfold stamped
    rw [hh, hb]
  unfold Stamped
  rw [filterMap_snoc_none hfull, filterMap_snoc_none hstamp, filterMap_snoc_none hret, hunhandled,
    hstamped, hq]
  exact h

/-- **The step lemma.** -/
theorem Step.stamped (hinv : s.Inv (2 ^ k) acts) (h : s.Stamped acts)
    (hstep : Step (2 ^ k) s a s') : s'.Stamped (acts ++ [a]) := by
  cases hstep with
  | receive r hpc =>
    obtain ⟨full, settled, hfull, hlen, hpick, hlen', hacc⟩ := h
    simp only [awaiting, Ingress.stamped, hpc, List.append_nil] at hfull hpick
    refine ⟨full, settled, ?_, ?_, ?_, ?_, ?_⟩
    · rw [filterMap_snoc, hfull, awaiting, receive_handlerPc]
      rfl
    · rw [filterMap_snoc_none rfl, hlen]
    · rw [filterMap_snoc_none rfl, hpick, Ingress.stamped, receive_handlerPc, List.append_nil]
    · rw [filterMap_snoc_none rfl, hlen']
    · rw [filterMap_snoc_none rfl, receive_queue, hacc]
  | @handle ec bytesRecvd tsc hpc =>
    obtain ⟨full, settled, hfull, hlen, hpick, hlen', hacc⟩ := h
    simp only [awaiting, Ingress.stamped, hpc, List.append_nil] at hfull hpick
    refine ⟨full ++ [isPacket ec bytesRecvd], settled, ?_, ?_, ?_, ?_, ?_⟩
    · rw [filterMap_snoc_none rfl, hfull, awaiting]
      unfold Ingress.handle
      split_ifs <;> exact (List.append_nil _).symm
    · rw [filterMap_snoc, List.length_append, List.length_append, hlen]
      rfl
    · rw [filterMap_snoc, pick_append hlen, hpick, Ingress.stamped]
      unfold Ingress.handle
      cases isPacket ec bytesRecvd <;> rfl
    · rw [filterMap_snoc_none rfl, hlen']
    · rw [filterMap_snoc_none rfl, ← hacc]
      unfold Ingress.handle
      split_ifs <;> rfl
  | @push queue r hpc hrun =>
    obtain ⟨full, settled, hfull, hlen, hpick, hlen', hacc⟩ := h
    have hbusy : s.queue.pushPc ≠ .idle := fun hidle => hinv.settled.idle.mp hidle hpc
    have haccepted := (SPSCQueue.pushStep_pushed hbusy hinv.settled.holds hrun).accepted
    have hret : (acts ++ [Act.push r]).filterMap Act.returned? =
      acts.filterMap Act.returned? ++ r.toList := filterMap_snoc _ _ _
    simp only [awaiting, Ingress.stamped, hpc] at hfull hpick
    match r with
    | none =>
      refine ⟨full, settled, ?_, ?_, ?_, ?_, ?_⟩
      · rw [filterMap_snoc_none rfl, hfull, awaiting,
          show (s.pushed queue none).handlerPc = _ from hpc]
      · rw [filterMap_snoc_none rfl, hlen]
      · rw [filterMap_snoc_none rfl, hpick, Ingress.stamped,
          show (s.pushed queue none).handlerPc = _ from hpc]
        rfl
      · rw [hret, Option.toList_none, List.append_nil, hlen']
      · rw [hret, Option.toList_none, List.append_nil, ← hacc]
        exact congrArg (List.map _) (haccepted.trans (List.append_nil _))
    | some r =>
      refine ⟨full, settled ++ [s.recvBuffer.ingressTsc], ?_, ?_, ?_, ?_, ?_⟩
      · rw [filterMap_snoc_none rfl, hfull]
        rfl
      · rw [filterMap_snoc_none rfl, hlen]
      · rw [filterMap_snoc_none rfl, hpick]
        exact (List.append_nil _).symm
      · rw [hret, List.length_append, List.length_append, hlen']
        rfl
      · refine (congrArg (List.map _) haccepted).trans ?_
        rw [hret, List.map_append, hacc, Option.toList_some, pick_append hlen']
        cases r <;> rfl
  | poll hpc => exact h.frame rfl rfl rfl rfl rfl rfl
  | @pop queue r hpc hrun =>
    have hbusy : s.queue.popPc ≠ .idle := fun hidle => hinv.consumed.idle.mp hidle hpc
    have hp := SPSCQueue.popStep_popped hbusy hrun
    match r with
    | none => exact h.frame rfl rfl hp.accepted rfl rfl rfl
    | some none => exact h.frame rfl rfl hp.accepted rfl rfl rfl
    | some (some packet) => exact h.frame rfl rfl hp.accepted rfl rfl rfl
  | dispatch hpc hd => exact h.frame rfl rfl rfl rfl rfl rfl

end Ingress

/-! ## What is sampled -/

/-- The samples are the first `MAX_SAMPLES` of `deltas`, and each delta is counted. -/
structure Samples.Holds (w : Samples) (deltas : List UInt64) : Prop where
  filled : w.filled = deltas.take maxSamples
  count : w.sampleCount = min maxSamples deltas.length
  processed : w.messagesProcessed = UInt64.ofNat deltas.length

theorem Samples.holds_init : Samples.init.Holds [] := ⟨List.take_nil.symm, rfl, rfl⟩

/-- **A dispatch is counted, and sampled while there is room.** -/
theorem Samples.Holds.record {w : Samples} {deltas : List UInt64} (h : w.Holds deltas)
    (egressTsc : UInt64) (packet : PacketPayload) : ∃ w', w.record egressTsc packet = .ok w' ∧
      w'.Holds (deltas ++ [egressTsc - packet.ingressTsc]) := by
  have hprocessed : w.messagesProcessed + 1 = UInt64.ofNat (deltas.length + 1) := by
    rw [h.processed, UInt64.ofNat_add]
    rfl
  have hcount := h.count
  by_cases hroom : w.sampleCount < maxSamples
  · have hlen : w.sampleCount = deltas.length := by omega
    refine ⟨⟨Function.update w.cycleDeltas w.sampleCount (egressTsc - packet.ingressTsc),
      w.sampleCount + 1, w.messagesProcessed + 1⟩, ?_, ?_, ?_, ?_⟩
    · rw [Samples.record, if_pos hroom, store_of_lt hroom]
      rfl
    · have hfilled := h.filled
      rw [List.take_of_length_le (by omega)] at hfilled
      rw [List.take_of_length_le (by rw [List.length_append, List.length_singleton]; omega),
        ← hfilled]
      unfold Samples.filled
      rw [List.range_succ, List.map_append]
      refine congrArg₂ (· ++ ·) (List.map_congr_left fun i hi => ?_) ?_
      · exact Function.update_of_ne (Nat.ne_of_lt (List.mem_range.mp hi)) _ _
      · exact congrArg (fun x => [x]) (Function.update_self ..)
    · rw [List.length_append, List.length_singleton]
      show w.sampleCount + 1 = _
      omega
    · rw [List.length_append, List.length_singleton]
      exact hprocessed
  · have hle : maxSamples ≤ deltas.length := by omega
    refine ⟨{ w with messagesProcessed := w.messagesProcessed + 1 }, ?_, ?_, ?_, ?_⟩
    · rw [Samples.record, if_neg hroom]
      rfl
    · rw [List.take_append_of_le_length hle]
      exact h.filled
    · rw [List.length_append, List.length_singleton]
      show w.sampleCount = _
      omega
    · rw [List.length_append, List.length_singleton]
      exact hprocessed

/-- The two threads, and the samples of the worker. -/
structure Metered where
  ingress : Ingress
  samples : Samples

namespace Metered

def init (recvBuffer : PacketPayload) : Metered := ⟨.init recvBuffer, .init⟩

/-- A step of a thread, with the stamp that the worker reads after a dispatch. -/
inductive Step (capacity : Nat) : Metered → Ingress.Act × UInt64 → Metered → Prop
  | dispatch {m : Metered} {packet : PacketPayload} {ingress : Ingress} {samples : Samples}
      (egressTsc : UInt64) : Ingress.Step capacity m.ingress (.dispatch packet) ingress →
      m.samples.record egressTsc packet = .ok samples →
      Step capacity m (.dispatch packet, egressTsc) ⟨ingress, samples⟩
  | other {m : Metered} {a : Ingress.Act} {ingress : Ingress} (tsc : UInt64) :
      a.dispatched? = none → Ingress.Step capacity m.ingress a ingress →
      Step capacity m (a, tsc) ⟨ingress, m.samples⟩

/-- The packet that a dispatch processed, and the stamp read after it. -/
def dispatch? (a : Ingress.Act × UInt64) : Option (PacketPayload × UInt64) :=
  a.1.dispatched?.map fun packet => (packet, a.2)

/-- The differences that the dispatches sample. -/
def deltas (acts : List (Ingress.Act × UInt64)) : List UInt64 :=
  (acts.filterMap dispatch?).map fun d => d.2 - d.1.ingressTsc

/-- From the stamp of each packet's own handler to the stamp after its dispatch. -/
def latencies (acts : List (Ingress.Act × UInt64)) : List UInt64 :=
  List.zipWith (· - ·) ((acts.filterMap dispatch?).map Prod.snd)
    (Ingress.acceptedStamps (acts.map Prod.fst))

variable {c k : Nat} {acts : List (Ingress.Act × UInt64)} {m m' : Metered}
  {a : Ingress.Act × UInt64}

theorem Step.ingress (h : Step c m a m') : Ingress.Step c m.ingress a.1 m'.ingress := by
  cases h with
  | dispatch egressTsc hs hrecord => exact hs
  | other tsc ha hs => exact hs

theorem Step.holds (h : Step c m a m') (hm : m.samples.Holds (deltas acts)) :
    m'.samples.Holds (deltas (acts ++ [a])) := by
  unfold deltas at hm ⊢
  cases h with
  | @dispatch packet ingress samples egressTsc hs hrecord =>
    obtain ⟨w, hw, hholds⟩ := hm.record egressTsc packet
    obtain rfl := Except.ok.inj (hrecord.symm.trans hw)
    rw [filterMap_snoc, List.map_append]
    exact hholds
  | other tsc ha hs =>
    rw [filterMap_snoc_none (by rw [dispatch?, ha]; rfl)]
    exact hm

/-- **The step lemma and the run.** -/
theorem run_inv {buffer : PacketPayload} (h : Run (Step (2 ^ k)) (init buffer) acts m) :
    m.ingress.Inv (2 ^ k) (acts.map Prod.fst) ∧ m.ingress.Stamped (acts.map Prod.fst) ∧
      m.samples.Holds (deltas acts) := by
  have h0 : (Ingress.init buffer).Stamped [] := ⟨[], [], rfl, rfl, rfl, rfl, rfl⟩
  refine h.history (I := fun acts m => m.ingress.Inv (2 ^ k) (acts.map Prod.fst) ∧
    m.ingress.Stamped (acts.map Prod.fst) ∧ m.samples.Holds (deltas acts))
    ⟨Ingress.inv_init buffer, h0, Samples.holds_init⟩ ?_
  intro acts m a m' hinv hstep
  obtain ⟨hi, hs, hholds⟩ := hinv
  rw [List.map_append, List.map_singleton]
  exact ⟨hstep.ingress.inv hi, hstep.ingress.stamped hi hs, hstep.holds hholds⟩

theorem packets_eq (acts : List (Ingress.Act × UInt64)) : (acts.filterMap dispatch?).map Prod.fst =
    (acts.map Prod.fst).filterMap Ingress.Act.dispatched? := by
  rw [List.map_filterMap, List.filterMap_map]
  refine congrArg (List.filterMap · acts) (funext fun a => ?_)
  rw [dispatch?, Option.map_map]
  exact Option.map_id'

/-- **Each sample is the time of one packet**, from its handler to its dispatch. -/
theorem deltas_eq (hi : m.ingress.Inv (2 ^ k) (acts.map Prod.fst))
    (hs : m.ingress.Stamped (acts.map Prod.fst)) : deltas acts = latencies acts := by
  have hpopped := hi.consumed.popped
  rw [hi.queue.popped_eq] at hpopped
  have hsplit : m.ingress.queue.accepted = (acts.filterMap dispatch?).map Prod.fst ++
      (m.ingress.inFlight ++ m.ingress.queue.accepted.drop m.ingress.queue.popCursor) := by
    rw [packets_eq, ← List.append_assoc, ← hpopped, List.take_append_drop]
  have haccepted := congrArg (List.map (·.ingressTsc)) hsplit
  rw [List.map_append, List.map_map] at haccepted
  unfold latencies
  rw [← hs.accepted_eq, haccepted, zipWith_left (by rw [List.length_map, List.length_map]),
    List.zipWith_map, List.zipWith_self]
  rfl

/-- **Sampling hinders no run** of the threads. -/
theorem of_run {s s' : Ingress} {acts : List Ingress.Act} {w : Samples} {samples : List UInt64}
    (h : Run (Ingress.Step c) s acts s') (hw : w.Holds samples) (tsc : Ingress.Act → UInt64) :
    ∃ w' samples', Run (Step c) ⟨s, w⟩ (acts.map fun a => (a, tsc a)) ⟨s', w'⟩ ∧
      w'.Holds samples' := by
  refine h.history (I := fun acts s' => ∃ w' samples', Run (Step c) ⟨s, w⟩
    (acts.map fun a => (a, tsc a)) ⟨s', w'⟩ ∧ w'.Holds samples') ⟨w, samples, .nil, hw⟩ ?_
  intro acts s' a s'' ih hstep
  obtain ⟨w', samples', hrun, hw'⟩ := ih
  rw [List.map_append, List.map_singleton]
  cases hd : a.dispatched? with
  | none => exact ⟨w', samples', hrun.snoc (.other (tsc a) hd hstep), hw'⟩
  | some packet =>
    obtain rfl : a = .dispatch packet := by
      cases a <;> cases hd
      rfl
    obtain ⟨w'', hrecord, hw''⟩ := hw'.record (tsc (.dispatch packet)) packet
    exact ⟨w'', _, hrun.snoc (.dispatch _ hstep hrecord), hw''⟩

end Metered

/-! ## The report -/

/-- What the report says of the samples. -/
structure LatencyReport.Describes (report : LatencyReport) (samples : List UInt64) : Prop where
  /-- No more than half of the samples are below the median, and more than half not above. -/
  median : IsRank cyclesLe samples (samples.length / 2) report.medianCycles
  /-- No more than 99 of 100 samples are below the 99th percentile, and more are not above. -/
  p99 : IsRank cyclesLe samples (99 * samples.length / 100) report.p99Cycles
  max_mem : report.maxCycles ∈ samples
  le_max : ∀ d ∈ samples, d ≤ report.maxCycles
  median_le : report.medianCycles ≤ report.p99Cycles
  p99_le : report.p99Cycles ≤ report.maxCycles

theorem cyclesLe_trans (a b c : UInt64) (h : cyclesLe a b = true) (h' : cyclesLe b c = true) :
    cyclesLe a c = true :=
  decide_eq_true (UInt64.le_trans (of_decide_eq_true h) (of_decide_eq_true h'))

theorem cyclesLe_total (a b : UInt64) : (cyclesLe a b || cyclesLe b a) = true := by
  rcases UInt64.le_total a b with h | h
  · rw [cyclesLe, decide_eq_true h, Bool.true_or]
  · rw [Bool.or_comm, cyclesLe, decide_eq_true h, Bool.true_or]

/-- An element of the sorted samples, read in range. -/
theorem Samples.index_sorted {w : Samples} {i : Nat} (hn : w.sampleCount ≤ maxSamples)
    (hi : i < w.sampleCount) :
    ∃ x, index maxSamples w.sorted i = .ok x ∧ IsRank cyclesLe w.filled i x := by
  have hlen : (w.filled.mergeSort cyclesLe).length = w.sampleCount := by
    rw [List.length_mergeSort, Samples.filled, List.length_map, List.length_range]
  obtain ⟨x, hx⟩ : ∃ x, (w.filled.mergeSort cyclesLe)[i]? = some x :=
    ⟨_, List.getElem?_eq_getElem (hlen.symm ▸ hi)⟩
  refine ⟨x, ?_, isRank_mergeSort cyclesLe_trans cyclesLe_total hx⟩
  rw [index_of_lt (Nat.lt_of_lt_of_le hi hn)]
  exact congrArg (fun y => Except.ok (Option.getD y (w.cycleDeltas i))) hx

/-- **The report describes the samples**, and no element is read out of range. -/
theorem Samples.Holds.report {w : Samples} {deltas : List UInt64} (h : w.Holds deltas) :
    ∃ r, w.report = .ok r ∧ (r = none ↔ deltas = []) ∧
      ∀ report ∈ r, report.Describes (deltas.take maxSamples) := by
  have hlen : w.filled.length = w.sampleCount := by
    rw [Samples.filled, List.length_map, List.length_range]
  have hcount := h.count
  rw [← h.filled]
  unfold Samples.report
  by_cases h0 : 0 < w.sampleCount
  · have hn : w.sampleCount ≤ maxSamples := by omega
    have hp99 : p99Index w.sampleCount = 99 * w.sampleCount / 100 :=
      p99Index_eq h0 (Nat.lt_of_le_of_lt hn (by decide))
    obtain ⟨x, hx, hrank⟩ := Samples.index_sorted hn (i := w.sampleCount / 2) (by omega)
    obtain ⟨y, hy, hrank'⟩ := Samples.index_sorted hn (i := 99 * w.sampleCount / 100) (by omega)
    obtain ⟨z, hz, hlast⟩ := Samples.index_sorted hn (i := w.sampleCount - 1) (by omega)
    refine ⟨some ⟨x, y, z⟩, ?_, ?_, ?_⟩
    · rw [if_pos h0, hp99, hx, hy, hz]
      rfl
    · refine iff_of_false nofun fun hnil => ?_
      rw [hnil] at hcount
      exact Nat.ne_of_gt h0 hcount
    · rintro report ⟨⟩
      have hmax := (hlen.symm ▸ hlast).le_last
      refine ⟨hlen.symm ▸ hrank, hlen.symm ▸ hrank', hlast.mem,
        fun d hd => of_decide_eq_true (hmax d hd), ?_, of_decide_eq_true (hmax y hrank'.mem)⟩
      exact of_decide_eq_true (hrank.mono cyclesLe_trans hrank' (by omega))
  · refine ⟨none, if_neg h0, iff_of_true rfl ?_,
      fun report hr => absurd hr (Option.not_mem_none report)⟩
    exact List.length_eq_zero_iff.mp (by unfold maxSamples at hcount; omega)

/-- Three packets through a ring of four, stamped 2, 3 and 6 and dispatched by 9, 11 and 12. -/
theorem Metered.run_dispatched : ∃ acts m,
    Run (Metered.Step (2 ^ 2)) (Metered.init ⟨0, Vector.replicate 56 255⟩) acts m ∧
      Metered.latencies acts = [7, 8, 6] ∧
      ((acts.map Prod.fst).filterMap Ingress.Act.dispatched?).length = 3 := by
  let short : Completion := ⟨false, [88], by decide⟩
  let full : Completion := ⟨false, List.replicate 56 0, by decide⟩
  have hcall : ∀ (s : Ingress) (tsc : UInt64), (s.buffered full tsc).call? = none := by
    intro s tsc
    rw [Ingress.buffered_eq List.length_replicate]
    rfl
  have hskip : ∀ (s : Ingress) (tsc : UInt64) (b : OrderBook),
      (s.buffered full tsc).Dispatches b b := fun s tsc b =>
    (PacketPayload.dispatches_none (hcall s tsc) b b).mpr rfl
  have hpushed := ((Ingress.run_accept (k := 2) (s := Ingress.init ⟨0, Vector.replicate 56 255⟩)
    (r := full) rfl (by decide) 2 rfl rfl).append
      (Ingress.run_accept (r := full) rfl (by decide) 3 rfl rfl)).append
      (Ingress.run_skip (r := short) rfl (by decide) 4)
  have hfirst := (hpushed.append (Ingress.run_take rfl rfl rfl rfl)).append
    (Ingress.run_dispatch rfl (hskip _ _ _))
  have hsecond := ((hfirst.append (Ingress.run_accept (r := full) rfl (by decide) 6 rfl rfl)).append
    (Ingress.run_take_cached rfl rfl rfl)).append (Ingress.run_dispatch rfl (hskip _ _ _))
  have hthird := (hsecond.append (Ingress.run_take rfl rfl rfl rfl)).append
    (Ingress.run_dispatch rfl (hskip _ _ _))
  obtain ⟨w, -, hmetered, -⟩ := Metered.of_run hthird Samples.holds_init fun a =>
    a.dispatched?.elim 0 fun packet =>
      if packet.ingressTsc = 2 then 9 else if packet.ingressTsc = 3 then 11 else 12
  exact ⟨_, _, hmetered, by decide +kernel, by decide +kernel⟩

/-- **Every sample is the time of one packet.** In every run the samples are, for the first
`MAX_SAMPLES` packets dispatched, the stamp after the dispatch less the stamp of the handler that
received the same packet; all packets are counted, and no sample is written out of range. -/
theorem latency_samples {k : Nat} {buffer : PacketPayload}
    {acts : List (Ingress.Act × UInt64)} {m : Metered}
    (h : Run (Metered.Step (2 ^ k)) (Metered.init buffer) acts m) :
    m.samples.filled = (Metered.latencies acts).take maxSamples ∧
      m.samples.messagesProcessed =
        UInt64.ofNat ((acts.map Prod.fst).filterMap Ingress.Act.dispatched?).length ∧
      ∀ egressTsc packet, ∃ samples, m.samples.record egressTsc packet = .ok samples := by
  obtain ⟨hi, hs, hholds⟩ := Metered.run_inv h
  refine ⟨Metered.deltas_eq hi hs ▸ hholds.filled, ?_, fun egressTsc packet => ?_⟩
  · rw [hholds.processed, ← Metered.packets_eq, List.length_map, Metered.deltas, List.length_map]
  · obtain ⟨w, hw, -⟩ := hholds.record egressTsc packet
    exact ⟨w, hw⟩

/-- One sample for each of the three packets, in the order of their dispatches. -/
theorem latency_samples_run : ∃ acts m,
    Run (Metered.Step (2 ^ 2)) (Metered.init ⟨0, Vector.replicate 56 255⟩) acts m ∧
      m.samples.filled = [7, 8, 6] ∧ m.samples.messagesProcessed = 3 := by
  obtain ⟨acts, m, hrun, hlatencies, hlength⟩ := Metered.run_dispatched
  obtain ⟨hfilled, hprocessed, -⟩ := latency_samples hrun
  rw [hlatencies] at hfilled
  rw [hlength] at hprocessed
  exact ⟨acts, m, hrun, hfilled, hprocessed⟩

/-- **The latency report.** In every run the report is made if a packet was dispatched; its median,
99th percentile and maximum are those of the first `MAX_SAMPLES` latencies, the product in floating
point notwithstanding, and every element it reads is in range. -/
theorem latency_report {k : Nat} {buffer : PacketPayload}
    {acts : List (Ingress.Act × UInt64)} {m : Metered}
    (h : Run (Metered.Step (2 ^ k)) (Metered.init buffer) acts m) :
    ∃ r, m.samples.report = .ok r ∧
      (r = none ↔ (acts.map Prod.fst).filterMap Ingress.Act.dispatched? = []) ∧
      ∀ report ∈ r, report.Describes ((Metered.latencies acts).take maxSamples) := by
  obtain ⟨hi, hs, hholds⟩ := Metered.run_inv h
  obtain ⟨r, hr, hnone, hdescribes⟩ := hholds.report
  refine ⟨r, hr, ?_, Metered.deltas_eq hi hs ▸ hdescribes⟩
  rw [hnone, ← Metered.packets_eq, Metered.deltas, List.map_eq_nil_iff, List.map_eq_nil_iff]

/-- The report of these samples: the median is the middle one, the 99th percentile the last. -/
theorem latency_report_run : ∃ acts m report,
    Run (Metered.Step (2 ^ 2)) (Metered.init ⟨0, Vector.replicate 56 255⟩) acts m ∧
      m.samples.report = .ok (some report) ∧ report.Describes [7, 8, 6] ∧
      report.medianCycles = 7 ∧ report.p99Cycles = 8 ∧ report.maxCycles = 8 := by
  obtain ⟨acts, m, hrun, hlatencies, hlength⟩ := Metered.run_dispatched
  obtain ⟨r, hr, hnone, hdescribes⟩ := latency_report hrun
  rw [hlatencies] at hdescribes
  cases r with
  | none =>
    rw [hnone.mp rfl] at hlength
    cases hlength
  | some report =>
    have hreport : report.Describes [7, 8, 6] := hdescribes report rfl
    have hcounts : ∀ x ∈ [(7 : UInt64), 8, 6],
        ([(7 : UInt64), 8, 6].countP (fun a => !cyclesLe x a) ≤ 1 →
          1 < [(7 : UInt64), 8, 6].countP (fun a => cyclesLe a x) → x = 7) ∧
        (2 < [(7 : UInt64), 8, 6].countP (fun a => cyclesLe a x) → x = 8) ∧
        (8 ≤ x → x = 8) := by
      rw [List.forall_mem_cons, List.forall_mem_cons, List.forall_mem_cons]
      exact ⟨by decide, by decide, by decide, fun x hx => absurd hx List.not_mem_nil⟩
    obtain ⟨hmedian, -, -⟩ := hcounts _ hreport.median.mem
    obtain ⟨-, hp99, -⟩ := hcounts _ hreport.p99.mem
    obtain ⟨-, -, hmax⟩ := hcounts _ hreport.max_mem
    exact ⟨acts, m, report, hrun, hr, hreport, hmedian hreport.median.below hreport.median.upto,
      hp99 hreport.p99.upto, hmax (hreport.le_max 8 (by decide))⟩

end MarketHandler
