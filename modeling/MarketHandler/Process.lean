import MarketHandler.Ingress.Accounting
import MarketHandler.SPSCQueue.Lifecycle
import MarketHandler.SPSCQueue.Progress

/-!
# The process

Model of `main` in `src/main.cpp` from the start of the worker thread to the end of the process. The
main thread constructs the handler and the signal set, which may throw; it then serves the network
(`io_context.run`) until a signal handler clears `running` and stops the context, joins the worker and
destroys the queue. The worker polls while `running` is set, and returns after the pass in which it
finds it cleared. An exception finds the worker still joinable, so its thread's destructor terminates
the process.

`asio` runs one handler at a time and reads the socket inside `run`; loads of `running` are taken in
one order with its store. What a handler throws is left out.

* `Process.Step.inv`: where the two threads and the flag stand, in every reachable state.
* `shutdown`: **after the signal** nothing is received or pushed, at most one packet is dispatched, and
  at most nine steps later the process has ended, unless the worker hangs in a dispatch.
* `exited_last`: the process ends with the destruction of the queue.
* `exit_accounting`: **at the end** every full datagram was dispatched, dropped, destroyed with the
  queue or left unhandled; the slots destroyed held the accepted packets that were not dispatched, in
  order, and the queue has no element left.
-/

namespace MarketHandler

open Lib

/-- Where `main` stands. -/
inductive MainPc where
  | starting
  | serving
  | joining
  | exited
  | terminated
  deriving DecidableEq

/-- `finished`: `run_matching_engine` has returned. -/
structure Process where
  ingress : Ingress
  mainPc : MainPc
  running : Bool
  finished : Bool

/-- The main thread runs the network handlers. -/
def Ingress.Act.network : Ingress.Act → Bool
  | .receive _ => true
  | .handle _ => true
  | .push _ => true
  | _ => false

/-- The worker is inside a pass of its loop. -/
def Ingress.Act.inPass : Ingress.Act → Bool
  | .pop _ => true
  | .dispatch _ => true
  | _ => false

namespace Process

/-- The worker thread has just been started. -/
def init (buffer : PacketPayload) : Process := ⟨.init buffer, .starting, true, false⟩

inductive Act where
  | listen
  | throw
  | ingress (a : Ingress.Act)
  | signal
  | leave
  | exit (destroyed : List Nat)

namespace Act

def ingress? : Act → Option Ingress.Act
  | .ingress a => some a
  | _ => none

/-- The slots that the queue's destructor has destroyed. -/
def destroyed? : Act → Option (List Nat)
  | .exit idxs => some idxs
  | _ => none

end Act

inductive Step (capacity : Nat) : Process → Act → Process → Prop
  | listen {p : Process} : p.mainPc = .starting → Step capacity p .listen { p with mainPc := .serving }
  | throw {p : Process} : p.mainPc = .starting → Step capacity p .throw { p with mainPc := .terminated }
  | network {p : Process} {a : Ingress.Act} {s : Ingress} : p.mainPc = .serving → a.network = true →
      Ingress.Step capacity p.ingress a s → Step capacity p (.ingress a) { p with ingress := s }
  | poll {p : Process} {s : Ingress} : p.mainPc ≠ .terminated → p.finished = false →
      p.running = true → Ingress.Step capacity p.ingress .poll s →
      Step capacity p (.ingress .poll) { p with ingress := s }
  | pass {p : Process} {a : Ingress.Act} {s : Ingress} : p.mainPc ≠ .terminated →
      p.finished = false → a.inPass = true → Ingress.Step capacity p.ingress a s →
      Step capacity p (.ingress a) { p with ingress := s }
  | signal {p : Process} : p.mainPc = .serving → p.ingress.handlerPc ≠ .pushing →
      Step capacity p .signal { p with running := false, mainPc := .joining }
  | leave {p : Process} : p.mainPc ≠ .terminated → p.finished = false →
      p.ingress.enginePc = .polling → p.running = false → Step capacity p .leave { p with finished := true }
  | exit {p : Process} {fuel : Nat} {queue : SPSCQueue PacketPayload} {idxs : List Nat} :
      p.mainPc = .joining → p.finished = true →
      p.ingress.queue.destructor capacity fuel = .ok (queue, idxs) →
      Step capacity p (.exit idxs) { p with
        ingress := { p.ingress with queue := queue }
        mainPc := .exited }

end Process

/-! ## The ring at the end -/

namespace SPSCQueue

variable {T : Type} {c k : Nat} {q q' : SPSCQueue T} {idxs : List Nat}

theorem destructor_approx (n : Nat) : ∀ q : SPSCQueue T,
    Approx (q.destructor c n) (q.destructor c (n + 1)) := by
  induction n with
  | zero => exact fun q => Approx.fuel _
  | succ n ih =>
    intro q
    rw [destructor, destructor]
    split_ifs
    · exact Approx.refl _
    · refine Approx.bind (Approx.refl _) fun cell => ?_
      cases cell with
      | raw => exact Approx.refl _
      | _ => exact Approx.bind (ih _) fun r => Approx.refl _

/-- The destructor's loop takes one iteration for each element left, from the oldest on. -/
theorem Leftover.destructs (n : Nat) : ∀ {q : SPSCQueue T}, q.Leftover (2 ^ k) → q.size = n →
    ∃ q' idxs, q.destructor (2 ^ k) (n + 1) = .ok (q', idxs) ∧
      idxs = (List.range' q.popCursor n).map (· &&& indexMask (2 ^ k)) ∧
      (∀ i < 2 ^ k, q'.ring i = .raw) ∧ q'.accepted = q.accepted := by
  induction n with
  | zero =>
    intro q h hn
    have he : q.popCursor = q.pushCursor :=
      Nat.le_antisymm h.le (Nat.sub_eq_zero_iff_le.mp hn)
    refine ⟨q, [], if_pos hn, rfl, fun i hi => ?_, rfl⟩
    obtain ⟨j, hj, hj', rfl⟩ := exists_mod_of_window q.popCursor hi
    exact h.raw j (he ▸ hj) hj'
  | succ n ih =>
    intro q h hn
    have hlt : q.popCursor < q.pushCursor :=
      Nat.lt_of_sub_ne_zero (show q.size ≠ 0 by rw [hn]; exact Nat.succ_ne_zero n)
    obtain ⟨value, hv⟩ := h.live q.popCursor (le_refl _) hlt
    obtain ⟨q', idxs, hrun, hidxs, hraw, hacc⟩ := ih (h.next hlt)
      (show q.pushCursor - (q.popCursor + 1) = n by unfold size at hn; omega)
    refine ⟨q', (q.popCursor &&& indexMask (2 ^ k)) :: idxs, ?_, ?_, hraw, hacc⟩
    · rw [destructor, if_neg (by rw [hn]; exact Nat.succ_ne_zero n)]
      simp only [and_indexMask, index_of_lt (Nat.mod_lt _ (Nat.two_pow_pos k)), ok_bind, hv, hrun]
      rfl
    · rw [hidxs]
      rfl

/-- What the destructor takes and leaves, whatever fuel it was run with. -/
theorem Leftover.destructed (h : q.Leftover (2 ^ k)) (hidle : q.Idle) {fuel : Nat}
    (hrun : q.destructor (2 ^ k) fuel = .ok (q', idxs)) :
    idxs.map q.ring = q.elements (2 ^ k) ∧ (∀ i < 2 ^ k, q'.ring i = .raw) ∧
      q'.accepted = q.accepted := by
  obtain ⟨q₁, idxs₁, hrun₁, hidxs, hrest⟩ := h.destructs q.size rfl
  have he := Approx.ok_unique (fun n => destructor_approx n q) hrun hrun₁
  obtain ⟨rfl, rfl⟩ := Prod.mk.inj he
  have hhand : q.inHand = [] := by simp only [inHand, hidle.2]
  refine ⟨?_, hrest⟩
  rw [hidxs, List.map_map, elements, hhand]
  rfl

end SPSCQueue

/-! ## Invariants -/

namespace Ingress

variable {c : Nat} {s s' : Ingress} {a : Act}

/-- Between their calls the threads leave the queue idle. -/
theorem Inv.idle {acts : List Act} (h : s.Inv c acts) (hhandler : s.handlerPc ≠ .pushing)
    (hengine : s.enginePc = .polling) : s.queue.Idle :=
  ⟨h.settled.idle.mpr hhandler, h.consumed.idle.mpr (by simp [hengine])⟩

/-- What a step inside a pass of the worker leaves to the network thread. -/
structure Kept (s s' : Ingress) : Prop where
  handlerPc : s'.handlerPc = s.handlerPc
  accepted : s'.queue.accepted = s.queue.accepted
  droppedPackets : s'.droppedPackets = s.droppedPackets

/-- The steps that the worker takes at most to the end of its pass. -/
def passLeft (s : Ingress) : Nat :=
  match s.enginePc with
  | .polling => 0
  | .popping => s.queue.popPc.left + 1
  | .dispatching _ => 1

/-- The packets it dispatches at most to the end of its pass. -/
def dispatchLeft (s : Ingress) : Nat :=
  match s.enginePc with
  | .polling => 0
  | _ => 1

/-- One step inside a pass. -/
theorem Step.pass {acts : List Act} (h : Step c s a s') (hinv : s.Inv c acts)
    (hpass : a.inPass = true) : Kept s s' ∧ s'.passLeft < s.passLeft ∧
      a.dispatched?.toList.length + s'.dispatchLeft ≤ s.dispatchLeft ∧ s.enginePc ≠ .polling := by
  cases h with
  | @pop queue r hpc hrun =>
    have hbusy : s.queue.popPc ≠ .idle := fun hidle => hinv.consumed.idle.mp hidle hpc
    have hp := SPSCQueue.popStep_popped hbusy hrun
    have hlt := SPSCQueue.popStep_left hbusy hrun
    have hleft : s.passLeft = s.queue.popPc.left + 1 := by simp only [passLeft, hpc]
    have hdispatch : s.dispatchLeft = 1 := by simp only [dispatchLeft, hpc]
    have hnot : s.enginePc ≠ .polling := by rw [hpc]; nofun
    match r with
    | none =>
      have hleft' : (s.popped queue none).passLeft = queue.popPc.left + 1 := by
        simp only [passLeft, popped, hpc]
      refine ⟨⟨rfl, hp.accepted, rfl⟩, by omega, ?_, hnot⟩
      simp only [dispatchLeft, popped, hpc, Act.dispatched?, Option.toList_none, List.length_nil,
        Nat.zero_add, Nat.le_refl]
    | some none =>
      exact ⟨⟨rfl, hp.accepted, rfl⟩, hleft ▸ Nat.succ_pos _, Nat.zero_le _, hnot⟩
    | some (some packet) =>
      refine ⟨⟨rfl, hp.accepted, rfl⟩, ?_, hdispatch ▸ Nat.le_refl 1, hnot⟩
      rw [hleft]
      show 1 < _
      omega
  | dispatch hpc _ =>
    have hleft : s.passLeft = 1 := by simp only [passLeft, hpc]
    have hdispatch : s.dispatchLeft = 1 := by simp only [dispatchLeft, hpc]
    exact ⟨⟨rfl, rfl, rfl⟩, hleft ▸ Nat.one_pos, hdispatch ▸ Nat.le_refl 1, by rw [hpc]; nofun⟩
  | _ => cases hpass

end Ingress

namespace Process

variable {k : Nat} {buffer : PacketPayload} {acts acts' : List Act} {a : Act} {p p' : Process}

/-- Where the two threads and the flag stand. -/
structure Shape (p : Process) : Prop where
  running : p.running = false ↔ p.mainPc = .joining ∨ p.mainPc = .exited
  handler : p.running = false → p.ingress.handlerPc ≠ .pushing
  finished : p.finished = true → p.running = false ∧ p.ingress.enginePc = .polling
  exited : p.mainPc = .exited → p.finished = true

/-- The invariant of the process: until it has exited, the network's and the worker's actions have led
to where the two threads are, and the queue is there. -/
structure Inv (k : Nat) (acts : List Act) (p : Process) : Prop where
  shape : p.Shape
  live : p.mainPc ≠ .exited → p.ingress.Inv (2 ^ k) (acts.filterMap Act.ingress?) ∧
    acts.filterMap Act.destroyed? = []

theorem inv_init (k : Nat) (buffer : PacketPayload) : Inv k [] (init buffer) where
  shape := ⟨by simp [init], by simp [init], by simp [init], by simp [init]⟩
  live _ := ⟨Ingress.inv_init buffer, rfl⟩

/-- A step of either thread's loop. -/
theorem Inv.ingress (h : Inv k acts p) (hpc : p.mainPc ≠ .exited) {i : Ingress.Act} {s : Ingress}
    (hs : Ingress.Step (2 ^ k) p.ingress i s) :
    s.Inv (2 ^ k) ((acts ++ [Act.ingress i]).filterMap Act.ingress?) ∧
      (acts ++ [Act.ingress i]).filterMap Act.destroyed? = [] := by
  obtain ⟨hinv, hnone⟩ := h.live hpc
  rw [filterMap_snoc, filterMap_snoc_none rfl]
  exact ⟨hs.inv hinv, hnone⟩

/-- A step of neither. -/
theorem Inv.other (h : Inv k acts p) (hpc : p.mainPc ≠ .exited) (hi : a.ingress? = none)
    (hd : a.destroyed? = none) : p.ingress.Inv (2 ^ k) ((acts ++ [a]).filterMap Act.ingress?) ∧
      (acts ++ [a]).filterMap Act.destroyed? = [] := by
  rw [filterMap_snoc_none hi, filterMap_snoc_none hd]
  exact h.live hpc

/-- While the flag is set the process has not exited. -/
theorem Shape.running_of (h : p.Shape) (hj : p.mainPc ≠ .joining) (he : p.mainPc ≠ .exited) :
    p.running = true := by
  rw [← Bool.not_eq_false, h.running]
  exact not_or.mpr ⟨hj, he⟩

theorem Shape.not_exited (h : p.Shape) (hf : p.finished = false) : p.mainPc ≠ .exited := fun he =>
  absurd (h.exited he) (by rw [hf]; simp)

theorem Step.inv (h : Inv k acts p) (hs : Step (2 ^ k) p a p') : Inv k (acts ++ [a]) p' := by
  have hshape := h.shape
  cases hs with
  | listen hpc =>
    have hrun := hshape.running_of (by simp [hpc]) (by simp [hpc])
    exact ⟨⟨iff_of_false (by simp [hrun]) (by simp), hshape.handler, hshape.finished, by simp⟩,
      fun _ => h.other (by simp [hpc]) rfl rfl⟩
  | throw hpc =>
    have hrun := hshape.running_of (by simp [hpc]) (by simp [hpc])
    exact ⟨⟨iff_of_false (by simp [hrun]) (by simp), hshape.handler, hshape.finished, by simp⟩,
      fun _ => h.other (by simp [hpc]) rfl rfl⟩
  | @network i s' hpc hnet hi =>
    have hrun := hshape.running_of (by simp [hpc]) (by simp [hpc])
    refine ⟨⟨hshape.running, by simp [hrun], fun hf => ?_, hshape.exited⟩,
      fun _ => h.ingress (by simp [hpc]) hi⟩
    exact absurd (hshape.finished hf).1 (by simp [hrun])
  | @poll s' hterm hfin hrun hi =>
    exact ⟨⟨hshape.running, by simp [hrun], by simp [hfin], hshape.exited⟩,
      fun _ => h.ingress (hshape.not_exited hfin) hi⟩
  | @pass i s' hterm hfin hpass hi =>
    have hkept := (hi.pass (h.live (hshape.not_exited hfin)).1 hpass).1
    refine ⟨⟨hshape.running, fun hrun => ?_, by simp [hfin], hshape.exited⟩,
      fun _ => h.ingress (hshape.not_exited hfin) hi⟩
    show s'.handlerPc ≠ .pushing
    rw [hkept.handlerPc]
    exact hshape.handler hrun
  | signal hpc hhandler =>
    refine ⟨⟨iff_of_true rfl (Or.inl rfl), fun _ => hhandler, fun hf => ?_, by simp⟩,
      fun _ => h.other (by simp [hpc]) rfl rfl⟩
    exact ⟨rfl, (hshape.finished hf).2⟩
  | leave hterm hfin hpc hrun =>
    exact ⟨⟨hshape.running, hshape.handler, fun _ => ⟨hrun, hpc⟩, fun _ => rfl⟩,
      fun _ => h.other (hshape.not_exited hfin) rfl rfl⟩
  | exit hpc hfin hd =>
    obtain ⟨hrun, hpolling⟩ := hshape.finished hfin
    exact ⟨⟨iff_of_true hrun (Or.inr rfl), hshape.handler, fun _ => ⟨hrun, hpolling⟩, fun _ => hfin⟩,
      fun he => absurd rfl he⟩

theorem run_inv (h : Run (Step (2 ^ k)) (init buffer) acts p) : Inv k acts p :=
  h.history (I := Inv k) (inv_init k buffer) Step.inv

/-- The step that ends the process is the last one. -/
theorem exited_last (h : Run (Step (2 ^ k)) (init buffer) acts p) (hexit : p.mainPc = .exited) :
    ∃ before p₀ idxs, acts = before ++ [.exit idxs] ∧ Run (Step (2 ^ k)) (init buffer) before p₀ ∧
      Step (2 ^ k) p₀ (.exit idxs) p := by
  cases h with
  | nil => cases hexit
  | @snoc before p₀ _ a hrun hs =>
    have hshape := (run_inv hrun).shape
    cases hs with
    | @exit fuel queue idxs hpc hfin hd => exact ⟨before, p₀, idxs, rfl, hrun, .exit hpc hfin hd⟩
    | listen hpc => cases hexit
    | throw hpc => cases hexit
    | network hpc hnet hi => cases hpc.symm.trans hexit
    | poll hterm hfin hrun hi => exact absurd hexit (hshape.not_exited hfin)
    | pass hterm hfin hpass hi => exact absurd hexit (hshape.not_exited hfin)
    | signal hpc hhandler => cases hexit
    | leave hterm hfin hpc hrun => exact absurd hexit (hshape.not_exited hfin)

/-! ## After the signal -/

/-- The steps that are left at most once `running` is cleared. -/
def left (p : Process) : Nat :=
  (if p.finished then 0 else p.ingress.passLeft + 1) + if p.mainPc = .exited then 0 else 1

/-- What a step has changed once `running` is cleared. -/
structure Closing (p : Process) (a : Act) (p' : Process) : Prop where
  running : p'.running = false
  left_lt : p'.left < p.left
  inPass : ∀ i ∈ a.ingress?, i.inPass = true
  dispatches : (a.ingress?.bind Ingress.Act.dispatched?).toList.length + p'.ingress.dispatchLeft ≤
    p.ingress.dispatchLeft
  accepted : p'.ingress.queue.accepted = p.ingress.queue.accepted
  droppedPackets : p'.ingress.droppedPackets = p.ingress.droppedPackets

theorem Step.closing (h : Inv k acts p) (hoff : p.running = false) (hs : Step (2 ^ k) p a p') :
    Closing p a p' := by
  have hshape := h.shape
  have hmain := hshape.running.mp hoff
  cases hs with
  | listen hpc => simp [hpc] at hmain
  | throw hpc => simp [hpc] at hmain
  | network hpc _ _ => simp [hpc] at hmain
  | poll _ _ hrun _ => simp [hoff] at hrun
  | signal hpc _ => simp [hpc] at hmain
  | @pass i s' hterm hfin hpass hi =>
    have hinv := (h.live (hshape.not_exited hfin)).1
    obtain ⟨hkept, hlt, hdispatch, -⟩ := hi.pass hinv hpass
    refine ⟨hoff, ?_, fun j hj => ?_, hdispatch, hkept.accepted, hkept.droppedPackets⟩
    · simp only [left, hfin, Bool.false_eq_true, if_false]
      omega
    · obtain rfl := Option.some.inj hj
      exact hpass
  | leave hterm hfin hpc hrun =>
    refine ⟨hoff, ?_, nofun, Nat.le_of_eq (Nat.zero_add _), rfl, rfl⟩
    simp only [left, hfin, if_true, Bool.false_eq_true, if_false]
    omega
  | @exit fuel queue idxs hpc hfin hd =>
    have hinv := (h.live (by simp [hpc])).1
    have hidle := hinv.idle (hshape.handler hoff) (hshape.finished hfin).2
    obtain ⟨-, -, hacc⟩ := (hinv.queue.leftover hidle).destructed hidle hd
    refine ⟨hoff, ?_, nofun, Nat.le_of_eq (Nat.zero_add _), hacc, rfl⟩
    simp [left, hfin, hpc]

/-- The same, for any number of steps. -/
structure Closed (p : Process) (acts' : List Act) (p' : Process) : Prop where
  running : p'.running = false
  left_le : acts'.length + p'.left ≤ p.left
  inPass : ∀ i ∈ acts'.filterMap Act.ingress?, i.inPass = true
  dispatches : ((acts'.filterMap Act.ingress?).filterMap Ingress.Act.dispatched?).length +
    p'.ingress.dispatchLeft ≤ p.ingress.dispatchLeft
  accepted : p'.ingress.queue.accepted = p.ingress.queue.accepted
  droppedPackets : p'.ingress.droppedPackets = p.ingress.droppedPackets

theorem closed (h : Inv k acts p) (hoff : p.running = false) (h' : Run (Step (2 ^ k)) p acts' p') :
    Inv k (acts ++ acts') p' ∧ Closed p acts' p' := by
  have h0 : Closed p [] p := by
    refine ⟨hoff, ?_, ?_, ?_, rfl, rfl⟩ <;> simp
  refine h'.history (I := fun acts' p' => Inv k (acts ++ acts') p' ∧ Closed p acts' p')
    ⟨by rwa [List.append_nil], h0⟩ ?_
  rintro acts' p₁ a p₂ ⟨hinv, hc⟩ hs
  have hnext := hs.closing hinv hc.running
  have hinv' := hs.inv hinv
  rw [List.append_assoc] at hinv'
  refine ⟨hinv', hnext.running, ?_, ?_, ?_, hnext.accepted.trans hc.accepted,
    hnext.droppedPackets.trans hc.droppedPackets⟩
  · have hle := hc.left_le
    have hlt := hnext.left_lt
    rw [List.length_append, List.length_singleton]
    omega
  · intro i hi
    rw [filterMap_snoc, List.mem_append] at hi
    rcases hi with hi | hi
    · exact hc.inPass i hi
    · exact hnext.inPass i (Option.mem_toList.mp hi)
  · have hle := hc.dispatches
    have hle' := hnext.dispatches
    rw [filterMap_snoc, List.filterMap_append, List.length_append]
    have hone : (a.ingress?.toList.filterMap Ingress.Act.dispatched?).length =
        (a.ingress?.bind Ingress.Act.dispatched?).toList.length := by
      cases a.ingress? with
      | none => rfl
      | some i => cases hd : i.dispatched? <;> simp [hd]
    omega

/-- Once `running` is cleared some step is possible, unless the process has ended or hangs. -/
theorem Inv.progress (h : Inv k acts p) (hoff : p.running = false) : p.mainPc = .exited ∨
    (∃ a p', Step (2 ^ k) p a p') ∨ ∃ packet, p.ingress.enginePc = .dispatching packet ∧
      ¬ ∃ book, packet.Dispatches p.ingress.book book := by
  have hshape := h.shape
  refine (hshape.running.mp hoff).symm.imp id fun hpc => ?_
  have hinv := (h.live (by simp [hpc])).1
  have hterm : p.mainPc ≠ .terminated := by simp [hpc]
  cases hfin : p.finished with
  | true =>
    have hidle := hinv.idle (hshape.handler hoff) (hshape.finished hfin).2
    obtain ⟨queue, idxs, hd, -⟩ := (hinv.queue.leftover hidle).destructs _ rfl
    exact Or.inl ⟨_, _, .exit hpc hfin hd⟩
  | false =>
    cases hengine : p.ingress.enginePc with
    | polling => exact Or.inl ⟨_, _, .leave hterm hfin hengine hoff⟩
    | popping =>
      obtain ⟨⟨queue, r⟩, hrun⟩ := hinv.queue.safe.2
      exact Or.inl ⟨_, _, .pass hterm hfin rfl (.pop hengine hrun)⟩
    | dispatching packet =>
      by_cases hd : ∃ book, packet.Dispatches p.ingress.book book
      · obtain ⟨book, hd⟩ := hd
        exact Or.inl ⟨_, _, .pass hterm hfin rfl (.dispatch hengine hd)⟩
      · exact Or.inr ⟨packet, rfl, hd⟩

theorem left_le_nine (p : Process) : p.left ≤ 9 := by
  have hpop : p.ingress.queue.popPc.left ≤ 6 := by
    unfold PopPc.left
    split <;> omega
  have hpass : p.ingress.passLeft ≤ 7 := by
    unfold Ingress.passLeft
    split <;> omega
  unfold left
  split_ifs <;> omega

end Process

/-- While the process serves, the steps of the two threads are its steps. -/
theorem Process.serving {c : Nat} {s s' : Ingress} {acts : List Ingress.Act}
    (h : Run (Ingress.Step c) s acts s') : Run (Process.Step c) ⟨s, .serving, true, false⟩
      (acts.map .ingress) ⟨s', .serving, true, false⟩ := by
  induction h with
  | nil => exact Run.nil
  | @snoc acts s₁ s₂ a _ hs ih =>
    rw [List.map_append]
    refine ih.snoc ?_
    cases a with
    | receive r => exact .network rfl rfl hs
    | handle tsc => exact .network rfl rfl hs
    | push r => exact .network rfl rfl hs
    | poll => exact .poll (by simp) rfl rfl hs
    | pop r => exact .pass (by simp) rfl rfl hs
    | dispatch packet => exact .pass (by simp) rfl rfl hs

/-- Of three packets in a ring of four one is dispatched, and a signal finds the other two. -/
theorem Process.run_left : ∃ acts p p',
    Run (Process.Step (2 ^ 2)) (Process.init ⟨0, Vector.replicate 56 255⟩) acts p ∧
      p.running = false ∧ Run (Process.Step (2 ^ 2)) p [.leave, .exit [1, 2]] p' ∧
      p'.mainPc = .exited ∧ p'.ingress.queue.accepted.map (·.bytes.toList) =
        [List.replicate 56 1, List.replicate 56 2, List.replicate 56 3] ∧
      ((acts.filterMap Process.Act.ingress?).filterMap Ingress.Act.dispatched?).length = 1 := by
  let full (b : UInt8) : Completion := ⟨false, List.replicate 56 b, List.length_replicate.le⟩
  let packet := (Ingress.init ⟨0, Vector.replicate 56 255⟩).buffered (full 1) 1
  have hcall : packet.call? = none := by decide +kernel
  have hpushed := ((Ingress.run_accept (k := 2) (s := Ingress.init ⟨0, Vector.replicate 56 255⟩)
    (r := full 1) rfl (by decide) 1 rfl rfl).append
      (Ingress.run_accept (r := full 2) rfl (by decide) 2 rfl rfl)).append
      (Ingress.run_accept (r := full 3) rfl (by decide) 3 rfl rfl)
  have hserved := (hpushed.append (Ingress.run_take rfl rfl rfl rfl)).append
    (Ingress.run_dispatch rfl ((PacketPayload.dispatches_none hcall _ _).mpr rfl))
  have hinv := hserved.history (I := Ingress.Inv (2 ^ 2)) (Ingress.inv_init _) Ingress.Step.inv
  obtain ⟨queue, idxs, hd, hidxs, -, hacc⟩ :=
    (hinv.queue.leftover ⟨rfl, rfl⟩).destructs 2 rfl
  obtain rfl : idxs = [1, 2] := hidxs.trans (by decide)
  refine ⟨_, _, _, .cons (.listen rfl) ((Process.serving hserved).snoc (.signal rfl ?_)), rfl,
    .cons (.leave ?_ rfl rfl rfl) (.cons (.exit rfl rfl hd) .nil), rfl, ?_, rfl⟩
  · intro hpushing
    cases hpushing
  · simp
  · refine (congrArg (List.map _) hacc).trans ?_
    have hbytes : ∀ (s : Ingress) b tsc,
        (s.buffered (full b) tsc).bytes.toList = List.replicate 56 b :=
      fun _ _ _ => PacketPayload.receive_full List.length_replicate
    exact congrArg₂ List.cons (hbytes _ _ _)
      (congrArg₂ List.cons (hbytes _ _ _) (congrArg₂ List.cons (hbytes _ _ _) rfl))

/-- **A signal ends the process.** Whatever was going on, after the signal no datagram is received or
pushed, at most one packet is dispatched, and nine steps later at the latest the process has exited
or the worker is in a dispatch that never returns; until then some step is possible. -/
theorem shutdown {k : Nat} {buffer : PacketPayload} {acts acts' : List Process.Act} {p p' : Process}
    (h : Run (Process.Step (2 ^ k)) (Process.init buffer) acts p) (hsignal : p.running = false)
    (h' : Run (Process.Step (2 ^ k)) p acts' p') :
    acts'.length ≤ 9 ∧ (∀ a ∈ acts'.filterMap Process.Act.ingress?, a.inPass = true) ∧
      ((acts'.filterMap Process.Act.ingress?).filterMap Ingress.Act.dispatched?).length ≤ 1 ∧
      p'.ingress.queue.accepted = p.ingress.queue.accepted ∧
      p'.ingress.droppedPackets = p.ingress.droppedPackets ∧
      (p'.mainPc = .exited ∨ (∃ a p'', Process.Step (2 ^ k) p' a p'') ∨
        ∃ packet, p'.ingress.enginePc = .dispatching packet ∧
          ¬ ∃ book, packet.Dispatches p'.ingress.book book) := by
  obtain ⟨hinv, hc⟩ := Process.closed (Process.run_inv h) hsignal h'
  have hnine := p.left_le_nine
  have hle := hc.left_le
  have hdispatch : p.ingress.dispatchLeft ≤ 1 := by
    unfold Ingress.dispatchLeft
    split <;> decide
  have hdispatches := hc.dispatches
  exact ⟨by omega, hc.inPass, by omega, hc.accepted, hc.droppedPackets, hinv.progress hc.running⟩

theorem shutdown_run : ∃ acts acts' p p',
    Run (Process.Step (2 ^ 2)) (Process.init ⟨0, Vector.replicate 56 255⟩) acts p ∧
      p.running = false ∧ Run (Process.Step (2 ^ 2)) p acts' p' ∧ p'.mainPc = .exited ∧
      acts'.length ≤ 9 ∧ p'.ingress.queue.accepted = p.ingress.queue.accepted := by
  obtain ⟨acts, p, p', hrun, hsignal, hrest, hexit, -, -⟩ := Process.run_left
  obtain ⟨hlength, -, -, haccepted, -⟩ := shutdown hrun hsignal hrest
  exact ⟨acts, _, p, p', hrun, hsignal, hrest, hexit, hlength, haccepted⟩

/-- **What became of every datagram.** Once the process has exited, its last step was the queue's
destruction: the slots it destroyed held, in order, the packets that were accepted and not dispatched.
All accepted packets have their own bytes; every full datagram was dispatched, destroyed or dropped,
except at most one whose handler never ran; and the queue has no element left. -/
theorem exit_accounting {k : Nat} {buffer : PacketPayload} {acts : List Process.Act} {p : Process}
    (h : Run (Process.Step (2 ^ k)) (Process.init buffer) acts p) (hexit : p.mainPc = .exited) :
    ∃ (before : List Process.Act) (p₀ : Process) (settled unhandled : List (List UInt8))
      (held : List PacketPayload) (idxs : List Nat),
      acts = before ++ [.exit idxs] ∧
      Run (Process.Step (2 ^ k)) (Process.init buffer) before p₀ ∧
      Process.Step (2 ^ k) p₀ (.exit idxs) p ∧
      idxs.map p₀.ingress.queue.ring = held.map .live ∧
      (acts.filterMap Process.Act.ingress?).filterMap Ingress.Act.packet? = settled ++ unhandled ∧
      unhandled.length ≤ 1 ∧
      p.ingress.queue.accepted =
        (acts.filterMap Process.Act.ingress?).filterMap Ingress.Act.dispatched? ++ held ∧
      p.ingress.queue.accepted.map (·.bytes.toList) = Ingress.accepted settled
        ((acts.filterMap Process.Act.ingress?).filterMap Ingress.Act.returned?) ∧
      acts.filterMap Process.Act.destroyed? = [idxs] ∧ idxs.length = held.length ∧
      settled.length = ((acts.filterMap Process.Act.ingress?).filterMap Ingress.Act.dispatched?).length
        + idxs.length + p.ingress.droppedPackets ∧
      ∀ i < 2 ^ k, p.ingress.queue.ring i = .raw := by
  obtain ⟨before, p₀, idxs, rfl, hrun, hs⟩ := Process.exited_last h hexit
  have hinv := Process.run_inv hrun
  have hlast := hs
  cases hs with
  | @exit fuel queue _ hpc hfin hd =>
    obtain ⟨hi, hnone⟩ := hinv.live (by simp [hpc])
    obtain ⟨hoff, hpolling⟩ := hinv.shape.finished hfin
    have hidle := hi.idle (hinv.shape.handler hoff) hpolling
    obtain ⟨hslots, hraw, hacc⟩ := (hi.queue.leftover hidle).destructed hidle hd
    obtain ⟨hq, hset, hcons⟩ := hi
    obtain ⟨settled, hpackets, hreturned, hbytes⟩ := hset.settled
    obtain ⟨held, hfifo, hring⟩ := hq.linearized.fifo
    have hhand : p₀.ingress.queue.inHand = [] := by simp only [SPSCQueue.inHand, hidle.2]
    have hfly : p₀.ingress.inFlight = [] := by simp only [Ingress.inFlight, hpolling]
    have hpop := hcons.popped
    rw [hfly, List.append_nil] at hpop
    rw [hhand, List.append_nil, hpop] at hfifo
    have hheld : idxs.map p₀.ingress.queue.ring = held.map .live := hslots.trans hring
    have hlen : idxs.length = held.length := by
      have := congrArg List.length hheld
      rwa [List.length_map, List.length_map] at this
    have hacts : (before ++ [Process.Act.exit idxs]).filterMap Process.Act.ingress? =
        before.filterMap Process.Act.ingress? := filterMap_snoc_none rfl _
    refine ⟨before, p₀, settled, p₀.ingress.pending, held, idxs, rfl, hrun, hlast, hheld, ?_, ?_, ?_, ?_,
      ?_, hlen, ?_, hraw⟩
    · rw [hacts, hpackets]
    · unfold Ingress.pending
      split
      · exact Nat.zero_le _
      · split_ifs <;> simp
      · exact Nat.le_refl 1
    · rw [hacts]
      exact hacc.trans hfifo
    · rw [hacts]
      exact (congrArg (List.map _) hacc).trans hbytes
    · rw [filterMap_snoc, hnone]
      rfl
    · have hcount := Ingress.length_accepted hreturned
      rw [← hbytes, List.length_map, hset.dropped, hfifo, List.length_append, ← hlen] at hcount
      rw [hacts]
      exact hcount

/-- Slots 1 and 2 of the ring held the two packets that are destroyed with it. -/
theorem exit_accounting_run : ∃ (before : List Process.Act) (p₀ p : Process)
    (held : List PacketPayload),
    Run (Process.Step (2 ^ 2)) (Process.init ⟨0, Vector.replicate 56 255⟩)
        (before ++ [.exit [1, 2]]) p ∧
      Process.Step (2 ^ 2) p₀ (.exit [1, 2]) p ∧
      [1, 2].map p₀.ingress.queue.ring = held.map .live ∧
      held.map (·.bytes.toList) = [List.replicate 56 2, List.replicate 56 3] := by
  obtain ⟨acts, p, p', hrun, -, hrest, hexit, hbytes, hone⟩ := Process.run_left
  have hall := hrun.append hrest
  obtain ⟨before, p₀, settled, unhandled, held, idxs, hacts, -, hstep, hslots, -, -, haccepted, -⟩ :=
    exit_accounting hall hexit
  have hlast : (acts ++ [.leave]) ++ [Process.Act.exit [1, 2]] = before ++ [.exit idxs] := by
    rw [← hacts, List.append_assoc]
    rfl
  obtain ⟨-, he⟩ := List.append_inj' hlast rfl
  obtain rfl : [1, 2] = idxs := Process.Act.exit.inj (List.cons.inj he).1
  refine ⟨before, p₀, p', held, hacts ▸ hall, hstep, hslots, ?_⟩
  rw [List.filterMap_append, List.filterMap_append] at haccepted
  rw [haccepted, List.map_append] at hbytes
  have hsplit : _ ++ held.map (·.bytes.toList) =
    [List.replicate 56 1] ++ [List.replicate 56 2, List.replicate 56 3] := hbytes
  exact (List.append_inj hsplit (by rw [List.length_map, List.length_append, hone]; rfl)).2

end MarketHandler
