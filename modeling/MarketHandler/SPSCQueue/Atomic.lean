import MarketHandler.Lib.AtomicObject
import MarketHandler.SPSCQueue.Invariant

/-!
# The queue is an atomic object

Calls of `push` and `pop` overlap. What the two callers see of them, the invocations and what is
returned, is what they would see of a bounded FIFO (`fifo`) on which every call takes effect at one
moment: a push or pop that succeeds when it stores its cursor, one that fails when it loads the other
side's.

* `pushStep_effect`, `popStep_effect`: all that a thread's step can do to the values held and its call.
* `Threads.Step.atomic`: one step of a thread is matched by at most an effect and an event.
* `atomic_fifo`: **every history of calls and returns is one of the atomic bounded FIFO**.
-/

namespace MarketHandler

open Lib

/-- The two callers. -/
inductive Party where
  | producer
  | consumer
  deriving DecidableEq, Repr

/-- The calls. -/
inductive Request (T : Type) where
  | push (value : T)
  | pop

/-- What they return: whether the push succeeded, the value popped if any. -/
inductive Reply (T : Type) where
  | pushed (ok : Bool)
  | popped (value : Option T)

/-- A bounded FIFO. -/
def fifo {T : Type} (capacity : Nat) : SeqObject (List T) (Request T) (Reply T) where
  init := []
  apply
    | l, .push value => if l.length < capacity then (l ++ [value], .pushed true) else (l, .pushed false)
    | [], .pop => ([], .popped none)
    | value :: l, .pop => (l, .popped (some value))

namespace Act

variable {T : Type}

/-- What a caller sees of an action. -/
def event? : Act T → Option (Event Party (Request T) (Reply T))
  | .callPush value => some (.call .producer (.push value))
  | .push _ returned => returned.map fun ok => .ret .producer (.pushed ok)
  | .callPop => some (.call .consumer .pop)
  | .pop returned => returned.map fun value => .ret .consumer (.popped value)

end Act

section

variable {T : Type} {c k : Nat} {q q' : SPSCQueue T} {value : T} {s s' : Threads T} {a : Act T}
  {t : Shared Party (List T) (Request T) (Reply T)}

/-- How far `push(value)` is: a push that has found the ring full has failed. -/
def PushPc.phase (c : Nat) (value : T) : PushPc T → Phase (Request T) (Reply T)
  | .idle => .idle
  | .update pushCursor popCursor _ =>
    if SPSCQueue.full c pushCursor popCursor then .done (.pushed false) else .called (.push value)
  | _ => .called (.push value)

/-- How far `pop` is: a pop that has found the ring empty has failed. -/
def PopPc.phase : PopPc T → Phase (Request T) (Reply T)
  | .idle => .idle
  | .update popCursor pushCursor _ =>
    if SPSCQueue.empty pushCursor popCursor then .done (.popped none) else .called .pop
  | _ => .called .pop

/-- The published values that are not popped. -/
def SPSCQueue.held (q : SPSCQueue T) : List T := q.accepted.drop q.popCursor

/-- The atomic object holds the published values that are not popped, and its calls are as far as the
threads'. -/
structure Atomic (c : Nat) (s : Threads T)
    (t : Shared Party (List T) (Request T) (Reply T)) : Prop where
  state : t.state = s.queue.held
  producer : t.phase .producer = s.value.elim .idle (s.queue.pushPc.phase c)
  consumer : t.phase .consumer = s.queue.popPc.phase

/-! ## The effects of the threads' steps -/

/-- All that a step of `push(value)` can do to the values held and to its call. -/
inductive PushEffect (c : Nat) (value : T) (q q' : SPSCQueue T) : Option Bool → Prop
  | silent : q'.held = q.held → q'.pushPc.phase c value = q.pushPc.phase c value →
      PushEffect c value q q' none
  | refused : q'.held = q.held → c ≤ q.held.length →
      q.pushPc.phase c value = .called (.push value) →
      q'.pushPc.phase c value = .done (.pushed false) → PushEffect c value q q' none
  | failed : q'.held = q.held → q.pushPc.phase c value = .done (.pushed false) →
      q'.pushPc.phase c value = .idle → PushEffect c value q q' (some false)
  | published : q'.held = q.held ++ [value] → q.held.length < c →
      q.pushPc.phase c value = .called (.push value) → q'.pushPc.phase c value = .idle →
      PushEffect c value q q' (some true)

/-- All that a step of `pop` can do. -/
inductive PopEffect (q q' : SPSCQueue T) : Option (Option T) → Prop
  | silent : q'.held = q.held → q'.popPc.phase = q.popPc.phase → PopEffect q q' none
  | refused : q'.held = q.held → q.held = [] → q.popPc.phase = .called .pop →
      q'.popPc.phase = .done (.popped none) → PopEffect q q' none
  | failed : q'.held = q.held → q.popPc.phase = .done (.popped none) → q'.popPc.phase = .idle →
      PopEffect q q' (some none)
  | taken (value : T) : q.held = value :: q'.held → q.popPc.phase = .called .pop →
      q'.popPc.phase = .idle → PopEffect q q' (some (some value))

theorem SPSCQueue.Inv.length_held (h : q.Inv c) : q.held.length = q.pushCursor - q.popCursor := by
  rw [held, List.length_drop, h.length_eq]

theorem pushStep_effect (hinv : q.Inv (2 ^ k)) (hidle : q.pushPc ≠ .idle) (hholds : q.Holds value)
    {r : Option Bool} (hrun : q.pushStep (2 ^ k) value = .ok (q', r)) :
    PushEffect (2 ^ k) value q q' r := by
  have hlen := hinv.length_held
  have hpush := hinv.pushOk
  unfold SPSCQueue.PushOk at hpush
  unfold SPSCQueue.pushStep at hrun
  cases hpc : q.pushPc with
  | idle => exact absurd hpc hidle
  | loadPush =>
    simp only [hpc] at hrun
    rw [if_neg (Nat.ne_of_gt (Nat.two_pow_pos k))] at hrun
    split_ifs at hrun <;> obtain ⟨rfl, rfl⟩ := Prod.mk.inj (Except.ok.inj hrun)
    all_goals exact .silent rfl (by rw [hpc]; rfl)
  | loadPop p =>
    simp only [hpc] at hrun hpush
    obtain ⟨rfl, rfl⟩ := Prod.mk.inj (Except.ok.inj hrun)
    subst hpush
    by_cases hfull : SPSCQueue.full (2 ^ k) q.pushCursor q.popCursor = true
    -- a push that finds the ring full takes effect here
    · have hle : 2 ^ k ≤ q.held.length := by
        rw [hlen]
        simpa only [SPSCQueue.full, decide_eq_true_eq] using hfull
      exact .refused rfl hle (by rw [hpc]; rfl) (if_pos hfull)
    · exact .silent rfl (by rw [hpc]; exact if_neg hfull)
  | update p r held =>
    simp only [hpc] at hrun
    split_ifs at hrun with hfull <;> obtain ⟨rfl, rfl⟩ := Prod.mk.inj (Except.ok.inj hrun)
    · exact .failed rfl (by rw [hpc]; exact if_pos hfull) rfl
    · exact .silent rfl (by rw [hpc]; exact (if_neg hfull).symm)
  | construct p =>
    simp only [hpc] at hrun
    obtain ⟨cell, -, hcell⟩ := bind_eq_ok.mp hrun
    cases cell with
    | raw =>
      obtain ⟨rfl, rfl⟩ := Prod.mk.inj (Except.ok.inj hcell)
      exact .silent rfl (by rw [hpc]; rfl)
    | live w => cases hcell
    | moved => cases hcell
  | store p w =>
    simp only [hpc] at hrun hpush
    obtain ⟨rfl, rfl⟩ := Prod.mk.inj (Except.ok.inj hrun)
    obtain rfl := hholds p w hpc
    have hlt : q.held.length < 2 ^ k := by
      have := hinv.popCached_le
      have := Nat.two_pow_pos k
      rw [hlen]
      omega
    have hdrop : (q.accepted ++ [w]).drop q.popCursor = q.held ++ [w] :=
      List.drop_append_of_le_length (hinv.length_eq.symm ▸ hinv.pop_le.trans hinv.pushCached_le)
    exact .published hdrop hlt (by rw [hpc]; rfl) rfl

theorem popStep_effect (hinv : q.Inv (2 ^ k)) (hidle : q.popPc ≠ .idle) {r : Option (Option T)}
    (hrun : q.popStep (2 ^ k) = .ok (q', r)) : PopEffect q q' r := by
  have hpop := hinv.popOk
  unfold SPSCQueue.PopOk at hpop
  unfold SPSCQueue.popStep at hrun
  cases hpc : q.popPc with
  | idle => exact absurd hpc hidle
  | loadPop =>
    simp only [hpc] at hrun
    split_ifs at hrun <;> obtain ⟨rfl, rfl⟩ := Prod.mk.inj (Except.ok.inj hrun)
    all_goals exact .silent rfl (by rw [hpc]; rfl)
  | loadPush p =>
    simp only [hpc] at hrun hpop
    obtain ⟨rfl, rfl⟩ := Prod.mk.inj (Except.ok.inj hrun)
    subst hpop
    by_cases hempty : SPSCQueue.empty q.pushCursor q.popCursor = true
    -- a pop that finds the ring empty takes effect here
    · have hnil : q.held = [] := by
        have he : q.pushCursor = q.popCursor := by
          simpa only [SPSCQueue.empty, decide_eq_true_eq] using hempty
        exact List.drop_of_length_le (by rw [hinv.length_eq, he])
      exact .refused rfl hnil (by rw [hpc]; rfl) (if_pos hempty)
    · exact .silent rfl (by rw [hpc]; exact if_neg hempty)
  | update p r held =>
    simp only [hpc] at hrun
    split_ifs at hrun with hempty <;> obtain ⟨rfl, rfl⟩ := Prod.mk.inj (Except.ok.inj hrun)
    · exact .failed rfl (by rw [hpc]; exact if_pos hempty) rfl
    · exact .silent rfl (by rw [hpc]; exact (if_neg hempty).symm)
  | move p =>
    simp only [hpc] at hrun
    obtain ⟨cell, -, hcell⟩ := bind_eq_ok.mp hrun
    cases cell with
    | live w =>
      obtain ⟨rfl, rfl⟩ := Prod.mk.inj (Except.ok.inj hcell)
      exact .silent rfl (by rw [hpc]; rfl)
    | raw => cases hcell
    | moved => cases hcell
  | destroy p w =>
    simp only [hpc] at hrun
    obtain ⟨cell, -, hcell⟩ := bind_eq_ok.mp hrun
    cases cell with
    | raw => cases hcell
    | live v =>
      obtain ⟨rfl, rfl⟩ := Prod.mk.inj (Except.ok.inj hcell)
      exact .silent rfl (by rw [hpc]; rfl)
    | moved =>
      obtain ⟨rfl, rfl⟩ := Prod.mk.inj (Except.ok.inj hcell)
      exact .silent rfl (by rw [hpc]; rfl)
  | store p w =>
    simp only [hpc] at hrun hpop
    obtain ⟨rfl, rfl⟩ := Prod.mk.inj (Except.ok.inj hrun)
    obtain ⟨rfl, -, hw⟩ := hpop
    have hcons : q.held = w :: q.accepted.drop (q.popCursor + 1) := by
      obtain ⟨hlt, hget⟩ := List.getElem?_eq_some_iff.mp hw
      rw [SPSCQueue.held, List.drop_eq_getElem_cons hlt, hget]
    exact .taken w hcons (by rw [hpc]; rfl) rfl

/-! ## The atomic object follows -/

theorem fifo_push {l : List T} (h : l.length < c) :
    (fifo c).apply l (.push value) = (l ++ [value], .pushed true) :=
  if_pos h

theorem fifo_push_full {l : List T} (h : c ≤ l.length) :
    (fifo c).apply l (.push value) = (l, .pushed false) :=
  if_neg (Nat.not_lt_of_le h)

/-- The atomic object can follow a step in which `party` sees `e`, with `l` for its values and the
party's call as far as `phase`. -/
abbrev Follows (c : Nat) (t : Shared Party (List T) (Request T) (Reply T)) (party : Party)
    (e : Option (Event Party (Request T) (Reply T))) (l : List T)
    (phase : Phase (Request T) (Reply T)) : Prop :=
  ∃ bs, Run (fifo c).Step t bs (t.move l party phase) ∧
    bs.filterMap AtomicAct.event? = e.toList

theorem PushEffect.follows {r : Option Bool} (h : PushEffect c value q q' r)
    (hstate : t.state = q.held) (hphase : t.phase .producer = q.pushPc.phase c value) :
    Follows c t .producer (Act.push value r).event? q'.held (q'.pushPc.phase c value) := by
  cases h with
  | silent hheld hsame =>
    rw [hheld, hsame, ← hstate, ← hphase]
    exact ⟨[], by rw [t.move_self .producer rfl]; exact .nil, rfl⟩
  | refused hheld hfull hcalled hdone =>
    rw [hheld, hdone, ← hstate]
    exact ⟨_, .cons (.effect _ (hphase.trans hcalled) (fifo_push_full (hstate ▸ hfull))) .nil, rfl⟩
  | failed hheld hdone hidle =>
    rw [hheld, hidle, ← hstate]
    exact ⟨_, .cons (.ret _ (hphase.trans hdone)) .nil, rfl⟩
  | published hheld hlt hcalled hidle =>
    rw [hheld, hidle, ← hstate]
    exact ⟨_, SeqObject.run_effect_ret (hphase.trans hcalled) (fifo_push (hstate ▸ hlt)), rfl⟩

theorem PopEffect.follows {r : Option (Option T)} (h : PopEffect q q' r)
    (hstate : t.state = q.held) (hphase : t.phase .consumer = q.popPc.phase) :
    Follows c t .consumer (Act.pop r).event? q'.held q'.popPc.phase := by
  cases h with
  | silent hheld hsame =>
    rw [hheld, hsame, ← hstate, ← hphase]
    exact ⟨[], by rw [t.move_self .consumer rfl]; exact .nil, rfl⟩
  | refused hheld hnil hcalled hdone =>
    have happly : (fifo c).apply t.state .pop = (t.state, .popped none) := by
      rw [hstate, hnil]
      rfl
    rw [hheld, hdone, ← hstate]
    exact ⟨_, .cons (.effect _ (hphase.trans hcalled) happly) .nil, rfl⟩
  | failed hheld hdone hidle =>
    rw [hheld, hidle, ← hstate]
    exact ⟨_, .cons (.ret _ (hphase.trans hdone)) .nil, rfl⟩
  | taken value hcons hcalled hidle =>
    have happly : (fifo c).apply t.state .pop = (q'.held, .popped (some value)) := by
      rw [hstate, hcons]
      rfl
    rw [hidle]
    exact ⟨_, SeqObject.run_effect_ret (hphase.trans hcalled) happly, rfl⟩

/-! ## Runs -/

theorem Atomic.producer_move {l : List T} {phase : Phase (Request T) (Reply T)}
    (hstate : l = s.queue.held)
    (hproducer : phase = s.value.elim .idle (s.queue.pushPc.phase c))
    (hconsumer : t.phase .consumer = s.queue.popPc.phase) : Atomic c s (t.move l .producer phase) :=
  ⟨hstate, (t.move_phase l _ phase).trans hproducer,
    (t.move_phase_of_ne l .producer phase (by decide)).trans hconsumer⟩

theorem Atomic.consumer_move {l : List T} {phase : Phase (Request T) (Reply T)}
    (hstate : l = s.queue.held)
    (hproducer : t.phase .producer = s.value.elim .idle (s.queue.pushPc.phase c))
    (hconsumer : phase = s.queue.popPc.phase) : Atomic c s (t.move l .consumer phase) :=
  ⟨hstate, (t.move_phase_of_ne l .consumer phase (by decide)).trans hproducer,
    (t.move_phase l _ phase).trans hconsumer⟩

theorem Threads.Step.atomic (hinv : s.queue.Inv (2 ^ k))
    (hholds : ∀ value ∈ s.value, s.queue.Holds value) (h : Atomic (2 ^ k) s t)
    (hstep : Threads.Step (2 ^ k) s a s') : ∃ bs t', Run (fifo (2 ^ k)).Step t bs t' ∧
      bs.filterMap AtomicAct.event? = a.event?.toList ∧ Atomic (2 ^ k) s' t' := by
  obtain ⟨hstate, hproducer, hconsumer⟩ := h
  cases hstep with
  | @callPush q old value hidle =>
    have hphase : t.phase .producer = .idle := by
      rw [hproducer]
      cases old with
      | none => rfl
      | some w => simp only [Option.elim_some, hidle, PushPc.phase]
    exact ⟨_, _, .cons (.call .producer (.push value) hphase) .nil, rfl,
      Atomic.producer_move (s := ⟨q.callPush, some value⟩) hstate rfl hconsumer⟩
  | @push q q' value r hidle hrun =>
    have hp := SPSCQueue.pushStep_pushed hidle (hholds _ rfl) hrun
    obtain ⟨bs, hbs, he⟩ :=
      (pushStep_effect hinv hidle (hholds _ rfl) hrun).follows hstate hproducer
    refine ⟨bs, _, hbs, he, .producer_move rfl rfl ?_⟩
    rw [hp.popPc]
    exact hconsumer
  | @callPop q value hidle =>
    have hphase : t.phase .consumer = .idle := by
      rw [hconsumer]
      simp only [hidle, PopPc.phase]
    exact ⟨_, _, .cons (.call .consumer .pop hphase) .nil, rfl,
      Atomic.consumer_move (s := ⟨q.callPop, value⟩) hstate hproducer rfl⟩
  | @pop q q' value r hidle hrun =>
    have hp := SPSCQueue.popStep_popped hidle hrun
    obtain ⟨bs, hbs, he⟩ := (popStep_effect hinv hidle hrun).follows hstate hconsumer
    refine ⟨bs, _, hbs, he, .consumer_move rfl ?_ rfl⟩
    rw [hp.pushPc]
    exact hproducer

end

/-- **The queue is an atomic bounded FIFO**: for every interleaving of the two threads there are
moments between invocation and return at which its calls, made one after the other on a bounded FIFO,
return what they have returned. -/
theorem atomic_fifo {T : Type} {k : Nat} {acts : List (Act T)} {s : Threads T}
    (h : Run (Threads.Step (2 ^ k)) Threads.init acts s) :
    (fifo (2 ^ k)).Linearizable (acts.filterMap Act.event?) := by
  refine SeqObject.linearizable_of_simulation (R := fun s t => s.queue.Inv (2 ^ k) ∧
    (∀ value ∈ s.value, s.queue.Holds value) ∧ Atomic (2 ^ k) s t) h
    ⟨SPSCQueue.inv_init _, nofun, rfl, rfl, rfl⟩ ?_
  rintro s t a s' ⟨hinv, hholds, hatomic⟩ hs
  obtain ⟨bs, t', hbs, he, hatomic'⟩ := hs.atomic hinv hholds hatomic
  exact ⟨bs, t', hbs, he, hs.inv hinv, hs.holds hholds, hatomic'⟩

/-- A pop that starts before the push it overlaps is published, and fails after it has returned. -/
theorem atomic_fifo_run : ∃ acts : List (Act Nat), acts.filterMap Act.event? =
      [.call .consumer .pop, .call .producer (.push 7), .ret .producer (.pushed true),
        .ret .consumer (.popped none)] ∧
    (fifo (2 ^ 0)).Linearizable (acts.filterMap Act.event?) := by
  have hrun : ∃ s : Threads Nat, Run (Threads.Step (2 ^ 0)) Threads.init
      [.callPop, .pop none, .pop none, .callPush 7, .push 7 none, .push 7 none, .push 7 (some true),
        .pop (some none)] s :=
    ⟨_, .cons (.callPop rfl) <| .cons (.pop nofun rfl) <| .cons (.pop nofun rfl) <|
      .cons (.callPush 7 rfl) <| .cons (.push nofun rfl) <| .cons (.push nofun rfl) <|
      .cons (.push nofun rfl) <| .cons (.pop nofun rfl) <| .nil⟩
  obtain ⟨s, hs⟩ := hrun
  exact ⟨_, rfl, atomic_fifo hs⟩

end MarketHandler
