import MarketHandler.SPSCQueue.Weak

/-!
# The queue's memory orders suffice and are needed

* `Inv`: the queue at the last stores is a state the invariant of `SPSCQueue` describes, every store
  carries what it promises, and the threads have seen what their cached cursors say.
* `Inv.pushStep_spec`, `Inv.popStep_spec`: whatever store its load reads, a thread's next step is neither
  a race nor a fault and keeps the invariant.
* `release_acquire`: **the queue is a race-free bounded FIFO in every run of the two threads**.
* `orders_needed`: **and with no weaker orders**.
-/

namespace MarketHandler

open Lib

/-! ## The invariant -/

/-- How many accesses of its round the slot at the push cursor has had. -/
def PushPc.stage {T : Type} : PushPc T → Nat
  | .store _ _ => 1
  | _ => 0

/-- How many the consumer's slot has had, if its element is published. -/
def PopPc.stage {T : Type} : PopPc T → Nat
  | .destroy _ _ => 2
  | .store _ _ => 3
  | _ => 1

/-- How many accesses of its round the slot of position `j` has had. -/
def stage (pushCursor popCursor pushStage popStage j : Nat) : Nat :=
  if j < pushCursor then if j = popCursor then popStage else 1
  else if j = pushCursor then pushStage else 0

section

variable {pushCursor popCursor pushStage popStage j : Nat}

theorem stage_of_lt (h : j < pushCursor) : stage pushCursor popCursor pushStage popStage j =
    if j = popCursor then popStage else 1 :=
  if_pos h

theorem stage_push : stage pushCursor popCursor pushStage popStage pushCursor = pushStage :=
  (if_neg (lt_irrefl _)).trans (if_pos rfl)

theorem stage_of_gt (h : pushCursor < j) : stage pushCursor popCursor pushStage popStage j = 0 :=
  (if_neg (Nat.lt_asymm h)).trans (if_neg (Nat.ne_of_gt h))

/-- The producer's slot is its own. -/
theorem stage_congr_push (pushStage' : Nat) (h : j ≠ pushCursor) :
    stage pushCursor popCursor pushStage popStage j =
      stage pushCursor popCursor pushStage' popStage j := by
  unfold stage
  rw [if_neg h, if_neg h]

/-- The consumer's slot is its own. -/
theorem stage_congr_pop (popStage' : Nat) (h : j ≠ popCursor) :
    stage pushCursor popCursor pushStage popStage j =
      stage pushCursor popCursor pushStage popStage' j := by
  unfold stage
  rw [if_neg h, if_neg h]

end

namespace WeakQueue

variable {T : Type} {c k : Nat} {q q' : WeakQueue T}

/-- The queue as its last stores have left it. -/
def newest (q : WeakQueue T) : SPSCQueue T where
  ring := q.ring
  pushCursor := q.memory.last .push
  popCursor := q.memory.last .pop
  pushCursorCached := q.pushCursorCached
  popCursorCached := q.popCursorCached
  pushPc := q.pushPc
  popPc := q.popPc
  accepted := q.accepted
  popped := q.popped
  rejected := []
  starved := []

/-- What the producer has seen at each point of `push`. -/
def PushSees (c : Nat) (view : View Cursor Nat) : PushPc T → Prop
  | .update _ popCursor _ => popCursor ≤ view (.inl .pop) ∧ Knows c view popCursor 3
  | .store pushCursor _ => 3 * (pushCursor / c) + 1 ≤ view (.inr (pushCursor % c))
  | _ => True

/-- What the consumer has seen at each point of `pop`. -/
def PopSees (c : Nat) (view : View Cursor Nat) : PopPc T → Prop
  | .update _ pushCursor _ => pushCursor ≤ view (.inl .push) ∧ Knows c view pushCursor 1
  | .destroy popCursor _ => 3 * (popCursor / c) + 2 ≤ view (.inr (popCursor % c))
  | .store popCursor _ => 3 * (popCursor / c) + 3 ≤ view (.inr (popCursor % c))
  | _ => True

structure ProducerSees (c : Nat) (q : WeakQueue T) : Prop where
  le_top : q.producer ≤ q.memory.top
  own : q.memory.last .push ≤ q.producer (.inl .push)
  cached : q.popCursorCached ≤ q.producer (.inl .pop)
  constructed : Knows c q.producer (q.memory.last .push) 1
  destroyed : Knows c q.producer q.popCursorCached 3
  pc : PushSees c q.producer q.pushPc

structure ConsumerSees (c : Nat) (q : WeakQueue T) : Prop where
  le_top : q.consumer ≤ q.memory.top
  own : q.memory.last .pop ≤ q.consumer (.inl .pop)
  cached : q.pushCursorCached ≤ q.consumer (.inl .push)
  constructed : Knows c q.consumer q.pushCursorCached 1
  destroyed : Knows c q.consumer (q.memory.last .pop) 3
  pc : PopSees c q.consumer q.popPc

structure Inv (c : Nat) (q : WeakQueue T) : Prop where
  sequential : q.newest.Inv c
  keeps : q.memory.Keeps (promise c)
  accesses_eq : ∀ j, q.memory.last .pop ≤ j → j < q.memory.last .pop + c →
    q.memory.accesses (j % c) = 3 * (j / c) +
      stage (q.memory.last .push) (q.memory.last .pop) q.pushPc.stage q.popPc.stage j
  producer : q.ProducerSees c
  consumer : q.ConsumerSees c

theorem inv_init (c : Nat) : (init : WeakQueue T).Inv c where
  sequential := { SPSCQueue.inv_init c with rejected_eq := nofun, starved_eq := nofun }
  keeps := .init fun a => by cases a <;> exact ⟨rfl, nofun⟩
  accesses_eq j _ hj := by
    have hstage : stage 0 0 0 1 j = 0 := by
      rw [stage, if_neg (Nat.not_lt_zero j), ite_self]
    have hlt : j < c := (Nat.zero_add c) ▸ hj
    show 0 = _ + stage 0 0 0 1 j
    rw [hstage, Nat.div_eq_of_lt hlt]
  producer := ⟨fun _ => Nat.zero_le _, Nat.zero_le _, Nat.zero_le _, nofun, nofun, trivial⟩
  consumer := ⟨fun _ => Nat.zero_le _, Nat.zero_le _, Nat.zero_le _, nofun, nofun, trivial⟩

theorem Inv.cursors (h : q.Inv c) : q.popCursorCached ≤ q.memory.last .pop ∧
    q.memory.last .pop ≤ q.pushCursorCached ∧ q.pushCursorCached ≤ q.memory.last .push ∧
      q.memory.last .push ≤ q.popCursorCached + c :=
  ⟨h.sequential.popCached_le, h.sequential.pop_le, h.sequential.pushCached_le, h.sequential.push_le⟩

theorem Inv.pushOk_loadPop (h : q.Inv c) {p : Nat} (hpc : q.pushPc = .loadPop p) :
    p = q.memory.last .push := by
  have hpush := h.sequential.pushOk
  have hpc : q.newest.pushPc = .loadPop p := hpc
  simp only [SPSCQueue.PushOk, hpc] at hpush
  exact hpush

theorem Inv.pushOk_update (h : q.Inv c) {p r held : Nat} (hpc : q.pushPc = .update p r held) :
    p = q.memory.last .push ∧ q.popCursorCached ≤ r ∧ r ≤ q.memory.last .pop ∧ held = p - r := by
  have hpush := h.sequential.pushOk
  have hpc : q.newest.pushPc = .update p r held := hpc
  simp only [SPSCQueue.PushOk, hpc] at hpush
  exact hpush

theorem Inv.pushOk_construct (h : q.Inv c) {p : Nat} (hpc : q.pushPc = .construct p) :
    p = q.memory.last .push := by
  have hpush := h.sequential.pushOk
  have hpc : q.newest.pushPc = .construct p := hpc
  simp only [SPSCQueue.PushOk, hpc] at hpush
  exact hpush.1

theorem Inv.pushOk_store (h : q.Inv c) {p : Nat} {value : T} (hpc : q.pushPc = .store p value) :
    p = q.memory.last .push ∧ q.memory.last .push < q.popCursorCached + c := by
  have hpush := h.sequential.pushOk
  have hpc : q.newest.pushPc = .store p value := hpc
  simp only [SPSCQueue.PushOk, hpc] at hpush
  exact hpush

theorem Inv.popOk_loadPush (h : q.Inv c) {p : Nat} (hpc : q.popPc = .loadPush p) :
    p = q.memory.last .pop := by
  have hpop := h.sequential.popOk
  have hpc : q.newest.popPc = .loadPush p := hpc
  simp only [SPSCQueue.PopOk, hpc] at hpop
  exact hpop

theorem Inv.popOk_update (h : q.Inv c) {p r held : Nat} (hpc : q.popPc = .update p r held) :
    p = q.memory.last .pop ∧ q.pushCursorCached ≤ r ∧ r ≤ q.memory.last .push ∧ held = r - p := by
  have hpop := h.sequential.popOk
  have hpc : q.newest.popPc = .update p r held := hpc
  simp only [SPSCQueue.PopOk, hpc] at hpop
  exact hpop

theorem Inv.popOk_move (h : q.Inv c) {p : Nat} (hpc : q.popPc = .move p) :
    p = q.memory.last .pop ∧ q.memory.last .pop < q.pushCursorCached := by
  have hpop := h.sequential.popOk
  have hpc : q.newest.popPc = .move p := hpc
  simp only [SPSCQueue.PopOk, hpc] at hpop
  exact hpop

theorem Inv.popOk_destroy (h : q.Inv c) {p : Nat} {value : T} (hpc : q.popPc = .destroy p value) :
    p = q.memory.last .pop ∧ q.memory.last .pop < q.pushCursorCached ∧
      q.accepted[p]? = some value := by
  have hpop := h.sequential.popOk
  have hpc : q.newest.popPc = .destroy p value := hpc
  simp only [SPSCQueue.PopOk, hpc] at hpop
  exact hpop

theorem Inv.popOk_store (h : q.Inv c) {p : Nat} {value : T} (hpc : q.popPc = .store p value) :
    p = q.memory.last .pop ∧ q.memory.last .pop < q.pushCursorCached ∧
      q.accepted[p]? = some value := by
  have hpop := h.sequential.popOk
  have hpc : q.newest.popPc = .store p value := hpc
  simp only [SPSCQueue.PopOk, hpc] at hpop
  exact hpop

/-- An own cursor is read at its last store. -/
theorem Inv.load_push (h : q.Inv c) (skip : Nat) :
    (q.memory.load .relaxed q.producer .push skip).1 = q.memory.last .push := by
  have hread : q.memory.read q.producer .push skip = q.memory.last .push :=
    Memory.read_eq_last (le_antisymm (h.producer.le_top (.inl .push)) h.producer.own) skip
  rw [Memory.load_value, hread]
  exact (h.keeps.promised .push _ (le_refl _)).1

theorem Inv.load_pop (h : q.Inv c) (skip : Nat) :
    (q.memory.load .relaxed q.consumer .pop skip).1 = q.memory.last .pop := by
  have hread : q.memory.read q.consumer .pop skip = q.memory.last .pop :=
    Memory.read_eq_last (le_antisymm (h.consumer.le_top (.inl .pop)) h.consumer.own) skip
  rw [Memory.load_value, hread]
  exact (h.keeps.promised .pop _ (le_refl _)).1

/-! ## The producer's steps -/

/-- A step that moves only the producer's program counter and what it knows. -/
theorem Inv.pushLocal (h : q.Inv c) {view : View Cursor Nat} {pc : PushPc T} {cached : Nat}
    (hle : q.producer ≤ view) (htop : view ≤ q.memory.top)
    (hback : SPSCQueue.back pc = SPSCQueue.back q.pushPc) (hstage : pc.stage = q.pushPc.stage)
    (hold : q.popCursorCached ≤ cached) (hlast : cached ≤ q.memory.last .pop)
    (hok : SPSCQueue.PushOk c { q.newest with pushPc := pc, popCursorCached := cached })
    (hcached : cached ≤ view (.inl .pop))
    (hdestroyed : Knows c view cached 3) (hsees : PushSees c view pc) :
    Inv c { q with producer := view, pushPc := pc, popCursorCached := cached } where
  sequential := h.sequential.pushLocal pc hback hold hlast hok (by simp)
  keeps := h.keeps
  accesses_eq j hj hj' := by
    rw [h.accesses_eq j hj hj', ← hstage]
  producer := ⟨htop, h.producer.own.trans (hle _), hcached, h.producer.constructed.mono hle,
    hdestroyed, hsees⟩
  consumer := { h.consumer with }

/-- One that keeps the cached cursor. -/
theorem Inv.pushMove (h : q.Inv c) {view : View Cursor Nat} {pc : PushPc T} (hle : q.producer ≤ view)
    (htop : view ≤ q.memory.top) (hback : SPSCQueue.back pc = SPSCQueue.back q.pushPc)
    (hstage : pc.stage = q.pushPc.stage) (hok : SPSCQueue.PushOk c { q.newest with pushPc := pc })
    (hsees : PushSees c view pc) : Inv c { q with producer := view, pushPc := pc } :=
  h.pushLocal hle htop hback hstage (le_refl _) h.cursors.1 hok (h.producer.cached.trans (hle _))
    (h.producer.destroyed.mono hle) hsees

/-- The producer's slot is known to be destroyed, and is not constructed. -/
theorem Inv.pushSlot (h : q.Inv c) (hc : 0 < c) (hpc : q.pushPc = .construct (q.memory.last .push)) :
    q.memory.last .push < q.popCursorCached + c ∧
      q.memory.accesses (q.memory.last .push % c) = 3 * (q.memory.last .push / c) ∧
      3 * (q.memory.last .push / c) ≤ q.producer (.inr (q.memory.last .push % c)) := by
  obtain ⟨hlt, -⟩ := h.sequential.pushCell hpc
  change q.memory.last .push < q.popCursorCached + c at hlt
  obtain ⟨h1, h2, h3, -⟩ := h.cursors
  refine ⟨hlt, ?_, h.producer.destroyed.free hc hlt⟩
  rw [h.accesses_eq _ (h2.trans h3) (by omega), stage_push, hpc]
  rfl

/-- Constructing the element. -/
theorem Inv.construct (h : q.Inv c) (hc : 0 < c) (value : T)
    (hpc : q.pushPc = .construct (q.memory.last .push)) :
    Inv c { q with
      memory := q.memory.accessed (q.memory.last .push % c)
      producer := q.producer.see (.inr (q.memory.last .push % c))
        (q.memory.accesses (q.memory.last .push % c) + 1)
      ring := Function.update q.ring (q.memory.last .push % c) (.live value)
      pushPc := .store (q.memory.last .push) value } := by
  obtain ⟨hlt, hacc, -⟩ := h.pushSlot hc hpc
  obtain ⟨h1, h2, h3, -⟩ := h.cursors
  have hle := q.producer.le_see (.inr (q.memory.last .push % c))
    (q.memory.accesses (q.memory.last .push % c) + 1)
  refine ⟨h.sequential.construct value hpc, h.keeps.accessed _, fun j hj hj' => ?_, ?_, ?_⟩
  · change q.memory.last .pop ≤ j at hj
    change j < q.memory.last .pop + c at hj'
    show Function.update q.memory.accesses _ _ (j % c) = _
    by_cases he : j = q.memory.last .push
    · subst he
      rw [Function.update_self, hacc]
      exact congrArg (3 * (q.memory.last .push / c) + ·) stage_push.symm
    · have hne : j % c ≠ q.memory.last .push % c := fun hm =>
        he (mod_inj_of_window hj hj' (h2.trans h3) (by omega) hm)
      rw [Function.update_of_ne hne, h.accesses_eq j hj hj']
      exact congrArg (3 * (j / c) + ·) (stage_congr_push 1 he)
  · refine ⟨Memory.accessed_view_le h.producer.le_top _, h.producer.own.trans (hle _),
      h.producer.cached.trans (hle _), h.producer.constructed.mono hle,
      h.producer.destroyed.mono hle, ?_⟩
    show 3 * (q.memory.last .push / c) + 1 ≤ View.see _ _ _ _
    rw [View.see_self, hacc]
    exact Nat.le_max_right _ _
  · exact { h.consumer with
      le_top := h.consumer.le_top.trans (q.memory.top_le_accessed _) }

/-- The consumer stands before its move if nothing is published. -/
theorem Inv.popStage_of_eq (h : q.Inv c) (he : q.memory.last .pop = q.memory.last .push) :
    q.popPc.stage = 1 := by
  obtain ⟨-, -, h3, -⟩ := h.cursors
  cases hpp : q.popPc with
  | destroy p v =>
    obtain ⟨-, hlt, -⟩ := h.popOk_destroy hpp
    omega
  | store p v =>
    obtain ⟨-, hlt, -⟩ := h.popOk_store hpp
    omega
  | _ => rfl

/-- Publishing it. -/
theorem Inv.publish (h : q.Inv c) {value : T} (hpc : q.pushPc = .store (q.memory.last .push) value) :
    Inv c { q with
      memory := (q.memory.store .release q.producer .push (q.memory.last .push + 1)).1
      producer := (q.memory.store .release q.producer .push (q.memory.last .push + 1)).2
      pushPc := .idle
      accepted := q.accepted ++ [value] } := by
  generalize hm : q.memory.store .release q.producer .push (q.memory.last .push + 1) = stored
  have hview : q.producer ≤ stored.2 := hm ▸ View.le_see _ _ _
  have htop : q.memory.top ≤ stored.1.top := hm ▸ Memory.top_le_store _ _ _ _ _
  have hpush : stored.1.last .push = q.memory.last .push + 1 := hm ▸ Memory.store_last ..
  have hpop : stored.1.last .pop = q.memory.last .pop :=
    hm ▸ Memory.store_last_of_ne _ _ _ _ _ (by decide)
  have hsees : 3 * (q.memory.last .push / c) + 1 ≤ q.producer (.inr (q.memory.last .push % c)) := by
    have := h.producer.pc
    rwa [hpc] at this
  have hconstructed : Knows c stored.2 (q.memory.last .push + 1) 1 :=
    (h.producer.constructed.succ hsees).mono hview
  refine ⟨?_, ?_, fun j hj hj' => ?_, ⟨?_, ?_, ?_, ?_, ?_, trivial⟩, ?_⟩
  · have hnew := h.sequential.publish hpc
    show SPSCQueue.Inv c { q.newest with
      pushCursor := stored.1.last .push, popCursor := stored.1.last .pop
      pushPc := .idle, accepted := q.accepted ++ [value] }
    rw [hpush, hpop]
    exact hnew
  · rw [← hm] at hconstructed ⊢
    exact h.keeps.store h.producer.le_top ⟨rfl, hconstructed⟩
  · change stored.1.last .pop ≤ j at hj
    change j < stored.1.last .pop + c at hj'
    show stored.1.accesses (j % c) = _
    rw [hpop] at hj hj'
    have hacc : stored.1.accesses = q.memory.accesses := hm ▸ Memory.store_accesses ..
    rw [hacc, h.accesses_eq j hj hj']
    refine congrArg (3 * (j / c) + ·) ?_
    show _ = stage (stored.1.last .push) (stored.1.last .pop) 0 q.popPc.stage j
    rw [hpush, hpop]
    rcases Nat.lt_trichotomy j (q.memory.last .push) with hlt | rfl | hgt
    · rw [stage_of_lt hlt, stage_of_lt (Nat.lt_succ_of_lt hlt)]
    -- the published slot is the consumer's only if the queue was empty
    · rw [stage_push, hpc, stage_of_lt (Nat.lt_succ_self _)]
      split_ifs with he
      · exact (h.popStage_of_eq he.symm).symm
      · rfl
    · rw [stage_of_gt hgt, stage, if_neg (Nat.not_lt_of_le hgt), ite_self]
  · rw [← hm]
    exact Memory.store_view_le .release h.producer.le_top
  · show stored.1.last .push ≤ stored.2 (.inl .push)
    rw [hpush, ← hm, Memory.store_view, View.see_self]
    exact Nat.le_max_right _ _
  · exact h.producer.cached.trans (hview _)
  · show Knows c stored.2 (stored.1.last .push) 1
    rwa [hpush]
  · exact h.producer.destroyed.mono hview
  · exact { h.consumer with
      le_top := h.consumer.le_top.trans htop
      own := hpop ▸ h.consumer.own
      destroyed := hpop ▸ h.consumer.destroyed }

/-- What a step of `push(value)` that returned `r` has changed. -/
structure Pushed (q : WeakQueue T) (value : T) (r : Option Bool) (q' : WeakQueue T) : Prop where
  accepted : q'.accepted = q.accepted ++ (Act.push value r).accepted?.toList
  holds : q'.newest.Holds value
  popped : q'.popped = q.popped

/-- A step that publishes nothing. -/
theorem Pushed.silent {value : T} {r : Option Bool} {mem : Memory Cursor Nat Nat}
    {view : View Cursor Nat} {pc : PushPc T} {cached : Nat} {ring : Nat → Cell T}
    (hr : r ≠ some true) (hpc : ∀ p w, pc = .store p w → w = value) :
    Pushed q value r { q with
      memory := mem, producer := view, pushPc := pc, popCursorCached := cached, ring := ring } where
  accepted := by
    rcases r with _ | _ | _
    · exact (List.append_nil _).symm
    · exact (List.append_nil _).symm
    · exact absurd rfl hr
  holds := hpc
  popped := rfl

/-- **The producer's next step is no race and no fault, and keeps the invariant.** -/
theorem Inv.pushStep_spec (h : q.Inv (2 ^ k)) (value : T) (skip : Nat) :
    ∃ q' r, q.pushStep .source (2 ^ k) value skip = .ok (q', r) ∧ q'.Inv (2 ^ k) ∧
      (q.newest.Holds value → Pushed q value r q') := by
  have hcap := Nat.two_pow_pos k
  obtain ⟨h1, h2, h3, h4⟩ := h.cursors
  cases hpc : q.pushPc with
  | idle => exact ⟨q, none, by simp only [pushStep, hpc]; rfl, h, fun hholds =>
    ⟨(List.append_nil _).symm, hholds, rfl⟩⟩
  | loadPush =>
    have hle := q.memory.le_load .relaxed q.producer .push skip
    have htop := h.keeps.load_le h.producer.le_top .relaxed .push skip
    by_cases hfull : SPSCQueue.full (2 ^ k) (q.memory.last .push) q.popCursorCached = true
    · refine ⟨{ q with
        producer := (q.memory.load .relaxed q.producer .push skip).2
        pushPc := .loadPop (q.memory.last .push) }, none, ?_, h.pushMove hle htop
          (by rw [hpc]; rfl) (by rw [hpc]; rfl) rfl trivial, fun _ => .silent (by simp) (by simp)⟩
      simp only [pushStep, hpc]
      rw [if_neg (Nat.ne_of_gt hcap), h.load_push, if_pos hfull]
      rfl
    · have hlt : q.memory.last .push < q.popCursorCached + 2 ^ k := by
        have : ¬ 2 ^ k ≤ q.memory.last .push - q.popCursorCached := by
          simpa [SPSCQueue.full] using hfull
        omega
      refine ⟨{ q with
        producer := (q.memory.load .relaxed q.producer .push skip).2
        pushPc := .construct (q.memory.last .push) }, none, ?_, h.pushMove hle htop
          (by rw [hpc]; rfl) (by rw [hpc]; rfl) ⟨rfl, hlt⟩ trivial,
        fun _ => .silent (by simp) (by simp)⟩
      simp only [pushStep, hpc]
      rw [if_neg (Nat.ne_of_gt hcap), h.load_push, if_neg hfull]
      rfl
  | loadPop p =>
    obtain rfl : p = q.memory.last .push := h.pushOk_loadPop hpc
    have hle := q.memory.le_load .acquire q.producer .pop skip
    have htop := h.keeps.load_le h.producer.le_top .acquire .pop skip
    obtain ⟨hvalue, hknows⟩ := h.keeps.load (promise_mono _) q.producer .pop skip
    -- no older store than the cached one is read
    have hcached : q.popCursorCached ≤ (q.memory.load .acquire q.producer .pop skip).1 := by
      rw [hvalue]
      exact h.producer.cached.trans (Memory.le_read h.producer.le_top .pop skip)
    have hlast : (q.memory.load .acquire q.producer .pop skip).1 ≤ q.memory.last .pop :=
      hvalue.trans_le (q.memory.read_le _ _ _)
    have hseen := q.memory.read_le_load .acquire q.producer .pop skip
    rw [← hvalue] at hknows hseen
    refine ⟨{ q with
      producer := (q.memory.load .acquire q.producer .pop skip).2
      pushPc := .update (q.memory.last .push) (q.memory.load .acquire q.producer .pop skip).1 _ },
      none, ?_, h.pushMove hle htop
        (by rw [hpc]; rfl) (by rw [hpc]; rfl) ⟨rfl, hcached, hlast, rfl⟩ ⟨hseen, hknows⟩,
      fun _ => .silent (by simp) (by simp)⟩
    simp only [pushStep, hpc]
    rfl
  | update p r held =>
    obtain ⟨rfl, hle, hle', -⟩ := h.pushOk_update hpc
    obtain ⟨hseen, hknows⟩ : r ≤ q.producer (.inl .pop) ∧ Knows (2 ^ k) q.producer r 3 := by
      have := h.producer.pc
      rwa [hpc] at this
    by_cases hfull : SPSCQueue.full (2 ^ k) (q.memory.last .push) r = true
    · refine ⟨{ q with popCursorCached := r, pushPc := .idle }, some false, ?_,
        h.pushLocal (le_refl _) h.producer.le_top (by rw [hpc]; rfl) (by rw [hpc]; rfl) hle hle'
          trivial hseen hknows trivial, fun _ => .silent (by simp) (by simp)⟩
      simp only [pushStep, hpc]
      exact if_pos hfull
    · have hlt : q.memory.last .push < r + 2 ^ k := by
        have : ¬ 2 ^ k ≤ q.memory.last .push - r := by simpa [SPSCQueue.full] using hfull
        omega
      refine ⟨{ q with popCursorCached := r, pushPc := .construct (q.memory.last .push) }, none, ?_,
        h.pushLocal (le_refl _) h.producer.le_top (by rw [hpc]; rfl) (by rw [hpc]; rfl) hle hle'
          ⟨rfl, hlt⟩ hseen hknows trivial, fun _ => .silent (by simp) (by simp)⟩
      simp only [pushStep, hpc]
      exact if_neg hfull
  | construct p =>
    obtain rfl : p = q.memory.last .push := h.pushOk_construct hpc
    obtain ⟨-, hacc, hfree⟩ := h.pushSlot hcap hpc
    obtain ⟨-, hraw⟩ := h.sequential.pushCell hpc
    change q.ring (q.memory.last .push % 2 ^ k) = .raw at hraw
    refine ⟨_, none, ?_, h.construct hcap value hpc, fun _ => .silent (by simp) fun p w hw => ?_⟩
    · simp only [pushStep, hpc, SPSCQueue.and_indexMask, index_of_lt (Nat.mod_lt _ hcap),
        Memory.access_of_le (hacc.trans_le hfree), Exec.alone_ok, hraw]
      rfl
    · injection hw with _ hw
      exact hw.symm
  | store p v =>
    obtain ⟨rfl, -⟩ := h.pushOk_store hpc
    refine ⟨_, some true, by simp only [pushStep, hpc]; rfl, h.publish hpc, fun hholds => ?_⟩
    obtain rfl := hholds _ _ hpc
    exact ⟨rfl, SPSCQueue.holds_of_idle rfl, rfl⟩

/-! ## The consumer's steps -/

/-- A step that moves only the consumer's program counter and what it knows. -/
theorem Inv.popLocal (h : q.Inv c) {view : View Cursor Nat} {pc : PopPc T} {cached : Nat}
    (hle : q.consumer ≤ view) (htop : view ≤ q.memory.top)
    (hfront : SPSCQueue.front pc = SPSCQueue.front q.popPc) (hstage : pc.stage = q.popPc.stage)
    (hold : q.pushCursorCached ≤ cached) (hlast : cached ≤ q.memory.last .push)
    (hok : SPSCQueue.PopOk { q.newest with popPc := pc, pushCursorCached := cached })
    (hcached : cached ≤ view (.inl .push))
    (hconstructed : Knows c view cached 1) (hsees : PopSees c view pc) :
    Inv c { q with consumer := view, popPc := pc, pushCursorCached := cached } where
  sequential := h.sequential.popLocal pc hfront hold hlast hok (by simp)
  keeps := h.keeps
  accesses_eq j hj hj' := by
    rw [h.accesses_eq j hj hj', ← hstage]
  producer := { h.producer with }
  consumer := ⟨htop, h.consumer.own.trans (hle _), hcached, hconstructed,
    h.consumer.destroyed.mono hle, hsees⟩

/-- One that keeps the cached cursor. -/
theorem Inv.popMove (h : q.Inv c) {view : View Cursor Nat} {pc : PopPc T} (hle : q.consumer ≤ view)
    (htop : view ≤ q.memory.top) (hfront : SPSCQueue.front pc = SPSCQueue.front q.popPc)
    (hstage : pc.stage = q.popPc.stage) (hok : SPSCQueue.PopOk { q.newest with popPc := pc })
    (hsees : PopSees c view pc) : Inv c { q with consumer := view, popPc := pc } :=
  h.popLocal hle htop hfront hstage (le_refl _) h.cursors.2.2.1 hok
    (h.consumer.cached.trans (hle _)) (h.consumer.constructed.mono hle) hsees

/-- The consumer's slot is published, and has had the accesses its program counter says. -/
theorem Inv.popAccesses (h : q.Inv c) (hc : 0 < c) (hlt : q.memory.last .pop < q.pushCursorCached) :
    q.memory.accesses (q.memory.last .pop % c) = 3 * (q.memory.last .pop / c) + q.popPc.stage := by
  obtain ⟨-, -, h3, -⟩ := h.cursors
  rw [h.accesses_eq _ (le_refl _) (by omega), stage_of_lt (by omega), if_pos rfl]

/-- An access of the consumer's slot that leaves it as the next program counter says. -/
theorem Inv.popSlot (h : q.Inv c) (hc : 0 < c) (pc : PopPc T) {value : T}
    (hlt : q.memory.last .pop < q.pushCursorCached)
    (hv : q.accepted[q.memory.last .pop]? = some value)
    (hok : SPSCQueue.PopOk { q.newest with popPc := pc })
    (hstage : pc.stage = q.popPc.stage + 1)
    (hsees : ∀ view : View Cursor Nat, 3 * (q.memory.last .pop / c) + pc.stage ≤
      view (.inr (q.memory.last .pop % c)) → PopSees c view pc) :
    Inv c { q with
      memory := q.memory.accessed (q.memory.last .pop % c)
      consumer := q.consumer.see (.inr (q.memory.last .pop % c))
        (q.memory.accesses (q.memory.last .pop % c) + 1)
      ring := Function.update q.ring (q.memory.last .pop % c) (SPSCQueue.front pc value)
      popPc := pc } := by
  have hacc := h.popAccesses hc hlt
  have hle := q.consumer.le_see (.inr (q.memory.last .pop % c))
    (q.memory.accesses (q.memory.last .pop % c) + 1)
  refine ⟨h.sequential.popSlot pc hv hok, h.keeps.accessed _, fun j hj hj' => ?_, ?_, ?_⟩
  · change q.memory.last .pop ≤ j at hj
    change j < q.memory.last .pop + c at hj'
    show Function.update q.memory.accesses _ _ (j % c) = _
    by_cases he : j = q.memory.last .pop
    · subst he
      obtain ⟨-, -, h3, -⟩ := h.cursors
      have hnew : stage (q.memory.last .push) (q.memory.last .pop) q.pushPc.stage pc.stage
          (q.memory.last .pop) = pc.stage := by
        rw [stage_of_lt (hlt.trans_le h3), if_pos rfl]
      rw [Function.update_self, hacc, Nat.add_assoc, ← hstage]
      exact congrArg (3 * (q.memory.last .pop / c) + ·) hnew.symm
    · have hne : j % c ≠ q.memory.last .pop % c := fun hm =>
        he (mod_inj_of_window hj hj' (le_refl _) (by omega) hm)
      rw [Function.update_of_ne hne, h.accesses_eq j hj hj']
      exact congrArg (3 * (j / c) + ·) (stage_congr_pop pc.stage he)
  · exact { h.producer with
      le_top := h.producer.le_top.trans (q.memory.top_le_accessed _) }
  · refine ⟨Memory.accessed_view_le h.consumer.le_top _, h.consumer.own.trans (hle _),
      h.consumer.cached.trans (hle _), h.consumer.constructed.mono hle,
      h.consumer.destroyed.mono hle, hsees _ ?_⟩
    show _ ≤ View.see _ _ _ _
    rw [View.see_self, hacc, hstage]
    exact Nat.le_max_right _ _

/-- The producer stands before its construction if the ring is full. -/
theorem Inv.pushStage_of_eq (h : q.Inv c) (he : q.memory.last .push = q.memory.last .pop + c) :
    q.pushPc.stage = 0 := by
  obtain ⟨h1, -, -, -⟩ := h.cursors
  cases hpp : q.pushPc with
  | store p v =>
    obtain ⟨-, hlt⟩ := h.pushOk_store hpp
    omega
  | _ => rfl

/-- Releasing the slot. -/
theorem Inv.release (h : q.Inv c) (hc : 0 < c) {value : T}
    (hpc : q.popPc = .store (q.memory.last .pop) value) :
    Inv c { q with
      memory := (q.memory.store .release q.consumer .pop (q.memory.last .pop + 1)).1
      consumer := (q.memory.store .release q.consumer .pop (q.memory.last .pop + 1)).2
      popPc := .idle
      popped := q.popped ++ [value] } := by
  generalize hm : q.memory.store .release q.consumer .pop (q.memory.last .pop + 1) = stored
  obtain ⟨h1, h2, h3, h4⟩ := h.cursors
  obtain ⟨-, hlt, -⟩ := h.popOk_store hpc
  have hview : q.consumer ≤ stored.2 := hm ▸ View.le_see _ _ _
  have htop : q.memory.top ≤ stored.1.top := hm ▸ Memory.top_le_store _ _ _ _ _
  have hpop : stored.1.last .pop = q.memory.last .pop + 1 := hm ▸ Memory.store_last ..
  have hpush : stored.1.last .push = q.memory.last .push :=
    hm ▸ Memory.store_last_of_ne _ _ _ _ _ (by decide)
  have hsees : 3 * (q.memory.last .pop / c) + 3 ≤ q.consumer (.inr (q.memory.last .pop % c)) := by
    have := h.consumer.pc
    rwa [hpc] at this
  have hdestroyed : Knows c stored.2 (q.memory.last .pop + 1) 3 :=
    (h.consumer.destroyed.succ hsees).mono hview
  refine ⟨?_, ?_, fun j hj hj' => ?_, ?_, ⟨?_, ?_, ?_, ?_, ?_, trivial⟩⟩
  · have hnew := h.sequential.release hc hpc
    show SPSCQueue.Inv c { q.newest with
      pushCursor := stored.1.last .push, popCursor := stored.1.last .pop
      popPc := .idle, popped := q.popped ++ [value] }
    rw [hpush, hpop]
    exact hnew
  · rw [← hm] at hdestroyed ⊢
    exact h.keeps.store h.consumer.le_top ⟨rfl, hdestroyed⟩
  · change stored.1.last .pop ≤ j at hj
    change j < stored.1.last .pop + c at hj'
    show stored.1.accesses (j % c) = _ + stage (stored.1.last .push) (stored.1.last .pop) _ 1 j
    rw [hpop] at hj hj'
    have hacc : stored.1.accesses = q.memory.accesses := hm ▸ Memory.store_accesses ..
    rw [hacc, hpush, hpop]
    by_cases he : j = q.memory.last .pop + c
    -- the released slot is the last one of the new window
    · subst he
      have hstage : stage (q.memory.last .push) (q.memory.last .pop + 1) q.pushPc.stage 1
          (q.memory.last .pop + c) = 0 := by
        unfold stage
        rw [if_neg (by omega)]
        split_ifs with hfull
        · exact h.pushStage_of_eq hfull.symm
        · rfl
      rw [Nat.add_mod_right, h.popAccesses hc hlt, hpc, hstage, Nat.add_div_right _ hc]
      rfl
    · rw [h.accesses_eq j (by omega) (by omega), stage_congr_pop 1 (by omega)]
      refine congrArg (3 * (j / c) + ·) ?_
      unfold stage
      rw [ite_self, ite_self]
  · exact { h.producer with
      le_top := h.producer.le_top.trans htop
      own := hpush ▸ h.producer.own
      constructed := hpush ▸ h.producer.constructed }
  · rw [← hm]
    exact Memory.store_view_le .release h.consumer.le_top
  · show stored.1.last .pop ≤ stored.2 (.inl .pop)
    rw [hpop, ← hm, Memory.store_view, View.see_self]
    exact Nat.le_max_right _ _
  · exact h.consumer.cached.trans (hview _)
  · exact h.consumer.constructed.mono hview
  · show Knows c stored.2 (stored.1.last .pop) 3
    rwa [hpop]

/-- What a step of `pop` that returned `r` has changed. -/
structure Popped (q : WeakQueue T) (r : Option (Option T)) (q' : WeakQueue T) : Prop where
  popped : q'.popped = q.popped ++ (Act.pop r).popped?.toList
  accepted : q'.accepted = q.accepted
  pushPc : q'.pushPc = q.pushPc

/-- **The consumer's next step is no race and no fault, and keeps the invariant.** -/
theorem Inv.popStep_spec (h : q.Inv (2 ^ k)) (skip : Nat) :
    ∃ q' r, q.popStep .source (2 ^ k) skip = .ok (q', r) ∧ q'.Inv (2 ^ k) ∧ Popped q r q' := by
  have hcap := Nat.two_pow_pos k
  obtain ⟨h1, h2, h3, h4⟩ := h.cursors
  cases hpc : q.popPc with
  | idle => exact ⟨q, none, by simp only [popStep, hpc]; rfl, h, (List.append_nil _).symm, rfl, rfl⟩
  | loadPop =>
    have hle := q.memory.le_load .relaxed q.consumer .pop skip
    have htop := h.keeps.load_le h.consumer.le_top .relaxed .pop skip
    by_cases hempty : SPSCQueue.empty q.pushCursorCached (q.memory.last .pop) = true
    · refine ⟨{ q with
        consumer := (q.memory.load .relaxed q.consumer .pop skip).2
        popPc := .loadPush (q.memory.last .pop) }, none, ?_, h.popMove hle htop
          (by rw [hpc]; rfl) (by rw [hpc]; rfl) rfl trivial, (List.append_nil _).symm, rfl, rfl⟩
      simp only [popStep, hpc]
      rw [h.load_pop, if_pos hempty]
      rfl
    · have hlt : q.memory.last .pop < q.pushCursorCached := by
        have : q.pushCursorCached ≠ q.memory.last .pop := by simpa [SPSCQueue.empty] using hempty
        omega
      refine ⟨{ q with
        consumer := (q.memory.load .relaxed q.consumer .pop skip).2
        popPc := .move (q.memory.last .pop) }, none, ?_, h.popMove hle htop
          (by rw [hpc]; rfl) (by rw [hpc]; rfl) ⟨rfl, hlt⟩ trivial,
        (List.append_nil _).symm, rfl, rfl⟩
      simp only [popStep, hpc]
      rw [h.load_pop, if_neg hempty]
      rfl
  | loadPush p =>
    obtain rfl : p = q.memory.last .pop := h.popOk_loadPush hpc
    have hle := q.memory.le_load .acquire q.consumer .push skip
    have htop := h.keeps.load_le h.consumer.le_top .acquire .push skip
    obtain ⟨hvalue, hknows⟩ := h.keeps.load (promise_mono _) q.consumer .push skip
    -- no older store than the cached one is read
    have hcached : q.pushCursorCached ≤ (q.memory.load .acquire q.consumer .push skip).1 := by
      rw [hvalue]
      exact h.consumer.cached.trans (Memory.le_read h.consumer.le_top .push skip)
    have hlast : (q.memory.load .acquire q.consumer .push skip).1 ≤ q.memory.last .push :=
      hvalue.trans_le (q.memory.read_le _ _ _)
    have hseen := q.memory.read_le_load .acquire q.consumer .push skip
    rw [← hvalue] at hknows hseen
    refine ⟨{ q with
      consumer := (q.memory.load .acquire q.consumer .push skip).2
      popPc := .update (q.memory.last .pop) (q.memory.load .acquire q.consumer .push skip).1 _ },
      none, ?_, h.popMove hle htop
        (by rw [hpc]; rfl) (by rw [hpc]; rfl) ⟨rfl, hcached, hlast, rfl⟩ ⟨hseen, hknows⟩,
      (List.append_nil _).symm, rfl, rfl⟩
    simp only [popStep, hpc]
    rfl
  | update p r held =>
    obtain ⟨rfl, hle, hle', -⟩ := h.popOk_update hpc
    obtain ⟨hseen, hknows⟩ : r ≤ q.consumer (.inl .push) ∧ Knows (2 ^ k) q.consumer r 1 := by
      have := h.consumer.pc
      rwa [hpc] at this
    by_cases hempty : SPSCQueue.empty r (q.memory.last .pop) = true
    · refine ⟨{ q with pushCursorCached := r, popPc := .idle }, some none, ?_,
        h.popLocal (le_refl _) h.consumer.le_top (by rw [hpc]; rfl) (by rw [hpc]; rfl) hle hle'
          trivial hseen hknows trivial, (List.append_nil _).symm, rfl, rfl⟩
      simp only [popStep, hpc]
      exact if_pos hempty
    · have hlt : q.memory.last .pop < r := by
        have : r ≠ q.memory.last .pop := by simpa [SPSCQueue.empty] using hempty
        omega
      refine ⟨{ q with pushCursorCached := r, popPc := .move (q.memory.last .pop) }, none, ?_,
        h.popLocal (le_refl _) h.consumer.le_top (by rw [hpc]; rfl) (by rw [hpc]; rfl) hle hle'
          ⟨rfl, hlt⟩ hseen hknows trivial, (List.append_nil _).symm, rfl, rfl⟩
      simp only [popStep, hpc]
      exact if_neg hempty
  | move p =>
    obtain ⟨rfl, hlt⟩ := h.popOk_move hpc
    obtain ⟨v, hv, hcell⟩ := h.sequential.popCell hcap hlt
    change q.ring (q.memory.last .pop % 2 ^ k) = SPSCQueue.front q.popPc v at hcell
    have hacc := h.popAccesses hcap hlt
    rw [hpc] at hcell hacc
    have hseen : q.memory.accesses (q.memory.last .pop % 2 ^ k) ≤
        q.consumer (.inr (q.memory.last .pop % 2 ^ k)) :=
      hacc.trans_le (h.consumer.constructed _ hlt)
    refine ⟨_, none, ?_, h.popSlot hcap (.destroy (q.memory.last .pop) v) hlt hv
      ⟨rfl, hlt, hv⟩ (by rw [hpc]; rfl) fun _ => id, (List.append_nil _).symm, rfl, rfl⟩
    simp only [popStep, hpc, SPSCQueue.and_indexMask, index_of_lt (Nat.mod_lt _ hcap),
      Memory.access_of_le hseen, Exec.alone_ok, hcell, SPSCQueue.front]
    rfl
  | destroy p w =>
    obtain ⟨rfl, hlt, hw⟩ := h.popOk_destroy hpc
    obtain ⟨v, hv, hcell⟩ := h.sequential.popCell hcap hlt
    change q.ring (q.memory.last .pop % 2 ^ k) = SPSCQueue.front q.popPc v at hcell
    have hacc := h.popAccesses hcap hlt
    have hsees := h.consumer.pc
    rw [hpc] at hcell hacc hsees
    have hseen : q.memory.accesses (q.memory.last .pop % 2 ^ k) ≤
        q.consumer (.inr (q.memory.last .pop % 2 ^ k)) :=
      hacc.trans_le hsees
    refine ⟨_, none, ?_, h.popSlot hcap (.store (q.memory.last .pop) w) hlt hw
      ⟨rfl, hlt, hw⟩ (by rw [hpc]; rfl) fun _ => id, (List.append_nil _).symm, rfl, rfl⟩
    simp only [popStep, hpc, SPSCQueue.and_indexMask, index_of_lt (Nat.mod_lt _ hcap),
      Memory.access_of_le hseen, Exec.alone_ok, hcell, SPSCQueue.front]
    rfl
  | store p v =>
    obtain ⟨rfl, -⟩ := h.popOk_store hpc
    exact ⟨_, some (some v), by simp only [popStep, hpc]; rfl, h.release hcap hpc, rfl, rfl, rfl⟩

end WeakQueue

/-! ## Runs -/

namespace WeakThreads

variable {T : Type} {k : Nat} {acts : List (Act T)} {s s' : WeakThreads T} {a : Act T}

/-- The queue keeps its invariant, its lists are what the calls have returned, and the producer
publishes what it was given. -/
structure Good (k : Nat) (acts : List (Act T)) (s : WeakThreads T) : Prop where
  inv : s.queue.Inv (2 ^ k)
  accepted : s.queue.accepted = acts.filterMap Act.accepted?
  popped : s.queue.popped = acts.filterMap Act.popped?
  holds : ∀ value ∈ s.value, s.queue.newest.Holds value

theorem Good.init (k : Nat) : Good k [] (WeakThreads.init : WeakThreads T) :=
  ⟨WeakQueue.inv_init _, rfl, rfl, nofun⟩

theorem Step.good (h : s.Good k acts) (hstep : Step .source (2 ^ k) s a s') :
    s'.Good k (acts ++ [a]) := by
  obtain ⟨hinv, h1, h2, hholds⟩ := h
  cases hstep with
  | callPush value hidle =>
    refine ⟨hinv.pushMove (le_refl _) hinv.producer.le_top (by rw [hidle]; rfl)
      (by rw [hidle]; rfl) trivial trivial, ?_, ?_, fun w _ p v hv => by cases hv⟩
    · rwa [filterMap_snoc_none rfl]
    · rwa [filterMap_snoc_none rfl]
  | @push q q' value r skip hidle hrun =>
    obtain ⟨q₁, r₁, hrun', hinv', hpushed⟩ := hinv.pushStep_spec value skip
    obtain ⟨rfl, rfl⟩ := Prod.mk.inj (Except.ok.inj (hrun'.symm.trans hrun))
    obtain ⟨haccepted, hholds', hpopped⟩ := hpushed (hholds _ rfl)
    refine ⟨hinv', ?_, ?_, fun w hw => Option.some.inj hw ▸ hholds'⟩
    · rw [filterMap_snoc, ← h1, haccepted]
    · rw [filterMap_snoc_none rfl, ← h2, hpopped]
  | callPop hidle =>
    refine ⟨hinv.popMove (le_refl _) hinv.consumer.le_top (by rw [hidle]; rfl)
      (by rw [hidle]; rfl) trivial trivial, ?_, ?_, hholds⟩
    · rwa [filterMap_snoc_none rfl]
    · rwa [filterMap_snoc_none rfl]
  | @pop q q' value r skip hidle hrun =>
    obtain ⟨q₁, r₁, hrun', hinv', hpopped⟩ := hinv.popStep_spec skip
    obtain ⟨rfl, rfl⟩ := Prod.mk.inj (Except.ok.inj (hrun'.symm.trans hrun))
    refine ⟨hinv', ?_, ?_, fun w hw p v hv => hholds w hw p v (hpopped.pushPc.symm.trans hv)⟩
    · rw [filterMap_snoc_none rfl, ← h1, hpopped.accepted]
    · rw [filterMap_snoc, ← h2, hpopped.popped]

theorem good_of_run (h : Run (Step .source (2 ^ k)) init acts s) : s.Good k acts :=
  h.history (I := Good k) (.init k) fun hi hs => hs.good hi

theorem Good.harmless (h : s.Good k acts) : s.queue.Harmless .source (2 ^ k) := by
  refine ⟨fun value skip => ?_, fun skip => ?_⟩
  · obtain ⟨q', r, hr, -⟩ := h.inv.pushStep_spec value skip
    exact ⟨_, hr⟩
  · obtain ⟨q', r, hr, -⟩ := h.inv.popStep_spec skip
    exact ⟨_, hr⟩

end WeakThreads

/-- **Under release and acquire the queue is a race-free bounded FIFO**: in no run of the two threads,
whatever old stores their loads read, is a next step a race or a fault, and the values popped are
the accepted ones in order, less at most a ring of them. -/
theorem release_acquire {T : Type} {k : Nat} {acts : List (Act T)} {s : WeakThreads T}
    (h : Run (WeakThreads.Step .source (2 ^ k)) WeakThreads.init acts s) :
    s.queue.Harmless .source (2 ^ k) ∧ ∃ held, held.length ≤ 2 ^ k ∧
      acts.filterMap Act.accepted? = acts.filterMap Act.popped? ++ held := by
  have hgood := WeakThreads.good_of_run h
  obtain ⟨h1, h2, h3, h4⟩ := hgood.inv.cursors
  have hlen : s.queue.accepted.length = s.queue.memory.last .push := hgood.inv.sequential.length_eq
  have hpopped : s.queue.popped = s.queue.accepted.take (s.queue.memory.last .pop) :=
    hgood.inv.sequential.popped_eq
  refine ⟨hgood.harmless, s.queue.accepted.drop (s.queue.memory.last .pop), ?_, ?_⟩
  · rw [List.length_drop, hlen]
    omega
  · rw [← hgood.accepted, ← hgood.popped, hpopped, List.take_append_drop]

/-- In a ring of two with one element each side reads an old store of the other's cursor: the push finds
it full, and the pop that follows finds it empty. -/
theorem release_acquire_run : ∃ (acts : List (Act Nat)) (s : WeakThreads Nat),
    Run (WeakThreads.Step .source (2 ^ 1)) WeakThreads.init acts s ∧
      acts.filterMap Act.accepted? = [7, 8] ∧ acts.filterMap Act.popped? = [7] ∧
      acts.countP Act.rejects = 1 ∧ acts.countP Act.starves = 1 ∧
      s.queue.Harmless .source (2 ^ 1) := by
  have hrun : ∃ s : WeakThreads Nat, Run (WeakThreads.Step .source (2 ^ 1)) WeakThreads.init
      [.callPush 7, .push 7 none, .push 7 none, .push 7 (some true), .callPush 8, .push 8 none,
        .push 8 none, .push 8 (some true), .callPop, .pop none, .pop none, .pop none, .pop none,
        .pop none, .pop (some (some 7)), .callPush 9, .push 9 none, .push 9 none,
        .push 9 (some false), .callPop, .pop none, .pop none, .pop (some none)] s :=
    ⟨_, .cons (.callPush 7 rfl) <| .cons (.push 0 nofun rfl) <| .cons (.push 0 nofun rfl) <|
      .cons (.push 0 nofun rfl) <| .cons (.callPush 8 rfl) <| .cons (.push 0 nofun rfl) <|
      .cons (.push 0 nofun rfl) <| .cons (.push 0 nofun rfl) <| .cons (.callPop rfl) <|
      .cons (.pop 0 nofun rfl) <| .cons (.pop 1 nofun rfl) <| .cons (.pop 0 nofun rfl) <|
      .cons (.pop 0 nofun rfl) <| .cons (.pop 0 nofun rfl) <| .cons (.pop 0 nofun rfl) <|
      .cons (.callPush 9 rfl) <| .cons (.push 0 nofun rfl) <| .cons (.push 0 nofun rfl) <|
      .cons (.push 0 nofun rfl) <| .cons (.callPop rfl) <| .cons (.pop 0 nofun rfl) <|
      .cons (.pop 0 nofun rfl) <| .cons (.pop 0 nofun rfl) .nil⟩
  obtain ⟨s, hs⟩ := hrun
  exact ⟨_, s, hs, rfl, rfl, rfl, rfl, (release_acquire hs).1⟩

/-! ## Weaker orders -/

theorem WeakQueue.not_harmless_of_pop {T : Type} {o : Orders} {c : Nat} {q : WeakQueue T}
    (h : q.popStep o c 0 = .error .race) : ¬ q.Harmless o c := fun hq => by
  obtain ⟨r, hr⟩ := hq.2 0
  rw [h] at hr
  cases hr

theorem WeakQueue.not_harmless_of_push {T : Type} {o : Orders} {c : Nat} {q : WeakQueue T} {value : T}
    (h : q.pushStep o c value 0 = .error .race) : ¬ q.Harmless o c := fun hq => by
  obtain ⟨r, hr⟩ := hq.1 value 0
  rw [h] at hr
  cases hr

/-- Unless the push cursor is released and acquired, the consumer moves from an element whose
construction it has not seen. -/
theorem race_of_push {o : Orders} (h : o.pushStore = .relaxed ∨ o.popLoad = .relaxed) :
    ∃ s : WeakThreads Unit, Run (WeakThreads.Step o (2 ^ 0)) WeakThreads.init
      [.callPush (), .push () none, .push () none, .push () (some true), .callPop, .pop none,
        .pop none, .pop none] s ∧ s.queue.popStep o (2 ^ 0) 0 = .error .race := by
  rcases o with ⟨_ | _, _ | _, _ | _, _ | _⟩
  all_goals first
    | exact absurd h (by decide)
    | exact ⟨_, .cons (.callPush () rfl) <| .cons (.push 0 nofun rfl) <| .cons (.push 0 nofun rfl) <|
        .cons (.push 0 nofun rfl) <| .cons (.callPop rfl) <| .cons (.pop 0 nofun rfl) <|
        .cons (.pop 1 nofun rfl) <| .cons (.pop 0 nofun rfl) <| .nil, rfl⟩

/-- Unless the pop cursor is released and acquired, the producer constructs an element in a slot whose
last one it has not seen destroyed. -/
theorem race_of_pop {o : Orders} (h : o.popStore = .relaxed ∨ o.pushLoad = .relaxed)
    (hpush : o.pushStore = .release) (hpop : o.popLoad = .acquire) :
    ∃ s : WeakThreads Unit, Run (WeakThreads.Step o (2 ^ 0)) WeakThreads.init
      [.callPush (), .push () none, .push () none, .push () (some true), .callPop, .pop none,
        .pop none, .pop none, .pop none, .pop none, .pop (some (some ())), .callPush (),
        .push () none, .push () none, .push () none] s ∧
      s.queue.pushStep o (2 ^ 0) () 0 = .error .race := by
  rcases o with ⟨_ | _, _ | _, _ | _, _ | _⟩
  all_goals first
    | exact absurd hpush (by decide)
    | exact absurd hpop (by decide)
    | exact absurd h (by decide)
    | exact ⟨_, .cons (.callPush () rfl) <| .cons (.push 0 nofun rfl) <| .cons (.push 0 nofun rfl) <|
        .cons (.push 0 nofun rfl) <| .cons (.callPop rfl) <| .cons (.pop 0 nofun rfl) <|
        .cons (.pop 1 nofun rfl) <| .cons (.pop 0 nofun rfl) <| .cons (.pop 0 nofun rfl) <|
        .cons (.pop 0 nofun rfl) <| .cons (.pop 0 nofun rfl) <| .cons (.callPush () rfl) <|
        .cons (.push 0 nofun rfl) <| .cons (.push 1 nofun rfl) <| .cons (.push 0 nofun rfl) <| .nil,
        rfl⟩

theorem Orders.weaker {o : Orders} (h : o ≠ .source) :
    (o.pushStore = .relaxed ∨ o.popLoad = .relaxed) ∨
      (o.popStore = .relaxed ∨ o.pushLoad = .relaxed) ∧ o.pushStore = .release ∧
        o.popLoad = .acquire := by
  rcases o with ⟨_ | _, _ | _, _ | _, _ | _⟩ <;> first | exact absurd rfl h | decide

/-- **No weaker orders do**: the queue is free of races and faults at every capacity and in every run if
and only if both cursors are stored with release and loaded from the other side with acquire. -/
theorem orders_needed (o : Orders) :
    (∀ (T : Type) (k : Nat) (acts : List (Act T)) (s : WeakThreads T),
      Run (WeakThreads.Step o (2 ^ k)) WeakThreads.init acts s → s.queue.Harmless o (2 ^ k)) ↔
    o = .source := by
  constructor
  · intro h
    by_contra hne
    rcases Orders.weaker hne with hpush | ⟨hpop, hstore, hload⟩
    · obtain ⟨s, hrun, hrace⟩ := race_of_push hpush
      exact WeakQueue.not_harmless_of_pop hrace (h Unit 0 _ s hrun)
    · obtain ⟨s, hrun, hrace⟩ := race_of_pop hpop hstore hload
      exact WeakQueue.not_harmless_of_push hrace (h Unit 0 _ s hrun)
  · rintro rfl T k acts s hrun
    exact (WeakThreads.good_of_run hrun).harmless

end MarketHandler
