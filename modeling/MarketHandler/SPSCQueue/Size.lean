import MarketHandler.SPSCQueue.Invariant

/-!
# `size`, `empty` and `full` while the queue is in use

A call loads the push cursor and then the pop cursor, and steps of the threads may fall between the
two loads. `Observed` adds such calls to the two threads: by the producer or the consumer, when it is
in no other call, or by any other thread. A call whose assertion fails returns nothing.

* `Observed.threads_run`, `Observed.cursors`: the calls leave the queue alone, whose cursors count the
  values accepted and popped.
* `Observed.between_loads`: an open call keeps what it has loaded, and its own thread takes no step.
* `size_in_range`: **a call returns a size between zero and the capacity exactly when the consumer has
  not overtaken the loaded push cursor**, which the producer's and the consumer's own calls never see.
* `size_overtaken`: another thread's call sees it in a ring of one.
-/

namespace MarketHandler

open Lib

/-- The thread that makes a call. -/
inductive Caller where
  | producer
  | consumer
  | observer (i : Nat)
  deriving DecidableEq, Repr

/-- The three calls that load both cursors. -/
inductive Query where
  | size
  | empty
  | full
  deriving DecidableEq, Repr

/-- What they return. -/
inductive Answer where
  | size (n : Nat)
  | flag (b : Bool)
  deriving DecidableEq, Repr

/-- `size()`, `size() == 0` and `size() == capacity()`. -/
def Query.answer (capacity : Nat) : Query → Nat → Answer
  | .size, n => .size n
  | .empty, n => .flag (n = 0)
  | .full, n => .flag (n = capacity)

/-- The end of `size`, with both cursors loaded; `none` if the assertion fails. -/
def SPSCQueue.sizeLoaded (pushCursor popCursor : Nat) : Option Nat :=
  if popCursor ≤ pushCursor then some (pushCursor - popCursor) else none

theorem SPSCQueue.sizeLoaded_of_le {pushCursor popCursor : Nat} (h : popCursor ≤ pushCursor) :
    sizeLoaded pushCursor popCursor = some (pushCursor - popCursor) :=
  if_pos h

theorem SPSCQueue.sizeLoaded_of_lt {pushCursor popCursor : Nat} (h : pushCursor < popCursor) :
    sizeLoaded pushCursor popCursor = none :=
  if_neg (Nat.not_le_of_lt h)

/-- The thread that takes a step of `push` or `pop`. -/
def Act.caller {T : Type} : Act T → Caller
  | .callPush _ => .producer
  | .push _ _ => .producer
  | .callPop => .consumer
  | .pop _ => .consumer

/-- The thread is in no call of `push` or `pop`. -/
def Caller.Idle {T : Type} (q : SPSCQueue T) : Caller → Prop
  | .producer => q.pushPc = .idle
  | .consumer => q.popPc = .idle
  | .observer _ => True

/-- The threads, and the push cursor that each open call has loaded. -/
structure Observed (T : Type) where
  threads : Threads T
  loaded : Caller → Option (Query × Nat)

/-- A step of `push` or `pop`, or one of the two loads of a query; the second carries what the query
returns. -/
inductive ObservedAct (T : Type) where
  | thread (a : Act T)
  | loadPush (caller : Caller) (query : Query)
  | loadPop (caller : Caller) (returned : Option Answer)

namespace ObservedAct

variable {T : Type}

/-- The step of `push` or `pop`. -/
def thread? : ObservedAct T → Option (Act T)
  | .thread a => some a
  | .loadPush _ _ => none
  | .loadPop _ _ => none

/-- The values that the pushes of a history have published. -/
def accepted (as : List (ObservedAct T)) : List T := (as.filterMap thread?).filterMap Act.accepted?

/-- The values that the pops of a history have released. -/
def popped (as : List (ObservedAct T)) : List T := (as.filterMap thread?).filterMap Act.popped?

/-- Between the loads of a call at most as many values are popped as the queue held at the first. -/
def InTime (before between : List (ObservedAct T)) : Prop :=
  (popped before).length + (popped between).length ≤ (accepted before).length

variable {as bs : List (ObservedAct T)}

theorem accepted_append : accepted (as ++ bs) = accepted as ++ accepted bs := by
  simp only [accepted, List.filterMap_append]

theorem popped_append : popped (as ++ bs) = popped as ++ popped bs := by
  simp only [popped, List.filterMap_append]

theorem accepted_eq_nil (h : ∀ a, .thread a ∈ as → a.caller ≠ .producer) : accepted as = [] := by
  refine List.filterMap_eq_nil_iff.mpr fun a ha => ?_
  obtain ⟨_ | _ | _, hmem, hthread⟩ := List.mem_filterMap.mp ha <;> cases hthread
  have hne := h a hmem
  cases a with
  | callPush value => rfl
  | push value returned => exact absurd rfl hne
  | callPop => rfl
  | pop returned => rfl

theorem popped_eq_nil (h : ∀ a, .thread a ∈ as → a.caller ≠ .consumer) : popped as = [] := by
  refine List.filterMap_eq_nil_iff.mpr fun a ha => ?_
  obtain ⟨_ | _ | _, hmem, hthread⟩ := List.mem_filterMap.mp ha <;> cases hthread
  have hne := h a hmem
  cases a with
  | callPush value => rfl
  | push value returned => rfl
  | callPop => rfl
  | pop returned => exact absurd rfl hne

end ObservedAct

namespace Observed

variable {T : Type}

/-- Before the first call. -/
def init : Observed T := ⟨.init, fun _ => none⟩

/-- One action. A thread with an open query takes no other step. -/
inductive Step (capacity : Nat) : Observed T → ObservedAct T → Observed T → Prop
  | thread {s s' : Threads T} {loaded : Caller → Option (Query × Nat)} {a : Act T} :
      loaded a.caller = none → Threads.Step capacity s a s' →
      Step capacity ⟨s, loaded⟩ (.thread a) ⟨s', loaded⟩
  | loadPush {s : Threads T} {loaded : Caller → Option (Query × Nat)} (caller : Caller)
      (query : Query) : caller.Idle s.queue → loaded caller = none →
      Step capacity ⟨s, loaded⟩ (.loadPush caller query)
        ⟨s, Function.update loaded caller (some (query, s.queue.pushCursor))⟩
  | loadPop {s : Threads T} {loaded : Caller → Option (Query × Nat)} {caller : Caller}
      {query : Query} {pushCursor : Nat} {r : Option Answer} :
      loaded caller = some (query, pushCursor) →
      (SPSCQueue.sizeLoaded pushCursor s.queue.popCursor).map (query.answer capacity) = r →
      Step capacity ⟨s, loaded⟩ (.loadPop caller r) ⟨s, Function.update loaded caller none⟩

variable {c k pushCursor : Nat} {as before between : List (ObservedAct T)} {o o' : Observed T}
  {caller : Caller} {query : Query} {r : Option Answer}

/-- **The queries leave the queue alone.** -/
theorem threads_run (h : Run (Step c) init as o) :
    Run (Threads.Step c) Threads.init (as.filterMap ObservedAct.thread?) o.threads := by
  refine h.history (I := fun as o =>
    Run (Threads.Step c) Threads.init (as.filterMap ObservedAct.thread?) o.threads) Run.nil ?_
  intro as o a o' hrun hs
  cases hs with
  | thread _ hs =>
    rw [filterMap_snoc]
    exact hrun.snoc hs
  | loadPush caller query =>
    rw [filterMap_snoc_none rfl]
    exact hrun
  | loadPop =>
    rw [filterMap_snoc_none rfl]
    exact hrun

/-- The cursors count the values accepted and popped. -/
theorem cursors (h : Run (Step (2 ^ k)) init as o) :
    o.threads.queue.pushCursor = (ObservedAct.accepted as).length ∧
      o.threads.queue.popCursor = (ObservedAct.popped as).length ∧
      o.threads.queue.popCursor ≤ o.threads.queue.pushCursor ∧
      o.threads.queue.pushCursor ≤ o.threads.queue.popCursor + 2 ^ k := by
  obtain ⟨hinv, hret⟩ := Threads.run_spec (threads_run h)
  have h1 := hinv.popCached_le
  have h2 := hinv.pop_le
  have h3 := hinv.pushCached_le
  have h4 := hinv.push_le
  refine ⟨?_, ?_, by omega, by omega⟩
  · rw [← hinv.length_eq, hret.accepted]
    rfl
  · have hlen := congrArg List.length hinv.popped_eq
    rw [List.length_take, hinv.length_eq, hret.popped] at hlen
    unfold ObservedAct.popped
    omega

/-- **An open query keeps what it has loaded**, and its thread takes no step of `push` or `pop`. -/
theorem between_loads (h : Run (Step c) o as o') (hl : o.loaded caller = some (query, pushCursor))
    (hopen : ∀ r, .loadPop caller r ∉ as) : o'.loaded caller = some (query, pushCursor) ∧
      ∀ a, .thread a ∈ as → a.caller ≠ caller := by
  refine h.history (I := fun as o' => (∀ r, .loadPop caller r ∉ as) →
    o'.loaded caller = some (query, pushCursor) ∧ ∀ a, .thread a ∈ as → a.caller ≠ caller)
    (fun _ => ⟨hl, nofun⟩) ?_ hopen
  intro as o₁ a o₂ ih hs hopen
  obtain ⟨hl₁, hsteps⟩ := ih fun r hr => hopen r (List.mem_append_left _ hr)
  cases hs with
  | thread hnone hs =>
    refine ⟨hl₁, fun a' ha' => ?_⟩
    rcases List.mem_append.mp ha' with ha' | ha'
    · exact hsteps a' ha'
    · obtain rfl := ObservedAct.thread.inj (List.mem_singleton.mp ha')
      rintro rfl
      exact nomatch hl₁.symm.trans hnone
  | loadPush caller' query' hidle hnone =>
    have hne : caller ≠ caller' := by
      rintro rfl
      exact nomatch hl₁.symm.trans hnone
    refine ⟨(Function.update_of_ne hne _ _).trans hl₁, fun a' ha' => hsteps a' ?_⟩
    simpa using ha'
  | @loadPop s loaded caller' query' pushCursor' r hl' hr =>
    have hne : caller ≠ caller' := by
      rintro rfl
      exact hopen _ (List.mem_append_right _ (List.mem_singleton_self _))
    refine ⟨(Function.update_of_ne hne _ _).trans hl₁, fun a' ha' => hsteps a' ?_⟩
    simpa using ha'

/-- The two loads of a query, and what the queue's cursors were then. -/
theorem query_spec (h : Run (Step (2 ^ k)) init
      (before ++ [.loadPush caller query] ++ between ++ [.loadPop caller r]) o)
    (hopen : ∀ r, .loadPop caller r ∉ between) :
    ∃ pushCursor popCursor, pushCursor = (ObservedAct.accepted before).length ∧
      popCursor = (ObservedAct.popped before).length + (ObservedAct.popped between).length ∧
      pushCursor ≤ (ObservedAct.popped before).length + 2 ^ k ∧
      (caller = .producer ∨ caller = .consumer → popCursor ≤ pushCursor) ∧
      r = (SPSCQueue.sizeLoaded pushCursor popCursor).map (query.answer (2 ^ k)) := by
  obtain ⟨o₃, h₃, hpop⟩ := h.snoc_inv
  obtain ⟨o₂, h₂, hbetween⟩ := h₃.split
  obtain ⟨o₁, h₁, hpush⟩ := h₂.snoc_inv
  obtain ⟨hpush₁, hpop₁, hle₁, hcap₁⟩ := cursors h₁
  obtain ⟨hpush₃, hpop₃, hle₃, -⟩ := cursors h₃
  have hl₂ : o₂.loaded caller = some (query, o₁.threads.queue.pushCursor) := by
    cases hpush with
    | loadPush _ _ _ _ => exact Function.update_self _ _ _
  obtain ⟨hl₃, hsteps⟩ := between_loads hbetween hl₂ hopen
  have hnil : ObservedAct.popped [ObservedAct.loadPush (T := T) caller query] = [] := rfl
  have hnil' : ObservedAct.accepted [ObservedAct.loadPush (T := T) caller query] = [] := rfl
  rw [ObservedAct.popped_append, ObservedAct.popped_append, hnil, List.append_nil,
    List.length_append] at hpop₃
  rw [ObservedAct.accepted_append, ObservedAct.accepted_append, hnil', List.append_nil,
    List.length_append] at hpush₃
  refine ⟨_, _, hpush₁, hpop₃, hpop₁ ▸ hcap₁, ?_, ?_⟩
  · -- its own thread has not moved its cursor since the first load
    rintro (rfl | rfl)
    · rw [ObservedAct.accepted_eq_nil hsteps, List.length_nil, Nat.add_zero] at hpush₃
      omega
    · rw [ObservedAct.popped_eq_nil hsteps, List.length_nil, Nat.add_zero] at hpop₃
      omega
  · cases hpop with
    | loadPop hl hr =>
      obtain ⟨rfl, rfl⟩ := Prod.mk.inj (Option.some.inj (hl.symm.trans hl₃))
      exact hr.symm

end Observed

/-- **When a query returns a size in range.** In every interleaving with the steps of the threads, a
query's assertion holds and it answers for a size between zero and the capacity if and only if,
between its loads, at most as many values are popped as the queue held at the first; a query of the
producer or the consumer always does. -/
theorem size_in_range {T : Type} {k : Nat} {before between after : List (ObservedAct T)}
    {caller : Caller} {query : Query} {r : Option Answer} {o : Observed T}
    (h : Run (Observed.Step (2 ^ k)) Observed.init
      (before ++ [.loadPush caller query] ++ between ++ [.loadPop caller r] ++ after) o)
    (hopen : ∀ r, .loadPop caller r ∉ between) :
    ((∃ n ≤ 2 ^ k, r = some (query.answer (2 ^ k) n)) ↔ ObservedAct.InTime before between) ∧
      (caller = .producer ∨ caller = .consumer →
        ∃ n ≤ 2 ^ k, r = some (query.answer (2 ^ k) n)) := by
  obtain ⟨o₄, h₄, -⟩ := h.split
  obtain ⟨pushCursor, popCursor, hpush, hpop, hcap, hown, rfl⟩ := Observed.query_spec h₄ hopen
  have hiff : (∃ n ≤ 2 ^ k, (SPSCQueue.sizeLoaded pushCursor popCursor).map
      (query.answer (2 ^ k)) = some (query.answer (2 ^ k) n)) ↔ popCursor ≤ pushCursor := by
    constructor
    · rintro ⟨n, -, hn⟩
      by_contra hlt
      rw [SPSCQueue.sizeLoaded_of_lt (Nat.lt_of_not_le hlt)] at hn
      cases hn
    · intro hle
      rw [SPSCQueue.sizeLoaded_of_le hle]
      exact ⟨pushCursor - popCursor, by omega, rfl⟩
  have htime : popCursor ≤ pushCursor ↔ ObservedAct.InTime before between := by
    rw [hpush, hpop]
    rfl
  exact ⟨hiff.trans htime, fun hcaller => hiff.mpr (hown hcaller)⟩

/-- The consumer pops the only value between the loads of the producer's own call. -/
theorem size_in_range_own : ∃ (o : Observed Nat) (r : Option Answer),
    Run (Observed.Step (2 ^ 0)) Observed.init
      [.thread (.callPush 7), .thread (.push 7 none), .thread (.push 7 none),
        .thread (.push 7 (some true)), .loadPush .producer .size, .thread .callPop,
        .thread (.pop none), .thread (.pop none), .thread (.pop none), .thread (.pop none),
        .thread (.pop none), .thread (.pop (some (some 7))), .loadPop .producer r] o ∧
      ∃ n ≤ 2 ^ 0, r = some (Query.answer (2 ^ 0) .size n) := by
  have hrun : ∃ o : Observed Nat, Run (Observed.Step (2 ^ 0)) Observed.init
      [.thread (.callPush 7), .thread (.push 7 none), .thread (.push 7 none),
        .thread (.push 7 (some true)), .loadPush .producer .size, .thread .callPop,
        .thread (.pop none), .thread (.pop none), .thread (.pop none), .thread (.pop none),
        .thread (.pop none), .thread (.pop (some (some 7))),
        .loadPop .producer (some (.size 0))] o :=
    ⟨_, .cons (.thread rfl (.callPush 7 rfl)) <| .cons (.thread rfl (.push nofun rfl)) <|
      .cons (.thread rfl (.push nofun rfl)) <| .cons (.thread rfl (.push nofun rfl)) <|
      .cons (.loadPush .producer .size rfl rfl) <| .cons (.thread rfl (.callPop rfl)) <|
      .cons (.thread rfl (.pop nofun rfl)) <| .cons (.thread rfl (.pop nofun rfl)) <|
      .cons (.thread rfl (.pop nofun rfl)) <| .cons (.thread rfl (.pop nofun rfl)) <|
      .cons (.thread rfl (.pop nofun rfl)) <| .cons (.thread rfl (.pop nofun rfl)) <|
      .cons (.loadPop rfl <| congrArg _ (SPSCQueue.sizeLoaded_of_le (le_refl 1))) <| .nil⟩
  obtain ⟨o, ho⟩ := hrun
  have h := @size_in_range Nat 0
    [.thread (.callPush 7), .thread (.push 7 none), .thread (.push 7 none),
      .thread (.push 7 (some true))]
    [.thread .callPop, .thread (.pop none), .thread (.pop none), .thread (.pop none),
      .thread (.pop none), .thread (.pop none), .thread (.pop (some (some 7)))]
    [] .producer .size (some (.size 0)) o ho (by simp)
  exact ⟨o, _, ho, h.2 (Or.inl rfl)⟩

/-- **Another thread's call can be overtaken**: in a ring of one it loads the push cursor of the empty
queue, a value is pushed and popped, and the assertion fails on the pop cursor. -/
theorem size_overtaken : ∃ (o : Observed Nat) (r : Option Answer),
    Run (Observed.Step (2 ^ 0)) Observed.init
      [.loadPush (.observer 0) .size, .thread (.callPush 7), .thread (.push 7 none),
        .thread (.push 7 none), .thread (.push 7 (some true)), .thread .callPop,
        .thread (.pop none), .thread (.pop none), .thread (.pop none), .thread (.pop none),
        .thread (.pop none), .thread (.pop (some (some 7))), .loadPop (.observer 0) r] o ∧
      ¬ ∃ n ≤ 2 ^ 0, r = some (Query.answer (2 ^ 0) .size n) :=
  ⟨_, none, .cons (.loadPush (.observer 0) .size trivial rfl) <|
    .cons (.thread rfl (.callPush 7 rfl)) <| .cons (.thread rfl (.push nofun rfl)) <|
    .cons (.thread rfl (.push nofun rfl)) <| .cons (.thread rfl (.push nofun rfl)) <|
    .cons (.thread rfl (.callPop rfl)) <| .cons (.thread rfl (.pop nofun rfl)) <|
    .cons (.thread rfl (.pop nofun rfl)) <| .cons (.thread rfl (.pop nofun rfl)) <|
    .cons (.thread rfl (.pop nofun rfl)) <| .cons (.thread rfl (.pop nofun rfl)) <|
    .cons (.thread rfl (.pop nofun rfl)) <| .cons (.loadPop rfl <|
      congrArg _ (SPSCQueue.sizeLoaded_of_lt Nat.zero_lt_one)) <| .nil,
    fun ⟨_, _, hn⟩ => nomatch hn⟩

end MarketHandler
