import MarketHandler.SPSCQueue.Invariant

/-!
# The life of the slots

Every construction and destruction of an element is an event in a slot (`SlotEvent`); a run of the two
threads collects them (`Traced`), and `destructor`, the loop of `~SPSCQueue`, adds its own. `Ledger`
follows the events: which element each slot holds, numbered in the order of construction, and which
elements were destroyed.

* `Ledger.Tracks`: elements `d` to `n - 1` are alive, each in the slot of its number, and the first `d`
  were destroyed in order.
* `Inv.exclusive`: no thread is about to touch a slot it must not, nor the other thread's.
* `destructor_spec`: the destructor's loop destroys what is left, once each.
* `lifecycle`: **exclusive access throughout, and every element destroyed exactly once**.
-/

namespace MarketHandler

open Lib

/-- The start or the end of an element's life. -/
inductive SlotEvent where
  | construct (idx : Nat)
  | destroy (idx : Nat)
  deriving DecidableEq, Repr

namespace SPSCQueue

variable {T : Type} (capacity : Nat)

/-- What the producer's next step does to a slot. -/
def pushEvents (q : SPSCQueue T) : List SlotEvent :=
  match q.pushPc with
  | .construct pushCursor => [.construct (pushCursor &&& indexMask capacity)]
  | _ => []

/-- What the consumer's next step does to a slot. -/
def popEvents (q : SPSCQueue T) : List SlotEvent :=
  match q.popPc with
  | .destroy popCursor _ => [.destroy (popCursor &&& indexMask capacity)]
  | _ => []

/-- The loop of the destructor, and the slots it destroys, one each iteration. -/
def destructor : Nat → SPSCQueue T → Exec (SPSCQueue T × List Nat)
  | 0, _ => .error .fuel
  | fuel + 1, q =>
    if q.size = 0 then return (q, [])
    else do
      let idx := q.popCursor &&& indexMask capacity
      match ← index capacity q.ring idx with
      | .raw => .error .lifetime
      | _ =>
        let (q, idxs) ← destructor fuel
          { q with ring := Function.update q.ring idx .raw, popCursor := q.popCursor + 1 }
        return (q, idx :: idxs)

end SPSCQueue

/-- The threads and the events so far. -/
structure Traced (T : Type) where
  threads : Threads T
  events : List SlotEvent

namespace Traced

variable {T : Type}

/-- Before the first call. -/
def init : Traced T := ⟨.init, []⟩

/-- The events of an action. -/
def added (capacity : Nat) (q : SPSCQueue T) : Act T → List SlotEvent
  | .push _ _ => q.pushEvents capacity
  | .pop _ => q.popEvents capacity
  | _ => []

/-- One action, and its events. -/
def Step (capacity : Nat) (t : Traced T) (a : Act T) (t' : Traced T) : Prop :=
  Threads.Step capacity t.threads a t'.threads ∧
    t'.events = t.events ++ added capacity t.threads.queue a

end Traced

/-! ## The ledger -/

/-- The element in each slot, how many were constructed, and what each destruction has destroyed. -/
structure Ledger where
  element : Nat → Option Nat
  constructed : Nat
  destroyed : List (Option Nat)

namespace Ledger

/-- No element. -/
def empty : Ledger := ⟨fun _ => none, 0, []⟩

/-- One event; elements are numbered as they are constructed. -/
def step (l : Ledger) : SlotEvent → Ledger
  | .construct idx => { l with
      element := Function.update l.element idx (some l.constructed), constructed := l.constructed + 1 }
  | .destroy idx => { l with
      element := Function.update l.element idx none, destroyed := l.destroyed ++ [l.element idx] }

/-- The events in turn. -/
def run (l : Ledger) (events : List SlotEvent) : Ledger := events.foldl step l

/-- Elements `d` to `n - 1` are alive, element `j` in slot `j % c`, and the first `d` were destroyed in
order. -/
structure Tracks (c : Nat) (l : Ledger) (d n : Nat) : Prop where
  constructed : l.constructed = n
  destroyed : l.destroyed = (List.range d).map some
  alive : ∀ j, d ≤ j → j < n → l.element (j % c) = some j
  free : ∀ i, (∀ j, d ≤ j → j < n → j % c ≠ i) → l.element i = none

variable {c d n : Nat} {l : Ledger}

theorem tracks_empty (c : Nat) : empty.Tracks c 0 0 where
  constructed := rfl
  destroyed := rfl
  alive _ _ hj := absurd hj (Nat.not_lt_zero _)
  free _ _ := rfl

/-- An element is constructed in a free slot. -/
theorem Tracks.construct (h : l.Tracks c d n) (hle : d ≤ n) (hlt : n < d + c) :
    (l.step (.construct (n % c))).Tracks c d (n + 1) where
  constructed := congrArg (· + 1) h.constructed
  destroyed := h.destroyed
  alive j hj hj' := by
    show Function.update l.element (n % c) (some l.constructed) (j % c) = some j
    by_cases he : j = n
    · rw [he, Function.update_self, h.constructed]
    · have hne : j % c ≠ n % c := fun hm =>
        he (mod_inj_of_window hj (by omega) hle hlt hm)
      rw [Function.update_of_ne hne]
      exact h.alive j hj (by omega)
  free i hi := by
    show Function.update l.element (n % c) (some l.constructed) i = none
    rw [Function.update_of_ne (hi n hle (Nat.lt_succ_self n)).symm]
    exact h.free i fun j hj hj' => hi j hj (Nat.lt_succ_of_lt hj')

/-- The oldest element is destroyed. -/
theorem Tracks.destroy (h : l.Tracks c d n) (hlt : d < n) (hle : n ≤ d + c) :
    (l.step (.destroy (d % c))).Tracks c (d + 1) n where
  constructed := h.constructed
  destroyed := by
    show l.destroyed ++ [l.element (d % c)] = _
    rw [h.destroyed, h.alive d (le_refl d) hlt, List.range_succ, List.map_append]
    rfl
  alive j hj hj' := by
    show Function.update l.element (d % c) none (j % c) = some j
    have hne : j % c ≠ d % c := fun hm => by
      have := mod_inj_of_window (p := d) (by omega) (by omega) (le_refl d) (by omega) hm
      omega
    rw [Function.update_of_ne hne]
    exact h.alive j (by omega) hj'
  free i hi := by
    show Function.update l.element (d % c) none i = none
    by_cases he : i = d % c
    · rw [he, Function.update_self]
    · rw [Function.update_of_ne he]
      refine h.free i fun j hj hj' => ?_
      by_cases hd : j = d
      · exact hd ▸ Ne.symm he
      · exact hi j (by omega) hj'

end Ledger

/-! ## What a step does to the slots -/

namespace SPSCQueue

variable {T : Type} {c k : Nat} {q q' : SPSCQueue T}

/-- How many elements were constructed. -/
def constructed (q : SPSCQueue T) : Nat :=
  match q.pushPc with
  | .store _ _ => q.pushCursor + 1
  | _ => q.pushCursor

/-- How many elements were destroyed. -/
def destroyed (q : SPSCQueue T) : Nat :=
  match q.popPc with
  | .store _ _ => q.popCursor + 1
  | _ => q.popCursor

theorem constructed_le (h : q.Inv c) : q.constructed ≤ q.popCursor + c := by
  have h1 := h.popCached_le
  have h4 := h.push_le
  have hpush := h.pushOk
  unfold PushOk at hpush
  unfold constructed
  cases hpc : q.pushPc with
  | store p w =>
    simp only [hpc] at hpush
    show q.pushCursor + 1 ≤ _
    omega
  | _ => exact h4.trans (Nat.add_le_add_right h1 c)

theorem destroyed_le (h : q.Inv c) : q.destroyed ≤ q.pushCursor := by
  have h2 := h.pop_le
  have h3 := h.pushCached_le
  have hpop := h.popOk
  unfold PopOk at hpop
  unfold destroyed
  cases hpc : q.popPc with
  | store p w =>
    simp only [hpc] at hpop
    show q.popCursor + 1 ≤ _
    omega
  | _ => exact h2.trans h3

theorem popCursor_le_destroyed (q : SPSCQueue T) : q.popCursor ≤ q.destroyed := by
  unfold destroyed
  split
  · exact Nat.le_succ _
  · exact le_refl _

theorem pushCursor_le_constructed (q : SPSCQueue T) : q.pushCursor ≤ q.constructed := by
  unfold constructed
  split
  · exact Nat.le_succ _
  · exact le_refl _

/-- What a step has added: at most one event, in the slot of the next element. -/
inductive Counts (c : Nat) (q : SPSCQueue T) : List SlotEvent → SPSCQueue T → Prop
  | same {q' : SPSCQueue T} :
      q'.constructed = q.constructed → q'.destroyed = q.destroyed → Counts c q [] q'
  | construct {q' : SPSCQueue T} :
      q'.constructed = q.constructed + 1 → q'.destroyed = q.destroyed →
      q.destroyed ≤ q.constructed → q.constructed < q.destroyed + c →
      Counts c q [.construct (q.constructed % c)] q'
  | destroy {q' : SPSCQueue T} :
      q'.constructed = q.constructed → q'.destroyed = q.destroyed + 1 →
      q.destroyed < q.constructed → q.constructed ≤ q.destroyed + c →
      Counts c q [.destroy (q.destroyed % c)] q'

theorem pushStep_counts (h : q.Inv (2 ^ k)) {value : T} {r : Option Bool}
    (hrun : q.pushStep (2 ^ k) value = .ok (q', r)) : q.Counts (2 ^ k) (q.pushEvents (2 ^ k)) q' := by
  have hpush := h.pushOk
  unfold pushStep at hrun
  unfold PushOk at hpush
  unfold pushEvents
  cases hpc : q.pushPc with
  | idle =>
    simp only [hpc] at hrun
    obtain ⟨rfl, -⟩ := Prod.mk.inj (Except.ok.inj hrun)
    exact .same rfl rfl
  | loadPush =>
    simp only [hpc] at hrun
    split_ifs at hrun <;> obtain ⟨rfl, -⟩ := Prod.mk.inj (Except.ok.inj hrun) <;>
      exact .same (by simp only [constructed, hpc]) rfl
  | loadPop p =>
    simp only [hpc] at hrun
    obtain ⟨rfl, -⟩ := Prod.mk.inj (Except.ok.inj hrun)
    exact .same (by simp only [constructed, hpc]) rfl
  | update p r held =>
    simp only [hpc] at hrun
    split_ifs at hrun <;> obtain ⟨rfl, -⟩ := Prod.mk.inj (Except.ok.inj hrun) <;>
      exact .same (by simp only [constructed, hpc]) rfl
  | construct p =>
    simp only [hpc] at hrun hpush
    obtain ⟨rfl, hlt⟩ := hpush
    obtain ⟨cell, -, hcell⟩ := bind_eq_ok.mp hrun
    have hnew : q.constructed = q.pushCursor := by simp only [constructed, hpc]
    have h1 := h.popCached_le
    have h2 := destroyed_le h
    have h3 := popCursor_le_destroyed q
    dsimp only
    rw [and_indexMask, ← hnew]
    cases cell with
    | raw =>
      obtain ⟨rfl, -⟩ := Prod.mk.inj (Except.ok.inj hcell)
      refine .construct (congrArg (· + 1) hnew.symm) rfl (by omega) (by omega)
    | live w => cases hcell
    | moved => cases hcell
  | store p w =>
    simp only [hpc] at hrun hpush
    obtain ⟨rfl, -⟩ := hpush
    obtain ⟨rfl, -⟩ := Prod.mk.inj (Except.ok.inj hrun)
    exact .same (by simp only [constructed, hpc]) rfl

theorem popStep_counts (h : q.Inv (2 ^ k)) {r : Option (Option T)}
    (hrun : q.popStep (2 ^ k) = .ok (q', r)) : q.Counts (2 ^ k) (q.popEvents (2 ^ k)) q' := by
  have hpop := h.popOk
  unfold popStep at hrun
  unfold PopOk at hpop
  unfold popEvents
  cases hpc : q.popPc with
  | idle =>
    simp only [hpc] at hrun
    obtain ⟨rfl, -⟩ := Prod.mk.inj (Except.ok.inj hrun)
    exact .same rfl rfl
  | loadPop =>
    simp only [hpc] at hrun
    split_ifs at hrun <;> obtain ⟨rfl, -⟩ := Prod.mk.inj (Except.ok.inj hrun) <;>
      exact .same rfl (by simp only [destroyed, hpc])
  | loadPush p =>
    simp only [hpc] at hrun
    obtain ⟨rfl, -⟩ := Prod.mk.inj (Except.ok.inj hrun)
    exact .same rfl (by simp only [destroyed, hpc])
  | update p r held =>
    simp only [hpc] at hrun
    split_ifs at hrun <;> obtain ⟨rfl, -⟩ := Prod.mk.inj (Except.ok.inj hrun) <;>
      exact .same rfl (by simp only [destroyed, hpc])
  | move p =>
    simp only [hpc] at hrun
    obtain ⟨cell, -, hcell⟩ := bind_eq_ok.mp hrun
    cases cell with
    | live w =>
      obtain ⟨rfl, -⟩ := Prod.mk.inj (Except.ok.inj hcell)
      exact .same rfl (by simp only [destroyed, hpc])
    | raw => cases hcell
    | moved => cases hcell
  | destroy p w =>
    simp only [hpc] at hrun hpop
    obtain ⟨rfl, hlt, -⟩ := hpop
    obtain ⟨cell, -, hcell⟩ := bind_eq_ok.mp hrun
    have hold : q.destroyed = q.popCursor := by simp only [destroyed, hpc]
    have h1 := h.pushCached_le
    have h2 := pushCursor_le_constructed q
    have h3 := constructed_le h
    dsimp only
    rw [and_indexMask, ← hold]
    cases cell with
    | raw => cases hcell
    | live v =>
      obtain ⟨rfl, -⟩ := Prod.mk.inj (Except.ok.inj hcell)
      exact .destroy rfl (congrArg (· + 1) hold.symm) (by omega) (by omega)
    | moved =>
      obtain ⟨rfl, -⟩ := Prod.mk.inj (Except.ok.inj hcell)
      exact .destroy rfl (congrArg (· + 1) hold.symm) (by omega) (by omega)
  | store p w =>
    simp only [hpc] at hrun hpop
    obtain ⟨rfl, -⟩ := hpop
    obtain ⟨rfl, -⟩ := Prod.mk.inj (Except.ok.inj hrun)
    exact .same rfl (by simp only [destroyed, hpc])

/-- **The ledger follows a step.** -/
theorem Counts.tracks {l : Ledger} {events : List SlotEvent} (hc : q.Counts c events q')
    (h : l.Tracks c q.destroyed q.constructed) :
    (l.run events).Tracks c q'.destroyed q'.constructed := by
  cases hc with
  | same h1 h2 =>
    rw [h1, h2]
    exact h
  | construct h1 h2 hle hlt =>
    rw [h1, h2]
    exact h.construct hle hlt
  | destroy h1 h2 hlt hle =>
    rw [h1, h2]
    exact h.destroy hlt hle

/-! ## Exclusive access -/

theorem Inv.constructing (h : q.Inv c) {p : Nat} (hpc : q.pushPc = .construct p) :
    p = q.pushCursor := by
  have hpush := h.pushOk
  simp only [PushOk, hpc] at hpush
  exact hpush.1

theorem Inv.moving (h : q.Inv c) {p : Nat} (hpc : q.popPc = .move p) :
    p = q.popCursor ∧ q.popCursor < q.pushCursorCached := by
  have hpop := h.popOk
  simpa only [PopOk, hpc] using hpop

theorem Inv.destroying (h : q.Inv c) {p : Nat} {value : T} (hpc : q.popPc = .destroy p value) :
    p = q.popCursor ∧ q.popCursor < q.pushCursorCached := by
  have hpop := h.popOk
  simp only [PopOk, hpc] at hpop
  exact ⟨hpop.1, hpop.2.1⟩

/-- Each thread is about to touch only a slot in the state it needs, and never the other's. -/
structure Exclusive (capacity : Nat) (q : SPSCQueue T) : Prop where
  /-- `push` constructs in raw storage. -/
  construct : ∀ p, q.pushPc = .construct p → q.ring (p &&& indexMask capacity) = .raw
  /-- `pop` reads a live element. -/
  move : ∀ p, q.popPc = .move p → ∃ value, q.ring (p &&& indexMask capacity) = .live value
  /-- `pop` destroys the element it has moved from. -/
  destroy : ∀ p value, q.popPc = .destroy p value → q.ring (p &&& indexMask capacity) = .moved
  /-- The producer and the consumer are never at one slot. -/
  apart : ∀ p p', q.pushPc = .construct p →
    (q.popPc = .move p' ∨ ∃ value, q.popPc = .destroy p' value) →
    p &&& indexMask capacity ≠ p' &&& indexMask capacity

theorem Inv.exclusive (h : q.Inv (2 ^ k)) : q.Exclusive (2 ^ k) where
  construct p hpc := by
    obtain rfl := h.constructing hpc
    rw [and_indexMask]
    exact (h.pushCell hpc).2
  move p hpc := by
    obtain ⟨rfl, hlt⟩ := h.moving hpc
    obtain ⟨value, -, hcell⟩ := h.popCell (Nat.two_pow_pos k) hlt
    rw [and_indexMask, hcell, hpc]
    exact ⟨value, rfl⟩
  destroy p value hpc := by
    obtain ⟨rfl, hlt⟩ := h.destroying hpc
    obtain ⟨value, -, hcell⟩ := h.popCell (Nat.two_pow_pos k) hlt
    rw [and_indexMask, hcell, hpc]
    rfl
  apart p p' hpc hpc' := by
    obtain ⟨rfl, hlt'⟩ : p' = q.popCursor ∧ q.popCursor < q.pushCursorCached := by
      rcases hpc' with hpc' | ⟨value, hpc'⟩
      · exact h.moving hpc'
      · exact h.destroying hpc'
    obtain rfl := h.constructing hpc
    have h1 := h.popCached_le
    have h3 := h.pushCached_le
    obtain ⟨hlt, -⟩ := h.pushCell hpc
    rw [and_indexMask, and_indexMask]
    intro hm
    -- both slots lie in the window that starts at the pop cursor
    have := mod_inj_of_window (p := q.popCursor) (by omega) (by omega) (le_refl _) (by omega) hm
    omega

/-! ## The destructor -/

/-- Both threads stand between operations. -/
def Idle (q : SPSCQueue T) : Prop := q.pushPc = .idle ∧ q.popPc = .idle

/-- The ring holds elements between the cursors and raw storage elsewhere. -/
structure Leftover (c : Nat) (q : SPSCQueue T) : Prop where
  le : q.popCursor ≤ q.pushCursor
  push_le : q.pushCursor ≤ q.popCursor + c
  live : ∀ j, q.popCursor ≤ j → j < q.pushCursor → ∃ value, q.ring (j % c) = .live value
  raw : ∀ j, q.pushCursor ≤ j → j < q.popCursor + c → q.ring (j % c) = .raw

theorem Inv.leftover (h : q.Inv c) (hidle : q.Idle) : q.Leftover c where
  le := h.pop_le.trans h.pushCached_le
  push_le := h.push_le.trans (Nat.add_le_add_right h.popCached_le c)
  live j hj hj' := by
    have h1 := h.popCached_le
    have h4 := h.push_le
    obtain ⟨value, -, he⟩ := expected_of_lt h hj'
    refine ⟨value, (h.ring_eq j hj (by omega)).trans (he.trans ?_)⟩
    rw [hidle.2]
    exact ite_self _
  raw j hj hj' := by
    have hle := h.pop_le.trans h.pushCached_le
    rw [h.ring_eq j (hle.trans hj) hj', expected_of_ge h hj, hidle.1]
    exact ite_self _

/-- The slots with elements are those of the cursors from the pop cursor to the push cursor. -/
theorem Leftover.live_iff (h : q.Leftover (2 ^ k)) {i : Nat} (hi : i < 2 ^ k) :
    (∃ value, q.ring i = .live value) ↔
      ∃ j, q.popCursor ≤ j ∧ j < q.pushCursor ∧ i = j &&& indexMask (2 ^ k) := by
  simp only [and_indexMask]
  constructor
  · rintro ⟨value, hv⟩
    obtain ⟨j, hj, hj', rfl⟩ := exists_mod_of_window q.popCursor hi
    by_cases hlt : j < q.pushCursor
    · exact ⟨j, hj, hlt, rfl⟩
    · rw [h.raw j (Nat.le_of_not_lt hlt) hj'] at hv
      cases hv
  · rintro ⟨j, hj, hj', rfl⟩
    exact h.live j hj hj'

/-- One iteration destroys the oldest element. -/
theorem Leftover.next (h : q.Leftover c) (hlt : q.popCursor < q.pushCursor) :
    Leftover c { q with
      ring := Function.update q.ring (q.popCursor % c) .raw, popCursor := q.popCursor + 1 } := by
  have hle := h.push_le
  have hne : ∀ j, q.popCursor < j → j < q.popCursor + c → j % c ≠ q.popCursor % c :=
    fun j hj hj' hm => by
      have := mod_inj_of_window (p := q.popCursor) (by omega) hj' (le_refl _) (by omega) hm
      omega
  refine ⟨hlt, ?_, fun j hj hj' => ?_, fun j hj hj' => ?_⟩
  · show q.pushCursor ≤ q.popCursor + 1 + c
    omega
  · change q.popCursor + 1 ≤ j at hj
    change j < q.pushCursor at hj'
    show ∃ value, Function.update q.ring (q.popCursor % c) .raw (j % c) = .live value
    rw [Function.update_of_ne (hne j (by omega) (by omega))]
    exact h.live j (by omega) hj'
  · change q.pushCursor ≤ j at hj
    change j < q.popCursor + 1 + c at hj'
    show Function.update q.ring (q.popCursor % c) .raw (j % c) = .raw
    by_cases he : j = q.popCursor + c
    · rw [he, Nat.add_mod_right, Function.update_self]
    · rw [Function.update_of_ne (hne j (by omega) (by omega))]
      exact h.raw j hj (by omega)

/-- **The destructor's loop** takes one iteration for each element left, and destroys them all. -/
theorem destructor_spec (n : Nat) : ∀ {q : SPSCQueue T} {l : Ledger}, q.Leftover (2 ^ k) →
    l.Tracks (2 ^ k) q.popCursor q.pushCursor → q.size = n →
    ∃ q' idxs, (∀ fuel, n < fuel → destructor (2 ^ k) fuel q = .ok (q', idxs)) ∧
      idxs.length = n ∧ (∀ i < 2 ^ k, q'.ring i = .raw) ∧
      (l.run (idxs.map .destroy)).Tracks (2 ^ k) q.pushCursor q.pushCursor := by
  induction n with
  | zero =>
    intro q l h hl hn
    have he : q.popCursor = q.pushCursor :=
      Nat.le_antisymm h.le (Nat.sub_eq_zero_iff_le.mp hn)
    refine ⟨q, [], fun fuel hf => ?_, rfl, fun i hi => ?_, by rwa [he] at hl⟩
    · obtain ⟨m, rfl⟩ := Nat.exists_eq_succ_of_ne_zero (Nat.ne_of_gt hf)
      exact if_pos hn
    · obtain ⟨j, hj, hj', rfl⟩ := exists_mod_of_window q.popCursor hi
      exact h.raw j (he ▸ hj) hj'
  | succ n ih =>
    intro q l h hl hn
    have hlt : q.popCursor < q.pushCursor :=
      Nat.lt_of_sub_ne_zero (show q.size ≠ 0 by rw [hn]; exact Nat.succ_ne_zero n)
    obtain ⟨value, hv⟩ := h.live q.popCursor (le_refl _) hlt
    obtain ⟨q', idxs, hrun, hlen, hraw, htracks⟩ := ih (h.next hlt) (hl.destroy hlt h.push_le)
      (show q.pushCursor - (q.popCursor + 1) = n by unfold size at hn; omega)
    refine ⟨q', q.popCursor % 2 ^ k :: idxs, fun fuel hf => ?_, congrArg (· + 1) hlen, hraw,
      htracks⟩
    obtain ⟨m, rfl⟩ := Nat.exists_eq_succ_of_ne_zero (Nat.ne_of_gt (Nat.zero_lt_of_lt hf))
    have hm : destructor (2 ^ k) m _ = _ := hrun m (Nat.lt_of_succ_lt_succ hf)
    rw [destructor, if_neg (by rw [hn]; exact Nat.succ_ne_zero n)]
    simp only [and_indexMask, index_of_lt (Nat.mod_lt _ (Nat.two_pow_pos k)), ok_bind, hv, hm]
    rfl

end SPSCQueue

/-! ## Runs -/

namespace Traced

variable {T : Type} {k : Nat} {acts : List (Act T)} {t t' : Traced T} {a : Act T}

/-- The ledger of the events so far knows what the cursors say. -/
structure Followed (c : Nat) (t : Traced T) : Prop where
  inv : t.threads.queue.Inv c
  tracks : (Ledger.empty.run t.events).Tracks c t.threads.queue.destroyed
    t.threads.queue.constructed

/-- Every run of the threads has its events. -/
theorem exists_run {c : Nat} {s : Threads T} (h : Run (Threads.Step c) Threads.init acts s) :
    ∃ events, Run (Step c) init acts ⟨s, events⟩ := by
  induction h with
  | nil => exact ⟨[], Run.nil⟩
  | snoc _ hs ih =>
    obtain ⟨events, ht⟩ := ih
    exact ⟨_, ht.snoc ⟨hs, rfl⟩⟩

theorem followed_init (c : Nat) : (init : Traced T).Followed c :=
  ⟨SPSCQueue.inv_init c, Ledger.tracks_empty c⟩

theorem Step.followed (h : t.Followed (2 ^ k)) (hstep : Step (2 ^ k) t a t') :
    t'.Followed (2 ^ k) := by
  obtain ⟨hinv, htracks⟩ := h
  obtain ⟨hs, hevents⟩ := hstep
  refine ⟨hs.inv hinv, ?_⟩
  rw [hevents, Ledger.run, List.foldl_append]
  have hcounts : t.threads.queue.Counts (2 ^ k) (added (2 ^ k) t.threads.queue a)
      t'.threads.queue := by
    generalize t.threads = s at hs hinv ⊢
    generalize t'.threads = s' at hs ⊢
    cases hs with
    | callPush value hidle => exact .same (by simp [SPSCQueue.callPush, SPSCQueue.constructed, hidle]) rfl
    | push _ hrun => exact SPSCQueue.pushStep_counts hinv hrun
    | callPop hidle => exact .same rfl (by simp [SPSCQueue.callPop, SPSCQueue.destroyed, hidle])
    | pop _ hrun => exact SPSCQueue.popStep_counts hinv hrun
  exact hcounts.tracks htracks

end Traced

/-- What the destructor does once both threads have stopped. -/
structure SPSCQueue.Torn {T : Type} (capacity : Nat) (t : Traced T) : Prop where
  /-- The slots with elements are those between the cursors. -/
  live_iff : ∀ i < capacity, (∃ value, t.threads.queue.ring i = .live value) ↔
    ∃ j, t.threads.queue.popCursor ≤ j ∧ j < t.threads.queue.pushCursor ∧
      i = j &&& indexMask capacity
  /-- The destructor's loop ends after one iteration for each; then every element that was ever
  constructed has been destroyed, in its turn, and no slot holds one. -/
  destroys : ∃ q' idxs, (∀ fuel, t.threads.queue.size < fuel →
      destructor capacity fuel t.threads.queue = .ok (q', idxs)) ∧
    idxs.length = t.threads.queue.pushCursor - t.threads.queue.popCursor ∧
    (∀ i < capacity, q'.ring i = .raw) ∧
    let l := Ledger.empty.run (t.events ++ idxs.map .destroy)
    l.destroyed = (List.range l.constructed).map some ∧ ∀ i, l.element i = none

/-- **Slot lifecycle and exclusive access**, in every interleaving of the two threads. -/
theorem lifecycle {T : Type} {k : Nat} {acts : List (Act T)} {t : Traced T}
    (h : Run (Traced.Step (2 ^ k)) Traced.init acts t) :
    t.threads.queue.Exclusive (2 ^ k) ∧
      (t.threads.queue.Idle → SPSCQueue.Torn (2 ^ k) t) := by
  obtain ⟨hinv, htracks⟩ : t.Followed (2 ^ k) :=
    h.invariant (I := fun t => t.Followed (2 ^ k)) (Traced.followed_init _) Traced.Step.followed
  refine ⟨hinv.exclusive, fun hidle => ?_⟩
  have hleft := hinv.leftover hidle
  have hd : t.threads.queue.destroyed = t.threads.queue.popCursor := by
    simp only [SPSCQueue.destroyed, hidle.2]
  have hn : t.threads.queue.constructed = t.threads.queue.pushCursor := by
    simp only [SPSCQueue.constructed, hidle.1]
  rw [hd, hn] at htracks
  obtain ⟨q', idxs, hrun, hlen, hraw, htracks'⟩ :=
    SPSCQueue.destructor_spec _ hleft htracks rfl
  rw [Ledger.run, Ledger.run, ← List.foldl_append] at htracks'
  refine ⟨fun i hi => hleft.live_iff hi, q', idxs, hrun, hlen, hraw, ?_, fun i => ?_⟩
  · exact htracks'.constructed ▸ htracks'.destroyed
  · exact htracks'.free i fun j hj hj' => absurd hj (Nat.not_le_of_lt hj')

/-- Two pushes and a pop in a ring of two; the destructor finds one element. -/
theorem lifecycle_run : ∃ (t : Traced Nat) (acts : List (Act Nat)),
    Run (Traced.Step (2 ^ 1)) Traced.init acts t ∧ acts.filterMap Act.accepted? = [7, 8] ∧
      acts.filterMap Act.popped? = [7] ∧ SPSCQueue.Torn (2 ^ 1) t := by
  have hrun : ∃ s : Threads Nat, Run (Threads.Step (2 ^ 1)) Threads.init
      [.callPush 7, .push 7 none, .push 7 none, .push 7 (some true), .callPush 8, .push 8 none,
        .push 8 none, .push 8 (some true), .callPop, .pop none, .pop none, .pop none, .pop none,
        .pop none, .pop (some (some 7))] s ∧ s.queue.Idle :=
    ⟨_, .cons (.callPush 7 rfl) <| .cons (.push nofun rfl) <| .cons (.push nofun rfl) <|
      .cons (.push nofun rfl) <| .cons (.callPush 8 rfl) <| .cons (.push nofun rfl) <|
      .cons (.push nofun rfl) <| .cons (.push nofun rfl) <| .cons (.callPop rfl) <|
      .cons (.pop nofun rfl) <| .cons (.pop nofun rfl) <| .cons (.pop nofun rfl) <|
      .cons (.pop nofun rfl) <| .cons (.pop nofun rfl) <| .cons (.pop nofun rfl) <| .nil, rfl, rfl⟩
  obtain ⟨s, hs, hidle⟩ := hrun
  obtain ⟨events, ht⟩ := Traced.exists_run hs
  exact ⟨⟨s, events⟩, _, ht, rfl, rfl, (lifecycle ht).2 hidle⟩

end MarketHandler
