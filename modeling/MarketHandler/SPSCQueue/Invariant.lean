import MarketHandler.Lib.Run
import MarketHandler.Lib.Window
import MarketHandler.SPSCQueue

/-!
# The queue is a bounded FIFO

One invariant, `SPSCQueue.Inv`, links the four cursors, the program counters of both threads and the
ring: a window of `capacity` slots starts at the pop cursor and holds what `expected` says: the
accepted values up to the push cursor, the consumer's slot as its step has left it, the producer's
slot once it is constructed, raw storage behind it.

* `pushStep_spec`, `popStep_spec`: a thread's next step never faults and keeps the invariant.
* `pushStep_pushed`, `popStep_popped`: what a step adds to the history is what its call returns.
* `linearizable`: **popped values are a prefix of the accepted ones, the ring holds the rest, and
  calls return false only on a full or an empty queue**.
-/

namespace MarketHandler

open Lib

namespace SPSCQueue

variable {T : Type} {c k : Nat} {q q' : SPSCQueue T}

theorem and_indexMask (x : Nat) : x &&& indexMask (2 ^ k) = x % 2 ^ k := by
  rw [indexMask, if_pos (Nat.two_pow_pos k), Nat.and_two_pow_sub_one_eq_mod]

/-! ## The invariant -/

/-- What a slot inside the accepted window holds when the consumer stands at it. -/
def front (pc : PopPc T) (value : T) : Cell T :=
  match pc with
  | .destroy _ _ => .moved
  | .store _ _ => .raw
  | _ => .live value

/-- What the slot at the push cursor holds. -/
def back (pc : PushPc T) : Cell T :=
  match pc with
  | .store _ value => .live value
  | _ => .raw

/-- What the slot of cursor `j` holds. -/
def expected (q : SPSCQueue T) (j : Nat) : Cell T :=
  match q.accepted[j]? with
  | some value => if j = q.popCursor then front q.popPc value else .live value
  | none => if j = q.pushCursor then back q.pushPc else .raw

/-- What the producer knows at each point of `push`. -/
def PushOk (c : Nat) (q : SPSCQueue T) : Prop :=
  match q.pushPc with
  | .idle => True
  | .loadPush => True
  | .loadPop pushCursor => pushCursor = q.pushCursor
  | .update pushCursor popCursor held => pushCursor = q.pushCursor ∧
      q.popCursorCached ≤ popCursor ∧ popCursor ≤ q.popCursor ∧ held = pushCursor - popCursor
  | .construct pushCursor => pushCursor = q.pushCursor ∧ q.pushCursor < q.popCursorCached + c
  | .store pushCursor _ => pushCursor = q.pushCursor ∧ q.pushCursor < q.popCursorCached + c

/-- What the consumer knows at each point of `pop`. -/
def PopOk (q : SPSCQueue T) : Prop :=
  match q.popPc with
  | .idle => True
  | .loadPop => True
  | .loadPush popCursor => popCursor = q.popCursor
  | .update popCursor pushCursor held => popCursor = q.popCursor ∧
      q.pushCursorCached ≤ pushCursor ∧ pushCursor ≤ q.pushCursor ∧ held = pushCursor - popCursor
  | .move popCursor => popCursor = q.popCursor ∧ q.popCursor < q.pushCursorCached
  | .destroy popCursor value => popCursor = q.popCursor ∧ q.popCursor < q.pushCursorCached ∧
      q.accepted[popCursor]? = some value
  | .store popCursor value => popCursor = q.popCursor ∧ q.popCursor < q.pushCursorCached ∧
      q.accepted[popCursor]? = some value

structure Inv (c : Nat) (q : SPSCQueue T) : Prop where
  popCached_le : q.popCursorCached ≤ q.popCursor
  pop_le : q.popCursor ≤ q.pushCursorCached
  pushCached_le : q.pushCursorCached ≤ q.pushCursor
  push_le : q.pushCursor ≤ q.popCursorCached + c
  pushOk : q.PushOk c
  popOk : q.PopOk
  length_eq : q.accepted.length = q.pushCursor
  popped_eq : q.popped = q.accepted.take q.popCursor
  ring_eq : ∀ j, q.popCursor ≤ j → j < q.popCursor + c → q.ring (j % c) = q.expected j
  rejected_eq : ∀ n ∈ q.rejected, n = c
  starved_eq : ∀ n ∈ q.starved, n = 0

theorem inv_init (c : Nat) : (init : SPSCQueue T).Inv c where
  popCached_le := le_refl _
  pop_le := le_refl _
  pushCached_le := le_refl _
  push_le := Nat.zero_le _
  pushOk := trivial
  popOk := trivial
  length_eq := rfl
  popped_eq := rfl
  ring_eq j _ _ := by
    unfold expected
    show Cell.raw = if j = 0 then .raw else .raw
    split_ifs <;> rfl
  rejected_eq _ h := absurd h List.not_mem_nil
  starved_eq _ h := absurd h List.not_mem_nil

/-- A slot holds the same after a step that keeps cursors, values and what the threads stand at. -/
theorem expected_congr (q q' : SPSCQueue T) (ha : q'.accepted = q.accepted) (hp : q'.popCursor = q.popCursor)
    (hq : q'.pushCursor = q.pushCursor) (hf : front q'.popPc = front q.popPc)
    (hb : back q'.pushPc = back q.pushPc) (j : Nat) : q'.expected j = q.expected j := by
  unfold expected
  rw [ha, hp, hq, hf, hb]

theorem expected_of_lt (h : q.Inv c) {j : Nat} (hj : j < q.pushCursor) :
    ∃ value, q.accepted[j]? = some value ∧
      q.expected j = if j = q.popCursor then front q.popPc value else .live value := by
  have hlt : j < q.accepted.length := h.length_eq.symm ▸ hj
  refine ⟨q.accepted[j], List.getElem?_eq_getElem hlt, ?_⟩
  unfold expected
  rw [List.getElem?_eq_getElem hlt]

theorem expected_of_ge (h : q.Inv c) {j : Nat} (hj : q.pushCursor ≤ j) :
    q.expected j = if j = q.pushCursor then back q.pushPc else .raw := by
  unfold expected
  rw [List.getElem?_eq_none (h.length_eq.symm ▸ hj)]

/-! ## The producer's steps -/

/-- A step that moves only the producer's program counter and what it knows. -/
theorem Inv.pushLocal (h : q.Inv c) (pc : PushPc T) {cached : Nat} {rejected : List Nat}
    (hback : back pc = back q.pushPc) (hle : q.popCursorCached ≤ cached)
    (hle' : cached ≤ q.popCursor)
    (hok : PushOk c { q with pushPc := pc, popCursorCached := cached, rejected := rejected })
    (hrej : ∀ n ∈ rejected, n = c) :
    Inv c { q with pushPc := pc, popCursorCached := cached, rejected := rejected } where
  __ := h
  popCached_le := hle'
  push_le := h.push_le.trans (Nat.add_le_add_right hle c)
  pushOk := hok
  ring_eq j hj hj' := (h.ring_eq j hj hj').trans
    (expected_congr q { q with pushPc := pc } rfl rfl rfl rfl hback j).symm
  rejected_eq := hrej

theorem Inv.callPush (h : q.Inv c) (hidle : q.pushPc = .idle) : q.callPush.Inv c :=
  h.pushLocal _ (by rw [hidle]; rfl) (le_refl _) h.popCached_le trivial h.rejected_eq

/-- The producer's slot is inside the window, and raw until it is constructed. -/
theorem Inv.pushCell (h : q.Inv c) (hpc : q.pushPc = .construct q.pushCursor) :
    q.pushCursor < q.popCursorCached + c ∧ q.ring (q.pushCursor % c) = .raw := by
  have hlt : q.pushCursor < q.popCursorCached + c := by
    have := h.pushOk
    simp only [PushOk, hpc] at this
    exact this.2
  have h1 := h.popCached_le
  have h2 := h.pop_le
  have h3 := h.pushCached_le
  have hexp : q.expected q.pushCursor = .raw := by
    rw [expected_of_ge h (le_refl _), if_pos rfl, hpc]
    rfl
  exact ⟨hlt, (h.ring_eq _ (by omega) (by omega)).trans hexp⟩

/-- Constructing the element at the push cursor. -/
theorem Inv.construct (h : q.Inv c) (value : T) (hpc : q.pushPc = .construct q.pushCursor) :
    Inv c { q with ring := Function.update q.ring (q.pushCursor % c) (.live value)
                   pushPc := .store q.pushCursor value } := by
  obtain ⟨hlt, -⟩ := h.pushCell hpc
  have h1 := h.popCached_le
  have h2 := h.pop_le
  have h3 := h.pushCached_le
  refine { h with pushOk := ⟨rfl, hlt⟩, ring_eq := fun j hj hj' => ?_ }
  show Function.update q.ring (q.pushCursor % c) (.live value) (j % c) = _
  change q.popCursor ≤ j at hj
  change j < q.popCursor + c at hj'
  by_cases he : j = q.pushCursor
  · subst he
    rw [Function.update_self, expected, List.getElem?_eq_none (h.length_eq.symm ▸ le_refl _)]
    exact (if_pos rfl).symm
  · have hne : j % c ≠ q.pushCursor % c := fun hm =>
      he (mod_inj_of_window hj hj' (by omega) (by omega) hm)
    rw [Function.update_of_ne hne, h.ring_eq j hj hj']
    unfold expected
    simp only [if_neg he]

/-- The consumer's knowledge outlasts a publication. -/
theorem PopOk.publish (h : q.PopOk) (pc : PushPc T) (value : T) :
    PopOk { q with
      pushCursor := q.pushCursor + 1, pushPc := pc, accepted := q.accepted ++ [value] } := by
  have hget : ∀ {j v}, q.accepted[j]? = some v → (q.accepted ++ [value])[j]? = some v :=
    fun {j v} hv => by
      rw [List.getElem?_append_left (List.getElem?_eq_some_iff.mp hv).1]
      exact hv
  unfold PopOk at h ⊢
  dsimp only
  cases hpp : q.popPc with
  | idle => trivial
  | loadPop => trivial
  | loadPush p => simpa only [hpp] using h
  | update p r held =>
    simp only [hpp] at h ⊢
    exact ⟨h.1, h.2.1, Nat.le_succ_of_le h.2.2.1, h.2.2.2⟩
  | move p => simpa only [hpp] using h
  | destroy p v =>
    simp only [hpp] at h ⊢
    exact ⟨h.1, h.2.1, hget h.2.2⟩
  | store p v =>
    simp only [hpp] at h ⊢
    exact ⟨h.1, h.2.1, hget h.2.2⟩

/-- The consumer stands before its move if nothing it knows of is left in the ring. -/
theorem Inv.front_of_eq (h : q.Inv c) (he : q.popCursor = q.pushCursor) (value : T) :
    front q.popPc value = .live value := by
  have h2 := h.pushCached_le
  have hpop := h.popOk
  unfold PopOk at hpop
  cases hpp : q.popPc with
  | destroy p v =>
    simp only [hpp] at hpop
    omega
  | store p v =>
    simp only [hpp] at hpop
    omega
  | _ => rfl

/-- A publication changes what no slot holds. -/
theorem Inv.expected_publish (h : q.Inv c) {value : T} (hpc : q.pushPc = .store q.pushCursor value)
    (j : Nat) : expected { q with
      pushCursor := q.pushCursor + 1, pushPc := .idle, accepted := q.accepted ++ [value] } j =
        q.expected j := by
  have hlen := h.length_eq
  rcases Nat.lt_trichotomy j q.pushCursor with hlt | rfl | hgt
  · obtain ⟨v, hv, he⟩ := expected_of_lt h hlt
    have hv' : (q.accepted ++ [value])[j]? = some v := by
      rw [List.getElem?_append_left (hlen.symm ▸ hlt), hv]
    rw [he]
    unfold expected
    simp only [hv']
  · rw [expected_of_ge h (le_refl _), if_pos rfl, hpc]
    have hv : (q.accepted ++ [value])[q.pushCursor]? = some value := by
      rw [← hlen, List.getElem?_append_right (le_refl _), Nat.sub_self]
      rfl
    unfold expected
    simp only [hv]
    -- the published slot is the consumer's only if the queue was empty
    split_ifs with he
    · exact h.front_of_eq he.symm value
    · rfl
  · rw [expected_of_ge h (Nat.le_of_lt hgt), if_neg (Nat.ne_of_gt hgt)]
    have hnone : (q.accepted ++ [value])[j]? = none :=
      List.getElem?_eq_none (by rw [List.length_append, hlen]; exact hgt)
    unfold expected
    simp only [hnone]
    split_ifs <;> rfl

/-- Publishing it. -/
theorem Inv.publish (h : q.Inv c) {value : T} (hpc : q.pushPc = .store q.pushCursor value) :
    Inv c { q with
      pushCursor := q.pushCursor + 1, pushPc := .idle, accepted := q.accepted ++ [value] } := by
  have hlt : q.pushCursor < q.popCursorCached + c := by
    have := h.pushOk
    simp only [PushOk, hpc] at this
    exact this.2
  exact { h with
    pushCached_le := Nat.le_succ_of_le h.pushCached_le
    push_le := hlt
    pushOk := trivial
    popOk := PopOk.publish h.popOk .idle value
    length_eq := by rw [List.length_append, h.length_eq]; rfl
    popped_eq := by
      have hle : q.popCursor ≤ q.accepted.length :=
        h.length_eq.symm ▸ h.pop_le.trans h.pushCached_le
      exact h.popped_eq.trans (List.take_append_of_le_length hle).symm
    ring_eq := fun j hj hj' => (h.ring_eq j hj hj').trans (h.expected_publish hpc j).symm }

/-- **The producer's next step does not fault and keeps the invariant.** -/
theorem pushStep_spec (h : q.Inv (2 ^ k)) (value : T) :
    ∃ q' r, q.pushStep (2 ^ k) value = .ok (q', r) ∧ q'.Inv (2 ^ k) := by
  have hpush := h.pushOk
  have hcap := Nat.two_pow_pos k
  cases hpc : q.pushPc with
  | idle => exact ⟨q, none, by simp only [pushStep, hpc]; rfl, h⟩
  | loadPush =>
    by_cases hfull : full (2 ^ k) q.pushCursor q.popCursorCached = true
    · refine ⟨{ q with pushPc := .loadPop q.pushCursor }, none, ?_,
        h.pushLocal _ (by rw [hpc]; rfl) (le_refl _) h.popCached_le rfl h.rejected_eq⟩
      simp only [pushStep, hpc]
      rw [if_neg (Nat.ne_of_gt hcap), if_pos hfull]
      rfl
    · have hlt : q.pushCursor < q.popCursorCached + 2 ^ k := by
        have : ¬ 2 ^ k ≤ q.pushCursor - q.popCursorCached := by simpa [full] using hfull
        have h1 := h.popCached_le
        have h2 := h.pop_le
        have h3 := h.pushCached_le
        omega
      refine ⟨{ q with pushPc := .construct q.pushCursor }, none, ?_,
        h.pushLocal _ (by rw [hpc]; rfl) (le_refl _) h.popCached_le ⟨rfl, hlt⟩ h.rejected_eq⟩
      simp only [pushStep, hpc]
      rw [if_neg (Nat.ne_of_gt hcap), if_neg hfull]
      rfl
  | loadPop p =>
    obtain rfl : p = q.pushCursor := by simpa only [PushOk, hpc] using hpush
    exact ⟨{ q with pushPc := .update q.pushCursor q.popCursor q.size }, none,
      by simp only [pushStep, hpc]; rfl, h.pushLocal _ (by rw [hpc]; rfl) (le_refl _) h.popCached_le
        ⟨rfl, h.popCached_le, le_refl _, rfl⟩ h.rejected_eq⟩
  | update p r held =>
    simp only [PushOk, hpc] at hpush
    obtain ⟨rfl, hle, hle', rfl⟩ := hpush
    have h2 := h.pop_le
    have h3 := h.pushCached_le
    have h4 := h.push_le
    by_cases hfull : full (2 ^ k) q.pushCursor r = true
    · have hheld : q.pushCursor - r = 2 ^ k := by
        have : 2 ^ k ≤ q.pushCursor - r := by simpa [full] using hfull
        omega
      refine ⟨_, some false, by simp only [pushStep, hpc]; exact if_pos hfull,
        h.pushLocal .idle (by rw [hpc]; rfl) hle hle' trivial fun n hn => ?_⟩
      rcases List.mem_append.mp hn with hn | hn
      · exact h.rejected_eq n hn
      · exact (List.mem_singleton.mp hn).trans hheld
    · have hlt : q.pushCursor < r + 2 ^ k := by
        have : ¬ 2 ^ k ≤ q.pushCursor - r := by simpa [full] using hfull
        omega
      exact ⟨_, none, by simp only [pushStep, hpc]; exact if_neg hfull,
        h.pushLocal (.construct q.pushCursor) (by rw [hpc]; rfl) hle hle' ⟨rfl, hlt⟩
          h.rejected_eq⟩
  | construct p =>
    obtain ⟨rfl, -⟩ : p = q.pushCursor ∧ q.pushCursor < q.popCursorCached + 2 ^ k := by
      simpa only [PushOk, hpc] using hpush
    obtain ⟨-, hraw⟩ := h.pushCell hpc
    refine ⟨_, none, ?_, h.construct value hpc⟩
    simp only [pushStep, hpc, and_indexMask, index_of_lt (Nat.mod_lt _ hcap), ok_bind, hraw]
    rfl
  | store p v =>
    obtain ⟨rfl, -⟩ : p = q.pushCursor ∧ q.pushCursor < q.popCursorCached + 2 ^ k := by
      simpa only [PushOk, hpc] using hpush
    exact ⟨_, some true, by simp only [pushStep, hpc]; rfl, h.publish hpc⟩

/-! ## The consumer's steps -/

/-- A step that moves only the consumer's program counter and what it knows. -/
theorem Inv.popLocal (h : q.Inv c) (pc : PopPc T) {cached : Nat} {starved : List Nat}
    (hfront : front pc = front q.popPc) (hle : q.pushCursorCached ≤ cached)
    (hle' : cached ≤ q.pushCursor)
    (hok : PopOk { q with popPc := pc, pushCursorCached := cached, starved := starved })
    (hst : ∀ n ∈ starved, n = 0) :
    Inv c { q with popPc := pc, pushCursorCached := cached, starved := starved } where
  __ := h
  pop_le := h.pop_le.trans hle
  pushCached_le := hle'
  popOk := hok
  ring_eq j hj hj' := (h.ring_eq j hj hj').trans
    (expected_congr q { q with popPc := pc } rfl rfl rfl hfront rfl j).symm
  starved_eq := hst

theorem Inv.callPop (h : q.Inv c) (hidle : q.popPc = .idle) : q.callPop.Inv c :=
  h.popLocal _ (by rw [hidle]; rfl) (le_refl _) h.pushCached_le trivial h.starved_eq

/-- A step that changes the consumer's slot to what its new program counter says. -/
theorem Inv.popSlot (h : q.Inv c) (pc : PopPc T) {value : T}
    (hv : q.accepted[q.popCursor]? = some value) (hok : PopOk { q with popPc := pc }) :
    Inv c { q with
      ring := Function.update q.ring (q.popCursor % c) (front pc value), popPc := pc } := by
  refine { h with popOk := hok, ring_eq := fun j hj hj' => ?_ }
  show Function.update q.ring (q.popCursor % c) (front pc value) (j % c) = _
  change q.popCursor ≤ j at hj
  change j < q.popCursor + c at hj'
  by_cases he : j = q.popCursor
  · subst he
    rw [Function.update_self, expected]
    simp only [hv, if_true]
  · have hne : j % c ≠ q.popCursor % c := fun hm =>
      he (mod_inj_of_window hj hj' (le_refl _) (by omega) hm)
    rw [Function.update_of_ne hne, h.ring_eq j hj hj']
    unfold expected
    simp only [if_neg he]

/-- What the consumer's slot holds. -/
theorem Inv.popCell (h : q.Inv c) (hc : 0 < c) (hlt : q.popCursor < q.pushCursorCached) :
    ∃ value, q.accepted[q.popCursor]? = some value ∧
      q.ring (q.popCursor % c) = front q.popPc value := by
  have h3 := h.pushCached_le
  obtain ⟨value, hv, he⟩ := expected_of_lt h (j := q.popCursor) (by omega)
  rw [if_pos rfl] at he
  exact ⟨value, hv, (h.ring_eq _ (le_refl _) (by omega)).trans he⟩

/-- The producer's knowledge outlasts a release. -/
theorem PushOk.release (h : q.PushOk c) (pc : PopPc T) (popped : List T) :
    PushOk c { q with popCursor := q.popCursor + 1, popPc := pc, popped := popped } := by
  unfold PushOk at h ⊢
  dsimp only
  cases hpp : q.pushPc with
  | update p r held =>
    simp only [hpp] at h ⊢
    exact ⟨h.1, h.2.1, Nat.le_succ_of_le h.2.2.1, h.2.2.2⟩
  | idle => trivial
  | loadPush => trivial
  | loadPop p => simpa only [hpp] using h
  | construct p => simpa only [hpp] using h
  | store p v => simpa only [hpp] using h

/-- The slot behind the window holds nothing: the producer is not there. -/
theorem Inv.expected_behind (h : q.Inv c) {pc : PopPc T} {popped : List T} :
    expected { q with popCursor := q.popCursor + 1, popPc := pc, popped := popped }
      (q.popCursor + c) = .raw := by
  have h1 := h.popCached_le
  have h3 := h.pushCached_le
  have h4 := h.push_le
  have hnone : q.accepted[q.popCursor + c]? = none :=
    List.getElem?_eq_none (h.length_eq.symm ▸ (by omega : q.pushCursor ≤ q.popCursor + c))
  unfold expected
  simp only [hnone]
  split_ifs with hp
  · have hpush := h.pushOk
    unfold PushOk at hpush
    cases hpp : q.pushPc with
    | store p w =>
      simp only [hpp] at hpush
      omega
    | _ => rfl
  · rfl

/-- Releasing the slot. -/
theorem Inv.release (h : q.Inv c) (hc : 0 < c) {value : T}
    (hpc : q.popPc = .store q.popCursor value) :
    Inv c { q with
      popCursor := q.popCursor + 1, popPc := .idle, popped := q.popped ++ [value] } := by
  have hpop := h.popOk
  simp only [PopOk, hpc] at hpop
  obtain ⟨-, hlt, hv⟩ := hpop
  obtain ⟨v, hv', hcell⟩ := h.popCell hc hlt
  rw [hpc] at hcell
  refine { h with
    popCached_le := Nat.le_succ_of_le h.popCached_le
    pop_le := hlt
    popOk := trivial
    pushOk := PushOk.release h.pushOk .idle _
    popped_eq := ?_
    ring_eq := fun j hj hj' => ?_ }
  · show q.popped ++ [value] = q.accepted.take (q.popCursor + 1)
    rw [List.take_add_one, hv, h.popped_eq]
    rfl
  · change q.popCursor + 1 ≤ j at hj
    change j < q.popCursor + 1 + c at hj'
    show q.ring (j % c) = _
    by_cases he : j = q.popCursor + c
    -- the released slot is the last one of the new window
    · subst he
      rw [Nat.add_mod_right, hcell, h.expected_behind]
      rfl
    · rw [h.ring_eq j (by omega) (by omega)]
      unfold expected
      cases q.accepted[j]? with
      | none => rfl
      | some w =>
        have hne : j ≠ q.popCursor := by omega
        simp only [if_neg hne]
        split_ifs <;> rfl

/-- **The consumer's next step does not fault and keeps the invariant.** -/
theorem popStep_spec (h : q.Inv (2 ^ k)) :
    ∃ q' r, q.popStep (2 ^ k) = .ok (q', r) ∧ q'.Inv (2 ^ k) := by
  have hpop := h.popOk
  have hcap := Nat.two_pow_pos k
  cases hpc : q.popPc with
  | idle => exact ⟨q, none, by simp only [popStep, hpc]; rfl, h⟩
  | loadPop =>
    by_cases hempty : empty q.pushCursorCached q.popCursor = true
    · refine ⟨{ q with popPc := .loadPush q.popCursor }, none, ?_,
        h.popLocal _ (by rw [hpc]; rfl) (le_refl _) h.pushCached_le rfl h.starved_eq⟩
      simp only [popStep, hpc]
      exact if_pos hempty
    · have hlt : q.popCursor < q.pushCursorCached := by
        have : q.pushCursorCached ≠ q.popCursor := by simpa [empty] using hempty
        have := h.pop_le
        omega
      refine ⟨{ q with popPc := .move q.popCursor }, none, ?_,
        h.popLocal _ (by rw [hpc]; rfl) (le_refl _) h.pushCached_le ⟨rfl, hlt⟩ h.starved_eq⟩
      simp only [popStep, hpc]
      exact if_neg hempty
  | loadPush p =>
    obtain rfl : p = q.popCursor := by simpa only [PopOk, hpc] using hpop
    exact ⟨{ q with popPc := .update q.popCursor q.pushCursor q.size }, none,
      by simp only [popStep, hpc]; rfl, h.popLocal _ (by rw [hpc]; rfl) (le_refl _) h.pushCached_le
        ⟨rfl, h.pushCached_le, le_refl _, rfl⟩ h.starved_eq⟩
  | update p r held =>
    simp only [PopOk, hpc] at hpop
    obtain ⟨rfl, hle, hle', rfl⟩ := hpop
    have h2 := h.pop_le
    by_cases hempty : empty r q.popCursor = true
    · have hheld : r - q.popCursor = 0 := by
        have : r = q.popCursor := by simpa [empty] using hempty
        omega
      refine ⟨_, some none, by simp only [popStep, hpc]; exact if_pos hempty,
        h.popLocal .idle (by rw [hpc]; rfl) hle hle' trivial fun n hn => ?_⟩
      rcases List.mem_append.mp hn with hn | hn
      · exact h.starved_eq n hn
      · exact (List.mem_singleton.mp hn).trans hheld
    · have hlt : q.popCursor < r := by
        have : r ≠ q.popCursor := by simpa [empty] using hempty
        omega
      exact ⟨_, none, by simp only [popStep, hpc]; exact if_neg hempty,
        h.popLocal (.move q.popCursor) (by rw [hpc]; rfl) hle hle' ⟨rfl, hlt⟩ h.starved_eq⟩
  | move p =>
    obtain ⟨rfl, hlt⟩ : p = q.popCursor ∧ q.popCursor < q.pushCursorCached := by
      simpa only [PopOk, hpc] using hpop
    obtain ⟨v, hv, hcell⟩ := h.popCell hcap hlt
    rw [hpc] at hcell
    refine ⟨_, none, ?_, h.popSlot (.destroy q.popCursor v) hv ⟨rfl, hlt, hv⟩⟩
    simp only [popStep, hpc, and_indexMask, index_of_lt (Nat.mod_lt _ hcap), ok_bind, hcell, front]
    rfl
  | destroy p w =>
    simp only [PopOk, hpc] at hpop
    obtain ⟨rfl, hlt, hw⟩ := hpop
    obtain ⟨v, hv, hcell⟩ := h.popCell hcap hlt
    rw [hpc] at hcell
    refine ⟨_, none, ?_, h.popSlot (.store q.popCursor w) hw ⟨rfl, hlt, hw⟩⟩
    simp only [popStep, hpc, and_indexMask, index_of_lt (Nat.mod_lt _ hcap), ok_bind, hcell, front]
    rfl
  | store p v =>
    simp only [PopOk, hpc] at hpop
    obtain ⟨rfl, -⟩ := hpop
    exact ⟨_, some (some v), by simp only [popStep, hpc]; rfl, h.release hcap hpc⟩

/-- **No thread's next step faults.** -/
theorem Inv.safe (h : q.Inv (2 ^ k)) : (∀ value, ∃ r, q.pushStep (2 ^ k) value = .ok r) ∧
    ∃ r, q.popStep (2 ^ k) = .ok r := by
  refine ⟨fun value => ?_, ?_⟩
  · obtain ⟨q', r, hr, -⟩ := pushStep_spec h value
    exact ⟨_, hr⟩
  · obtain ⟨q', r, hr, -⟩ := popStep_spec h
    exact ⟨_, hr⟩

/-- A step keeps the invariant. -/
theorem Inv.pushStep (h : q.Inv (2 ^ k)) {value : T} {r : Option Bool}
    (hrun : q.pushStep (2 ^ k) value = .ok (q', r)) : q'.Inv (2 ^ k) := by
  obtain ⟨q₁, r₁, hq₁, hinv⟩ := pushStep_spec h value
  obtain ⟨rfl, -⟩ := Prod.mk.inj (Except.ok.inj (hq₁.symm.trans hrun))
  exact hinv

theorem Inv.popStep (h : q.Inv (2 ^ k)) {r : Option (Option T)}
    (hrun : q.popStep (2 ^ k) = .ok (q', r)) : q'.Inv (2 ^ k) := by
  obtain ⟨q₁, r₁, hq₁, hinv⟩ := popStep_spec h
  obtain ⟨rfl, -⟩ := Prod.mk.inj (Except.ok.inj (hq₁.symm.trans hrun))
  exact hinv

/-! ## FIFO -/

/-- The value the consumer has moved out of the ring and not yet returned. -/
def inHand (q : SPSCQueue T) : List T :=
  match q.popPc with
  | .destroy _ value => [value]
  | .store _ value => [value]
  | _ => []

/-- The slots of the ring from the first element the consumer has not moved out to the last one that
is published. -/
def elements (capacity : Nat) (q : SPSCQueue T) : List (Cell T) :=
  (List.range' (q.popCursor + q.inHand.length)
    (q.pushCursor - (q.popCursor + q.inHand.length))).map fun i => q.ring (i &&& indexMask capacity)

/-- The queue has behaved as a bounded FIFO. -/
structure Linearized (capacity : Nat) (q : SPSCQueue T) : Prop where
  /-- Accepted values were returned in order, the rest are what the ring holds. -/
  fifo : ∃ held, q.accepted = q.popped ++ q.inHand ++ held ∧ q.elements capacity = held.map .live
  /-- The ring holds no other element, except one constructed and not yet published. -/
  only : ∀ i < capacity, ∀ value, q.ring i = .live value →
    (∃ j, q.popCursor ≤ j ∧ j < q.pushCursor ∧ i = j % capacity) ∨
      (q.pushPc = .store q.pushCursor value ∧ i = q.pushCursor % capacity)
  /-- A push that returned false found the queue full. -/
  rejected : ∀ held ∈ q.rejected, held = capacity
  /-- A pop that returned false found it empty. -/
  starved : ∀ held ∈ q.starved, held = 0
  cursors : q.popCursorCached ≤ q.popCursor ∧ q.popCursor ≤ q.pushCursorCached ∧
    q.pushCursorCached ≤ q.pushCursor ∧ q.pushCursor ≤ q.popCursorCached + capacity

theorem getElem?_eq_expected (h : q.Inv c) {j : Nat} (hj : q.popCursor + q.inHand.length ≤ j)
    (hj' : j < q.pushCursor) : ∃ value, q.accepted[j]? = some value ∧ q.ring (j % c) = .live value := by
  have h1 := h.popCached_le
  have h4 := h.push_le
  obtain ⟨value, hv, he⟩ := expected_of_lt h hj'
  have hring := h.ring_eq j (by omega) (by omega)
  refine ⟨value, hv, hring.trans (he.trans ?_)⟩
  split_ifs with hp
  · subst hp
    unfold inHand at hj
    unfold front
    cases hpp : q.popPc with
    | destroy p v => simp [hpp] at hj
    | store p v => simp [hpp] at hj
    | _ => rfl
  · rfl

/-- The values before the held ones are those popped and the one in hand. -/
theorem take_inHand (h : q.Inv c) :
    q.accepted.take (q.popCursor + q.inHand.length) = q.popped ++ q.inHand := by
  have hpop := h.popOk
  unfold PopOk at hpop
  unfold inHand
  rw [h.popped_eq]
  cases hpp : q.popPc with
  | destroy p v =>
    simp only [hpp] at hpop
    obtain ⟨rfl, -, hv⟩ := hpop
    simp only [List.length_singleton, List.take_add_one, hv, Option.toList_some]
  | store p v =>
    simp only [hpp] at hpop
    obtain ⟨rfl, -, hv⟩ := hpop
    simp only [List.length_singleton, List.take_add_one, hv, Option.toList_some]
  | _ => exact (List.append_nil _).symm

theorem inHand_le (h : q.Inv c) : q.popCursor + q.inHand.length ≤ q.pushCursor := by
  have hpop := h.popOk
  have h2 := h.pop_le
  have h3 := h.pushCached_le
  unfold PopOk at hpop
  unfold inHand
  cases hpp : q.popPc with
  | destroy p v =>
    simp only [hpp] at hpop
    show q.popCursor + 1 ≤ _
    omega
  | store p v =>
    simp only [hpp] at hpop
    show q.popCursor + 1 ≤ _
    omega
  | _ => exact h2.trans h3

theorem Inv.linearized (h : q.Inv (2 ^ k)) : q.Linearized (2 ^ k) where
  fifo := by
    refine ⟨q.accepted.drop (q.popCursor + q.inHand.length), ?_, ?_⟩
    · rw [← take_inHand h, List.take_append_drop]
    · have hle := inHand_le h
      refine List.ext_getElem? fun i => ?_
      simp only [elements, List.getElem?_map, List.getElem?_drop]
      by_cases hi : i < q.pushCursor - (q.popCursor + q.inHand.length)
      · obtain ⟨value, hv, hring⟩ := getElem?_eq_expected h
          (j := q.popCursor + q.inHand.length + i) (by omega) (by omega)
        rw [hv, List.getElem?_range' hi, Option.map_some, Option.map_some, and_indexMask, Nat.one_mul,
          hring]
      · rw [List.getElem?_eq_none (by rw [List.length_range']; omega),
          List.getElem?_eq_none (by rw [h.length_eq]; omega)]
        rfl
  only i hi value hv := by
    -- the cursor of the window whose slot is `i`
    obtain ⟨j, hj, hj', rfl⟩ := exists_mod_of_window q.popCursor hi
    by_cases hlt : j < q.pushCursor
    · exact Or.inl ⟨j, hj, hlt, rfl⟩
    · rw [h.ring_eq j hj hj', expected_of_ge h (Nat.le_of_not_lt hlt)] at hv
      split_ifs at hv with he
      subst he
      have hpush := h.pushOk
      unfold PushOk at hpush
      unfold back at hv
      cases hpp : q.pushPc with
      | store p w =>
        simp only [hpp, Cell.live.injEq] at hpush hv
        rw [hpush.1, hv]
        exact Or.inr ⟨rfl, rfl⟩
      | _ => simp [hpp] at hv
  rejected := h.rejected_eq
  starved := h.starved_eq
  cursors := ⟨h.popCached_le, h.pop_le, h.pushCached_le, h.push_le⟩

/-! ## What a step adds to the history -/

/-- The producer publishes nothing but `value`. -/
def Holds (q : SPSCQueue T) (value : T) : Prop := ∀ p w, q.pushPc = .store p w → w = value

theorem holds_of_idle {value : T} (h : q.pushPc = .idle) : q.Holds value := fun p w hw => by
  rw [h] at hw
  cases hw

/-- What a step of `push(value)` that returned `r` has changed. -/
structure Pushed (q : SPSCQueue T) (value : T) (r : Option Bool) (q' : SPSCQueue T) : Prop where
  accepted : q'.accepted = q.accepted ++ (Act.push value r).accepted?.toList
  rejected : q'.rejected.length = q.rejected.length + (Act.push value r).rejects.toNat
  idle : q'.pushPc = .idle ↔ r ≠ none
  holds : q'.Holds value
  popped : q'.popped = q.popped
  starved : q'.starved = q.starved
  popPc : q'.popPc = q.popPc

/-- What a step of `pop` that returned `r` has changed. -/
structure Popped (q : SPSCQueue T) (r : Option (Option T)) (q' : SPSCQueue T) : Prop where
  popped : q'.popped = q.popped ++ (Act.pop r).popped?.toList
  starved : q'.starved.length = q.starved.length + (Act.pop r).starves.toNat
  idle : q'.popPc = .idle ↔ r ≠ none
  accepted : q'.accepted = q.accepted
  rejected : q'.rejected = q.rejected
  pushPc : q'.pushPc = q.pushPc

/-- A step of `push` inside the call, which keeps the history. -/
theorem pushed_none {value : T} {pc : PushPc T} {cached : Nat} {ring : Nat → Cell T}
    (hidle : pc ≠ .idle) (hpc : ∀ p w, pc = .store p w → w = value) :
    Pushed q value none
      { q with ring := ring, popCursorCached := cached, pushPc := pc } where
  accepted := (List.append_nil _).symm
  rejected := rfl
  idle := iff_of_false hidle (not_not_intro rfl)
  holds := hpc
  popped := rfl
  starved := rfl
  popPc := rfl

/-- The last step of a `push` that returns false. -/
theorem pushed_false {value : T} {cached held : Nat} :
    Pushed q value (some false)
      { q with popCursorCached := cached, pushPc := .idle, rejected := q.rejected ++ [held] } where
  accepted := (List.append_nil _).symm
  rejected := List.length_append
  idle := iff_of_true rfl nofun
  holds := nofun
  popped := rfl
  starved := rfl
  popPc := rfl

theorem pushStep_pushed {value : T} {r : Option Bool} (hidle : q.pushPc ≠ .idle)
    (hholds : q.Holds value) (h : q.pushStep c value = .ok (q', r)) : Pushed q value r q' := by
  unfold pushStep at h
  cases hpc : q.pushPc with
  | idle => exact absurd hpc hidle
  | loadPush =>
    simp only [hpc] at h
    split_ifs at h <;> obtain ⟨rfl, rfl⟩ := Prod.mk.inj (Except.ok.inj h)
    · exact pushed_false
    · exact pushed_none nofun nofun
    · exact pushed_none nofun nofun
  | loadPop p =>
    simp only [hpc] at h
    obtain ⟨rfl, rfl⟩ := Prod.mk.inj (Except.ok.inj h)
    exact pushed_none nofun nofun
  | update p r held =>
    simp only [hpc] at h
    split_ifs at h <;> obtain ⟨rfl, rfl⟩ := Prod.mk.inj (Except.ok.inj h)
    · exact pushed_false
    · exact pushed_none nofun nofun
  | construct p =>
    simp only [hpc] at h
    obtain ⟨cell, -, hcell⟩ := bind_eq_ok.mp h
    cases cell with
    | raw =>
      obtain ⟨rfl, rfl⟩ := Prod.mk.inj (Except.ok.inj hcell)
      exact pushed_none nofun fun p w hw => by injection hw with _ hw; exact hw.symm
    | live w => cases hcell
    | moved => cases hcell
  | store p w =>
    simp only [hpc] at h
    obtain ⟨rfl, rfl⟩ := Prod.mk.inj (Except.ok.inj h)
    obtain rfl := hholds p w hpc
    exact { accepted := rfl, rejected := rfl, idle := iff_of_true rfl nofun, holds := nofun,
            popped := rfl, starved := rfl, popPc := rfl }

/-- A step of `pop` inside the call. -/
theorem popped_none {pc : PopPc T} {cached : Nat} {ring : Nat → Cell T} (hidle : pc ≠ .idle) :
    Popped q none { q with ring := ring, pushCursorCached := cached, popPc := pc } where
  popped := (List.append_nil _).symm
  starved := rfl
  idle := iff_of_false hidle (not_not_intro rfl)
  accepted := rfl
  rejected := rfl
  pushPc := rfl

theorem popStep_popped {r : Option (Option T)} (hidle : q.popPc ≠ .idle)
    (h : q.popStep c = .ok (q', r)) : Popped q r q' := by
  unfold popStep at h
  cases hpc : q.popPc with
  | idle => exact absurd hpc hidle
  | loadPop =>
    simp only [hpc] at h
    split_ifs at h <;> obtain ⟨rfl, rfl⟩ := Prod.mk.inj (Except.ok.inj h)
    · exact popped_none nofun
    · exact popped_none nofun
  | loadPush p =>
    simp only [hpc] at h
    obtain ⟨rfl, rfl⟩ := Prod.mk.inj (Except.ok.inj h)
    exact popped_none nofun
  | update p r held =>
    simp only [hpc] at h
    split_ifs at h <;> obtain ⟨rfl, rfl⟩ := Prod.mk.inj (Except.ok.inj h)
    · exact { popped := (List.append_nil _).symm, starved := List.length_append,
              idle := iff_of_true rfl nofun, accepted := rfl, rejected := rfl, pushPc := rfl }
    · exact popped_none nofun
  | move p =>
    simp only [hpc] at h
    obtain ⟨cell, -, hcell⟩ := bind_eq_ok.mp h
    cases cell with
    | live w =>
      obtain ⟨rfl, rfl⟩ := Prod.mk.inj (Except.ok.inj hcell)
      exact popped_none nofun
    | raw => cases hcell
    | moved => cases hcell
  | destroy p w =>
    simp only [hpc] at h
    obtain ⟨cell, -, hcell⟩ := bind_eq_ok.mp h
    cases cell with
    | raw => cases hcell
    | live v =>
      obtain ⟨rfl, rfl⟩ := Prod.mk.inj (Except.ok.inj hcell)
      exact popped_none nofun
    | moved =>
      obtain ⟨rfl, rfl⟩ := Prod.mk.inj (Except.ok.inj hcell)
      exact popped_none nofun
  | store p w =>
    simp only [hpc] at h
    obtain ⟨rfl, rfl⟩ := Prod.mk.inj (Except.ok.inj h)
    exact { popped := rfl, starved := rfl, idle := iff_of_true rfl nofun, accepted := rfl,
            rejected := rfl, pushPc := rfl }

end SPSCQueue

/-! ## Runs -/

namespace Threads

variable {T : Type} {c k : Nat} {acts : List (Act T)} {s s' : Threads T} {a : Act T}

theorem Step.inv (h : s.queue.Inv (2 ^ k)) (hstep : Step (2 ^ k) s a s') :
    s'.queue.Inv (2 ^ k) := by
  cases hstep with
  | callPush value hidle => exact h.callPush hidle
  | push _ hrun => exact h.pushStep hrun
  | callPop hidle => exact h.callPop hidle
  | pop _ hrun => exact h.popStep hrun

/-- The queue's lists are what the calls have returned. -/
structure Returned (acts : List (Act T)) (s : Threads T) : Prop where
  accepted : s.queue.accepted = acts.filterMap Act.accepted?
  popped : s.queue.popped = acts.filterMap Act.popped?
  rejected : s.queue.rejected.length = acts.countP Act.rejects
  starved : s.queue.starved.length = acts.countP Act.starves

theorem Step.holds (h : ∀ value ∈ s.value, s.queue.Holds value) (hstep : Step c s a s') :
    ∀ value ∈ s'.value, s'.queue.Holds value := by
  cases hstep with
  | callPush value hidle => exact fun w _ => nofun
  | push hidle hrun =>
    exact fun w hw => Option.some.inj hw ▸ (SPSCQueue.pushStep_pushed hidle (h _ rfl) hrun).holds
  | callPop hidle => exact h
  | pop hidle hrun =>
    exact fun w hw p v hv => h w hw p v ((SPSCQueue.popStep_popped hidle hrun).pushPc ▸ hv)

theorem Step.returned (hholds : ∀ value ∈ s.value, s.queue.Holds value) (h : s.Returned acts)
    (hstep : Step c s a s') : s'.Returned (acts ++ [a]) := by
  obtain ⟨h1, h2, h3, h4⟩ := h
  cases hstep with
  | callPush value hidle =>
    refine ⟨?_, ?_, ?_, ?_⟩
    · rwa [filterMap_snoc_none rfl]
    · rwa [filterMap_snoc_none rfl]
    · rwa [countP_snoc_false rfl]
    · rwa [countP_snoc_false rfl]
  | push hidle hrun =>
    have hp := SPSCQueue.pushStep_pushed hidle (hholds _ rfl) hrun
    refine ⟨?_, ?_, ?_, ?_⟩
    · rw [filterMap_snoc, ← h1, hp.accepted]
    · rw [filterMap_snoc_none rfl, ← h2, hp.popped]
    · rw [countP_snoc, ← h3, hp.rejected]
    · rw [countP_snoc_false rfl, ← h4, hp.starved]
  | callPop hidle =>
    refine ⟨?_, ?_, ?_, ?_⟩
    · rwa [filterMap_snoc_none rfl]
    · rwa [filterMap_snoc_none rfl]
    · rwa [countP_snoc_false rfl]
    · rwa [countP_snoc_false rfl]
  | pop hidle hrun =>
    have hp := SPSCQueue.popStep_popped hidle hrun
    refine ⟨?_, ?_, ?_, ?_⟩
    · rw [filterMap_snoc_none rfl, ← h1, hp.accepted]
    · rw [filterMap_snoc, ← h2, hp.popped]
    · rw [countP_snoc_false rfl, ← h3, hp.rejected]
    · rw [countP_snoc, ← h4, hp.starved]

end Threads

/-- In every run the queue keeps its invariant and its lists are what the calls have returned. -/
theorem Threads.run_spec {T : Type} {k : Nat} {acts : List (Act T)} {s : Threads T}
    (h : Run (Threads.Step (2 ^ k)) Threads.init acts s) :
    s.queue.Inv (2 ^ k) ∧ s.Returned acts := by
  have hinv : s.queue.Inv (2 ^ k) :=
    h.invariant (I := fun s => s.queue.Inv (2 ^ k)) (SPSCQueue.inv_init _) Threads.Step.inv
  have hret : (∀ value ∈ s.value, s.queue.Holds value) ∧ s.Returned acts :=
    h.history (I := fun acts s => (∀ value ∈ s.value, s.queue.Holds value) ∧ s.Returned acts)
      ⟨nofun, rfl, rfl, rfl, rfl⟩ fun hi hs => ⟨hs.holds hi.1, hs.returned hi.1 hi.2⟩
  exact ⟨hinv, hret.2⟩

/-- **`SPSCQueue` is a linearizable bounded FIFO** in every state that an interleaving of the two
threads reaches; its history is what the calls have returned, and no thread's next step faults. -/
theorem linearizable {T : Type} {k : Nat} {acts : List (Act T)} {s : Threads T}
    (h : Run (Threads.Step (2 ^ k)) Threads.init acts s) :
    s.queue.Linearized (2 ^ k) ∧ s.Returned acts ∧
      (∀ value, ∃ r, s.queue.pushStep (2 ^ k) value = .ok r) ∧
      ∃ r, s.queue.popStep (2 ^ k) = .ok r := by
  obtain ⟨hinv, hret⟩ := Threads.run_spec h
  exact ⟨hinv.linearized, hret, hinv.safe⟩

/-- Two pushes into a ring of two, with the first pop standing between its move and its cursor
store. -/
theorem linearizable_run : ∃ s : Threads Nat, Run (Threads.Step (2 ^ 1)) Threads.init
    [.callPush 7, .push 7 none, .push 7 none, .push 7 (some true), .callPop, .pop none, .pop none,
      .callPush 8, .push 8 none, .pop none, .pop none, .pop none, .push 8 none,
      .push 8 (some true)] s ∧ s.queue.Linearized (2 ^ 1) ∧ s.queue.accepted = [7, 8] := by
  have hrun : ∃ s : Threads Nat, Run (Threads.Step (2 ^ 1)) Threads.init
      [.callPush 7, .push 7 none, .push 7 none, .push 7 (some true), .callPop, .pop none, .pop none,
        .callPush 8, .push 8 none, .pop none, .pop none, .pop none, .push 8 none,
        .push 8 (some true)] s :=
    ⟨_, .cons (.callPush 7 rfl) <| .cons (.push nofun rfl) <| .cons (.push nofun rfl) <|
      .cons (.push nofun rfl) <| .cons (.callPop rfl) <| .cons (.pop nofun rfl) <|
      .cons (.pop nofun rfl) <| .cons (.callPush 8 rfl) <| .cons (.push nofun rfl) <|
      .cons (.pop nofun rfl) <| .cons (.pop nofun rfl) <| .cons (.pop nofun rfl) <|
      .cons (.push nofun rfl) <| .cons (.push nofun rfl) <| .nil⟩
  obtain ⟨s, hs⟩ := hrun
  obtain ⟨hlin, hret, -⟩ := linearizable hs
  exact ⟨s, hs, hlin, hret.accepted⟩

end MarketHandler
