import MarketHandler.SPSCQueue.Invariant

/-!
# Calls of the queue are wait-free

`push` and `pop` have no loop and no step that waits for the other thread. `PushPc.left` and
`PopPc.left` bound the steps a call still takes; a thread's own step lowers its bound, and the other
thread's steps leave it alone.

* `pushStep_left`, `popStep_left`: one step.
* `Threads.push_budget`, `Threads.pop_budget`: the steps of a call that has not returned yet.
* `wait_free`: **whatever the other thread does, a push returns by its fifth step and a pop by its
  sixth**, and the next step can always be taken.
-/

namespace MarketHandler

open Lib

variable {T : Type} {c k : Nat} {q q' : SPSCQueue T} {s s' : Threads T} {as bs : List (Act T)}
  {value : T}

/-- The steps that `push` takes at most from here. -/
def PushPc.left : PushPc T → Nat
  | .idle => 0
  | .loadPush => 5
  | .loadPop _ => 4
  | .update _ _ _ => 3
  | .construct _ => 2
  | .store _ _ => 1

/-- The steps that `pop` takes at most from here. -/
def PopPc.left : PopPc T → Nat
  | .idle => 0
  | .loadPop => 6
  | .loadPush _ => 5
  | .update _ _ _ => 4
  | .move _ => 3
  | .destroy _ _ => 2
  | .store _ _ => 1

/-- A step of `push`, and not the call. -/
def Act.isPush : Act T → Bool
  | .push _ _ => true
  | _ => false

/-- A step of `pop`, and not the call. -/
def Act.isPop : Act T → Bool
  | .pop _ => true
  | _ => false

theorem PushPc.left_pos {pc : PushPc T} (h : pc ≠ .idle) : 0 < pc.left := by
  cases pc with
  | idle => exact absurd rfl h
  | _ => exact Nat.succ_pos _

theorem PopPc.left_pos {pc : PopPc T} (h : pc ≠ .idle) : 0 < pc.left := by
  cases pc with
  | idle => exact absurd rfl h
  | _ => exact Nat.succ_pos _

namespace SPSCQueue

/-- **A step of `push` leaves fewer of them.** -/
theorem pushStep_left {r : Option Bool} (hidle : q.pushPc ≠ .idle)
    (h : q.pushStep c value = .ok (q', r)) : q'.pushPc.left < q.pushPc.left := by
  unfold pushStep at h
  cases hpc : q.pushPc with
  | idle => exact absurd hpc hidle
  | loadPush =>
    simp only [hpc] at h
    split_ifs at h <;> obtain ⟨rfl, -⟩ := Prod.mk.inj (Except.ok.inj h) <;>
      simp only [PushPc.left] <;> omega
  | loadPop p =>
    simp only [hpc] at h
    obtain ⟨rfl, -⟩ := Prod.mk.inj (Except.ok.inj h)
    exact Nat.lt_succ_self _
  | update p r held =>
    simp only [hpc] at h
    split_ifs at h <;> obtain ⟨rfl, -⟩ := Prod.mk.inj (Except.ok.inj h) <;>
      simp only [PushPc.left] <;> omega
  | construct p =>
    simp only [hpc] at h
    obtain ⟨cell, -, hcell⟩ := bind_eq_ok.mp h
    cases cell with
    | raw =>
      obtain ⟨rfl, -⟩ := Prod.mk.inj (Except.ok.inj hcell)
      exact Nat.lt_succ_self _
    | live w => cases hcell
    | moved => cases hcell
  | store p w =>
    simp only [hpc] at h
    obtain ⟨rfl, -⟩ := Prod.mk.inj (Except.ok.inj h)
    exact Nat.lt_succ_self _

/-- **A step of `pop` leaves fewer of them.** -/
theorem popStep_left {r : Option (Option T)} (hidle : q.popPc ≠ .idle)
    (h : q.popStep c = .ok (q', r)) : q'.popPc.left < q.popPc.left := by
  unfold popStep at h
  cases hpc : q.popPc with
  | idle => exact absurd hpc hidle
  | loadPop =>
    simp only [hpc] at h
    split_ifs at h <;> obtain ⟨rfl, -⟩ := Prod.mk.inj (Except.ok.inj h) <;>
      simp only [PopPc.left] <;> omega
  | loadPush p =>
    simp only [hpc] at h
    obtain ⟨rfl, -⟩ := Prod.mk.inj (Except.ok.inj h)
    exact Nat.lt_succ_self _
  | update p r held =>
    simp only [hpc] at h
    split_ifs at h <;> obtain ⟨rfl, -⟩ := Prod.mk.inj (Except.ok.inj h) <;>
      simp only [PopPc.left] <;> omega
  | move p =>
    simp only [hpc] at h
    obtain ⟨cell, -, hcell⟩ := bind_eq_ok.mp h
    cases cell with
    | live w =>
      obtain ⟨rfl, -⟩ := Prod.mk.inj (Except.ok.inj hcell)
      exact Nat.lt_succ_self _
    | raw => cases hcell
    | moved => cases hcell
  | destroy p w =>
    simp only [hpc] at h
    obtain ⟨cell, -, hcell⟩ := bind_eq_ok.mp h
    cases cell with
    | raw => cases hcell
    | live v =>
      obtain ⟨rfl, -⟩ := Prod.mk.inj (Except.ok.inj hcell)
      exact Nat.lt_succ_self _
    | moved =>
      obtain ⟨rfl, -⟩ := Prod.mk.inj (Except.ok.inj hcell)
      exact Nat.lt_succ_self _
  | store p w =>
    simp only [hpc] at h
    obtain ⟨rfl, -⟩ := Prod.mk.inj (Except.ok.inj h)
    exact Nat.lt_succ_self _

end SPSCQueue

namespace Threads

theorem run_holds (h : Run (Step c) init as s) : ∀ value ∈ s.value, s.queue.Holds value :=
  h.invariant (I := fun s => ∀ value ∈ s.value, s.queue.Holds value) nofun Step.holds

/-- In a run in which the open push does not return. -/
theorem push_budget (h : Run (Step c) s bs s') (hholds : ∀ value ∈ s.value, s.queue.Holds value)
    (hopen : s.queue.pushPc ≠ .idle) (hret : ∀ value r, .push value (some r) ∉ bs) :
    s'.queue.pushPc ≠ .idle ∧ s'.value = s.value ∧
      bs.countP Act.isPush + s'.queue.pushPc.left ≤ s.queue.pushPc.left := by
  refine (h.history (I := fun bs s' => (∀ value r, .push value (some r) ∉ bs) →
    (∀ value ∈ s'.value, s'.queue.Holds value) ∧ s'.queue.pushPc ≠ .idle ∧ s'.value = s.value ∧
      bs.countP Act.isPush + s'.queue.pushPc.left ≤ s.queue.pushPc.left)
    (fun _ => ⟨hholds, hopen, rfl, by simp⟩) ?_ hret).2
  intro bs s₁ a s₂ ih hs hret
  obtain ⟨hholds, hopen, hvalue, hle⟩ :=
    ih fun value r hm => hret value r (List.mem_append_left _ hm)
  refine ⟨hs.holds hholds, ?_⟩
  cases hs with
  | callPush value hidle => exact absurd hidle hopen
  | @push q q' value r hidle hrun =>
    have hp := SPSCQueue.pushStep_pushed hidle (hholds _ rfl) hrun
    have hlt := SPSCQueue.pushStep_left hidle hrun
    have hr : r = none := by
      cases r with
      | none => rfl
      | some r => exact absurd (List.mem_append_right _ List.mem_cons_self) (hret value r)
    refine ⟨fun hi => hp.idle.mp hi hr, hvalue, ?_⟩
    rw [countP_snoc]
    simp only [Act.isPush, Bool.toNat_true] at hle hlt ⊢
    omega
  | callPop hidle =>
    rw [countP_snoc_false rfl]
    exact ⟨hopen, hvalue, hle⟩
  | @pop q q' value r hidle hrun =>
    have hp := SPSCQueue.popStep_popped hidle hrun
    rw [countP_snoc_false rfl, hp.pushPc]
    exact ⟨hopen, hvalue, hle⟩

/-- In a run in which the open pop does not return. -/
theorem pop_budget (h : Run (Step c) s bs s') (hholds : ∀ value ∈ s.value, s.queue.Holds value)
    (hopen : s.queue.popPc ≠ .idle) (hret : ∀ r, .pop (some r) ∉ bs) :
    s'.queue.popPc ≠ .idle ∧ bs.countP Act.isPop + s'.queue.popPc.left ≤ s.queue.popPc.left := by
  refine (h.history (I := fun bs s' => (∀ r, .pop (some r) ∉ bs) →
    (∀ value ∈ s'.value, s'.queue.Holds value) ∧ s'.queue.popPc ≠ .idle ∧
      bs.countP Act.isPop + s'.queue.popPc.left ≤ s.queue.popPc.left)
    (fun _ => ⟨hholds, hopen, by simp⟩) ?_ hret).2
  intro bs s₁ a s₂ ih hs hret
  obtain ⟨hholds, hopen, hle⟩ := ih fun r hm => hret r (List.mem_append_left _ hm)
  refine ⟨hs.holds hholds, ?_⟩
  cases hs with
  | callPush value hidle =>
    rw [countP_snoc_false rfl]
    exact ⟨hopen, hle⟩
  | @push q q' value r hidle hrun =>
    have hp := SPSCQueue.pushStep_pushed hidle (hholds _ rfl) hrun
    rw [countP_snoc_false rfl, hp.popPc]
    exact ⟨hopen, hle⟩
  | callPop hidle => exact absurd hidle hopen
  | @pop q q' value r hidle hrun =>
    have hp := SPSCQueue.popStep_popped hidle hrun
    have hlt := SPSCQueue.popStep_left hidle hrun
    have hr : r = none := by
      cases r with
      | none => rfl
      | some r => exact absurd (List.mem_append_right _ List.mem_cons_self) (hret r)
    refine ⟨fun hi => hp.idle.mp hi hr, ?_⟩
    rw [countP_snoc]
    simp only [Act.isPop, Bool.toNat_true] at hle hlt ⊢
    omega

end Threads

/-- **`push` and `pop` are wait-free.** After the call of a push at most four of its steps return
nothing, so the fifth returns at the latest, and at most five of a pop's, whatever the other thread
does in between; and an open call can take its next step in every state. -/
theorem wait_free {T : Type} {k : Nat} {as bs : List (Act T)} {a : Act T} {s : Threads T}
    (h : Run (Threads.Step (2 ^ k)) Threads.init (as ++ a :: bs) s) :
    (∀ value, a = .callPush value → (∀ w r, .push w (some r) ∉ bs) →
      bs.countP Act.isPush ≤ 4 ∧ ∃ w r s', Threads.Step (2 ^ k) s (.push w r) s') ∧
    (a = .callPop → (∀ r, .pop (some r) ∉ bs) →
      bs.countP Act.isPop ≤ 5 ∧ ∃ r s', Threads.Step (2 ^ k) s (.pop r) s') := by
  obtain ⟨hpush, q', hpop⟩ := (Threads.run_spec h).1.safe
  obtain ⟨s₀, hbefore, hafter⟩ := h.split
  obtain ⟨s₁, hcall, hrest⟩ := hafter.cons_inv
  have hholds := hcall.holds (Threads.run_holds hbefore)
  constructor
  · rintro value rfl hret
    cases hcall with
    | @callPush q old _ hidle =>
      obtain ⟨hopen, hvalue, hle⟩ := Threads.push_budget hrest hholds nofun hret
      have hpos := PushPc.left_pos hopen
      refine ⟨?_, ?_⟩
      · have hle : bs.countP Act.isPush + s.queue.pushPc.left ≤ 5 := hle
        omega
      · obtain ⟨⟨q', r⟩, hrun⟩ := hpush value
        obtain ⟨q, _⟩ := s
        obtain rfl : _ = some value := hvalue
        exact ⟨value, r, _, .push hopen hrun⟩
  · rintro rfl hret
    cases hcall with
    | callPop hidle =>
      obtain ⟨hopen, hle⟩ := Threads.pop_budget hrest hholds nofun hret
      have hpos := PopPc.left_pos hopen
      refine ⟨?_, ?_⟩
      · have hle : bs.countP Act.isPop + s.queue.popPc.left ≤ 6 := hle
        omega
      · obtain ⟨q, _⟩ := s
        obtain ⟨q', r⟩ := q'
        exact ⟨r, _, .pop hopen hpop⟩

/-- A push into a ring of one that has been popped takes four steps before the one that returns. -/
theorem wait_free_run : ∃ s : Threads Nat, Run (Threads.Step (2 ^ 0)) Threads.init
      ([.callPush 7, .push 7 none, .push 7 none, .push 7 (some true), .callPop, .pop none, .pop none,
        .pop none, .pop none, .pop none, .pop (some (some 7))] ++
        .callPush 8 :: [.push 8 none, .push 8 none, .push 8 none, .push 8 none]) s ∧
    ∃ w r s', Threads.Step (2 ^ 0) s (.push w r) s' := by
  have hrun : ∃ s : Threads Nat, Run (Threads.Step (2 ^ 0)) Threads.init
      ([.callPush 7, .push 7 none, .push 7 none, .push 7 (some true), .callPop, .pop none, .pop none,
        .pop none, .pop none, .pop none, .pop (some (some 7))] ++
        .callPush 8 :: [.push 8 none, .push 8 none, .push 8 none, .push 8 none]) s :=
    ⟨_, .cons (.callPush 7 rfl) <| .cons (.push nofun rfl) <| .cons (.push nofun rfl) <|
      .cons (.push nofun rfl) <| .cons (.callPop rfl) <| .cons (.pop nofun rfl) <|
      .cons (.pop nofun rfl) <| .cons (.pop nofun rfl) <| .cons (.pop nofun rfl) <|
      .cons (.pop nofun rfl) <| .cons (.pop nofun rfl) <| .cons (.callPush 8 rfl) <|
      .cons (.push nofun rfl) <| .cons (.push nofun rfl) <| .cons (.push nofun rfl) <|
      .cons (.push nofun rfl) <| .nil⟩
  obtain ⟨s, hs⟩ := hrun
  exact ⟨s, hs, ((wait_free hs).1 8 rfl (by simp)).2⟩

end MarketHandler
