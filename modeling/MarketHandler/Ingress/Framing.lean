import MarketHandler.Ingress.Accounting

/-!
# Framing of the feed

What the handler offers to the queue when every receive completes with a datagram: the kernel writes
what fits in the 56 bytes of the buffer it was given and reports how much it wrote. `Feed` records the
packets beside the state; the queue and the engine run along.

* `Feed.Step.offers`: each step keeps the offered packets in step with the full completions.
* `offered_eq`: the handler offers the first 56 bytes of every datagram that has as many.
* `framed`: **it offers exactly the datagrams of 56 bytes if and only if none is longer**;
  `misframed` is the shortest one that is.
-/

namespace MarketHandler

open Lib

/-- A receive that meets the datagram `d`: the call neither fails nor tells that it truncated. -/
def Completion.ofDatagram (d : List UInt8) : Completion := ⟨false, d.take 56, List.length_take_le _ _⟩

namespace Ingress

/-- What a receive completed with. -/
def Act.completion? : Act → Option Completion
  | .receive r => some r
  | _ => none

/-- The packet that the handler offers in an action: `_recv_buffer`, if it calls `push`. -/
def offered (s' : Ingress) : Act → List PacketPayload
  | .handle _ =>
    match s'.handlerPc with
    | .pushing => [s'.recvBuffer]
    | _ => []
  | _ => []

/-- The completion that waits for its handler, if it is of full length. -/
def unhandled (s : Ingress) : List (List UInt8) :=
  match s.handlerPc with
  | .completed ec bytesRecvd => if isPacket ec bytesRecvd then [s.recvBuffer.bytes.toList] else []
  | _ => []

end Ingress

/-- The feed: the system and the packets offered so far. -/
structure Feed where
  ingress : Ingress
  offered : List PacketPayload

namespace Feed

/-- Both threads before their first step. -/
def init (recvBuffer : PacketPayload) : Feed := ⟨.init recvBuffer, []⟩

/-- One action, and what it offers. -/
def Step (capacity : Nat) (f : Feed) (a : Ingress.Act) (f' : Feed) : Prop :=
  Ingress.Step capacity f.ingress a f'.ingress ∧ f'.offered = f.offered ++ f'.ingress.offered a

/-- Every datagram received has been handled. -/
def Handled (f : Feed) : Prop := ∀ ec bytesRecvd, f.ingress.handlerPc ≠ .completed ec bytesRecvd

/-- The payloads offered, and the one about to be, are the full completions in order. -/
def Offers (acts : List Ingress.Act) (f : Feed) : Prop :=
  f.offered.map (·.bytes.toList) ++ f.ingress.unhandled = acts.filterMap Ingress.Act.packet?

variable {c : Nat} {acts : List Ingress.Act} {f f' : Feed} {a : Ingress.Act}

theorem unhandled_receive (s : Ingress) (r : Completion) :
    (s.receive r).unhandled = (Ingress.Act.receive r).packet?.toList := by
  rw [← Ingress.pending_receive]
  unfold Ingress.unhandled Ingress.pending
  rw [Ingress.receive_handlerPc]

/-- The handler offers the completion that waits for it, if it is of full length. -/
theorem offered_handle (s : Ingress) (tsc : UInt64) {ec : Bool} {bytesRecvd : Nat}
    (hpc : s.handlerPc = .completed ec bytesRecvd) :
    ((s.handle tsc ec bytesRecvd).offered (.handle tsc)).map (·.bytes.toList) = s.unhandled ∧
      (s.handle tsc ec bytesRecvd).unhandled = [] := by
  unfold Ingress.unhandled Ingress.offered Ingress.handle
  simp only [hpc]
  split_ifs <;> exact ⟨rfl, rfl⟩

/-- An action that is neither a receive nor a handler offers nothing. -/
theorem Offers.frame (h : f.Offers acts) (hoff : f'.offered = f.offered)
    (hun : f'.ingress.unhandled = f.ingress.unhandled) (ha : a.packet? = none) :
    f'.Offers (acts ++ [a]) := by
  unfold Offers at h ⊢
  rw [hoff, hun, h, filterMap_snoc_none ha]

/-- **Each step keeps the offered packets in step with the full completions.** -/
theorem Step.offers (h : f.Offers acts) (hstep : Step c f a f') : f'.Offers (acts ++ [a]) := by
  obtain ⟨s, l⟩ := f
  obtain ⟨s', l'⟩ := f'
  obtain ⟨hs, hl⟩ := hstep
  dsimp only at hs hl
  cases hs with
  | receive r hpc =>
    have hun : s.unhandled = [] := by simp only [Ingress.unhandled, hpc]
    have hl : l' = l := hl.trans (List.append_nil l)
    unfold Offers at h ⊢
    dsimp only at h ⊢
    rw [filterMap_snoc, ← h, hun, hl, unhandled_receive, List.append_nil]
  | @handle ec bytesRecvd tsc hpc =>
    obtain ⟨hoff, hun⟩ := offered_handle s tsc hpc
    unfold Offers at h ⊢
    dsimp only at h ⊢
    rw [filterMap_snoc_none rfl, ← h, hl, List.map_append, hoff, hun, List.append_nil]
  | @push queue r hpc hrun =>
    refine h.frame (hl.trans (List.append_nil l)) ?_ rfl
    cases r <;> simp only [Ingress.unhandled, Ingress.pushed, hpc]
  | poll hpc => exact h.frame (hl.trans (List.append_nil l)) rfl rfl
  | @pop queue r hpc hrun =>
    refine h.frame (hl.trans (List.append_nil l)) ?_ rfl
    match r with
    | none => rfl
    | some none => rfl
    | some (some packet) => rfl
  | dispatch hpc hd => exact h.frame (hl.trans (List.append_nil l)) rfl rfl

/-- The full completions of a run whose receives meet the datagrams `ds`. -/
theorem packets_eq {ds : List (List UInt8)}
    (hds : acts.filterMap Ingress.Act.completion? = ds.map Completion.ofDatagram) :
    acts.filterMap Ingress.Act.packet? = (ds.filter (56 ≤ ·.length)).map (·.take 56) := by
  have hpacket : Ingress.Act.packet? = fun a => (Ingress.Act.completion? a).bind fun r =>
      if isPacket r.ec r.data.length then some r.data else none := by
    funext a
    cases a <;> rfl
  have hfits : ∀ d : List UInt8, isPacket (Completion.ofDatagram d).ec
      (Completion.ofDatagram d).data.length = decide (56 ≤ d.length) := by
    intro d
    simp only [Completion.ofDatagram, isPacket, Bool.not_false, Bool.true_and, List.length_take]
    refine decide_eq_decide.mpr ?_
    omega
  rw [hpacket, ← List.filterMap_filterMap, hds, List.filterMap_map, ← List.filterMap_eq_filter,
    List.map_filterMap]
  refine List.filterMap_congr fun d _ => ?_
  simp only [Function.comp_def, hfits, Option.guard_apply]
  split_ifs <;> rfl

variable {buffer : PacketPayload} {ds : List (List UInt8)}

/-- The handler offers the first 56 bytes of every datagram that has as many. -/
theorem offered_eq (h : Run (Step c) (init buffer) acts f)
    (hds : acts.filterMap Ingress.Act.completion? = ds.map Completion.ofDatagram) (hdone : f.Handled) :
    f.offered.map (·.bytes.toList) = (ds.filter (56 ≤ ·.length)).map (·.take 56) := by
  have hoff : f.Offers acts := h.history (I := fun acts f => f.Offers acts) rfl Step.offers
  have hun : f.ingress.unhandled = [] := by
    unfold Ingress.unhandled
    split
    · exact absurd ‹_› (hdone _ _)
    · rfl
  unfold Offers at hoff
  rwa [hun, List.append_nil, packets_eq hds] at hoff

end Feed

/-- What fits is the datagrams of 56 bytes exactly when none is longer. -/
theorem take_filter_eq_iff (ds : List (List UInt8)) :
    (ds.filter (56 ≤ ·.length)).map (·.take 56) = ds.filter (·.length = 56) ↔
      ∀ d ∈ ds, d.length ≤ 56 := by
  constructor
  · intro h d hd
    by_contra hlong
    -- the long datagram is offered, so more packets are offered than datagrams of 56 bytes came
    have hlt : (ds.filter (·.length = 56)).length < (ds.filter (56 ≤ ·.length)).length := by
      have hsub : ds.filter (·.length = 56) = (ds.filter (56 ≤ ·.length)).filter (·.length = 56) := by
        rw [List.filter_filter]
        refine List.filter_congr fun d' _ => ?_
        rw [Bool.and_eq_left_iff_imp.mpr fun h' => by simp_all]
      rw [hsub]
      refine List.length_filter_lt_length_iff_exists.mpr ⟨d, List.mem_filter.mpr ⟨hd, ?_⟩, ?_⟩
      · exact decide_eq_true (by omega)
      · simpa using Nat.ne_of_gt (Nat.lt_of_not_le hlong)
    rw [← h, List.length_map] at hlt
    exact Nat.lt_irrefl _ hlt
  · intro h
    have hfilter : ds.filter (56 ≤ ·.length) = ds.filter (·.length = 56) :=
      List.filter_congr fun d hd => decide_eq_decide.mpr
        ⟨fun h' => Nat.le_antisymm (h d hd) h', fun h' => Nat.le_of_eq h'.symm⟩
    rw [hfilter]
    refine (List.map_congr_left fun d hd => ?_).trans (List.map_id _)
    exact List.take_of_length_le (h d (List.mem_filter.mp hd).1)

/-- **Framing**: once every datagram received is handled, the packets offered are the datagrams of
exactly 56 bytes, in order and each with its own bytes, if and only if no datagram is longer. -/
theorem framed {c : Nat} {buffer : PacketPayload} {acts : List Ingress.Act} {f : Feed}
    {ds : List (List UInt8)} (h : Run (Feed.Step c) (Feed.init buffer) acts f)
    (hds : acts.filterMap Ingress.Act.completion? = ds.map Completion.ofDatagram)
    (hdone : f.Handled) :
    f.offered.map (·.bytes.toList) = ds.filter (·.length = 56) ↔ ∀ d ∈ ds, d.length ≤ 56 := by
  rw [Feed.offered_eq h hds hdone]
  exact take_filter_eq_iff ds

/-- Recording what is offered hinders no run of the threads. -/
theorem Feed.of_run {c : Nat} {s s' : Ingress} {acts : List Ingress.Act}
    (h : Run (Ingress.Step c) s acts s') (offered : List PacketPayload) :
    ∃ f, f.ingress = s' ∧ Run (Feed.Step c) ⟨s, offered⟩ acts f := by
  refine h.history (I := fun acts s' => ∃ f, f.ingress = s' ∧
    Run (Feed.Step c) ⟨s, offered⟩ acts f) ⟨_, rfl, .nil⟩ ?_
  rintro acts _ a s'' ⟨f, rfl, hrun⟩ hstep
  exact ⟨⟨s'', f.offered ++ s''.offered a⟩, rfl, hrun.snoc ⟨hstep, rfl⟩⟩

/-- Short datagrams before, between and after two of 56 bytes: the first leaves its byte in the
buffer, the second of 56 finds the ring full and is offered all the same. -/
theorem framed_run : ∃ acts f, Run (Feed.Step 1) (Feed.init ⟨0, Vector.replicate 56 255⟩) acts f ∧
    acts.filterMap Ingress.Act.completion? = [[88], List.replicate 56 7, List.replicate 55 9, [],
      List.replicate 56 8, [88, 88]].map Completion.ofDatagram ∧
    f.offered.map (·.bytes.toList) = [List.replicate 56 7, List.replicate 56 8] := by
  let r (d : List UInt8) : Completion := .ofDatagram d
  have hfirst := (Ingress.run_skip (c := 2 ^ 0) (s := Ingress.init ⟨0, Vector.replicate 56 255⟩)
    (r := r [88]) rfl (by decide) 1).append
      (Ingress.run_accept (r := r (List.replicate 56 7)) rfl (by decide) 2 rfl rfl)
  have hshort := (hfirst.append (Ingress.run_skip (r := r (List.replicate 55 9)) rfl (by decide) 3)).append
    (Ingress.run_skip (r := r []) rfl (by decide) 4)
  have hrun := (hshort.append
    (Ingress.run_drop (r := r (List.replicate 56 8)) rfl (by decide) 5 rfl rfl)).append
      (Ingress.run_skip (r := r [88, 88]) rfl (by decide) 6)
  obtain ⟨f, hf, hfeed⟩ := Feed.of_run hrun []
  have hdone : f.Handled := by
    intro ec n he
    rw [hf] at he
    cases he
  have hds : _ = [[88], List.replicate 56 7, List.replicate 55 9, [], List.replicate 56 8,
    [88, 88]].map Completion.ofDatagram := rfl
  exact ⟨_, f, hfeed, hds, (framed hfeed hds hdone).mpr (by decide)⟩

/-- **A datagram of 57 bytes is offered**, as a packet of its first 56. -/
theorem misframed : ∃ f, Run (Feed.Step 1) (Feed.init ⟨0, Vector.replicate 56 255⟩)
    [.receive (.ofDatagram (List.replicate 57 88)), .handle 0] f ∧ f.Handled ∧
      f.offered.map (·.bytes.toList) = [List.replicate 56 88] ∧
      [List.replicate 57 (88 : UInt8)].filter (·.length = 56) = [] := by
  obtain ⟨f, hf, hfeed⟩ := Feed.of_run (Ingress.run_offer (c := 1)
    (s := Ingress.init ⟨0, Vector.replicate 56 255⟩)
    (r := .ofDatagram (List.replicate 57 88)) rfl (by decide) 0) []
  have hdone : f.Handled := by
    intro ec n he
    rw [hf] at he
    cases he
  have hds : [Ingress.Act.receive (.ofDatagram (List.replicate 57 88)), .handle 0].filterMap
      Ingress.Act.completion? = [List.replicate 57 88].map Completion.ofDatagram := rfl
  exact ⟨f, hfeed, hdone, Feed.offered_eq hfeed hds hdone, by decide⟩

end MarketHandler
