import Mathlib.Data.List.Basic
import Mathlib.Data.List.Nodup
import Mathlib.Logic.Function.Basic

/-!
# Intrusive doubly linked lists

Cells of a type `α` carry two links, `prev next : α → Option α`, and a list is reached through a
`head` and a `tail` pointer. `Linked prev next head tail l` says that the cells reached from `head`
are exactly those of `l`, in order: `prev` and `next` are mutually inverse along `l`, the first
cell has no `prev` and the last no `next`. `Seg` is the same for a piece of a list between two
outer neighbours.

* `Linked.unique`: the pointers determine the list.
* `Linked.unlink`: the usual four-way unlinking (neighbour or list pointer, on both sides) removes
  exactly the given cell.
* `Linked.append`: linking a fresh cell behind `tail` appends it.
* `Linked.congr`: a list whose cells keep their links stays linked.
-/

namespace MarketHandler.Lib

variable {α : Type*}

/-- The cells of `l` are linked in order, with `p` before the first and `n` after the last. -/
def Seg (prev next : α → Option α) : Option α → List α → Option α → Prop
  | _, [], _ => True
  | p, a :: l, n => prev a = p ∧ next a = l.head?.or n ∧ Seg prev next (some a) l n

/-- The list reached from `head` and `tail` is `l`. -/
structure Linked (prev next : α → Option α) (head tail : Option α) (l : List α) : Prop where
  head_eq : head = l.head?
  tail_eq : tail = l.getLast?
  seg : Seg prev next none l none

variable {prev next prev' next' : α → Option α} {p n p' n' head tail : Option α} {l l' : List α}
  {a b : α}

instance decidableSeg [DecidableEq α] (prev next : α → Option α) :
    ∀ (p : Option α) (l : List α) (n : Option α), Decidable (Seg prev next p l n)
  | _, [], _ => .isTrue trivial
  | p, a :: l, n =>
    have := decidableSeg prev next (some a) l n
    inferInstanceAs (Decidable (prev a = p ∧ next a = l.head?.or n ∧ Seg prev next (some a) l n))

/-! ## Segments -/

@[simp] theorem seg_nil : Seg prev next p [] n := trivial

@[simp] theorem seg_cons :
    Seg prev next p (a :: l) n ↔ prev a = p ∧ next a = l.head?.or n ∧ Seg prev next (some a) l n :=
  Iff.rfl

instance [DecidableEq α] (prev next : α → Option α) (head tail : Option α) (l : List α) :
    Decidable (Linked prev next head tail l) :=
  decidable_of_iff (head = l.head? ∧ tail = l.getLast? ∧ Seg prev next none l none)
    ⟨fun ⟨h, t, s⟩ => ⟨h, t, s⟩, fun ⟨h, t, s⟩ => ⟨h, t, s⟩⟩

theorem seg_append (l l' : List α) (p n : Option α) :
    Seg prev next p (l ++ l') n ↔
      Seg prev next p l (l'.head?.or n) ∧ Seg prev next (l.getLast?.or p) l' n := by
  induction l generalizing p with
  | nil => simp
  | cons a l ih =>
    have hhead : (l ++ l').head?.or n = l.head?.or (l'.head?.or n) := by cases l <;> simp
    have hlast : (a :: l).getLast?.or p = l.getLast?.or (some a) := by
      rw [List.getLast?_cons]
      cases l.getLast? <;> rfl
    simp only [List.cons_append, seg_cons, ih, hhead, hlast, and_assoc]

theorem Seg.congr (h : Seg prev next p l n) (hp : ∀ a ∈ l, prev' a = prev a)
    (hn : ∀ a ∈ l, next' a = next a) : Seg prev' next' p l n := by
  induction l generalizing p with
  | nil => trivial
  | cons a l ih =>
    obtain ⟨h1, h2, h3⟩ := h
    exact ⟨(hp a List.mem_cons_self).trans h1, (hn a List.mem_cons_self).trans h2,
      ih h3 (fun b hb => hp b (List.mem_cons_of_mem a hb))
        fun b hb => hn b (List.mem_cons_of_mem a hb)⟩

/-- Two segments that start at the same cell and end with no successor are the same. -/
theorem Seg.unique (h : Seg prev next p l none) (h' : Seg prev next p' l' none)
    (hh : l.head? = l'.head?) : l = l' := by
  induction l generalizing p p' l' with
  | nil => cases l' with
    | nil => rfl
    | cons => simp at hh
  | cons a l ih => cases l' with
    | nil => simp at hh
    | cons b l' =>
      obtain rfl : a = b := by simpa using hh
      have hnext : l.head? = l'.head? := by
        have := h.2.1.symm.trans h'.2.1
        simpa using this
      rw [ih h.2.2 h'.2.2 hnext]

/-! ## Whole lists -/

theorem Linked.nil : Linked prev next none none ([] : List α) := ⟨rfl, rfl, trivial⟩

/-- A single cell with no links. -/
theorem Linked.singleton (hp : prev a = none) (hx : next a = none) :
    Linked prev next (some a) (some a) [a] :=
  ⟨rfl, rfl, hp, hx, trivial⟩

theorem Linked.congr (h : Linked prev next head tail l) (hp : ∀ a ∈ l, prev' a = prev a)
    (hn : ∀ a ∈ l, next' a = next a) : Linked prev' next' head tail l :=
  ⟨h.head_eq, h.tail_eq, h.seg.congr hp hn⟩

/-- **The pointers determine the list.** -/
theorem Linked.unique (h : Linked prev next head tail l) (h' : Linked prev next head tail l') :
    l = l' :=
  h.seg.unique h'.seg (h.head_eq.symm.trans h'.head_eq)

theorem Linked.head_eq_none_iff (h : Linked prev next head tail l) : head = none ↔ l = [] := by
  rw [h.head_eq, List.head?_eq_none_iff]

theorem Linked.tail_eq_none_iff (h : Linked prev next head tail l) : tail = none ↔ l = [] := by
  rw [h.tail_eq, List.getLast?_eq_none_iff]

/-- The links of the cell between `l` and `l'`. -/
theorem Linked.links (h : Linked prev next head tail (l ++ a :: l')) :
    prev a = l.getLast? ∧ next a = l'.head? := by
  have := ((seg_append _ _ _ _).mp h.seg).2
  exact ⟨by simpa using this.1, by simpa using this.2.1⟩

/-- Along a list `prev` and `next` are mutually inverse. -/
theorem Linked.next_iff_prev (h : Linked prev next head tail l) (ha : a ∈ l) (hb : b ∈ l) :
    next a = some b ↔ prev b = some a := by
  constructor
  · intro hab
    obtain ⟨l₁, l₂, rfl⟩ := List.append_of_mem ha
    obtain ⟨t, rfl⟩ := List.head?_eq_some_iff.mp (h.links.2.symm.trans hab)
    have h' : Linked prev next head tail ((l₁ ++ [a]) ++ b :: t) := by simpa using h
    simpa using h'.links.1
  · intro hba
    obtain ⟨l₁, l₂, rfl⟩ := List.append_of_mem hb
    obtain ⟨t, rfl⟩ := List.getLast?_eq_some_iff.mp (h.links.1.symm.trans hba)
    have h' : Linked prev next head tail (t ++ a :: b :: l₂) := by simpa using h
    simpa using h'.links.2

/-! ## Unlinking and appending -/

section Writes

variable [DecidableEq α]

/-- Writing the first cell's `prev` changes the left neighbour. -/
theorem Seg.relinkPrev (h : Seg prev next p l n) (hl : l.Nodup) (p' : Option α) :
    Seg (match l.head? with
      | some a => Function.update prev a p'
      | none => prev) next p' l n := by
  cases l with
  | nil => trivial
  | cons a l =>
    have ha : a ∉ l := (List.nodup_cons.mp hl).1
    refine ⟨by simp, h.2.1, h.2.2.congr (fun b hb => ?_) fun _ _ => rfl⟩
    exact Function.update_of_ne (ne_of_mem_of_not_mem hb ha) _ _

/-- Writing the last cell's `next` changes the right neighbour. -/
theorem Seg.relinkNext (h : Seg prev next p l n) (hl : l.Nodup) (n' : Option α) :
    Seg prev (match l.getLast? with
      | some a => Function.update next a n'
      | none => next) p l n' := by
  rcases List.eq_nil_or_concat' l with rfl | ⟨l, a, rfl⟩
  · trivial
  · have ha : a ∉ l := fun hm => (List.nodup_append.mp hl).2.2 a hm a (by simp) rfl
    simp only [List.getLast?_append, List.getLast?_singleton, Option.some_or]
    rw [seg_append] at h ⊢
    refine ⟨h.1.congr (fun _ _ => rfl) fun b hb => ?_, ?_⟩
    · exact Function.update_of_ne (ne_of_mem_of_not_mem hb ha) _ _
    · simpa using h.2.1

/-- `a->prev->next = a->next`, when there is an `a->prev`. -/
def unlinkNext (prev next : α → Option α) (a : α) : α → Option α :=
  match prev a with
  | some q => Function.update next q (next a)
  | none => next

/-- `a->next->prev = a->prev`, when there is an `a->next`. -/
def unlinkPrev (prev next : α → Option α) (a : α) : α → Option α :=
  match next a with
  | some q => Function.update prev q (prev a)
  | none => prev

/-- **Unlinking removes exactly the given cell**, wherever it stands. -/
theorem Linked.unlink (h : Linked prev next head tail (l ++ a :: l')) (hn : (l ++ a :: l').Nodup) :
    Linked (unlinkPrev prev next a) (unlinkNext prev next a)
      (if prev a = none then next a else head) (if next a = none then prev a else tail)
      (l ++ l') := by
  obtain ⟨hp, hx⟩ := h.links
  obtain ⟨hs1, -, -, hs2⟩ := (seg_append _ _ _ _).mp h.seg
  obtain ⟨hl, hal, hdis⟩ := List.nodup_append.mp hn
  have hl' := (List.nodup_cons.mp hal).2
  refine ⟨?_, ?_, (seg_append _ _ _ _).mpr ⟨?_, ?_⟩⟩
  · rw [hp, hx, h.head_eq]
    cases l <;> simp
  · rw [hp, hx, h.tail_eq]
    rcases List.eq_nil_or_concat' l' with rfl | ⟨l', c, rfl⟩ <;> simp [List.getLast?_cons]
  · have := hs1.relinkNext hl l'.head?
    rw [Option.or_none]
    refine this.congr (fun b hb => ?_) fun b _ => ?_
    · unfold unlinkPrev
      rw [hx]
      cases l' with
      | nil => rfl
      | cons d l' =>
        exact Function.update_of_ne (hdis b hb d (by simp)) _ _
    · unfold unlinkNext
      rw [hp, hx]
  · have := hs2.relinkPrev hl' l.getLast?
    rw [Option.or_none]
    refine this.congr (fun b _ => ?_) fun b hb => ?_
    · unfold unlinkPrev
      rw [hp, hx]
    · unfold unlinkNext
      rw [hp]
      cases hc : l.getLast? with
      | none => rfl
      | some c =>
        exact Function.update_of_ne
          (hdis c (List.mem_of_getLast? hc) b (List.mem_cons_of_mem a hb)).symm _ _

/-- **Linking a fresh cell with no `next` behind a non-empty list appends it.** -/
theorem Linked.append {t : α} (h : Linked prev next head (some t) l) (hn : l.Nodup) (ha : a ∉ l)
    (hx : next a = none) :
    Linked (Function.update prev a (some t)) (Function.update next t (some a)) head (some a)
      (l ++ [a]) := by
  have hlast : l.getLast? = some t := h.tail_eq.symm
  have hta : a ≠ t := fun e => ha (e ▸ List.mem_of_getLast? hlast)
  refine ⟨?_, by simp, (seg_append _ _ _ _).mpr ⟨?_, ?_⟩⟩
  · rw [h.head_eq]
    cases l with
    | nil => simp at hlast
    | cons => simp
  · have := h.seg.relinkNext hn (some a)
    rw [hlast] at this
    exact this.congr (fun b hb => Function.update_of_ne (ne_of_mem_of_not_mem hb ha) _ _)
      fun _ _ => rfl
  · simp [hlast, hx, hta]

end Writes

end MarketHandler.Lib
