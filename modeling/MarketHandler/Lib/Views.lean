import Mathlib.Order.Lattice
import MarketHandler.Lib.Exec

/-!
# Release and acquire

Memory as threads see it when nothing orders them but release stores and acquire loads. An atomic
object has its stores in one order, and a load may read any of them that is not older than what the
thread has seen of the object; a view counts, for every object, the writes its owner has seen. A store
carries a view, which is the thread's if it is a release, and an acquire takes it over.

Other objects are accessed by one thread at a time: an access of an object whose last access the
thread has not seen is a data race. An atomic object is stored to by one thread, so that a store is
the last in its order. No load reads from a store that is made later.

* `Memory.load`, `Memory.store`, `Memory.access`: the three operations, a load with how many stores it
  skips.
* `Memory.Keeps P`: every store carries what `P` promises of it; `Keeps.load` takes it over,
  `Keeps.store` gives it.
* `Memory.top`: what a thread that has seen all there is would have for its view; no operation takes
  a view past it.
-/

namespace MarketHandler.Lib

inductive LoadOrder where
  | relaxed
  | acquire
  deriving DecidableEq, Repr

inductive StoreOrder where
  | relaxed
  | release
  deriving DecidableEq, Repr

/-- How many writes of each atomic (`A`) and each plain (`N`) object have been seen. -/
abbrev View (A N : Type) := A ⊕ N → Nat

namespace View

variable {A N : Type}

/-- Nothing but the initialisations. -/
def none : View A N := fun _ => 0

variable [DecidableEq A] [DecidableEq N] {view view' : View A N} {l l' : A ⊕ N} {n : Nat}

/-- The view once `n` writes of `l` are seen. -/
def see (view : View A N) (l : A ⊕ N) (n : Nat) : View A N :=
  Function.update view l (max (view l) n)

theorem le_see (view : View A N) (l : A ⊕ N) (n : Nat) : view ≤ view.see l n := fun l' => by
  unfold see
  by_cases h : l' = l
  · subst h
    rw [Function.update_self]
    exact Nat.le_max_left _ _
  · rw [Function.update_of_ne h]

theorem see_self (view : View A N) (l : A ⊕ N) (n : Nat) : view.see l n l = max (view l) n :=
  Function.update_self ..

theorem see_of_ne (h : l' ≠ l) : view.see l n l' = view l' :=
  Function.update_of_ne h ..

theorem see_le (h : view ≤ view') (hn : n ≤ view' l) : view.see l n ≤ view' := fun l' => by
  by_cases hl : l' = l
  · subst hl
    rw [see_self]
    exact Nat.max_le.mpr ⟨h l', hn⟩
  · rw [see_of_ne hl]
    exact h l'

end View

/-- A store to an atomic object. -/
structure Message (A N V : Type) where
  value : V
  view : View A N

/-- The stores to every atomic object in their order, the one of the initialisation first, and how
many accesses every plain one has had. -/
structure Memory (A N V : Type) where
  last : A → Nat
  message : A → Nat → Message A N V
  accesses : N → Nat

/-- Why a thread's step has no meaning: an access that nothing orders after the one before it, or a
fault that it has in any order. -/
inductive Hazard where
  | race
  | fault (e : Fault)
  deriving DecidableEq, Repr

/-- A step that no other thread's can make undefined. -/
def Exec.alone {α : Type} : Exec α → Except Hazard α := Except.mapError .fault

@[simp] theorem Exec.alone_ok {α : Type} (a : α) : Exec.alone (.ok a) = .ok a := rfl

namespace Memory

variable {A N V : Type}

/-- The objects initialised. -/
def init (value : A → V) : Memory A N V where
  last := fun _ => 0
  message := fun a _ => ⟨value a, .none⟩
  accesses := fun _ => 0

/-- All there is to see. -/
def top (mem : Memory A N V) : View A N := Sum.elim mem.last mem.accesses

/-- The store that a load of `a` reads: it skips `skip` of those the view allows it to read. -/
def read (mem : Memory A N V) (view : View A N) (a : A) (skip : Nat) : Nat :=
  min (view (.inl a) + skip) (mem.last a)

section

variable {mem : Memory A N V} {view : View A N} {a : A} {i : Nat}

theorem le_read (h : view ≤ mem.top) (a : A) (skip : Nat) : view (.inl a) ≤ mem.read view a skip :=
  Nat.le_min.mpr ⟨Nat.le_add_right _ _, h (.inl a)⟩

theorem read_le (mem : Memory A N V) (view : View A N) (a : A) (skip : Nat) :
    mem.read view a skip ≤ mem.last a :=
  Nat.min_le_right _ _

/-- A thread that has seen the last store reads it. -/
theorem read_eq_last (h : view (.inl a) = mem.last a) (skip : Nat) :
    mem.read view a skip = mem.last a :=
  Nat.min_eq_right (h ▸ Nat.le_add_right _ _)

end

/-- Every store carries what `P` promises, and no more than there is to see. -/
structure Keeps (P : A → Nat → V → View A N → Prop) (mem : Memory A N V) : Prop where
  promised : ∀ a i, i ≤ mem.last a → P a i (mem.message a i).value (mem.message a i).view
  le_top : ∀ a i, i ≤ mem.last a → (mem.message a i).view ≤ mem.top

variable {P : A → Nat → V → View A N → Prop}

theorem Keeps.init {value : A → V} (h : ∀ a, P a 0 (value a) .none) :
    (Memory.init value : Memory A N V).Keeps P := by
  constructor
  · intro a i hi
    obtain rfl := Nat.le_zero.mp hi
    exact h a
  · exact fun a i _ l => Nat.zero_le _

section

variable [DecidableEq N]

/-- The plain object `n` accessed once more. -/
def accessed (mem : Memory A N V) (n : N) : Memory A N V :=
  { mem with accesses := Function.update mem.accesses n (mem.accesses n + 1) }

theorem top_le_accessed (mem : Memory A N V) (n : N) : mem.top ≤ (mem.accessed n).top := by
  rintro (b | m)
  · exact le_refl _
  · by_cases hm : m = n
    · subst hm
      exact (Nat.le_succ _).trans_eq (Function.update_self (f := mem.accesses) ..).symm
    · exact (Function.update_of_ne hm ..).ge

theorem Keeps.accessed {mem : Memory A N V} (h : mem.Keeps P) (n : N) : (mem.accessed n).Keeps P :=
  ⟨h.promised, fun a i hi => (h.le_top a i hi).trans (mem.top_le_accessed n)⟩

end

/-- What a load takes over of the store it reads. -/
def acquired (order : LoadOrder) (view carried : View A N) : View A N :=
  match order with
  | .relaxed => view
  | .acquire => view ⊔ carried

/-- What a store carries of the view of its thread. -/
def released (order : StoreOrder) (view : View A N) : View A N :=
  match order with
  | .relaxed => .none
  | .release => view

variable [DecidableEq A] [DecidableEq N]

/-- A load of `a`: the value, and what the thread has seen then. -/
def load (mem : Memory A N V) (order : LoadOrder) (view : View A N) (a : A) (skip : Nat) :
    V × View A N :=
  let i := mem.read view a skip
  ((mem.message a i).value, (acquired order view (mem.message a i).view).see (.inl a) i)

/-- A store to `a`, the last in its order. -/
def store (mem : Memory A N V) (order : StoreOrder) (view : View A N) (a : A) (value : V) :
    Memory A N V × View A N :=
  let i := mem.last a + 1
  ({ mem with last := Function.update mem.last a i
              message := Function.update mem.message a (Function.update (mem.message a) i
                ⟨value, (released order view).see (.inl a) i⟩) }, view.see (.inl a) i)

/-- An access of the plain object `n`. -/
def access (mem : Memory A N V) (view : View A N) (n : N) :
    Except Hazard (Memory A N V × View A N) :=
  if mem.accesses n ≤ view (.inr n) then
    .ok (mem.accessed n, view.see (.inr n) (mem.accesses n + 1))
  else .error .race

variable {mem : Memory A N V} {view : View A N} {a : A} {n : N} {i : Nat} {value : V}

/-! ## What a load takes over -/

theorem load_value (mem : Memory A N V) (order : LoadOrder) (view : View A N) (a : A) (skip : Nat) :
    (mem.load order view a skip).1 = (mem.message a (mem.read view a skip)).value :=
  rfl

theorem le_load (mem : Memory A N V) (order : LoadOrder) (view : View A N) (a : A) (skip : Nat) :
    view ≤ (mem.load order view a skip).2 := by
  cases order with
  | relaxed => exact View.le_see _ _ _
  | acquire => exact (le_sup_left (a := view)).trans (View.le_see _ _ _)

theorem read_le_load (mem : Memory A N V) (order : LoadOrder) (view : View A N) (a : A)
    (skip : Nat) : mem.read view a skip ≤ (mem.load order view a skip).2 (.inl a) := by
  show _ ≤ View.see _ _ _ _
  rw [View.see_self]
  exact Nat.le_max_right _ _

/-- An acquire takes over what the store carries. -/
theorem message_le_load (mem : Memory A N V) (view : View A N) (a : A) (skip : Nat) :
    (mem.message a (mem.read view a skip)).view ≤ (mem.load .acquire view a skip).2 :=
  le_sup_right.trans (View.le_see _ _ _)

/-- An acquire has what was promised of the store it reads. -/
theorem Keeps.load (h : mem.Keeps P) (hmono : ∀ a i v, Monotone (P a i v)) (view : View A N) (a : A)
    (skip : Nat) : P a (mem.read view a skip) (mem.load .acquire view a skip).1
      (mem.load .acquire view a skip).2 :=
  hmono a _ _ (mem.message_le_load view a skip) (h.promised a _ (mem.read_le view a skip))

theorem Keeps.load_le (h : mem.Keeps P) (hview : view ≤ mem.top) (order : LoadOrder) (a : A)
    (skip : Nat) : (mem.load order view a skip).2 ≤ mem.top := by
  have hread : mem.read view a skip ≤ mem.top (.inl a) := mem.read_le view a skip
  cases order with
  | relaxed => exact View.see_le hview hread
  | acquire => exact View.see_le (sup_le hview (h.le_top a _ (mem.read_le view a skip))) hread

section store

variable (order : StoreOrder) (mem view a value)

@[simp] theorem store_accesses : (mem.store order view a value).1.accesses = mem.accesses := rfl

@[simp] theorem store_last : (mem.store order view a value).1.last a = mem.last a + 1 :=
  Function.update_self ..

theorem store_last_of_ne {b : A} (h : b ≠ a) :
    (mem.store order view a value).1.last b = mem.last b :=
  Function.update_of_ne h ..

theorem store_view : (mem.store order view a value).2 = view.see (.inl a) (mem.last a + 1) := rfl

theorem top_le_store : mem.top ≤ (mem.store order view a value).1.top := by
  rintro (b | n)
  · by_cases hb : b = a
    · subst hb
      exact (Nat.le_succ _).trans_eq (mem.store_last view b value order).symm
    · exact (mem.store_last_of_ne view a value order hb).ge
  · exact le_refl _

variable {mem view a value}

theorem store_view_le (h : view ≤ mem.top) :
    (mem.store order view a value).2 ≤ (mem.store order view a value).1.top :=
  View.see_le (h.trans (mem.top_le_store view a value order))
    (mem.store_last view a value order).ge

theorem store_message_of_ne {b : A} {i : Nat} (h : b ≠ a ∨ i ≠ mem.last a + 1) :
    (mem.store order view a value).1.message b i = mem.message b i := by
  unfold store
  by_cases hb : b = a
  · subst hb
    simp only [Function.update_self]
    exact Function.update_of_ne (h.resolve_left (not_not_intro rfl)) ..
  · simp only [Function.update_of_ne hb]

theorem store_message : (mem.store .release view a value).1.message a (mem.last a + 1) =
    ⟨value, (mem.store .release view a value).2⟩ := by
  unfold store
  simp only [Function.update_self]
  rfl

end store

/-- A release may promise what the thread has seen. -/
theorem Keeps.store (h : mem.Keeps P) (hview : view ≤ mem.top)
    (hP : P a (mem.last a + 1) value (mem.store .release view a value).2) :
    (mem.store .release view a value).1.Keeps P := by
  have hold : ∀ {b i}, i ≤ (mem.store .release view a value).1.last b →
      ¬ (b = a ∧ i = mem.last a + 1) → i ≤ mem.last b ∧
        (mem.store .release view a value).1.message b i = mem.message b i := fun {b i} hi hne => by
    refine ⟨?_, store_message_of_ne .release (not_and_or.mp hne)⟩
    by_cases hb : b = a
    · subst hb
      rw [store_last] at hi
      have : i ≠ mem.last b + 1 := fun he => hne ⟨rfl, he⟩
      omega
    · rwa [store_last_of_ne _ _ _ _ _ hb] at hi
  constructor
  · intro b i hi
    by_cases hnew : b = a ∧ i = mem.last a + 1
    · obtain ⟨rfl, rfl⟩ := hnew
      rw [store_message]
      exact hP
    · obtain ⟨hi', he⟩ := hold hi hnew
      rw [he]
      exact h.promised b i hi'
  · intro b i hi
    by_cases hnew : b = a ∧ i = mem.last a + 1
    · obtain ⟨rfl, rfl⟩ := hnew
      rw [store_message]
      exact store_view_le .release hview
    · obtain ⟨hi', he⟩ := hold hi hnew
      rw [he]
      exact (h.le_top b i hi').trans (mem.top_le_store view a value .release)

/-! ## Accesses -/

theorem access_of_le (h : mem.accesses n ≤ view (.inr n)) :
    mem.access view n = .ok (mem.accessed n, view.see (.inr n) (mem.accesses n + 1)) :=
  if_pos h

theorem accessed_view_le (h : view ≤ mem.top) (n : N) :
    view.see (.inr n) (mem.accesses n + 1) ≤ (mem.accessed n).top :=
  View.see_le (h.trans (mem.top_le_accessed n)) (Function.update_self (f := mem.accesses) ..).ge

end Memory

end MarketHandler.Lib
