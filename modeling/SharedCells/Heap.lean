import SharedCells.Registry

/-! Counted objects at addresses.

An object is destroyed when its count falls to zero; its address is vacant once
its destruction has ended. A new object gets an address that no object ever had,
unless a vacant one is wished for. Objects are numbered in the order of creation,
so that numbers identify them for good. References are counted only to live
objects. -/

set_option autoImplicit false

namespace SharedCells

/-- `σ` is what the destruction of an object runs. -/
structure Object (σ : Type) where
  id : Nat
  count : Nat
  onDrop : σ

/-- The objects whose addresses are not vacant, the newest first, and the number of objects
created. -/
structure Heap (σ : Type) where
  objects : List (Addr × Object σ)
  created : Nat

namespace Heap

variable {σ : Type}

def empty : Heap σ := ⟨[], 0⟩

def find? (h : Heap σ) (addr : Addr) : Option (Object σ) :=
  (h.objects.find? (·.1 == addr)).map (·.2)

/-- The object at an address, if something still refers to it. -/
def live? (h : Heap σ) (addr : Addr) : Option (Object σ) := (h.find? addr).filter (0 < ·.count)

/-- Puts an object in the place of the one at an address. -/
def set (h : Heap σ) (addr : Addr) (object : Object σ) : Heap σ :=
  { h with objects := h.objects.map fun entry => if entry.1 = addr then (addr, object) else entry }

/-- Counts one more reference to a live object. -/
def retain? (h : Heap σ) (addr : Addr) : Option (Heap σ) :=
  (h.live? addr).map fun object => h.set addr { object with count := object.count + 1 }

/-- Counts one reference less to a live object; the first part is what is left of it. -/
def release? (h : Heap σ) (addr : Addr) : Option (Object σ × Heap σ) :=
  (h.live? addr).map fun object =>
    let left := { object with count := object.count - 1 }
    (left, h.set addr left)

/-- Makes the address of a destroyed object vacant. -/
def free (h : Heap σ) (addr : Addr) : Heap σ :=
  { h with objects := h.objects.filter fun entry => entry.1 != addr }

/-- An address below the new ones that has no object. -/
def isVacant (h : Heap σ) (addr : Addr) : Bool :=
  decide (addr < h.created) && (h.find? addr).isNone

/-- Creates an object with one reference, at the wished address if that is vacant and else at a
new one. -/
def create (h : Heap σ) (wish : Option Addr) (onDrop : σ) : Addr × Heap σ :=
  let addr := (wish.filter h.isVacant).getD h.created
  (addr, ⟨(addr, ⟨h.created + 1, 1, onDrop⟩) :: h.objects, h.created + 1⟩)

/-- The numbers of the live objects with their counts, in the order of creation. -/
def census (h : Heap σ) : List (Nat × Nat) :=
  let live := h.objects.filterMap fun (_, object) =>
    if 0 < object.count then some (object.id, object.count) else none
  live.mergeSort fun a b => decide (a.1 ≤ b.1)

/-- New addresses are new: the number of objects created is above every address in use. -/
def Bounded (h : Heap σ) : Prop := ∀ addr, h.created ≤ addr → h.find? addr = none

section Lookup

variable (h : Heap σ) (addr other : Addr) (object : Object σ)

theorem find?_cons (entry : Addr × Object σ) (rest : List (Addr × Object σ)) (created : Nat) :
    find? ⟨entry :: rest, created⟩ other =
      if other = entry.1 then some entry.2 else find? ⟨rest, created⟩ other := by
  by_cases same : other = entry.1
  · simp [find?, same]
  · have differ : (entry.1 == other) = false := by simpa using Ne.symm same
    simp [find?, same, differ]

theorem find?_set :
    (h.set addr object).find? other =
      if other = addr then (h.find? addr).map fun _ => object else h.find? other := by
  obtain ⟨objects, created⟩ := h
  induction objects with
  | nil => simp [find?, set]
  | cons entry rest ih =>
    unfold set at ih ⊢
    rw [List.map_cons, find?_cons, find?_cons, find?_cons, ih]
    by_cases here : entry.1 = addr
    · subst here
      split <;> simp_all
    · by_cases same : other = addr
      · subst same
        simp [here, Ne.symm here]
      · simp [here, same]

theorem find?_free :
    (h.free addr).find? other = if other = addr then none else h.find? other := by
  obtain ⟨objects, created⟩ := h
  induction objects with
  | nil => simp [find?, free]
  | cons entry rest ih =>
    unfold free at ih ⊢
    rw [List.filter_cons, find?_cons]
    by_cases here : entry.1 = addr
    · rw [if_neg (by simpa using here), ih]
      split <;> simp_all
    · rw [if_pos (by simpa using here), find?_cons, ih]
      split <;> simp_all

theorem find?_create (wish : Option Addr) (onDrop : σ) :
    (h.create wish onDrop).2.find? other =
      if other = (h.create wish onDrop).1 then some ⟨h.created + 1, 1, onDrop⟩
      else h.find? other := by
  unfold create
  rw [find?_cons]
  rfl

/-- A new object takes no other object's place. -/
theorem find?_create_address (bounded : h.Bounded) (wish : Option Addr) (onDrop : σ) :
    h.find? (h.create wish onDrop).1 = none := by
  rcases vacant : wish.filter h.isVacant with _ | addr
  · simpa [create, vacant] using bounded h.created (Nat.le_refl _)
  · have free := (Option.filter_eq_some_iff.mp vacant).2
    simp only [create, vacant, Option.getD_some]
    simp_all [isVacant]

end Lookup

namespace Bounded

variable {h : Heap σ}

theorem empty : (Heap.empty : Heap σ).Bounded := fun _ _ => rfl

theorem set (bounded : h.Bounded) (addr : Addr) (object : Object σ) :
    (h.set addr object).Bounded := fun other above => by
  rw [find?_set]
  split
  · next same => rw [← same, bounded other above, Option.map_none]
  · exact bounded other above

theorem free (bounded : h.Bounded) (addr : Addr) : (h.free addr).Bounded := fun other above => by
  rw [find?_free, bounded other above, ite_self]

theorem create (bounded : h.Bounded) (wish : Option Addr) (onDrop : σ) :
    (h.create wish onDrop).2.Bounded := fun other above => by
  have le : (h.create wish onDrop).1 ≤ h.created := by
    rcases vacant : wish.filter h.isVacant with _ | addr
    · simp [Heap.create, vacant]
    · have free := (Option.filter_eq_some_iff.mp vacant).2
      simp only [Heap.create, vacant, Option.getD_some]
      simp only [isVacant, Bool.and_eq_true, decide_eq_true_eq] at free
      exact Nat.le_of_lt free.1
  have lt : h.created < other := above
  rw [find?_create, if_neg (Nat.ne_of_gt (Nat.lt_of_le_of_lt le lt)),
    bounded other (Nat.le_of_lt lt)]

end Bounded

end Heap

end SharedCells
