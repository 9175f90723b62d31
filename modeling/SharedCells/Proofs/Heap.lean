import Mathlib.Data.List.Basic
import SharedCells.Heap

/-! What the steps of a heap do to counts and to numbers.

A heap changes by one counted reference, by a new object or by a vacated
address at a time. The number of an object stays with its address as long as
anything refers to it, and no two objects have the same number. -/

set_option autoImplicit false

namespace SharedCells.Heap

variable {σ : Type} {h h' : Heap σ} {addr other : Addr} {object left : Object σ}

/-- How many references to the object at an address are counted. -/
def count (h : Heap σ) (addr : Addr) : Nat := ((h.find? addr).map (·.count)).getD 0

/-- One if the object at an address is being destroyed. -/
def remains (h : Heap σ) (addr : Addr) : Nat :=
  match h.find? addr with
  | some object => if object.count = 0 then 1 else 0
  | none => 0

theorem count_of_find? (found : h.find? addr = some object) : h.count addr = object.count := by
  simp [count, found]

theorem remains_le_one : h.remains addr ≤ 1 := by
  unfold remains
  split
  · split
    · exact Nat.le_refl _
    · exact Nat.zero_le _
  · exact Nat.zero_le _

theorem count_of_remains (remains : 0 < h.remains addr) : h.count addr = 0 := by
  unfold Heap.remains at remains
  split at remains
  · next object found =>
    rw [count_of_find? found]
    split at remains
    · assumption
    · contradiction
  · contradiction

/-- An object whose references are gone remains until its destruction has ended. -/
theorem find?_eq_none (gone : h.count addr = 0) (ended : h.remains addr = 0) : h.find? addr = none := by
  cases found : h.find? addr with
  | none => rfl
  | some object =>
    rw [count_of_find? found] at gone
    simp [remains, found, gone] at ended

theorem objects_eq_nil (none : ∀ addr, h.find? addr = none) : h.objects = [] := by
  obtain ⟨objects, created⟩ := h
  cases objects with
  | nil => rfl
  | cons entry rest => simpa [find?_cons] using none entry.1

theorem live?_eq_some_iff :
    h.live? addr = some object ↔ h.find? addr = some object ∧ 0 < object.count := by
  simp [live?, Option.filter_eq_some_iff]

theorem count_pos_iff : 0 < h.count addr ↔ ∃ object, h.live? addr = some object := by
  simp only [live?_eq_some_iff]
  cases found : h.find? addr with
  | none => simp [count, found]
  | some object => simp [count, found]

theorem live?_eq_none_iff : h.live? addr = none ↔ h.count addr = 0 := by
  rw [← Nat.le_zero, ← Nat.not_lt, count_pos_iff, Option.eq_none_iff_forall_ne_some, not_exists]

section Retain

theorem retain?_eq_some_iff :
    h.retain? addr = some h' ↔ ∃ object, h.live? addr = some object ∧
      h' = h.set addr { object with count := object.count + 1 } := by
  rw [retain?, Option.map_eq_some_iff]
  exact exists_congr fun object => and_congr_right fun _ => eq_comm

theorem retain?_of_pos (counted : 0 < h.count addr) : ∃ h', h.retain? addr = some h' := by
  obtain ⟨object, live⟩ := count_pos_iff.mp counted
  exact ⟨_, retain?_eq_some_iff.mpr ⟨object, live, rfl⟩⟩

theorem count_retain (retained : h.retain? addr = some h') :
    h'.count other = h.count other + if addr = other then 1 else 0 := by
  obtain ⟨object, live, rfl⟩ := retain?_eq_some_iff.mp retained
  have found := (live?_eq_some_iff.mp live).1
  by_cases same : addr = other
  · subst same
    simp [count, find?_set, found]
  · simp [count, find?_set, same, Ne.symm same]

theorem remains_retain (retained : h.retain? addr = some h') :
    h'.remains other = h.remains other := by
  obtain ⟨object, live, rfl⟩ := retain?_eq_some_iff.mp retained
  obtain ⟨found, counted⟩ := live?_eq_some_iff.mp live
  by_cases same : other = addr
  · subst same
    have ne : object.count ≠ 0 := by omega
    simp [remains, find?_set, found, ne]
  · simp [remains, find?_set, same]

end Retain

section Release

theorem release?_eq_some_iff :
    h.release? addr = some (left, h') ↔ ∃ object, h.live? addr = some object ∧
      left = { object with count := object.count - 1 } ∧ h' = h.set addr left := by
  rw [release?, Option.map_eq_some_iff]
  refine exists_congr fun object => and_congr_right fun _ => ?_
  rw [Prod.mk.injEq]
  constructor
  · rintro ⟨rfl, rfl⟩
    exact ⟨rfl, rfl⟩
  · rintro ⟨rfl, rfl⟩
    exact ⟨rfl, rfl⟩

theorem release?_of_pos (counted : 0 < h.count addr) :
    ∃ left h', h.release? addr = some (left, h') := by
  obtain ⟨object, live⟩ := count_pos_iff.mp counted
  exact ⟨_, _, release?_eq_some_iff.mpr ⟨object, live, rfl, rfl⟩⟩

theorem find?_release (released : h.release? addr = some (left, h')) :
    h'.find? addr = some left := by
  obtain ⟨object, live, -, rfl⟩ := release?_eq_some_iff.mp released
  simp [find?_set, (live?_eq_some_iff.mp live).1]

theorem count_release (released : h.release? addr = some (left, h')) :
    h'.count other + (if addr = other then 1 else 0) = h.count other := by
  obtain ⟨object, live, rfl, rfl⟩ := release?_eq_some_iff.mp released
  obtain ⟨found, counted⟩ := live?_eq_some_iff.mp live
  by_cases same : addr = other
  · subst same
    simp [count, find?_set, found]
    omega
  · simp [count, find?_set, same, Ne.symm same]

/-- An object is destroyed when it loses its last reference. -/
theorem remains_release (released : h.release? addr = some (left, h')) :
    h'.remains other = h.remains other + if addr = other ∧ left.count = 0 then 1 else 0 := by
  obtain ⟨object, live, rfl, rfl⟩ := release?_eq_some_iff.mp released
  obtain ⟨found, counted⟩ := live?_eq_some_iff.mp live
  by_cases same : addr = other
  · subst same
    have ne : object.count ≠ 0 := by omega
    simp [remains, find?_set, found, ne]
  · simp [remains, find?_set, same, Ne.symm same]

end Release

section Create

variable {wish : Option Addr} {onDrop : σ}

theorem count_create (bounded : h.Bounded) :
    (h.create wish onDrop).2.count other =
      h.count other + if (h.create wish onDrop).1 = other then 1 else 0 := by
  by_cases same : (h.create wish onDrop).1 = other
  · subst same
    simp [count, find?_create, find?_create_address h bounded]
  · simp [count, find?_create, same, Ne.symm same]

theorem remains_create (bounded : h.Bounded) :
    (h.create wish onDrop).2.remains other = h.remains other := by
  by_cases same : other = (h.create wish onDrop).1
  · subst same
    simp [remains, find?_create, find?_create_address h bounded]
  · simp [remains, find?_create, same]

end Create

section Free

theorem count_free (dead : h.count addr = 0) : (h.free addr).count other = h.count other := by
  by_cases same : other = addr
  · subst same
    rw [dead, count, find?_free, if_pos rfl]
    rfl
  · simp [count, find?_free, same]

theorem remains_free : (h.free addr).remains other = if other = addr then 0 else h.remains other := by
  by_cases same : other = addr
  · simp [remains, find?_free, same]
  · simp [remains, find?_free, same]

end Free

/-- What one step may do to the heap. -/
inductive Change : Heap σ → Heap σ → Prop where
  | none {h : Heap σ} : Change h h
  | retained {h h' : Heap σ} {addr : Addr} : h.retain? addr = some h' → Change h h'
  | released {h h' : Heap σ} {addr : Addr} {left : Object σ} :
      h.release? addr = some (left, h') → Change h h'
  | created {h : Heap σ} (wish : Option Addr) (onDrop : σ) : Change h (h.create wish onDrop).2
  | freed {h : Heap σ} {addr : Addr} : h.count addr = 0 → Change h (h.free addr)

/-- Every object has a number of its own, and no number is ahead of its turn. -/
structure Numbered (h : Heap σ) : Prop where
  pos : ∀ addr object, h.find? addr = some object → 0 < object.id
  le : ∀ addr object, h.find? addr = some object → object.id ≤ h.created
  unique : ∀ a b left right, h.find? a = some left → h.find? b = some right →
    left.id = right.id → a = b

theorem Numbered.empty : (Heap.empty : Heap σ).Numbered where
  pos addr object found := by simp [Heap.empty, find?] at found
  le addr object found := by simp [Heap.empty, find?] at found
  unique a b left right found := by simp [Heap.empty, find?] at found

/-- Something still refers to the object of this number. -/
def Lives (h : Heap σ) (id : Nat) : Prop := ∃ addr object, h.live? addr = some object ∧ object.id = id

section Lives

variable {id : Nat} {other : Object σ}

theorem Lives.of_live? (live : h.live? addr = some object) : h.Lives object.id :=
  ⟨addr, object, live, rfl⟩

theorem lives_set (numbered : h.Numbered) (found : h.find? addr = some object)
    (same : other.id = object.id) :
    (h.set addr other).Lives id ↔
      id = object.id ∧ 0 < other.count ∨ id ≠ object.id ∧ h.Lives id := by
  constructor
  · rintro ⟨place, held, live, rfl⟩
    obtain ⟨there, positive⟩ := live?_eq_some_iff.mp live
    rw [find?_set] at there
    split at there
    · rw [found, Option.map_some, Option.some.injEq] at there
      subst there
      exact .inl ⟨same, positive⟩
    · next elsewhere =>
      refine .inr ⟨fun equal => elsewhere ?_, place, held, live?_eq_some_iff.mpr ⟨there, positive⟩, rfl⟩
      exact numbered.unique place addr held object there found equal
  · rintro (⟨rfl, positive⟩ | ⟨ne, place, held, live, rfl⟩)
    · refine ⟨addr, other, live?_eq_some_iff.mpr ⟨?_, positive⟩, same⟩
      rw [find?_set, if_pos rfl, found, Option.map_some]
    · obtain ⟨there, positive⟩ := live?_eq_some_iff.mp live
      refine ⟨place, held, live?_eq_some_iff.mpr ⟨?_, positive⟩, rfl⟩
      have elsewhere : place ≠ addr := by
        rintro rfl
        rw [found, Option.some.injEq] at there
        exact ne (by rw [there])
      rw [find?_set, if_neg elsewhere, there]

theorem lives_retain (numbered : h.Numbered) (retained : h.retain? addr = some h') :
    h'.Lives id ↔ h.Lives id := by
  obtain ⟨object, live, rfl⟩ := retain?_eq_some_iff.mp retained
  have found := (live?_eq_some_iff.mp live).1
  have more : ({ object with count := object.count + 1 } : Object σ).id = object.id := rfl
  rw [lives_set numbered found more]
  by_cases same : id = object.id
  · subst same
    simpa using Lives.of_live? live
  · simp [same]

theorem lives_of_release (released : h.release? addr = some (left, h')) : h.Lives left.id := by
  obtain ⟨object, live, rfl, -⟩ := release?_eq_some_iff.mp released
  exact ⟨addr, object, live, rfl⟩

/-- The object at the address dies if this was the last reference to it, and no other does. -/
theorem lives_release (numbered : h.Numbered) (released : h.release? addr = some (left, h')) :
    h'.Lives id ↔ h.Lives id ∧ ¬ (id = left.id ∧ left.count = 0) := by
  have lives := lives_of_release released
  obtain ⟨object, live, rfl, rfl⟩ := release?_eq_some_iff.mp released
  have found := (live?_eq_some_iff.mp live).1
  have less : ({ object with count := object.count - 1 } : Object σ).id = object.id := rfl
  rw [lives_set numbered found less]
  by_cases same : id = object.id
  · subst same
    constructor
    · rintro (⟨-, positive⟩ | ⟨ne, -⟩)
      · exact ⟨lives, fun ⟨_, zero⟩ => absurd zero (Nat.ne_of_gt positive)⟩
      · exact absurd rfl ne
    · rintro ⟨-, last⟩
      exact .inl ⟨rfl, Nat.pos_of_ne_zero fun zero => last ⟨rfl, zero⟩⟩
  · simp [same]

theorem lives_create (bounded : h.Bounded) (wish : Option Addr) (onDrop : σ) :
    (h.create wish onDrop).2.Lives id ↔ id = h.created + 1 ∨ h.Lives id := by
  constructor
  · rintro ⟨place, held, live, rfl⟩
    obtain ⟨there, positive⟩ := live?_eq_some_iff.mp live
    rw [find?_create] at there
    split at there
    · rw [← Option.some.inj there]
      exact .inl rfl
    · exact .inr ⟨place, held, live?_eq_some_iff.mpr ⟨there, positive⟩, rfl⟩
  · rintro (rfl | ⟨place, held, live, rfl⟩)
    · refine ⟨(h.create wish onDrop).1, ⟨h.created + 1, 1, onDrop⟩,
        live?_eq_some_iff.mpr ⟨?_, Nat.one_pos⟩, rfl⟩
      rw [find?_create, if_pos rfl]
    · obtain ⟨there, positive⟩ := live?_eq_some_iff.mp live
      refine ⟨place, held, live?_eq_some_iff.mpr ⟨?_, positive⟩, rfl⟩
      have elsewhere : place ≠ (h.create wish onDrop).1 := by
        rintro rfl
        rw [find?_create_address h bounded] at there
        contradiction
      rw [find?_create, if_neg elsewhere, there]

theorem lives_free (dead : h.count addr = 0) : (h.free addr).Lives id ↔ h.Lives id := by
  constructor
  · rintro ⟨place, held, live, rfl⟩
    obtain ⟨there, positive⟩ := live?_eq_some_iff.mp live
    rw [find?_free] at there
    split at there
    · contradiction
    · exact ⟨place, held, live?_eq_some_iff.mpr ⟨there, positive⟩, rfl⟩
  · rintro ⟨place, held, live, rfl⟩
    obtain ⟨there, positive⟩ := live?_eq_some_iff.mp live
    refine ⟨place, held, live?_eq_some_iff.mpr ⟨?_, positive⟩, rfl⟩
    have elsewhere : place ≠ addr := by
      rintro rfl
      rw [count_of_find? there] at dead
      omega
    rw [find?_free, if_neg elsewhere, there]

end Lives

namespace Change

theorem bounded (change : Change h h') (bounded : h.Bounded) : h'.Bounded := by
  cases change with
  | none => exact bounded
  | retained retained =>
    obtain ⟨object, -, rfl⟩ := retain?_eq_some_iff.mp retained
    exact bounded.set _ _
  | released released =>
    obtain ⟨object, -, -, rfl⟩ := release?_eq_some_iff.mp released
    exact bounded.set _ _
  | created wish onDrop => exact bounded.create wish onDrop
  | freed => exact bounded.free _

theorem created_le (change : Change h h') : h.created ≤ h'.created := by
  cases change with
  | none | freed => exact Nat.le_refl _
  | retained retained =>
    obtain ⟨object, -, rfl⟩ := retain?_eq_some_iff.mp retained
    exact Nat.le_refl _
  | released released =>
    obtain ⟨object, -, -, rfl⟩ := release?_eq_some_iff.mp released
    exact Nat.le_refl _
  | created wish onDrop => exact Nat.le_succ _

/-- What is at an address has kept its number, or it is the newest object of all. -/
theorem find?_id (change : Change h h') (found : h'.find? addr = some object) :
    (∃ old, h.find? addr = some old ∧ old.id = object.id) ∨
      (object.id = h.created + 1 ∧ h'.created = h.created + 1 ∧
        ∀ other, other ≠ addr → h'.find? other = h.find? other) := by
  cases change with
  | none => exact .inl ⟨object, found, rfl⟩
  | retained retained =>
    obtain ⟨old, live, rfl⟩ := retain?_eq_some_iff.mp retained
    rw [find?_set] at found
    split at found
    · next same =>
      obtain ⟨_, _, rfl⟩ := Option.map_eq_some_iff.mp found
      exact .inl ⟨old, by rw [same, (live?_eq_some_iff.mp live).1], rfl⟩
    · exact .inl ⟨object, found, rfl⟩
  | released released =>
    obtain ⟨old, live, rfl, rfl⟩ := release?_eq_some_iff.mp released
    rw [find?_set] at found
    split at found
    · next same =>
      obtain ⟨_, _, rfl⟩ := Option.map_eq_some_iff.mp found
      exact .inl ⟨old, by rw [same, (live?_eq_some_iff.mp live).1], rfl⟩
    · exact .inl ⟨object, found, rfl⟩
  | created wish onDrop =>
    rw [find?_create] at found
    split at found
    · next here =>
      rw [Option.some.injEq] at found
      refine .inr ⟨by rw [← found], rfl, fun other ne => ?_⟩
      rw [find?_create, if_neg (here ▸ ne)]
    · exact .inl ⟨object, found, rfl⟩
  | freed =>
    rw [find?_free] at found
    split at found
    · contradiction
    · exact .inl ⟨object, found, rfl⟩

theorem numbered (change : Change h h') (numbered : h.Numbered) : h'.Numbered where
  pos addr object found := by
    rcases change.find?_id found with ⟨old, there, same⟩ | ⟨newest, -, -⟩
    · exact same ▸ numbered.pos addr old there
    · omega
  le addr object found := by
    rcases change.find?_id found with ⟨old, there, same⟩ | ⟨newest, created, -⟩
    · exact same ▸ Nat.le_trans (numbered.le addr old there) change.created_le
    · omega
  unique a b left right at_a at_b same := by
    rcases change.find?_id at_a with ⟨old, old_a, left_id⟩ | ⟨newest, -, others⟩
    · rcases change.find?_id at_b with ⟨old', old_b, right_id⟩ | ⟨newest, -, -⟩
      · exact numbered.unique a b old old' old_a old_b (by rw [left_id, right_id, same])
      · have le := numbered.le a old old_a
        omega
    · -- The newest number is above all others, so the other object cannot have it too.
      by_contra ne
      have old_b := others b (Ne.symm ne) ▸ at_b
      have le := numbered.le b right old_b
      omega

/-- As long as something refers to an object, it stays where it is. -/
theorem live_stays (change : Change h h') (bounded : h.Bounded) (live : h.live? addr = some object) :
    ∃ next, h'.find? addr = some next ∧ next.id = object.id ∧ next.onDrop = object.onDrop := by
  obtain ⟨found, counted⟩ := live?_eq_some_iff.mp live
  cases change with
  | none => exact ⟨object, found, rfl, rfl⟩
  | @retained _ place retained =>
    obtain ⟨old, old_live, rfl⟩ := retain?_eq_some_iff.mp retained
    by_cases same : addr = place
    · subst same
      rw [live, Option.some.injEq] at old_live
      exact ⟨_, by rw [find?_set, if_pos rfl, found, Option.map_some], by rw [old_live],
        by rw [old_live]⟩
    · exact ⟨object, by rw [find?_set, if_neg same, found], rfl, rfl⟩
  | @released _ place _ released =>
    obtain ⟨old, old_live, rfl, rfl⟩ := release?_eq_some_iff.mp released
    by_cases same : addr = place
    · subst same
      rw [live, Option.some.injEq] at old_live
      exact ⟨_, by rw [find?_set, if_pos rfl, found, Option.map_some], by rw [old_live],
        by rw [old_live]⟩
    · exact ⟨object, by rw [find?_set, if_neg same, found], rfl, rfl⟩
  | created wish onDrop =>
    have ne : addr ≠ (h.create wish onDrop).1 := by
      rintro rfl
      rw [find?_create_address h bounded] at found
      contradiction
    exact ⟨object, by rw [find?_create, if_neg ne, found], rfl, rfl⟩
  | @freed place dead =>
    have ne : addr ≠ place := by
      rintro rfl
      rw [count_of_find? found] at dead
      omega
    exact ⟨object, by rw [find?_free, if_neg ne, found], rfl, rfl⟩

end Change

end SharedCells.Heap
