import Mathlib.Data.List.Basic
import SharedCells.Registry

/-! The order in which scans visit the marks.

Every node links to the one published before it, and the head is the newest
node. So a scan goes down the ranks of the places one by one, and it comes to
every place that was published when it read the head. -/

set_option autoImplicit false

namespace SharedCells.Registry

/-- The number of the node behind the `n`-th, and of the newest of `n` nodes. -/
def previous : Nat → Option Nat
  | 0 => none
  | n + 1 => some n

/-- Nodes are linked from the newest to the oldest. -/
structure Chained (r : Registry) : Prop where
  head : r.head = previous r.nodes.length
  next : ∀ i node, r.nodes[i]? = some node → node.next = previous i

/-- How many places a scan still has before it after this one. -/
def Place.rank (p : Place) : Nat := p.node * breadth + (breadth - 1 - p.index)

/-- The place is on a published node. -/
def Place.Published (r : Registry) (p : Place) : Prop := p.node < r.nodes.length

theorem Place.rank_injective {p q : Place} (same : p.rank = q.rank) : p = q := by
  obtain ⟨pNode, pIndex⟩ := p
  obtain ⟨qNode, qIndex⟩ := q
  have pBound : pIndex.val < 8 := pIndex.isLt
  have qBound : qIndex.val < 8 := qIndex.isLt
  simp only [Place.rank, breadth] at same
  have nodes : pNode = qNode := by omega
  have indices : pIndex = qIndex := Fin.ext (by omega)
  rw [nodes, indices]

section Published

variable {r : Registry} {p q : Place} {mark : Mark} {next : Option Nat} {addr : Addr}

theorem read_isSome_iff : (r.read p).isSome ↔ p.Published r := by
  rw [← Option.ne_none_iff_isSome, Ne, read_eq_none_iff, Place.Published, Nat.not_le]

theorem Place.Published.of_read (read : r.read p = some mark) : p.Published r :=
  read_isSome_iff.mp (by rw [read]; rfl)

theorem Place.Published.write (published : p.Published r) : p.Published (r.write q mark) := by
  simpa [Place.Published] using published

theorem read_publish_of_published (published : p.Published r) :
    (r.publish next addr).read p = r.read p := by
  simp only [read, Registry.publish, List.getElem?_append_left published]

theorem read_publish_self :
    (r.publish next addr).read ⟨r.nodes.length, 0⟩ = some (.owed addr) := by
  simp [read, Registry.publish]

/-- Only the first mark of a new node is taken. -/
theorem read_publish_new (next : Option Nat) (addr : Addr) (new : ¬ p.Published r)
    (ne : p ≠ ⟨r.nodes.length, 0⟩) :
    (r.publish next addr).read p = none ∨ (r.publish next addr).read p = some .free := by
  obtain ⟨node, index⟩ := p
  simp only [Place.Published, Nat.not_lt] at new
  rcases Nat.eq_or_lt_of_le new with here | beyond
  · subst here
    have notFirst : 0 ≠ index.val := by
      intro same
      have first : index = 0 := Fin.ext same.symm
      exact ne (by rw [first])
    right
    simp [read, Registry.publish, notFirst]
  · left
    rw [read_eq_none_iff]
    simp only [Registry.publish, List.length_append, List.length_singleton]
    exact beyond

end Published

namespace Chained

variable {r : Registry} {p q : Place} {mark : Mark} {addr : Addr}

theorem empty : Chained Registry.empty := ⟨rfl, fun i node found => by simp [Registry.empty] at found⟩

theorem write (chained : r.Chained) : (r.write p mark).Chained where
  head := by rw [head_write, length_write]; exact chained.head
  next i node found := by
    simp only [Registry.write, List.getElem?_modify] at found
    obtain ⟨old, there, rfl⟩ := Option.map_eq_some_iff.mp found
    have linked := chained.next i old there
    split <;> exact linked

theorem publish (chained : r.Chained) : (r.publish r.head addr).Chained where
  head := by simp [Registry.publish, previous]
  next i node found := by
    simp only [Registry.publish] at found
    rcases Nat.lt_trichotomy i r.nodes.length with before | here | beyond
    · rw [List.getElem?_append_left before] at found
      exact chained.next i node found
    · subst here
      simp only [List.getElem?_concat_length, Option.some.injEq] at found
      rw [← found]
      exact chained.head
    · rw [List.getElem?_eq_none (by simp; omega)] at found
      contradiction

/-- A scan begins at the highest rank. -/
theorem rank_first (chained : r.Chained) (first : r.first = some q) :
    q.Published r ∧ q.rank + 1 = r.nodes.length * breadth := by
  rw [Registry.first, chained.head, Option.map_eq_some_iff] at first
  obtain ⟨node, newest, rfl⟩ := first
  cases count : r.nodes.length with
  | zero => simp [previous, count] at newest
  | succ n =>
    rw [count, previous, Option.some.injEq] at newest
    subst newest
    simp only [Place.Published, Place.rank, count, breadth]
    exact ⟨by omega, by simp; omega⟩

theorem first_eq_none (chained : r.Chained) (first : r.first = none) : r.nodes.length = 0 := by
  rw [Registry.first, Option.map_eq_none_iff, chained.head] at first
  cases count : r.nodes.length with
  | zero => rfl
  | succ n => simp [previous, count] at first

/-- A scan goes down by one rank at a time. -/
theorem rank_after (chained : r.Chained) (published : p.Published r)
    (after : r.after p = some q) : q.Published r ∧ q.rank + 1 = p.rank := by
  obtain ⟨node, index⟩ := p
  unfold Registry.after at after
  split at after
  · next inside =>
    rw [Option.some.injEq] at after
    subst after
    simp only [breadth] at inside
    simp only [Place.Published, Place.rank, breadth] at published ⊢
    exact ⟨published, by omega⟩
  · next last =>
    -- The scan leaves the node for the one that was published before it.
    obtain ⟨found, there⟩ : ∃ found, r.nodes[node]? = some found :=
      ⟨_, List.getElem?_eq_getElem published⟩
    rw [there, Option.bind_some, chained.next node found there, Option.map_eq_some_iff] at after
    obtain ⟨behind, link, rfl⟩ := after
    cases node with
    | zero => simp [previous] at link
    | succ n =>
      rw [previous, Option.some.injEq] at link
      subst link
      simp only [Place.Published, Place.rank, breadth] at published last ⊢
      exact ⟨by omega, by simp; omega⟩

theorem after_eq_none (chained : r.Chained) (published : p.Published r)
    (after : r.after p = none) : p.rank = 0 := by
  obtain ⟨node, index⟩ := p
  unfold Registry.after at after
  split at after
  · contradiction
  · next last =>
    obtain ⟨found, there⟩ : ∃ found, r.nodes[node]? = some found :=
      ⟨_, List.getElem?_eq_getElem published⟩
    rw [there, Option.bind_some, chained.next node found there, Option.map_eq_none_iff] at after
    cases node with
    | zero =>
      simp only [Place.rank, breadth] at last ⊢
      omega
    | succ n => simp [previous] at after

end Chained

/-- The payment has yet to look at the place, or to mark what it saw there. -/
def Payment.Awaits (r : Registry) (p : Place) : Payment → Prop
  | .start => p.Published r
  | .test q | .retain q | .mark q => q.Published r ∧ p.rank ≤ q.rank
  | .release q => q.Published r ∧ p.rank < q.rank
  | .finished => False

namespace Payment

variable {r : Registry} {p q : Place} {new : Mark} {payment : Payment} {addr : Addr}

theorem step_test :
    (test q).step addr r = (if r.read q = some (.owed addr) then retain q else scan (r.after q), r) :=
  rfl

theorem step_mark_of_owed (owed : r.read q = some (.owed addr)) :
    (mark q).step addr r = (scan ((r.write q .paid).after q), r.write q .paid) := by
  simp only [step, replace, if_pos owed]

theorem step_mark_of_not_owed (gone : r.read q ≠ some (.owed addr)) :
    (mark q).step addr r = (release q, r) := by
  simp only [step, replace, if_neg gone]

theorem Awaits.mono {r' : Registry} (awaits : payment.Awaits r p)
    (grows : r.nodes.length ≤ r'.nodes.length) : payment.Awaits r' p := by
  cases payment with
  | start => exact Nat.lt_of_lt_of_le awaits grows
  | test q | retain q | mark q | release q => exact ⟨Nat.lt_of_lt_of_le awaits.1 grows, awaits.2⟩
  | finished => exact awaits

theorem Awaits.write (awaits : payment.Awaits r p) : payment.Awaits (r.write q new) p :=
  awaits.mono (Nat.le_of_eq length_write.symm)

theorem Awaits.publish {next : Option Nat} (awaits : payment.Awaits r p) :
    payment.Awaits (r.publish next addr) p :=
  awaits.mono (by simp [Registry.publish])

/-- Behind a place come all those of lower rank. -/
theorem awaits_scan_after (chained : r.Chained) (published : q.Published r)
    (lower : p.rank < q.rank) : (scan (r.after q)).Awaits r p := by
  cases after : r.after q with
  | none => exact absurd (chained.after_eq_none published after) (by omega)
  | some next =>
    obtain ⟨on, rank⟩ := chained.rank_after published after
    exact ⟨on, by omega⟩

theorem awaits_scan_first (chained : r.Chained) (published : p.Published r) :
    (scan r.first).Awaits r p := by
  have room : p.rank < r.nodes.length * breadth := by
    simp only [Place.Published, Place.rank, breadth] at published ⊢
    omega
  cases first : r.first with
  | none => rw [chained.first_eq_none first] at room; omega
  | some q =>
    obtain ⟨on, rank⟩ := chained.rank_first first
    exact ⟨on, by omega⟩

/-- A payment goes past a place only if no debt of its address is left there. -/
theorem awaits_step (chained : r.Chained) (awaits : payment.Awaits r p) :
    (payment.step addr r).1.Awaits (payment.step addr r).2 p ∨
      (payment.step addr r).2.read p ≠ some (.owed addr) := by
  -- The scan goes on from `q` to the places of lower rank. So it leaves behind `q` itself at most,
  -- and only when `q` owes nothing on this address any more.
  cases payment with
  | start => exact .inl (awaits_scan_first chained awaits)
  | test q =>
    obtain ⟨published, le⟩ := awaits
    rw [step_test]
    by_cases here : r.read q = some (.owed addr)
    · rw [if_pos here]
      exact .inl ⟨published, le⟩
    · rw [if_neg here]
      by_cases same : p = q
      · exact .inr (same ▸ here)
      · have ne : p.rank ≠ q.rank := fun equal => same (Place.rank_injective equal)
        exact .inl (awaits_scan_after chained published (by omega))
  | mark q =>
    obtain ⟨published, le⟩ := awaits
    by_cases here : r.read q = some (.owed addr)
    · rw [step_mark_of_owed here]
      by_cases same : p = q
      · subst same
        right
        simp [read_write_self published]
      · have ne : p.rank ≠ q.rank := fun equal => same (Place.rank_injective equal)
        exact .inl (awaits_scan_after chained.write published.write (by omega))
    · rw [step_mark_of_not_owed here]
      by_cases same : p = q
      · exact .inr (same ▸ here)
      · have ne : p.rank ≠ q.rank := fun equal => same (Place.rank_injective equal)
        exact .inl ⟨published, by omega⟩
  | retain q | release q | finished => exact .inl awaits

theorem awaits_resume (chained : r.Chained) (awaits : payment.Awaits r p) :
    (payment.resume r).Awaits r p := by
  cases payment with
  | release q => exact awaits_scan_after chained awaits.1 awaits.2
  | start | test q | retain q | mark q | finished => exact awaits

end Payment

end SharedCells.Registry
