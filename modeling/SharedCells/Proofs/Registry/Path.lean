import Mathlib.Data.List.FinRange
import Mathlib.Data.List.Nodup
import SharedCells.Proofs.Registry.Debts

/-! Scans that nobody disturbs.

While nobody adds a node, a scan comes to every place once. So it can count the
marks, take the first free one, or pay every debt on an address. -/

set_option autoImplicit false

namespace SharedCells.Registry

/-- The places before a scan that goes on at a place, or is at its end. -/
inductive Path (r : Registry) : Option Place → List Place → Prop where
  | finish : Path r none []
  | visit {p : Place} {ps : List Place} : Path r (r.after p) ps → Path r (some p) (p :: ps)

/-- All places, in no order that matters. -/
def places (r : Registry) : List Place :=
  (List.range r.nodes.length).flatMap fun node => (List.finRange breadth).map (Place.mk node)

/-- How many marks owe an address. -/
def owing (r : Registry) (addr : Addr) : Nat :=
  r.places.countP fun p => r.read p = some (.owed addr)

/-- Marks every debt on the address as paid that is found at one of the places. -/
def payAt (addr : Addr) (r : Registry) (ps : List Place) : Registry :=
  ps.foldl (fun r p => (r.replace p (.owed addr) .paid).2) r

section Places

variable {r : Registry} {p : Place}

theorem mem_places : p ∈ r.places ↔ p.Published r := by
  obtain ⟨node, index⟩ := p
  simp [places, Place.Published]

theorem nodup_places : r.places.Nodup := by
  refine List.nodup_flatMap.mpr ⟨fun node _ => ?_, ?_⟩
  · exact (List.nodup_finRange breadth).map fun i j same => (Place.mk.inj same).2
  · refine List.nodup_range.imp fun differ => ?_
    intro q one two
    obtain ⟨i, -, rfl⟩ := List.mem_map.mp one
    obtain ⟨j, -, same⟩ := List.mem_map.mp two
    exact differ (Place.mk.inj same).1.symm

theorem length_places : r.places.length = r.nodes.length * breadth := by
  simp [places]

end Places

namespace Chained

variable {r : Registry} {p : Place}

/-- From a place a scan comes once to every place of no higher rank. -/
theorem exists_path (chained : r.Chained) (published : p.Published r) :
    ∃ ps, Path r (some p) ps ∧ ps.Nodup ∧ ∀ q, q ∈ ps ↔ q.Published r ∧ q.rank ≤ p.rank := by
  -- Each step along the links goes down in rank, and none skips a rank.
  induction rank : p.rank generalizing p with
  | zero =>
    cases after : r.after p with
    | some next =>
      have lower := (chained.rank_after published after).2
      omega
    | none =>
      refine ⟨[p], .visit (after ▸ .finish), List.nodup_singleton p, fun q => ?_⟩
      rw [List.mem_singleton]
      constructor
      · rintro rfl
        exact ⟨published, Nat.le_of_eq rank⟩
      · rintro ⟨-, low⟩
        exact Place.rank_injective (by omega)
  | succ n ih =>
    cases after : r.after p with
    | none =>
      have last := chained.after_eq_none published after
      omega
    | some next =>
      obtain ⟨behind, lower⟩ := chained.rank_after published after
      obtain ⟨ps, path, nodup, all⟩ := ih behind (by omega)
      refine ⟨p :: ps, .visit (after ▸ path), ?_, fun q => ?_⟩
      · refine List.nodup_cons.mpr ⟨fun member => ?_, nodup⟩
        have low := ((all p).mp member).2
        omega
      · rw [List.mem_cons, all]
        constructor
        · rintro (rfl | ⟨on, low⟩)
          · exact ⟨published, Nat.le_of_eq rank⟩
          · exact ⟨on, by omega⟩
        · rintro ⟨on, low⟩
          by_cases same : q.rank = p.rank
          · exact .inl (Place.rank_injective same)
          · exact .inr ⟨on, by omega⟩

theorem exists_path_first (chained : r.Chained) :
    ∃ ps, Path r r.first ps ∧ ps.Perm r.places := by
  cases first : r.first with
  | none =>
    have empty : r.places = [] := by
      rw [places, chained.first_eq_none first]
      rfl
    exact ⟨[], .finish, empty ▸ .refl _⟩
  | some p =>
    obtain ⟨published, top⟩ := chained.rank_first first
    obtain ⟨ps, path, nodup, all⟩ := chained.exists_path published
    refine ⟨ps, path, (List.perm_ext_iff_of_nodup nodup nodup_places).mpr fun q => ?_⟩
    rw [all, mem_places]
    refine ⟨And.left, fun on => ⟨on, ?_⟩⟩
    simp only [Place.Published, Place.rank, breadth] at on top ⊢
    omega

end Chained

section PayAt

variable {r : Registry} {debts : List Debt} {addr : Addr} {ps : List Place} {p q : Place}

theorem payAt_cons :
    r.payAt addr (p :: ps) = (r.replace p (.owed addr) .paid).2.payAt addr ps := rfl

theorem read_replace_paid :
    (r.replace p (.owed addr) .paid).2.read q =
      if q = p ∧ r.read q = some (.owed addr) then some .paid else r.read q := by
  unfold replace
  by_cases owed : r.read p = some (.owed addr)
  · rw [if_pos owed]
    by_cases same : q = p
    · subst same
      rw [read_write_self (Place.Published.of_read owed), if_pos ⟨rfl, owed⟩]
    · rw [read_write_of_ne same, if_neg fun both => same both.1]
  · rw [if_neg owed, if_neg]
    rintro ⟨rfl, other⟩
    exact owed other

theorem read_payAt :
    (r.payAt addr ps).read q =
      if q ∈ ps ∧ r.read q = some (.owed addr) then some .paid else r.read q := by
  induction ps generalizing r with
  | nil => simp [payAt]
  | cons p ps ih =>
    rw [payAt_cons, ih, read_replace_paid]
    by_cases same : q = p
    · subst same
      by_cases owed : r.read q = some (.owed addr) <;> simp [owed]
    · simp [same]

theorem payAt_keeps {motive : Registry → Prop}
    (pay : ∀ r p, r.read p = some (.owed addr) → motive r → motive (r.write p .paid))
    (start : motive r) : motive (r.payAt addr ps) := by
  induction ps generalizing r with
  | nil => exact start
  | cons p ps ih =>
    rw [payAt_cons]
    apply ih
    unfold replace
    split
    · next owed => exact pay r p owed start
    · exact start

theorem length_payAt : (r.payAt addr ps).nodes.length = r.nodes.length :=
  payAt_keeps (motive := fun r' => r'.nodes.length = r.nodes.length)
    (fun _ _ _ same => length_write.trans same) rfl

theorem Chained.payAt (chained : r.Chained) : (r.payAt addr ps).Chained :=
  payAt_keeps (fun _ _ _ => Chained.write) chained

theorem Backed.payAt (backed : r.Backed debts) : (r.payAt addr ps).Backed debts :=
  payAt_keeps (motive := fun r => r.Backed debts) (fun _ _ owed backed => backed.pay owed) backed

end PayAt

namespace Backed

variable {r : Registry} {debts : List Debt} {addr : Addr}

/-- There are as many taken marks as unsettled debts. -/
theorem perm_taken (backed : r.Backed debts) :
    (debts.map Debt.place).Perm (r.places.filter fun p => r.read p ≠ some .free) := by
  refine (List.perm_ext_iff_of_nodup backed.apart (nodup_places.filter _)).mpr fun p => ?_
  rw [List.mem_filter, mem_places]
  constructor
  · intro member
    obtain ⟨d, inside, rfl⟩ := List.mem_map.mp member
    refine ⟨backed.published inside, decide_eq_true fun free => ?_⟩
    exact backed.free_not_mem free member
  · rintro ⟨published, taken⟩
    obtain ⟨mark, read⟩ := Option.isSome_iff_exists.mp (read_isSome_iff.mpr published)
    have owned := of_decide_eq_true taken
    rw [read] at owned
    obtain ⟨d, member, rfl⟩ := backed.claimed p mark read fun free => owned (by rw [free])
    exact List.mem_map_of_mem member

theorem length_lt {p : Place} (backed : r.Backed debts) (free : r.read p = some .free) :
    debts.length < r.nodes.length * breadth := by
  have taken := backed.perm_taken.length_eq
  rw [List.length_map] at taken
  rw [taken, ← length_places]
  refine Nat.lt_of_le_of_ne (List.length_filter_le _ _) fun all => ?_
  have everywhere := List.filter_eq_self.mp (List.filter_sublist.eq_of_length all)
  exact of_decide_eq_true (everywhere p (mem_places.mpr (Place.Published.of_read free))) free

theorem length_eq (backed : r.Backed debts) (full : ∀ p ∈ r.places, r.read p ≠ some .free) :
    debts.length = r.nodes.length * breadth := by
  have taken := backed.perm_taken.length_eq
  rw [List.filter_eq_self.mpr fun p member => decide_eq_true (full p member)] at taken
  rw [← length_places, ← taken, List.length_map]

theorem owing_eq (backed : r.Backed debts) :
    r.owing addr = debts.countP fun d => d.addr = addr ∧ r.read d.place ≠ some .paid := by
  have unpaid : (r.places.filter fun p => r.read p = some (.owed addr)).Perm
      ((debts.filter fun d => d.addr = addr ∧ r.read d.place ≠ some .paid).map Debt.place) := by
    refine (List.perm_ext_iff_of_nodup (nodup_places.filter _)
      (backed.apart.sublist (List.filter_sublist.map _))).mpr fun p => ?_
    rw [List.mem_filter, List.mem_map]
    constructor
    · rintro ⟨-, owed⟩
      have owed := of_decide_eq_true owed
      exact ⟨⟨p, addr⟩, List.mem_filter.mpr ⟨backed.debtor owed, by simp [owed]⟩, rfl⟩
    · rintro ⟨d, member, rfl⟩
      obtain ⟨inside, fits⟩ := List.mem_filter.mp member
      obtain ⟨rfl, unpaid⟩ := of_decide_eq_true fits
      refine ⟨mem_places.mpr (backed.published inside), decide_eq_true ?_⟩
      exact (backed.marked d inside).resolve_right unpaid
  rw [owing, List.countP_eq_length_filter, unpaid.length_eq, List.length_map,
    List.countP_eq_length_filter]

theorem paid_add_owing (backed : r.Backed debts) (addr : Addr) :
    r.paid debts addr + r.owing addr = debts.countP fun d => d.addr = addr := by
  rw [backed.owing_eq, paid, List.countP_eq_countP_filter_add debts (fun d => d.addr = addr)
    fun d => r.read d.place = some .paid, List.countP_filter, List.countP_filter]
  simp

/-- Paying everywhere pays the debts on the address, and no others. -/
theorem read_payAt_places {ps : List Place} {d : Debt} (backed : r.Backed debts)
    (member : d ∈ debts) (all : ps.Perm r.places) :
    (r.payAt addr ps).read d.place = if d.addr = addr then some .paid else r.read d.place := by
  have visited : d.place ∈ ps := all.mem_iff.mpr (mem_places.mpr (backed.published member))
  rw [read_payAt]
  rcases backed.marked d member with owed | isPaid
  · simp [visited, owed]
  · simp [isPaid]

end Backed

/-- How a claim ends that nobody disturbs: a free mark is taken or, if there is none, a node is
added. -/
inductive Recorded (r : Registry) (addr : Addr) : Place → Bool → Registry → Prop where
  | taken {p : Place} : r.read p = some .free → Recorded r addr p false (r.write p (.owed addr))
  | grown : (∀ p ∈ r.places, r.read p ≠ some .free) →
      Recorded r addr ⟨r.nodes.length, 0⟩ true (r.publish r.head addr)

namespace Recorded

variable {r r' : Registry} {addr other : Addr} {p : Place} {grown : Bool} {debts : List Debt}

theorem backed (recorded : Recorded r addr p grown r') (backed : r.Backed debts) :
    r'.Backed (⟨p, addr⟩ :: debts) := by
  cases recorded with
  | taken free => exact backed.take free
  | grown => exact backed.publish

theorem chained (recorded : Recorded r addr p grown r') (chained : r.Chained) : r'.Chained := by
  cases recorded with
  | taken => exact chained.write
  | grown => exact chained.publish

theorem read_self (recorded : Recorded r addr p grown r') : r'.read p = some (.owed addr) := by
  cases recorded with
  | taken free => exact read_write_self (Place.Published.of_read free)
  | grown => exact read_publish_self

theorem read_of_mem {d : Debt} (recorded : Recorded r addr p grown r') (backed : r.Backed debts)
    (member : d ∈ debts) : r'.read d.place = r.read d.place := by
  cases recorded with
  | taken free => exact Backed.read_write_other (backed.free_not_mem free) member
  | grown => exact read_publish_of_published (backed.published member)

end Recorded

namespace Claim

variable {r : Registry}

theorem step_spurious (claim : Claim) (addr : Addr) (r : Registry) :
    claim.step addr true r = claim.step addr false r ∨ claim.step addr true r = (claim, r) := by
  cases claim with
  | link next =>
    by_cases same : r.head = next
    · exact .inr (by simp [step, same])
    · exact .inl (by simp [step, same])
  | start | test p | take p | grow | recorded p grown => exact .inl rfl

/-- What holds at the end of a claim that nobody disturbs, and before a step after which it holds,
holds at its start. -/
theorem of_recorded {motive : Claim → Prop} (addr : Addr) (chained : r.Chained)
    (moves : ∀ claim next : Claim, claim.Pending → next.Pending →
      claim.step addr false r = (next, r) → motive next → motive claim)
    (records : ∀ (claim : Claim) p grown r', claim.Pending →
      claim.step addr false r = (recorded p grown, r') → Recorded r addr p grown r' → motive claim) :
    motive start := by
  obtain ⟨ps, path, all⟩ := chained.exists_path_first
  -- What lies before the place that the scan has come to is taken.
  have scans (place : Option Place) (left : List Place) (path : Path r place left)
      (taken : ∀ q ∈ r.places, q ∉ left → r.read q ≠ some .free) : motive (scan place) := by
    induction path with
    | finish =>
      have full : Recorded r addr ⟨r.nodes.length, 0⟩ true (r.publish r.head addr) :=
        .grown fun q member => taken q member List.not_mem_nil
      refine moves grow (link r.head) trivial trivial rfl ?_
      exact records (link r.head) _ _ _ trivial (by simp [step]) full
    | @visit p left _ ih =>
      by_cases free : r.read p = some .free
      · refine moves (test p) (take p) trivial trivial (by simp [step, free]) ?_
        exact records (take p) _ _ _ trivial (by simp [step, replace, free]) (.taken free)
      · have pending : (scan (r.after p)).Pending := by cases r.after p <;> trivial
        refine moves (test p) (scan (r.after p)) trivial pending (by simp [step, free]) (ih ?_)
        intro q member away
        by_cases same : q = p
        · exact same ▸ free
        · exact taken q member fun inside => (List.mem_cons.mp inside).elim same away
  have pending : (scan r.first).Pending := by cases r.first <;> trivial
  refine moves start (scan r.first) trivial pending rfl (scans _ ps path fun q member away => ?_)
  exact absurd (all.mem_iff.mpr member) away

end Claim

/-- What holds at the end of a payment that nobody disturbs, and before it tests a place or pays a
debt after which it holds, holds at its start. The number is that of the debts paid so far. -/
theorem Payment.of_finished {motive : Registry → Nat → Payment → Prop} {r : Registry} (addr : Addr)
    (chained : r.Chained)
    (starts : motive r 0 (scan r.first) → motive r 0 start)
    (skips : ∀ r paid p, r.read p ≠ some (.owed addr) →
      motive r paid (scan (r.after p)) → motive r paid (test p))
    (pays : ∀ r paid p, r.read p = some (.owed addr) →
      motive (r.write p .paid) (paid + 1) (scan ((r.write p .paid).after p)) → motive r paid (test p))
    (finishes : ∀ ps, ps.Perm r.places → motive (r.payAt addr ps) (r.owing addr) finished) :
    motive r 0 start := by
  obtain ⟨ps, path, all⟩ := chained.exists_path_first
  -- The payment changes marks and no links, so that it stays on the path.
  have scans (place : Option Place) (left : List Place) (path : Path r place left)
      (nodup : left.Nodup) (now : Registry) (paid : Nat) (way : ∀ q, now.after q = r.after q)
      (ends : motive (now.payAt addr left)
        (paid + left.countP fun p => now.read p = some (.owed addr)) finished) :
      motive now paid (scan place) := by
    induction path generalizing now paid with
    | finish => exact ends
    | @visit p left _ ih =>
      obtain ⟨new, nodup⟩ := List.nodup_cons.mp nodup
      by_cases owed : now.read p = some (.owed addr)
      · -- The mark of this place does not count for the places behind it.
        have rest : left.countP (fun q => (now.write p .paid).read q = some (.owed addr)) =
            left.countP fun q => now.read q = some (.owed addr) := by
          apply List.countP_congr
          intro q member
          have ne : q ≠ p := fun same => new (same ▸ member)
          rw [read_write_of_ne ne]
        refine pays now paid p owed ?_
        rw [after_write, way]
        refine ih nodup _ _ (fun q => after_write.trans (way q)) ?_
        rw [rest]
        simpa [payAt_cons, replace, owed, Nat.add_assoc, Nat.add_comm] using ends
      · refine skips now paid p owed ?_
        rw [way]
        refine ih nodup _ _ way ?_
        simpa [payAt_cons, replace, owed] using ends
  refine starts (scans _ ps path (all.nodup_iff.mpr nodup_places) r 0 (fun _ => rfl) ?_)
  rw [Nat.zero_add, all.countP_eq]
  exact finishes ps all

end SharedCells.Registry
