import Mathlib.Data.List.Nodup
import Mathlib.Data.List.Perm.Basic
import SharedCells.Proofs.Registry.Scan

/-! Recorded debts and the marks that stand for them.

Every mark that is not free belongs to exactly one debt that was recorded and
is not settled. It owes the address of that debt until a payer marks it as paid,
and only the owner of the debt frees it. A paid debt is worth one reference. -/

set_option autoImplicit false

namespace SharedCells.Registry

/-- The unsettled debts and the marks that are not free are the same. -/
structure Backed (r : Registry) (debts : List Debt) : Prop where
  apart : (debts.map Debt.place).Nodup
  marked : ∀ d ∈ debts, r.read d.place = some (.owed d.addr) ∨ r.read d.place = some .paid
  claimed : ∀ p mark, r.read p = some mark → mark ≠ .free → ∃ d ∈ debts, d.place = p

/-- How many of the debts on an address are paid. -/
def paid (r : Registry) (debts : List Debt) (addr : Addr) : Nat :=
  debts.countP fun d => d.addr = addr ∧ r.read d.place = some .paid

section Paid

variable {r : Registry} {debts others : List Debt} {d : Debt} {p : Place} {mark : Mark}
  {addr other : Addr}

theorem paid_cons :
    r.paid (d :: debts) addr =
      r.paid debts addr + if d.addr = addr ∧ r.read d.place = some .paid then 1 else 0 := by
  simp [paid, List.countP_cons]

theorem paid_perm (perm : debts.Perm others) : r.paid debts addr = r.paid others addr :=
  perm.countP_eq _

theorem paid_congr {r' : Registry} (same : ∀ d ∈ debts, r'.read d.place = r.read d.place) :
    r'.paid debts addr = r.paid debts addr := by
  apply List.countP_congr
  intro d member
  rw [same d member]

theorem paid_write (foreign : p ∉ debts.map Debt.place) :
    (r.write p mark).paid debts addr = r.paid debts addr := by
  apply paid_congr
  intro d member
  exact read_write_of_ne fun same => foreign (same ▸ List.mem_map_of_mem member)

theorem paid_pos (member : d ∈ debts) (isPaid : r.read d.place = some .paid) :
    0 < r.paid debts d.addr :=
  List.countP_pos_iff.mpr ⟨d, member, by simp [isPaid]⟩

end Paid

namespace Backed

variable {r : Registry} {debts others : List Debt} {d : Debt} {p : Place}
  {mark : Mark} {addr other : Addr}

theorem empty : Registry.empty.Backed [] where
  apart := List.nodup_nil
  marked d member := absurd member List.not_mem_nil
  claimed p mark read := by
    rw [read_eq_none_iff.mpr (Nat.zero_le _)] at read
    contradiction

theorem perm (backed : r.Backed debts) (perm : debts.Perm others) : r.Backed others where
  apart := (perm.map Debt.place).nodup_iff.mp backed.apart
  marked d member := backed.marked d (perm.mem_iff.mpr member)
  claimed p mark read taken := by
    obtain ⟨d, member, there⟩ := backed.claimed p mark read taken
    exact ⟨d, perm.mem_iff.mp member, there⟩

theorem not_mem_places (backed : r.Backed (d :: debts)) : d.place ∉ debts.map Debt.place := by
  have apart := backed.apart
  rw [List.map_cons, List.nodup_cons] at apart
  exact apart.1

theorem published (backed : r.Backed debts) (member : d ∈ debts) : d.place.Published r := by
  rcases backed.marked d member with owed | isPaid
  · exact .of_read owed
  · exact .of_read isPaid

theorem free_not_mem (backed : r.Backed debts) (free : r.read p = some .free) :
    p ∉ debts.map Debt.place := by
  intro member
  obtain ⟨d, inside, rfl⟩ := List.mem_map.mp member
  rcases backed.marked d inside with owed | isPaid
  · rw [free] at owed; simp at owed
  · rw [free] at isPaid; simp at isPaid

theorem unpublished_not_mem (backed : r.Backed debts) (new : ¬ p.Published r) :
    p ∉ debts.map Debt.place := by
  intro member
  obtain ⟨d, inside, rfl⟩ := List.mem_map.mp member
  exact new (backed.published inside)

theorem read_write_other (foreign : p ∉ debts.map Debt.place) (member : d ∈ debts) :
    (r.write p mark).read d.place = r.read d.place :=
  read_write_of_ne fun same => foreign (same ▸ List.mem_map_of_mem member)

theorem take (backed : r.Backed debts) (free : r.read p = some .free) :
    (r.write p (.owed addr)).Backed (⟨p, addr⟩ :: debts) where
  apart := by
    rw [List.map_cons, List.nodup_cons]
    exact ⟨backed.free_not_mem free, backed.apart⟩
  marked d member := by
    rcases List.mem_cons.mp member with rfl | member
    · exact .inl (read_write_self (Place.Published.of_read free))
    · rw [read_write_other (backed.free_not_mem free) member]
      exact backed.marked d member
  claimed q mark read taken := by
    by_cases same : q = p
    · exact ⟨_, List.mem_cons_self, same.symm⟩
    · rw [read_write_of_ne same] at read
      obtain ⟨d, member, there⟩ := backed.claimed q mark read taken
      exact ⟨d, List.mem_cons_of_mem _ member, there⟩

theorem paid_take (backed : r.Backed debts) (free : r.read p = some .free) :
    (r.write p (.owed addr)).paid (⟨p, addr⟩ :: debts) other = r.paid debts other := by
  rw [paid_cons, paid_write (backed.free_not_mem free), read_write_self (Place.Published.of_read free)]
  simp

theorem publish {next : Option Nat} (backed : r.Backed debts) :
    (r.publish next addr).Backed (⟨⟨r.nodes.length, 0⟩, addr⟩ :: debts) where
  apart := by
    rw [List.map_cons, List.nodup_cons]
    exact ⟨backed.unpublished_not_mem (Nat.lt_irrefl _), backed.apart⟩
  marked d member := by
    rcases List.mem_cons.mp member with rfl | member
    · exact .inl read_publish_self
    · rw [read_publish_of_published (backed.published member)]
      exact backed.marked d member
  claimed q mark read taken := by
    by_cases old : q.Published r
    · rw [read_publish_of_published old] at read
      obtain ⟨d, member, there⟩ := backed.claimed q mark read taken
      exact ⟨d, List.mem_cons_of_mem _ member, there⟩
    · -- A place that is not published yet is on the new node.
      by_cases first : q = ⟨r.nodes.length, 0⟩
      · exact ⟨_, List.mem_cons_self, first.symm⟩
      · rcases read_publish_new next addr old first with none | free
        · rw [none] at read; contradiction
        · rw [free, Option.some.injEq] at read
          exact absurd read.symm taken

theorem paid_publish {next : Option Nat} (backed : r.Backed debts) :
    (r.publish next addr).paid (⟨⟨r.nodes.length, 0⟩, addr⟩ :: debts) other =
      r.paid debts other := by
  rw [paid_cons, read_publish_self,
    paid_congr fun d member => read_publish_of_published (backed.published member)]
  simp

/-- The owner of a debt frees its mark. -/
theorem settle (backed : r.Backed (d :: debts)) : (r.write d.place .free).Backed debts where
  apart := by
    have apart := backed.apart
    rw [List.map_cons, List.nodup_cons] at apart
    exact apart.2
  marked other member := by
    rw [read_write_other backed.not_mem_places member]
    exact backed.marked other (List.mem_cons_of_mem _ member)
  claimed q mark read taken := by
    by_cases same : q = d.place
    · subst same
      rw [read_write_self (backed.published List.mem_cons_self), Option.some.injEq] at read
      exact absurd read.symm taken
    · rw [read_write_of_ne same] at read
      obtain ⟨other, member, there⟩ := backed.claimed q mark read taken
      rcases List.mem_cons.mp member with rfl | member
      · exact absurd there.symm same
      · exact ⟨other, member, there⟩

theorem paid_settle (backed : r.Backed (d :: debts)) :
    (r.write d.place .free).paid debts addr = r.paid debts addr :=
  paid_write backed.not_mem_places

/-- A mark that owes an address belongs to a debt on that address. -/
theorem debtor (backed : r.Backed debts) (owed : r.read p = some (.owed addr)) :
    (⟨p, addr⟩ : Debt) ∈ debts := by
  obtain ⟨d, member, rfl⟩ := backed.claimed p _ owed (by simp)
  rcases backed.marked d member with same | isPaid
  · rw [owed, Option.some.injEq, Mark.owed.injEq] at same
    rw [same]
    exact member
  · rw [owed] at isPaid; simp at isPaid

/-- A payer marks a debt as paid. -/
theorem pay (backed : r.Backed debts) (owed : r.read p = some (.owed addr)) :
    (r.write p .paid).Backed debts where
  apart := backed.apart
  marked d member := by
    by_cases same : d.place = p
    · rw [same]
      exact .inr (read_write_self (Place.Published.of_read owed))
    · rw [read_write_of_ne same]
      exact backed.marked d member
  claimed q mark read taken := by
    by_cases same : q = p
    · exact ⟨_, backed.debtor owed, same.symm⟩
    · rw [read_write_of_ne same] at read
      exact backed.claimed q mark read taken

/-- Paying makes exactly one more debt on the address a paid one. -/
theorem paid_pay (backed : r.Backed debts) (owed : r.read p = some (.owed addr)) :
    (r.write p .paid).paid debts other = r.paid debts other + if addr = other then 1 else 0 := by
  -- With this debt in front of the others, writing its mark leaves the others alone.
  have order := List.perm_cons_erase (backed.debtor owed)
  have foreign := (backed.perm order).not_mem_places
  rw [paid_perm order, paid_perm order, paid_cons, paid_cons, paid_write foreign,
    read_write_self (Place.Published.of_read owed), owed]
  simp

end Backed

/-- A debt is still to be recorded. -/
def Claim.Pending : Claim → Prop
  | .recorded _ _ => False
  | _ => True

/-- A step of a claim leaves the registry alone or records the debt. -/
theorem Claim.step_cases {claim : Claim} (pending : claim.Pending) (addr : Addr) (spurious : Bool)
    (r : Registry) :
    (∃ next : Claim, next.Pending ∧ claim.step addr spurious r = (next, r)) ∨
      (∃ p, r.read p = some .free ∧
        claim.step addr spurious r = (recorded p false, r.write p (.owed addr))) ∨
      claim.step addr spurious r = (recorded ⟨r.nodes.length, 0⟩ true, r.publish r.head addr) := by
  have scans (place : Option Place) : (scan place).Pending := by cases place <;> trivial
  cases claim with
  | start => exact .inl ⟨_, scans _, rfl⟩
  | test p =>
    refine .inl ⟨_, ?_, rfl⟩
    split
    · trivial
    · exact scans _
  | take p =>
    by_cases free : r.read p = some .free
    · exact .inr (.inl ⟨p, free, by simp only [step, replace, if_pos free]⟩)
    · exact .inl ⟨scan (r.after p), scans _, by simp only [step, replace, if_neg free]⟩
  | grow => exact .inl ⟨link r.head, trivial, rfl⟩
  | link next =>
    by_cases won : r.head = next ∧ spurious = false
    · obtain ⟨rfl, steady⟩ := won
      exact .inr (.inr (by simp [step, steady]))
    · exact .inl ⟨link r.head, trivial, by simp only [step, if_neg won]⟩
  | recorded p grown => exact pending.elim

section Settle

variable {r : Registry} {d : Debt}

theorem Settle.step_withdraw_of_owed (owed : r.read d.place = some (.owed d.addr)) :
    withdraw.step d r = (settled true, r.write d.place .free) := by
  simp only [step, replace, if_pos owed]

theorem Settle.step_withdraw_of_paid (isPaid : r.read d.place = some .paid) :
    withdraw.step d r = (clear, r) := by
  simp [step, replace, isPaid]

/-- What is withdrawn was still outstanding. -/
theorem Settle.step_withdraw_ne : (withdraw.step d r).1 ≠ settled false := by
  by_cases owed : r.read d.place = some (.owed d.addr)
  · simp [step_withdraw_of_owed owed]
  · simp only [step, replace, if_neg owed]
    split <;> simp

theorem Settle.step_clear : clear.step d r = (settled false, r.write d.place .free) := rfl

end Settle

section Paying

variable {r : Registry} {p place : Place} {mark : Mark} {addr : Addr}

theorem read_of_write_paid (paid : (r.write p mark).read place = some .paid) (other : mark ≠ .paid) :
    r.read place = some .paid := by
  by_cases same : place = p
  · subst same
    have published : place.Published r := by simpa [Place.Published] using Place.Published.of_read paid
    rw [read_write_self published, Option.some.injEq] at paid
    exact absurd paid other
  · rwa [read_write_of_ne same] at paid

theorem read_of_publish_paid {next : Option Nat} (paid : (r.publish next addr).read place = some .paid) :
    r.read place = some .paid := by
  by_cases old : place.Published r
  · rwa [read_publish_of_published old] at paid
  · by_cases first : place = ⟨r.nodes.length, 0⟩
    · rw [first, read_publish_self] at paid
      simp at paid
    · rcases read_publish_new next addr old first with none | free <;> simp_all

theorem Claim.read_of_step_paid {claim : Claim} {spurious : Bool}
    (paid : (claim.step addr spurious r).2.read place = some .paid) : r.read place = some .paid := by
  cases claim with
  | take p =>
    by_cases free : r.read p = some .free
    · simp only [step, replace, if_pos free] at paid
      exact read_of_write_paid paid (by simp)
    · simpa only [step, replace, if_neg free] using paid
  | link next =>
    by_cases won : r.head = next ∧ spurious = false
    · simp only [step, if_pos won] at paid
      exact read_of_publish_paid paid
    · simpa only [step, if_neg won] using paid
  | start | test p | grow | recorded => exact paid

theorem Settle.read_of_step_paid {settle : Settle} {debt : Debt}
    (paid : (settle.step debt r).2.read place = some .paid) : r.read place = some .paid := by
  cases settle with
  | withdraw =>
    by_cases owed : r.read debt.place = some (.owed debt.addr)
    · rw [step_withdraw_of_owed owed] at paid
      exact read_of_write_paid paid (by simp)
    · simpa only [step, replace, if_neg owed] using paid
  | clear => exact read_of_write_paid paid (by simp)
  | settled | corrupted => exact paid

/-- A payment pays what is owed on its own address. -/
theorem Payment.read_of_step_paid {payment : Payment}
    (paid : (payment.step addr r).2.read place = some .paid) :
    r.read place = some .paid ∨ r.read place = some (.owed addr) := by
  cases payment with
  | mark p =>
    by_cases owed : r.read p = some (.owed addr)
    · by_cases same : place = p
      · exact .inr (same ▸ owed)
      · rw [step_mark_of_owed owed] at paid
        exact .inl ((read_write_of_ne same).symm.trans paid)
    · rw [step_mark_of_not_owed owed] at paid
      exact .inl paid
  | start | test | retain | release | finished => exact .inl paid

end Paying

end SharedCells.Registry
