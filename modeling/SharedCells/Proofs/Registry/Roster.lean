import Mathlib.Data.List.Basic
import SharedCells.Registry

/-! A scan that finds every mark taken has had company.

A scan sees the marks one after the other, and never all at once: the marks it
has left behind may be free again, and be taken by others that come after it.
The roster tells why it finds them all taken only if there are many claims and
debts at once. It lists them from the newest to the oldest. A claim that has
passed a mark has either an older owner of that mark behind it, or a younger one
before it, which itself has passed all the marks before that one. So with each
mark that a claim passes, there has been one more claim or debt beside it and
those older ones that own none of the marks it has passed. -/

set_option autoImplicit false

namespace SharedCells.Registry

/-- A claim from its look at the head to the settlement of its debt. -/
structure Ticket where
  /-- The thread that scans, until the debt is recorded. -/
  scanner : Option Nat
  /-- How many nodes there were when the claim looked at the head. -/
  base : Nat
  /-- How many places the scan has not passed yet, the one that it has come to included. When the debt
  is recorded, this is the place of its mark. -/
  left : Nat
  deriving DecidableEq, Repr

/-- Claims and debts from the newest to the oldest, and the number of nodes. -/
@[ext] structure Roster where
  nodes : Nat
  tickets : List Ticket
  deriving DecidableEq, Repr

namespace Ticket

/-- The ticket owns none of the first `k` marks on the way through the oldest `n` nodes. -/
def Clears (n k : Nat) (t : Ticket) : Prop :=
  t.scanner.isSome ∨ breadth * n < t.left ∨ t.left + k ≤ breadth * n

instance (n k : Nat) : DecidablePred (Clears n k) := fun t => by
  unfold Clears
  infer_instance

/-- Claims on the list of nodes as it was before it had grown to `n` of them. -/
def Early (n : Nat) (t : Ticket) : Prop := t.scanner.isSome ∧ t.base < n

instance (n : Nat) : DecidablePred (Early n) := fun t => by
  unfold Early
  infer_instance

/-- If the ticket has passed the first `k` marks on the way through `n` nodes that were there when it
began, then `P` is enough for `k`, for the ticket, and for the older ones that own none of these
marks. -/
def Accompanied (P : Nat) (older : List Ticket) (t : Ticket) : Prop :=
  ∀ n k, n ≤ t.base → t.left + k ≤ breadth * n → k + 1 + older.countP (Clears n k) ≤ P

variable {t : Ticket} {n k : Nat}

theorem clears_of_scanner (scans : t.scanner.isSome) : t.Clears n k := .inl scans

theorem Clears.mono (clears : t.Clears n (k + 1)) : t.Clears n k := by
  rcases clears with scans | beyond | before
  · exact .inl scans
  · exact .inr (.inl beyond)
  · exact .inr (.inr (Nat.le_of_succ_le before))

end Ticket

namespace Roster

/-- What happens to claims and debts in a step. -/
inductive Step : Roster → Roster → Prop where
  /-- A claim looks at the head. -/
  | enter {n : Nat} {ts : List Ticket} (i : Nat) : Step ⟨n, ts⟩ ⟨n, ⟨some i, n, breadth * n⟩ :: ts⟩
  /-- A scan leaves a place behind whose mark is a debt's. -/
  | pass {n left : Nat} {newer older : List Ticket} {t owner : Ticket} : t.scanner.isSome →
      t.left = left + 1 → owner ∈ newer ++ t :: older → owner.scanner = none → owner.left = left + 1 →
      Step ⟨n, newer ++ t :: older⟩ ⟨n, newer ++ { t with left } :: older⟩
  /-- A claim takes a mark at the place where it is. -/
  | take {n : Nat} {newer older : List Ticket} {t : Ticket} : t.scanner.isSome →
      Step ⟨n, newer ++ t :: older⟩ ⟨n, newer ++ { t with scanner := none } :: older⟩
  /-- A claim has found no free mark, and publishes a node with a mark for its debt. -/
  | push {n : Nat} {newer older : List Ticket} {t : Ticket} : t.scanner.isSome → t.left = 0 →
      Step ⟨n, newer ++ t :: older⟩
        ⟨n + 1, newer ++ { t with scanner := none, left := breadth * (n + 1) } :: older⟩
  /-- A debt is settled. -/
  | leave {n : Nat} {newer older : List Ticket} {t : Ticket} :
      Step ⟨n, newer ++ t :: older⟩ ⟨n, newer ++ older⟩

/-- What never more than `P` claims and debts at once have come to. -/
inductive Accompanied (P : Nat) : List Ticket → Prop where
  | nil : Accompanied P []
  | cons {t : Ticket} {older : List Ticket} :
      t.Accompanied P older → (∀ other ∈ older, other.base ≤ t.base) → Accompanied P older →
      Accompanied P (t :: older)

variable {P : Nat} {newer older ts : List Ticket} {t t' : Ticket}

namespace Accompanied

theorem of_append (all : Accompanied P (newer ++ older)) : Accompanied P older := by
  induction newer with
  | nil => exact all
  | cons t newer ih =>
    cases all with
    | cons _ _ rest => exact ih rest

theorem own (all : Accompanied P (newer ++ t :: older)) : t.Accompanied P older := by
  cases of_append all with
  | cons own _ _ => exact own

theorem base_le (all : Accompanied P (newer ++ t :: older)) {other : Ticket} (member : other ∈ newer) :
    t.base ≤ other.base := by
  obtain ⟨before, after, rfl⟩ := List.append_of_mem member
  rw [List.append_assoc, List.cons_append] at all
  cases of_append all with
  | cons _ bases _ => exact bases t (by simp)

theorem replace (all : Accompanied P (newer ++ t :: older)) (scans : t.scanner.isSome)
    (base : t'.base = t.base) (own : t'.Accompanied P older) :
    Accompanied P (newer ++ t' :: older) := by
  induction newer with
  | nil =>
    cases all with
    | cons _ bases rest => exact .cons own (base ▸ bases) rest
  | cons first newer ih =>
    rw [List.cons_append] at all ⊢
    cases all with
    | cons company bases rest =>
      refine .cons (fun n k le passed => ?_) (fun other member => ?_) (ih rest)
      · have before := company n k le passed
        have clears : t.Clears n k := Ticket.clears_of_scanner scans
        simp only [List.countP_append, List.countP_cons, decide_eq_true clears, if_true] at before ⊢
        split <;> omega
      · rcases List.mem_append.mp member with member | member
        · exact bases other (List.mem_append_left _ member)
        · rcases List.mem_cons.mp member with rfl | member
          · exact base ▸ bases t (by simp)
          · exact bases other (by simp [member])

theorem remove (all : Accompanied P (newer ++ t :: older)) : Accompanied P (newer ++ older) := by
  induction newer with
  | nil =>
    cases all with
    | cons _ _ rest => exact rest
  | cons first newer ih =>
    rw [List.cons_append] at all ⊢
    cases all with
    | cons company bases rest =>
      refine .cons (fun n k le passed => ?_) (fun other member => bases other ?_) (ih rest)
      · have before := company n k le passed
        simp only [List.countP_append, List.countP_cons] at before ⊢
        omega
      · simp only [List.mem_append, List.mem_cons] at member ⊢
        exact member.imp_right .inr

/-- The mark that a claim passes has an owner. An older one has not been counted as company, and a
younger one has had the claim itself as company when it had passed the same marks. -/
theorem pass {owner : Ticket} {left : Nat} (all : Accompanied P (newer ++ t :: older))
    (few : (newer ++ t :: older).length ≤ P) (scans : t.scanner.isSome) (here : t.left = left + 1)
    (member : owner ∈ newer ++ t :: older) (owns : owner.scanner = none)
    (there : owner.left = left + 1) : ({ t with left } : Ticket).Accompanied P older := by
  intro n k le passed
  dsimp only at le passed
  by_cases before : left + 1 + k ≤ breadth * n
  · exact all.own n k le (here ▸ before)
  cases k with
  | zero =>
    -- The claim has passed none of these marks, so that all older ones count.
    have most := List.countP_le_length (p := fun t => decide (t.Clears n 0)) (l := older)
    simp only [List.length_append, List.length_cons] at few
    omega
  | succ k =>
    have last : left + 1 + k = breadth * n := by omega
    have fewer (ts : List Ticket) : ts.countP (Ticket.Clears n (k + 1)) ≤ ts.countP (Ticket.Clears n k) :=
      List.countP_mono_left fun t _ clears => by
        simp only [decide_eq_true_eq] at clears ⊢
        exact clears.mono
    rcases List.mem_append.mp member with younger | member
    · -- The claim is among the company of the owner.
      have base := all.base_le younger
      obtain ⟨newest, between, rfl⟩ := List.append_of_mem younger
      rw [List.append_assoc, List.cons_append] at all
      have company := all.own n k (Nat.le_trans le base) (there ▸ Nat.le_of_eq last)
      have clears : t.Clears n k := Ticket.clears_of_scanner scans
      have fewer := fewer older
      simp only [List.countP_append, List.countP_cons, decide_eq_true clears, if_true] at company
      omega
    · rcases List.mem_cons.mp member with rfl | elder
      · rw [owns] at scans
        contradiction
      · -- The owner was counted so far, and owns the last of the marks that are passed now.
        have company := all.own n k le (here ▸ Nat.le_of_eq last)
        obtain ⟨between, oldest, rfl⟩ := List.append_of_mem elder
        have clears : owner.Clears n k := .inr (.inr (there ▸ Nat.le_of_eq last))
        have owned : ¬ owner.Clears n (k + 1) := by
          simp only [Ticket.Clears, owns, there, Option.isSome_none, Bool.false_eq_true, false_or]
          omega
        have fewer₁ := fewer between
        have fewer₂ := fewer oldest
        simp only [List.countP_append, List.countP_cons, decide_eq_true clears, if_true,
          decide_eq_false owned, Bool.false_eq_true, if_false] at company ⊢
        omega

end Accompanied

/-- How many nodes `P` claims and debts need if they are all there at once. -/
def enough (P : Nat) : Nat := (P + (breadth - 1)) / breadth

/-- What never more than `P` claims and debts at once have come to. There are not more nodes than `P`
need at once, but for those that are pushed by claims that began when there were less. -/
structure Bounded (P : Nat) (R : Roster) : Prop where
  few : R.tickets.length ≤ P
  bases : ∀ t ∈ R.tickets, t.base ≤ R.nodes
  accompanied : Accompanied P R.tickets
  nodes : R.nodes < enough P ∨
    R.nodes + R.tickets.countP (Ticket.Early (enough P)) ≤ enough P + (P - 1)

variable {R R' : Roster}

theorem Bounded.empty (P : Nat) : Bounded P ⟨0, []⟩ where
  few := Nat.zero_le P
  bases := nofun
  accompanied := .nil
  nodes := .inr (Nat.zero_le _)

/-- A claim that has found all marks taken has had that many claims and debts beside it. -/
theorem Bounded.full (bounded : Bounded P R) (member : t ∈ R.tickets) (done : t.left = 0) :
    breadth * t.base + 1 ≤ P := by
  obtain ⟨newer, older, same⟩ := List.append_of_mem member
  have company := (same ▸ bounded.accompanied).own t.base (breadth * t.base) (Nat.le_refl _)
    (by omega)
  omega

theorem Bounded.early (bounded : Bounded P R) (member : t ∈ R.tickets) (scans : t.scanner.isSome)
    (done : t.left = 0) : t.Early (enough P) := by
  refine ⟨scans, ?_⟩
  have full := bounded.full member done
  simp only [breadth, enough] at full ⊢
  omega

theorem Bounded.replace {n n' : Nat} (bounded : Bounded P ⟨n, newer ++ t :: older⟩)
    (scans : t.scanner.isSome) (own : t'.Accompanied P older) (base : t'.base = t.base)
    (grows : n ≤ n') (nodes : n' < enough P ∨
      n' + (newer ++ t' :: older).countP (Ticket.Early (enough P)) ≤ enough P + (P - 1)) :
    Bounded P ⟨n', newer ++ t' :: older⟩ where
  few := by simpa using bounded.few
  bases other member := by
    refine Nat.le_trans ?_ grows
    rcases List.mem_append.mp member with member | member
    · exact bounded.bases other (List.mem_append_left _ member)
    · rcases List.mem_cons.mp member with rfl | member
      · exact base ▸ bounded.bases t (by simp)
      · exact bounded.bases other (by simp [member])
  accompanied := bounded.accompanied.replace scans base own
  nodes := nodes

theorem countP_early (n : Nat) (newer older : List Ticket) (t : Ticket) :
    (newer ++ t :: older).countP (Ticket.Early n) =
      (newer ++ older).countP (Ticket.Early n) + if t.Early n then 1 else 0 := by
  simp only [List.countP_append, List.countP_cons, decide_eq_true_eq, Nat.add_assoc]

theorem Step.bounded (step : Step R R') (bounded : Bounded P R) (few : R'.tickets.length ≤ P) :
    Bounded P R' := by
  have nodes := bounded.nodes
  cases step with
  | @enter n ts i =>
    refine ⟨few, List.forall_mem_cons.mpr ⟨Nat.le_refl n, bounded.bases⟩,
      .cons (fun n' k le passed => ?_) bounded.bases bounded.accompanied, ?_⟩
    · -- The scan has passed nothing.
      have first := Nat.mul_le_mul_left breadth le
      have most := List.countP_le_length (p := fun t => decide (t.Clears n' k)) (l := ts)
      simp only [List.length_cons] at few passed first
      omega
    · rcases Nat.lt_or_ge n (enough P) with less | enough'
      · exact .inl less
      · have late : ¬ Ticket.Early (enough P) ⟨some i, n, breadth * n⟩ := fun early =>
          Nat.not_lt.mpr enough' early.2
        simpa [List.countP_cons, late] using nodes
  | @pass n left newer older t owner scans here member owns there =>
    have own := bounded.accompanied.pass bounded.few scans here member owns there
    refine bounded.replace scans own rfl (Nat.le_refl n) ?_
    rw [countP_early] at nodes ⊢
    exact nodes
  | @take n newer older t scans =>
    refine bounded.replace scans bounded.accompanied.own rfl (Nat.le_refl n) ?_
    -- What holds a mark scans no more, so it is not among the early ones.
    have late : ¬ ({ t with scanner := none } : Ticket).Early (enough P) := fun early => nomatch early.1
    rw [countP_early, if_neg late]
    dsimp only at nodes
    rw [countP_early] at nodes
    omega
  | @push n newer older t scans done =>
    -- Only an early claim pushes, so that there is one of them less where there is a node more.
    have early := bounded.early (t := t) (by simp) scans done
    have late : ¬ ({ t with scanner := none, left := breadth * (n + 1) } : Ticket).Early (enough P) :=
      fun early => nomatch early.1
    have base : t.base ≤ n := bounded.bases t (by simp)
    refine bounded.replace scans (fun n' k le passed => ?_) rfl (Nat.le_succ n) ?_
    · -- The new mark is none of those that any claim so far is to pass.
      have beyond := Nat.mul_le_mul_left breadth (Nat.le_trans le base)
      simp only [breadth] at passed beyond
      omega
    · have most := List.countP_le_length (p := fun t => decide (t.Early (enough P))) (l := newer ++ older)
      rw [countP_early, if_neg late]
      dsimp only at nodes
      rw [countP_early, if_pos early] at nodes
      simp only [List.length_append, List.length_cons] at few most
      omega
  | @leave n newer older t =>
    refine ⟨few, fun other member => bounded.bases other ?_, bounded.accompanied.remove, ?_⟩
    · simp only [List.mem_append, List.mem_cons] at member ⊢
      exact member.imp_right .inr
    · dsimp only at nodes ⊢
      rw [countP_early] at nodes
      omega

/-- `P` claims and debts never come to more nodes than this. -/
theorem Bounded.nodes_le (bounded : Bounded P R) : R.nodes ≤ enough P + (P - 1) := by
  rcases bounded.nodes with less | few <;> omega

end Roster

end SharedCells.Registry
