import Mathlib.Data.List.FinRange
import SharedCells.Proofs.Registry.Payments

/-! The list of nodes is a stack that is only pushed to.

A push reads the head, links its own node to what it has read, and makes that node the head if the head
is still the same; otherwise it starts over. So no node is ever lost: the nodes that can be reached
from the head are those of all pushes that have succeeded, the newest first. The push hands out the
first mark of its node, which owes the address from the moment when the node can be reached. -/

set_option autoImplicit false

namespace SharedCells.Registry

/-- The nodes to which the links lead that begin with this one, up to one that has none behind it. -/
inductive Linked (r : Registry) : Option Nat → List Nat → Prop where
  | done : Linked r none []
  | follow {n : Nat} {node : Node} {behind : List Nat} :
      r.nodes[n]? = some node → Linked r node.next behind → Linked r (some n) (n :: behind)

/-- The numbers of so many nodes, the newest node first. -/
def newestFirst (n : Nat) : List Nat := (List.range n).reverse

theorem newestFirst_succ (n : Nat) : newestFirst (n + 1) = n :: newestFirst n := by
  rw [newestFirst, List.range_succ, List.reverse_append]
  rfl

section Links

variable {r r' : Registry} {link : Option Nat} {ns ms : List Nat}

theorem Linked.unique (one : Linked r link ns) (two : Linked r link ms) : ns = ms := by
  induction one generalizing ms with
  | done =>
    cases two
    rfl
  | follow found _ ih =>
    cases two with
    | follow found' rest =>
      obtain rfl := Option.some.inj (found.symm.trans found')
      rw [ih rest]

theorem Chained.linked_previous (chained : r.Chained) {n : Nat} (old : n ≤ r.nodes.length) :
    Linked r (previous n) (newestFirst n) := by
  induction n with
  | zero => exact .done
  | succ n ih =>
    have found : r.nodes[n]? = some r.nodes[n] := List.getElem?_eq_getElem old
    rw [newestFirst_succ]
    refine .follow found ?_
    rw [chained.next n _ found]
    exact ih (Nat.le_of_succ_le old)

theorem Chained.linked (chained : r.Chained) : Linked r r.head (newestFirst r.nodes.length) := by
  rw [chained.head]
  exact chained.linked_previous (Nat.le_refl _)

theorem Chained.keeps_links (chained : r.Chained) (chained' : r'.Chained)
    (grows : r.nodes.length ≤ r'.nodes.length) {n : Nat} {node : Node}
    (found : r.nodes[n]? = some node) :
    ∃ node', r'.nodes[n]? = some node' ∧ node'.next = node.next := by
  have old : n < r.nodes.length := (List.getElem?_eq_some_iff.mp found).1
  have found' : r'.nodes[n]? = some r'.nodes[n] :=
    List.getElem?_eq_getElem (Nat.lt_of_lt_of_le old grows)
  exact ⟨_, found', (chained'.next n _ found').trans (chained.next n node found).symm⟩

end Links

/-- The debt that the next access records on a node of its own, which it publishes. -/
def Activity.pushed (spurious : Bool) (r : Registry) : Activity → Option Debt
  | .claiming _ addr progress =>
    match (progress.step addr spurious r).1 with
    | .recorded place true => some ⟨place, addr⟩
    | _ => none
  | _ => none

/-- A claim publishes a node, or takes a free mark, or does not record its debt yet. -/
theorem Claim.pushes {claim : Claim} (pending : claim.Pending) (name : String) (addr : Addr)
    (spurious : Bool) (r : Registry) :
    let activity := Activity.claiming name addr claim
    let pushed := activity.pushed spurious r
    let deed := activity.deed spurious r
    pushed = some ⟨⟨r.nodes.length, 0⟩, addr⟩ ∧ deed = some (.recorded ⟨⟨r.nodes.length, 0⟩, addr⟩) ∨
      pushed = none ∧ ((∀ d, deed ≠ some (.recorded d)) ∨
        ∃ p, r.read p = some .free ∧ deed = some (.recorded ⟨p, addr⟩)) := by
  dsimp only [Activity.pushed, Activity.deed]
  rcases Claim.step_cases pending addr spurious r with ⟨next, still, step⟩ | ⟨p, free, step⟩ | step
  · rw [step]
    cases next with
    | recorded p grown => exact still.elim
    | start | test | take | grow | link => exact .inr ⟨rfl, .inl nofun⟩
  · rw [step]
    exact .inr ⟨rfl, .inr ⟨p, free, rfl⟩⟩
  · rw [step]
    exact .inl ⟨rfl, rfl⟩

theorem Account.Step.owed_of_recorded {A B : Account} {d : Debt}
    (step : Step A (some (.recorded d)) B) (backed : A.registry.Backed A.debts) :
    d ∈ B.debts ∧ B.registry.read d.place = some (.owed d.addr) := by
  have debts : B.debts.Perm (d :: A.debts) := step.leaves
  have after : d ∈ B.debts := debts.mem_iff.mpr List.mem_cons_self
  rcases step.fate backed after with ⟨-, -, owed⟩ | ⟨paid, -⟩ | ⟨-, other, -⟩
  · exact ⟨after, owed⟩
  · cases paid
  · exact absurd rfl (other d rfl)

namespace Session

/-- The debt for which the next step of thread `i` publishes a node. -/
def pushed (i : Nat) (spurious : Bool) (s : Session) : Option Debt :=
  (s.current i).bind (Activity.pushed spurious s.ledger.registry)

/-- The debts for which the steps of a schedule publish nodes, in that order. -/
def pushes : List (Nat × Bool) → Session → List Debt
  | [], _ => []
  | (i, spurious) :: schedule, s =>
    (s.pushed i spurious).toList ++ pushes schedule (s.step i spurious)

variable {s : Session} {i : Nat} {spurious : Bool} {d : Debt}

theorem deed_of_current {activity : Activity} (busy : s.current i = some activity) (spurious : Bool) :
    s.deed i spurious = activity.deed spurious s.ledger.registry ∧ activity ∈ s.activities := by
  obtain ⟨thread, found, current⟩ := Option.bind_eq_some_iff.mp busy
  obtain ⟨level, first, active⟩ := Option.bind_eq_some_iff.mp current
  obtain ⟨below, rfl⟩ := List.head?_eq_some_iff.mp first
  constructor
  · rw [deed, found, Option.bind_some]
    simp only [Thread.deed, active]
  · refine List.mem_flatMap.mpr ⟨_, List.mem_of_getElem? found, ?_⟩
    exact List.mem_filterMap.mpr ⟨level, List.mem_cons_self, active⟩

theorem not_recorded_of_idle (idle : s.current i = none) (spurious : Bool) (d : Debt) :
    s.deed i spurious ≠ some (.recorded d) := by
  cases found : s.threads[i]? with
  | none => simp [deed, found]
  | some thread =>
    rw [current, found, Option.bind_some] at idle
    rw [deed, found, Option.bind_some]
    cases thread with
    | nil => simp [Thread.deed]
    | cons level below =>
      have none : level.activity = none := idle
      simp only [Thread.deed, none]
      cases level.todo with
      | cons request todo => simp
      | nil =>
        intro recorded
        obtain ⟨activity, -, returned⟩ := Option.bind_eq_some_iff.mp recorded
        exact activity.returned_ne_recorded d returned

theorem step_pushes (orderly : s.Orderly) (i : Nat) (spurious : Bool) :
    (∃ addr, s.pushed i spurious = some ⟨⟨s.nodes, 0⟩, addr⟩ ∧
        s.deed i spurious = some (.recorded ⟨⟨s.nodes, 0⟩, addr⟩) ∧
        (s.step i spurious).nodes = s.nodes + 1) ∨
      s.pushed i spurious = none ∧ (s.step i spurious).nodes = s.nodes := by
  have account := (orderly.step i spurious).1.account
  cases busy : s.current i with
  | none =>
    refine .inr ⟨by rw [pushed, busy]; rfl, account.nodes_of_quiet ?_⟩
    exact not_recorded_of_idle busy spurious
  | some activity =>
    obtain ⟨deed, member⟩ := deed_of_current busy spurious
    have pushed : s.pushed i spurious = activity.pushed spurious s.ledger.registry := by
      rw [pushed, busy, Option.bind_some]
    have quiet (none : activity.pushed spurious s.ledger.registry = none)
        (nothing : ∀ d, activity.deed spurious s.ledger.registry ≠ some (.recorded d)) :
        s.pushed i spurious = .none ∧ (s.step i spurious).nodes = s.nodes :=
      ⟨pushed.trans none, account.nodes_of_quiet fun d => deed ▸ nothing d⟩
    cases activity with
    | claiming name addr progress =>
      rcases Claim.pushes (orderly.sound.fit _ member).1 name addr spurious s.ledger.registry with
        ⟨own, recorded⟩ | ⟨none, nothing | ⟨p, free, recorded⟩⟩
      · refine .inl ⟨addr, pushed.trans own, deed.trans recorded, ?_⟩
        rw [deed, recorded] at account
        exact account.nodes_of_grown
      · exact .inr (quiet none nothing)
      · rw [deed, recorded] at account
        exact .inr ⟨pushed.trans none, account.nodes_of_taken free⟩
    | settling debt progress =>
      exact .inr (quiet rfl (Activity.deed_settling_ne_recorded debt progress _ _))
    | paying payment => exact .inr (quiet rfl (Activity.deed_paying_ne_recorded payment _ _))

/-- Pushes hand out the first marks of the nodes, one node after the other. -/
theorem places_pushes (orderly : s.Orderly) (schedule : List (Nat × Bool)) :
    (List.range s.nodes).map (Place.mk · 0) ++ (s.pushes schedule).map Debt.place =
      (List.range (s.run schedule).nodes).map (Place.mk · 0) := by
  induction schedule generalizing s with
  | nil => rw [pushes, List.map_nil, List.append_nil]; rfl
  | cons turn schedule ih =>
    obtain ⟨i, spurious⟩ := turn
    have next := ih (orderly.step i spurious).2
    rw [run_cons, ← next, pushes, List.map_append, ← List.append_assoc]
    congr 1
    rcases step_pushes orderly i spurious with ⟨addr, pushed, -, nodes⟩ | ⟨none, nodes⟩
    · rw [pushed, nodes, List.range_succ, List.map_append]
      rfl
    · rw [none, nodes, Option.toList_none, List.map_nil, List.append_nil]

/-- The nodes of the pushes of a run, the newest first. -/
def stack (schedule : List (Nat × Bool)) (s : Session) : List Nat :=
  ((s.pushes schedule).map fun d => d.place.node).reverse

theorem stack_ofPrograms (programs : List (List Request)) (schedule : List (Nat × Bool)) :
    (ofPrograms programs).stack schedule = newestFirst ((ofPrograms programs).run schedule).nodes := by
  have places := places_pushes (Orderly.ofPrograms programs) schedule
  have nodes := congrArg (List.map Place.node) places
  rw [List.map_append, List.map_map, List.map_map, List.map_map] at nodes
  have none : (ofPrograms programs).nodes = 0 := rfl
  rw [none, List.range_zero, List.map_nil, List.nil_append] at nodes
  rw [stack, newestFirst]
  exact congrArg List.reverse (nodes.trans (List.map_id _))

theorem owed_stays (orderly : s.Orderly) (owed : s.ledger.registry.read d.place = some (.owed d.addr))
    (schedule : List (Nat × Bool)) (unpaid : .paid d ∉ s.deeds schedule)
    (unsettled : ∀ outstanding, .settled d outstanding ∉ s.deeds schedule) :
    (s.run schedule).ledger.registry.read d.place = some (.owed d.addr) := by
  induction schedule generalizing s with
  | nil => exact owed
  | cons turn schedule ih =>
    obtain ⟨i, spurious⟩ := turn
    simp only [deeds, List.mem_append, Option.mem_toList, not_or] at unpaid unsettled
    obtain ⟨turned, next⟩ := orderly.step i spurious
    refine ih next ?_ unpaid.2 fun outstanding => (unsettled outstanding).2
    have moves : Mark.Moves d.place (s.deed i spurious) (s.ledger.registry.read d.place)
        ((s.step i spurious).ledger.registry.read d.place) := turned.account.moves d.place
    rw [owed] at moves
    generalize (s.step i spurious).ledger.registry.read d.place = mark at moves ⊢
    generalize s.deed i spurious = deed at moves unpaid unsettled
    cases moves with
    | stays => rfl
    | withdrawn => exact absurd rfl (unsettled true).1
    | paid => exact absurd rfl unpaid.1

/-- A push hands out the first mark of a new node, which owes the address until the debt is paid or
settled. -/
theorem step_pushed (orderly : s.Orderly) (pushed : s.pushed i spurious = some d) :
    let next := s.step i spurious
    d.place = ⟨s.nodes, 0⟩ ∧ next.nodes = s.nodes + 1 ∧ d ∈ next.unsettled ∧
      ∀ later, .paid d ∉ next.deeds later →
        (∀ outstanding, .settled d outstanding ∉ next.deeds later) →
        (next.run later).ledger.registry.read d.place = some (.owed d.addr) := by
  obtain ⟨turned, next⟩ := orderly.step i spurious
  rcases step_pushes orderly i spurious with ⟨addr, own, recorded, nodes⟩ | ⟨none, -⟩
  · obtain rfl := Option.some.inj (pushed.symm.trans own)
    have account := turned.account
    rw [recorded] at account
    obtain ⟨after, owed⟩ := account.owed_of_recorded orderly.sound.backed
    exact ⟨rfl, nodes, after, owed_stays next owed⟩
  · rw [none] at pushed
    contradiction

theorem pushes_append (before after : List (Nat × Bool)) (s : Session) :
    s.pushes (before ++ after) = s.pushes before ++ (s.run before).pushes after := by
  induction before generalizing s with
  | nil => rfl
  | cons turn before ih =>
    rw [List.cons_append, pushes, pushes, ih, List.append_assoc]
    rfl

theorem stack_append (before after : List (Nat × Bool)) (s : Session) :
    s.stack (before ++ after) = (s.run before).stack after ++ s.stack before := by
  rw [stack, pushes_append, List.map_append, List.reverse_append]
  rfl

end Session

end SharedCells.Registry
