import Mathlib.Data.List.Infix
import SharedCells.Proofs.Registry.Custody
import SharedCells.Proofs.Registry.Levels

/-! What a payment has done when it returns.

A payment looks at each mark once, while debts are recorded and settled around it and nodes
are added in front of it. Still every debt on its address that was recorded before it read the
head is then paid or settled. For it has yet to come to the mark of such a debt, until the
mark does not owe the address any more. A mark may owe the address again later, but by then
the old debt is settled. -/

set_option autoImplicit false

namespace SharedCells.Registry

/-- The address and the progress of a payment. -/
def Activity.payment? : Activity → Option (Addr × Payment)
  | .paying payment => some (payment.addr, payment.progress)
  | _ => none

def Level.payment? (level : Level) : Option (Addr × Payment) := level.activity.bind Activity.payment?

theorem Level.exists_of_payment? {level : Level} {addr : Addr} {progress : Payment}
    (pays : level.payment? = some (addr, progress)) :
    ∃ payment, level.activity = some (.paying payment) ∧ payment.addr = addr ∧
      payment.progress = progress := by
  obtain ⟨activity, busy, paying⟩ := Option.bind_eq_some_iff.mp pays
  cases activity with
  | paying payment =>
    obtain ⟨rfl, rfl⟩ := Prod.mk.inj (Option.some.inj paying)
    exact ⟨payment, busy, rfl, rfl⟩
  | claiming | settling => contradiction

namespace Thread

/-- The payment in progress at the level that has so many levels below it. -/
def payment? (thread : Thread) (depth : Nat) : Option (Addr × Payment) :=
  thread.reverse[depth]?.bind Level.payment?

theorem payment?_length (level : Level) (below : Thread) :
    payment? (level :: below) below.length = level.payment? := by
  simp [payment?]

end Thread

namespace Session

/-- The payment of thread `i` in progress at the level that has so many levels below it. -/
def payment? (s : Session) (i depth : Nat) : Option (Addr × Payment) :=
  s.threads[i]?.bind fun thread => thread.payment? depth

end Session

namespace Payment

/-- How a payment goes on in a step of its thread. -/
inductive Goes (r r' : Registry) (addr : Addr) (payment : Payment) :
    Option (Addr × Payment) → Prop where
  /-- The step is one of a level above, or puts one there. -/
  | waits : Goes r r' addr payment (some (addr, payment))
  | steps {next : Payment} : payment.step addr r = (next, r') →
      Goes r r' addr payment (some (addr, next))
  | resumes : r' = r → Goes r r' addr payment (some (addr, payment.resume r))
  | returns : payment = .finished → r' = r → Goes r r' addr payment none

variable {r r' : Registry} {p : Place} {addr : Addr} {payment : Payment}
  {next : Option (Addr × Payment)}

theorem Goes.addr_eq (goes : payment.Goes r r' addr next) :
    next = none ∨ ∃ payment', next = some (addr, payment') := by
  cases goes with
  | waits | steps | resumes => exact .inr ⟨_, rfl⟩
  | returns => exact .inl rfl

/-- A payment leaves a place behind only if no debt of its address is there. -/
theorem Goes.awaits (goes : payment.Goes r r' addr next) (chained : r.Chained)
    (grows : r.nodes.length ≤ r'.nodes.length) (awaits : payment.Awaits r p) :
    (∃ payment', next = some (addr, payment') ∧ payment'.Awaits r' p) ∨
      r'.read p ≠ some (.owed addr) := by
  cases goes with
  | waits => exact .inl ⟨payment, rfl, awaits.mono grows⟩
  | steps stepped =>
    have on : (payment.step addr r).1.Awaits (payment.step addr r).2 p ∨
        (payment.step addr r).2.read p ≠ some (.owed addr) := awaits_step chained awaits
    rw [stepped] at on
    exact on.imp_left fun awaits => ⟨_, rfl, awaits⟩
  | resumes same =>
    subst same
    exact .inl ⟨_, rfl, awaits_resume chained awaits⟩
  | returns finished =>
    rw [finished] at awaits
    exact awaits.elim

end Payment

namespace Level

variable {ledger : Ledger} {payment : Paying} {level : Level}

theorem advance_goes (busy : level.activity = some (.paying payment)) (spurious : Bool) :
    let next := level.advance spurious ledger (.paying payment)
    payment.progress.Goes ledger.registry next.1.registry payment.addr next.2.1.payment? := by
  obtain ⟨addr, progress, onRetain, onRelease, calls⟩ := payment
  unfold advance
  cases progress with
  | retain p | release p =>
    dsimp only [Paying.due, payment?]
    rw [busy]
    exact .waits
  | finished => exact .returns rfl rfl
  | start | test p | mark p => exact .steps rfl

theorem resume_goes (busy : level.activity = some (.paying payment)) (r : Registry)
    (replies : List Reply) :
    payment.progress.Goes r r payment.addr (level.resume r replies).payment? := by
  unfold resume
  rw [busy]
  dsimp only
  split
  · exact .resumes rfl
  · rw [payment?, busy]
    exact .waits

end Level

namespace Thread

variable {ledger : Ledger} {thread : Thread} {depth : Nat} {addr : Addr} {payment : Payment}

/-- All that the payment itself does to debts is to pay some on its address. -/
theorem deed_of_payment (pays : thread.payment? depth = some (addr, payment))
    (acts : thread.length = depth + 1) (spurious : Bool) :
    ∀ deed ∈ thread.deed spurious ledger, ∃ p, deed = .paid ⟨p, addr⟩ := by
  cases thread with
  | nil => contradiction
  | cons level below =>
    obtain ⟨todo, activity, replies⟩ := level
    obtain rfl := Nat.succ.inj acts
    rw [payment?_length] at pays
    obtain ⟨payment, rfl, rfl, rfl⟩ := Level.exists_of_payment? pays
    intro deed done
    simp only [Thread.deed, Activity.deed] at done
    split at done
    · split at done
      · exact ⟨_, (Option.some.inj done).symm⟩
      · contradiction
    · contradiction

end Thread

namespace Account.Step

variable {A B : Account} {deed : Option Deed} {d : Debt}

theorem settled_or_stays (step : Step A deed B) (before : d ∈ A.debts) :
    (∃ outstanding, deed = some (.settled d outstanding)) ∨ d ∈ B.debts := by
  have settles {other : Debt} {outstanding : Bool} (debts : A.debts.Perm (other :: B.debts)) :
      (∃ outstanding', some (.settled other outstanding) = some (Deed.settled d outstanding')) ∨
        d ∈ B.debts := by
    rcases List.mem_cons.mp (debts.mem_iff.mp before) with rfl | after
    · exact .inl ⟨outstanding, rfl⟩
    · exact .inr after
  cases step with
  | quiet debts | retained debts | released debts | paid _ debts =>
    exact .inr (debts.mem_iff.mpr before)
  | taken _ _ debts | grown _ debts =>
    exact .inr (debts.mem_iff.mpr (List.mem_cons_of_mem _ before))
  | withdrawn _ debts | cleared _ debts => exact settles debts

theorem spares {addr : Addr} (step : Step A deed B) (backed : A.registry.Backed A.debts)
    (pays : ∀ done ∈ deed, ∃ p, done = .paid ⟨p, addr⟩) :
    B.debts.Perm A.debts ∧
      ∀ d ∈ A.debts, d.addr ≠ addr → B.registry.read d.place = A.registry.read d.place := by
  have debts : B.debts.Perm A.debts := by
    have leaves := step.leaves
    cases deed with
    | none => exact leaves
    | some done =>
      obtain ⟨p, rfl⟩ := pays done rfl
      exact leaves
  refine ⟨debts, fun d member other => ?_⟩
  -- A debt on another address is neither recorded nor paid in this step, so nothing happens to it.
  rcases step.fate backed (debts.mem_iff.mpr member) with ⟨rfl, -⟩ | ⟨rfl, -⟩ | ⟨-, -, same⟩
  · obtain ⟨p, paid⟩ := pays _ rfl
    contradiction
  · obtain ⟨p, paid⟩ := pays _ rfl
    cases paid
    exact absurd rfl other
  · exact same

end Account.Step

namespace Session

variable {s : Session} {i depth : Nat} {d : Debt} {deeds : List Deed} {addr : Addr}
  {payment : Payment}

/-- The debt is settled, or it is paid, or the payment of its address is yet to come to it. -/
def Minds (s : Session) (i depth : Nat) (deeds : List Deed) (d : Debt) : Prop :=
  (∃ outstanding, .settled d outstanding ∈ deeds) ∨
    d ∈ s.unsettled ∧ (s.ledger.registry.read d.place = some .paid ∨
      ∃ payment, s.payment? i depth = some (d.addr, payment) ∧
        payment.Awaits s.ledger.registry d.place)

theorem payment?_eq (s : Session) (i depth : Nat) :
    s.payment? i depth = (s.activity? i depth).bind Activity.payment? := by
  rw [payment?, activity?, Option.bind_assoc]
  congr 1
  funext thread
  exact (Option.bind_assoc ..).symm

theorem step_goes (pays : s.payment? i depth = some (addr, payment)) (j : Nat) (spurious : Bool) :
    payment.Goes s.ledger.registry (s.step j spurious).ledger.registry addr
      ((s.step j spurious).payment? i depth) := by
  have within := pays
  rw [payment?_eq] at within ⊢
  obtain ⟨activity, busy, paying⟩ := Option.bind_eq_some_iff.mp within
  cases activity with
  | claiming | settling => contradiction
  | paying payment =>
    obtain ⟨rfl, rfl⟩ := Prod.mk.inj (Option.some.inj paying)
    have moves := step_activity? busy j spurious
    split at moves
    · obtain ⟨level, active, ledger, activity'⟩ := moves
      rw [activity', ledger]
      exact Level.advance_goes active spurious
    · rcases moves with stays | ⟨ledger, level, replies, active, activity'⟩
      · rw [stays]
        exact .waits
      · rw [activity', ledger]
        exact Level.resume_goes active _ _

theorem Minds.step (orderly : s.Orderly) (minds : s.Minds i depth deeds d) (j : Nat)
    (spurious : Bool) :
    (s.step j spurious).Minds i depth (deeds ++ (s.deed j spurious).toList) d := by
  obtain ⟨turned, next⟩ := orderly.step j spurious
  -- While the debt is unsettled its mark owes the address or is paid. So once the payment goes past
  -- the mark, which then does not owe the address, it is paid, whoever has paid it.
  rcases minds with ⟨outstanding, settled⟩ | ⟨before, minded⟩
  · exact .inl ⟨outstanding, List.mem_append_left _ settled⟩
  · rcases turned.account.settled_or_stays before with ⟨outstanding, settles⟩ | after
    · exact .inl ⟨outstanding, List.mem_append_right _ (Option.mem_toList.mpr settles)⟩
    · refine .inr ⟨after, ?_⟩
      rcases minded with isPaid | ⟨payment, pays, awaits⟩
      · exact .inl (turned.account.paid_stays orderly.sound.backed before after isPaid)
      · rcases (step_goes pays j spurious).awaits orderly.chained turned.account.nodes_le awaits with
          still | gone
        · exact .inr still
        · exact .inl ((next.sound.backed.marked d after).resolve_left gone)

theorem Orderly.run (orderly : s.Orderly) (schedule : List (Nat × Bool)) : (s.run schedule).Orderly := by
  induction schedule generalizing s with
  | nil => exact orderly
  | cons turn schedule ih => exact ih (orderly.step turn.1 turn.2).2

theorem Minds.run (orderly : s.Orderly) (minds : s.Minds i depth deeds d)
    (schedule : List (Nat × Bool)) :
    (s.run schedule).Minds i depth (deeds ++ s.deeds schedule) d := by
  induction schedule generalizing s deeds with
  | nil =>
    rw [Session.deeds, List.append_nil]
    exact minds
  | cons turn schedule ih =>
    obtain ⟨j, spurious⟩ := turn
    rw [run_cons, Session.deeds, ← List.append_assoc]
    exact ih (orderly.step j spurious).2 (minds.step orderly j spurious)

theorem run_payment {schedule : List (Nat × Bool)} (pays : s.payment? i depth = some (addr, payment))
    (on : ∀ earlier, earlier <+: schedule → (s.run earlier).payment? i depth ≠ none) :
    ∃ payment', (s.run schedule).payment? i depth = some (addr, payment') := by
  induction schedule generalizing s payment with
  | nil => exact ⟨payment, pays⟩
  | cons turn schedule ih =>
    obtain ⟨j, spurious⟩ := turn
    have later (earlier : List (Nat × Bool)) (start : earlier <+: schedule) :
        ((s.step j spurious).run earlier).payment? i depth ≠ none :=
      on ((j, spurious) :: earlier) (List.cons_prefix_cons.mpr ⟨rfl, start⟩)
    obtain ⟨payment', pays'⟩ :=
      (step_goes pays j spurious).addr_eq.resolve_left (later [] List.nil_prefix)
    exact ih pays' later

/-- Whatever the threads do, a payment misses no debt: when it has returned, every debt on its address
that was recorded before it read the head is settled, or its mark is paid. Its own steps neither
record nor settle debts, and leave the marks of debts on other addresses as they are. -/
theorem payments_miss_no_debt (programs : List (List Request)) (before : List (Nat × Bool))
    (i depth : Nat) (addr : Addr) :
    let start := (ofPrograms programs).run before
    start.payment? i depth = some (addr, .start) → ∀ during,
      let s := start.run during
      (s.payment? i depth = none → ∀ d ∈ start.unsettled, d.addr = addr →
        (∃ outstanding, .settled d outstanding ∈ start.deeds during) ∨
          d ∈ s.unsettled ∧ s.ledger.registry.read d.place = some .paid) ∧
      ((∀ earlier, earlier <+: during → (start.run earlier).payment? i depth ≠ none) →
        s.Acts i depth → ∀ spurious,
          (s.step i spurious).unsettled.Perm s.unsettled ∧
            ∀ d ∈ s.unsettled, d.addr ≠ addr →
              (s.step i spurious).ledger.registry.read d.place = s.ledger.registry.read d.place) := by
  intro start begun during s
  have orderly : start.Orderly := (Orderly.ofPrograms programs).run before
  refine ⟨fun returned d member same => ?_, fun on acts spurious => ?_⟩
  · subst same
    -- Nothing is behind a payment that has not read the head.
    have minds : start.Minds i depth [] d :=
      .inr ⟨member, .inr ⟨.start, begun, orderly.sound.backed.published member⟩⟩
    rcases minds.run orderly during with settled | ⟨after, isPaid | ⟨payment, pays, -⟩⟩
    · exact .inl settled
    · exact .inr ⟨after, isPaid⟩
    · rw [returned] at pays
      contradiction
  · obtain ⟨payment, pays⟩ := run_payment begun on
    have sound : Sound s.ledger s.activities := (orderly.run during).sound
    obtain ⟨thread, found, pays⟩ := Option.bind_eq_some_iff.mp pays
    have acts : thread.length = depth + 1 := by
      rw [Acts, found] at acts
      exact Option.some.inj acts
    refine (step_does s sound i spurious).1.spares sound.backed fun deed done => ?_
    rw [Session.deed, found, Option.bind_some] at done
    exact Thread.deed_of_payment pays acts spurious deed done

/-- The first debt is settled after the payment has seen it, and its mark taken by another debt on the
same address; the second one is paid. -/
theorem payments_miss_no_debt_claimed_again :
    let start := (ofPrograms [[.claim "a" 16, .claim "b" 16, .claim "c" 24, .settle "a", .claim "d" 16],
      [.pay 16 [] []]]).run (.replicate 15 (0, false) ++ [(1, false)])
    let fails : List (Nat × Bool) := .replicate 4 (1, false) ++ .replicate 2 (0, false) ++ [(1, false)]
    let marks : List (Nat × Bool) := fails ++ .replicate 4 (0, false) ++ .replicate 5 (1, false)
    let s := start.run (marks ++ .replicate 8 (1, false))
    start.payment? 1 0 = some (16, .start) ∧ s.payment? 1 0 = none ∧
      start.unsettled = [⟨⟨0, 2⟩, 24⟩, ⟨⟨0, 1⟩, 16⟩, ⟨⟨0, 0⟩, 16⟩] ∧
      s.ledger.registry.read ⟨0, 0⟩ = some (.owed 16) ∧
      (∀ d ∈ start.unsettled, d.addr = 16 →
        (∃ outstanding, .settled d outstanding ∈ start.deeds (marks ++ .replicate 8 (1, false))) ∨
          d ∈ s.unsettled ∧ s.ledger.registry.read d.place = some .paid) ∧
      (start.run marks).deed 1 false = some (.paid ⟨⟨0, 1⟩, 16⟩) ∧
      ((start.run marks).step 1 false).unsettled.Perm (start.run marks).unsettled := by
  have misses := payments_miss_no_debt
    [[.claim "a" 16, .claim "b" 16, .claim "c" 24, .settle "a", .claim "d" 16], [.pay 16 [] []]]
    (.replicate 15 (0, false) ++ [(1, false)]) 1 0 16 (by decide +kernel)
  refine ⟨by decide +kernel, by decide +kernel, by decide +kernel, by decide +kernel,
    (misses _).1 (by decide +kernel), by decide +kernel,
    ((misses _).2 (fun earlier begun => ?_) (by decide +kernel) false).1⟩
  rw [← List.mem_inits] at begun
  revert earlier
  decide +kernel

end Session

end SharedCells.Registry
