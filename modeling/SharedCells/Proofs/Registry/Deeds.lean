import SharedCells.Proofs.Registry.Debts
import SharedCells.Registry.Session

/-! What the steps of a session do to its debts.

A session amounts to the marks, the debts that are not settled, and the
references that payers have in hand. A step of a session changes this account in
one of a few ways, each of which is a deed: a debt is recorded, paid or settled,
or a callback of a payer has returned. What sessions preserve is derived from
these ways only. -/

set_option autoImplicit false

namespace SharedCells.Registry

/-- What a step does to debts, and what has been done for payers. -/
inductive Deed where
  | recorded (debt : Debt)
  /-- The answer says whether the debt was outstanding or paid. -/
  | settled (debt : Debt) (outstanding : Bool)
  /-- A payer has marked the debt as paid. -/
  | paid (debt : Debt)
  /-- A callback of a payment of the address has returned. -/
  | called (kind : Callback) (addr : Addr)
  /-- The mark of a debt that was to be settled was neither owed nor paid. -/
  | corrupted (debt : Debt)
  deriving DecidableEq

/-- The debt that a deed is about. -/
def Deed.debt? : Deed → Option Debt
  | .recorded debt | .settled debt _ | .paid debt | .corrupted debt => some debt
  | .called _ _ => none

namespace Activity

/-- The debt that is being settled. -/
def debt? : Activity → Option Debt
  | .settling debt _ => some debt
  | _ => none

/-- The reference that a payer has retained and not yet given away. -/
def inHand? : Activity → Option Addr
  | .paying ⟨addr, .mark _, _, _, _⟩ | .paying ⟨addr, .release _, _, _, _⟩ => some addr
  | _ => none

/-- What the next access of the activity does. -/
def deed (spurious : Bool) (r : Registry) : Activity → Option Deed
  | .claiming _ addr progress =>
    match (progress.step addr spurious r).1 with
    | .recorded place _ => some (.recorded ⟨place, addr⟩)
    | _ => none
  | .settling debt progress =>
    match (progress.step debt r).1 with
    | .settled outstanding => some (.settled debt outstanding)
    | .corrupted => some (.corrupted debt)
    | _ => none
  | .paying payment =>
    match payment.progress with
    | .mark p =>
      if r.read p = some (.owed payment.addr) then some (.paid ⟨p, payment.addr⟩) else none
    | _ => none

/-- The deed of the callback that the activity has waited for. -/
def returned : Activity → Option Deed
  | .paying payment => payment.due.map fun kind => .called kind payment.addr
  | _ => none

theorem deed_settling_ne_recorded (debt : Debt) (settle : Settle) (spurious : Bool) (r : Registry)
    (d : Debt) : deed spurious r (.settling debt settle) ≠ some (.recorded d) := by
  simp only [deed]
  split <;> simp

theorem deed_paying_ne_recorded (payment : Paying) (spurious : Bool) (r : Registry) (d : Debt) :
    deed spurious r (.paying payment) ≠ some (.recorded d) := by
  simp only [deed]
  split
  · split <;> simp
  · simp

theorem returned_ne_recorded (activity : Activity) (d : Debt) :
    activity.returned ≠ some (.recorded d) := by
  cases activity with
  | claiming | settling => simp [returned]
  | paying payment => simp [returned]

/-- A claim or a settlement is not at its end, no reserved address is claimed, and only a paid mark
is about to be cleared. -/
def Fit (r : Registry) : Activity → Prop
  | .claiming _ addr progress => progress.Pending ∧ addr.reserved = false
  | .settling debt progress =>
    progress = .withdraw ∨ progress = .clear ∧ r.read debt.place = some .paid
  | .paying _ => True

end Activity

namespace Thread

def activities (thread : Thread) : List Activity := thread.filterMap Level.activity

/-- What the next step of a thread does. -/
def deed (spurious : Bool) (ledger : Ledger) : Thread → Option Deed
  | [] => none
  | level :: below =>
    match level.activity, level.todo with
    | some activity, _ => activity.deed spurious ledger.registry
    | none, _ :: _ => none
    | none, [] => (below.head?.bind Level.activity).bind Activity.returned

end Thread

namespace Session

def activities (s : Session) : List Activity := s.threads.flatMap Thread.activities

/-- The debts that are recorded and whose settlement is not over. -/
def unsettled (s : Session) : List Debt :=
  s.ledger.debts.map Prod.snd ++ s.activities.filterMap Activity.debt?

/-- What the next step of thread `i` does. -/
def deed (i : Nat) (spurious : Bool) (s : Session) : Option Deed :=
  s.threads[i]?.bind fun thread => thread.deed spurious s.ledger

/-- What the steps of a schedule do, in that order. -/
def deeds : List (Nat × Bool) → Session → List Deed
  | [], _ => []
  | (i, spurious) :: schedule, s =>
    (s.deed i spurious).toList ++ deeds schedule (s.step i spurious)

end Session

/-- What a session amounts to. The order of the debts and of the references does not matter. -/
structure Account where
  registry : Registry
  debts : List Debt
  inHand : List Addr

/-- The ways in which an account changes. -/
inductive Account.Step : Account → Option Deed → Account → Prop where
  | quiet {r : Registry} {debts debts' : List Debt} {hand hand' : List Addr} :
      debts'.Perm debts → hand'.Perm hand → Step ⟨r, debts, hand⟩ none ⟨r, debts', hand'⟩
  | taken {r : Registry} {debts debts' : List Debt} {hand hand' : List Addr} {p : Place}
      {addr : Addr} :
      r.read p = some .free → addr.reserved = false → debts'.Perm (⟨p, addr⟩ :: debts) →
      hand'.Perm hand →
      Step ⟨r, debts, hand⟩ (some (.recorded ⟨p, addr⟩)) ⟨r.write p (.owed addr), debts', hand'⟩
  | grown {r : Registry} {debts debts' : List Debt} {hand hand' : List Addr} {addr : Addr} :
      addr.reserved = false → debts'.Perm (⟨⟨r.nodes.length, 0⟩, addr⟩ :: debts) →
      hand'.Perm hand →
      Step ⟨r, debts, hand⟩ (some (.recorded ⟨⟨r.nodes.length, 0⟩, addr⟩))
        ⟨r.publish r.head addr, debts', hand'⟩
  | withdrawn {r : Registry} {debts debts' : List Debt} {hand hand' : List Addr} {d : Debt} :
      r.read d.place = some (.owed d.addr) → debts.Perm (d :: debts') → hand'.Perm hand →
      Step ⟨r, debts, hand⟩ (some (.settled d true)) ⟨r.write d.place .free, debts', hand'⟩
  | cleared {r : Registry} {debts debts' : List Debt} {hand hand' : List Addr} {d : Debt} :
      r.read d.place = some .paid → debts.Perm (d :: debts') → hand'.Perm hand →
      Step ⟨r, debts, hand⟩ (some (.settled d false)) ⟨r.write d.place .free, debts', hand'⟩
  | paid {r : Registry} {debts debts' : List Debt} {hand hand' : List Addr} {p : Place}
      {addr : Addr} :
      r.read p = some (.owed addr) → debts'.Perm debts → hand.Perm (addr :: hand') →
      Step ⟨r, debts, hand⟩ (some (.paid ⟨p, addr⟩)) ⟨r.write p .paid, debts', hand'⟩
  | retained {r : Registry} {debts debts' : List Debt} {hand hand' : List Addr} {addr : Addr} :
      debts'.Perm debts → hand'.Perm (addr :: hand) →
      Step ⟨r, debts, hand⟩ (some (.called .retain addr)) ⟨r, debts', hand'⟩
  | released {r : Registry} {debts debts' : List Debt} {hand hand' : List Addr} {addr : Addr} :
      debts'.Perm debts → hand.Perm (addr :: hand') →
      Step ⟨r, debts, hand⟩ (some (.called .release addr)) ⟨r, debts', hand'⟩

/-- The account of a ledger and of the activities in progress. -/
def accountOf (ledger : Ledger) (pool : List Activity) : Account where
  registry := ledger.registry
  debts := ledger.debts.map Prod.snd ++ pool.filterMap Activity.debt?
  inHand := pool.filterMap Activity.inHand?

def Session.account (s : Session) : Account := accountOf s.ledger s.activities

namespace Account.Step

variable {A B : Account} {deed : Option Deed} {d : Debt} {p : Place} {mark : Mark} {addr : Addr}

theorem backed (step : Step A deed B) (backed : A.registry.Backed A.debts) :
    B.registry.Backed B.debts := by
  cases step with
  | quiet debts | retained debts | released debts => exact backed.perm debts.symm
  | taken free _ debts => exact (backed.take free).perm debts.symm
  | grown _ debts => exact backed.publish.perm debts.symm
  | withdrawn _ debts | cleared _ debts => exact (backed.perm debts).settle
  | paid owed debts => exact (backed.pay owed).perm debts.symm

theorem genuine (step : Step A deed B) (genuine : ∀ d ∈ A.debts, d.addr.reserved = false) :
    ∀ d ∈ B.debts, d.addr.reserved = false := by
  intro d member
  cases step with
  | quiet debts | retained debts | released debts | paid _ debts =>
    exact genuine d (debts.mem_iff.mp member)
  | taken _ address debts | grown address debts =>
    rcases List.mem_cons.mp (debts.mem_iff.mp member) with rfl | old
    · exact address
    · exact genuine d old
  | withdrawn _ debts | cleared _ debts =>
    exact genuine d (debts.mem_iff.mpr (List.mem_cons_of_mem _ member))

/-- Where the debts come from that are unsettled after a step: one may just have been recorded or
paid, and with the others nothing has happened. -/
theorem fate (step : Step A deed B) (backed : A.registry.Backed A.debts) (after : d ∈ B.debts) :
    (deed = some (.recorded d) ∧ d.place ∉ A.debts.map Debt.place ∧
        B.registry.read d.place = some (.owed d.addr)) ∨
      (deed = some (.paid d) ∧ d ∈ A.debts ∧ A.registry.read d.place = some (.owed d.addr) ∧
        B.registry.read d.place = some .paid) ∨
      (d ∈ A.debts ∧ (∀ about ∈ deed.bind Deed.debt?, about ≠ d) ∧
        B.registry.read d.place = A.registry.read d.place) := by
  cases step with
  | quiet debts | retained debts | released debts =>
    exact .inr (.inr ⟨debts.mem_iff.mp after, by simp [Deed.debt?], rfl⟩)
  | taken free _ debts =>
    rcases List.mem_cons.mp (debts.mem_iff.mp after) with rfl | old
    · exact .inl ⟨rfl, backed.free_not_mem free, read_write_self (Place.Published.of_read free)⟩
    · refine .inr (.inr ⟨old, ?_, Backed.read_write_other (backed.free_not_mem free) old⟩)
      rintro about ⟨⟩ rfl
      exact backed.free_not_mem free (List.mem_map_of_mem old)
  | grown _ debts =>
    rcases List.mem_cons.mp (debts.mem_iff.mp after) with rfl | old
    · exact .inl ⟨rfl, backed.unpublished_not_mem (Nat.lt_irrefl _), read_publish_self⟩
    · refine .inr (.inr ⟨old, ?_, read_publish_of_published (backed.published old)⟩)
      rintro about ⟨⟩ rfl
      exact backed.unpublished_not_mem (Nat.lt_irrefl _) (List.mem_map_of_mem old)
  | withdrawn _ debts | cleared _ debts =>
    have foreign := (backed.perm debts).not_mem_places
    refine .inr (.inr ⟨debts.mem_iff.mpr (List.mem_cons_of_mem _ after), ?_,
      Backed.read_write_other foreign after⟩)
    rintro about ⟨⟩ rfl
    exact foreign (List.mem_map_of_mem after)
  | @paid r _ _ _ _ p addr owed debts =>
    have before := debts.mem_iff.mp after
    by_cases same : d = ⟨p, addr⟩
    · subst same
      exact .inr (.inl ⟨rfl, before, owed, read_write_self (Place.Published.of_read owed)⟩)
    · -- Debts have places of their own.
      have ne : d.place ≠ p := by
        rintro rfl
        exact same (List.inj_on_of_nodup_map backed.apart before (backed.debtor owed) rfl)
      refine .inr (.inr ⟨before, ?_, read_write_of_ne ne⟩)
      rintro about ⟨⟩ rfl
      exact same rfl

theorem paid_stays (step : Step A deed B) (backed : A.registry.Backed A.debts)
    (before : d ∈ A.debts) (after : d ∈ B.debts) (paid : A.registry.read d.place = some .paid) :
    B.registry.read d.place = some .paid := by
  rcases step.fate backed after with ⟨-, new, -⟩ | ⟨-, -, -, done⟩ | ⟨-, -, same⟩
  · exact absurd (List.mem_map_of_mem before) new
  · exact done
  · exact same.trans paid

theorem chained (step : Step A deed B) (chained : A.registry.Chained) : B.registry.Chained := by
  cases step with
  | quiet | retained | released => exact chained
  | taken | withdrawn | cleared | paid => exact chained.write
  | grown => exact chained.publish

theorem nodes_le (step : Step A deed B) : A.registry.nodes.length ≤ B.registry.nodes.length := by
  cases step with
  | quiet | retained | released => exact Nat.le_refl _
  | taken | withdrawn | cleared | paid => exact Nat.le_of_eq length_write.symm
  | grown => simp [Registry.publish]

theorem nodes_of_quiet (step : Step A deed B) (quiet : ∀ d, deed ≠ some (.recorded d)) :
    B.registry.nodes.length = A.registry.nodes.length := by
  cases step with
  | quiet | retained | released => rfl
  | withdrawn | cleared | paid => exact length_write
  | taken | grown => exact absurd rfl (quiet _)

theorem nodes_of_taken (step : Step A (some (.recorded d)) B)
    (read : A.registry.read d.place = some mark) :
    B.registry.nodes.length = A.registry.nodes.length := by
  cases step with
  | taken => exact length_write
  | grown => exact absurd (Place.Published.of_read read) (Nat.lt_irrefl _)

theorem nodes_of_grown (step : Step A (some (.recorded ⟨⟨A.registry.nodes.length, 0⟩, addr⟩)) B) :
    B.registry.nodes.length = A.registry.nodes.length + 1 := by
  obtain ⟨r, debts, hand⟩ := A
  cases step with
  | taken free => exact absurd (Place.Published.of_read free) (Nat.lt_irrefl _)
  | grown => simp [Registry.publish]

end Account.Step

/-- The order of the debts and of the references does not matter. -/
theorem Account.Step.perm {r r' : Registry} {debts debts' other other' : List Debt}
    {hand hand' more more' : List Addr} {deed : Option Deed}
    (step : Step ⟨r, debts, hand⟩ deed ⟨r', debts', hand'⟩) (before : other.Perm debts)
    (after : other'.Perm debts') (handBefore : more.Perm hand) (handAfter : more'.Perm hand') :
    Step ⟨r, other, more⟩ deed ⟨r', other', more'⟩ := by
  cases step with
  | quiet debts hand =>
    exact .quiet (after.trans (debts.trans before.symm))
      (handAfter.trans (hand.trans handBefore.symm))
  | taken free address debts hand =>
    exact .taken free address (after.trans (debts.trans (before.symm.cons _)))
      (handAfter.trans (hand.trans handBefore.symm))
  | grown address debts hand =>
    exact .grown address (after.trans (debts.trans (before.symm.cons _)))
      (handAfter.trans (hand.trans handBefore.symm))
  | withdrawn owed debts hand =>
    exact .withdrawn owed (before.trans (debts.trans (after.symm.cons _)))
      (handAfter.trans (hand.trans handBefore.symm))
  | cleared isPaid debts hand =>
    exact .cleared isPaid (before.trans (debts.trans (after.symm.cons _)))
      (handAfter.trans (hand.trans handBefore.symm))
  | paid owed debts hand =>
    exact .paid owed (after.trans (debts.trans before.symm))
      (handBefore.trans (hand.trans (handAfter.symm.cons _)))
  | retained debts hand =>
    exact .retained (after.trans (debts.trans before.symm))
      (handAfter.trans (hand.trans (handBefore.symm.cons _)))
  | released debts hand =>
    exact .released (after.trans (debts.trans before.symm))
      (handBefore.trans (hand.trans (handAfter.symm.cons _)))

theorem perm_of_lookup {debts : List (String × Debt)} {name : String} {d : Debt}
    (found : debts.lookup name = some d) :
    (debts.map Prod.snd).Perm (d :: (debts.erase (name, d)).map Prod.snd) := by
  obtain ⟨newer, older, rfl, -⟩ := List.lookup_eq_some_iff.mp found
  have member : (name, d) ∈ newer ++ (name, d) :: older :=
    List.mem_append_right _ List.mem_cons_self
  exact (List.perm_cons_erase member).map Prod.snd

/-- What every step preserves. -/
structure Sound (ledger : Ledger) (pool : List Activity) : Prop where
  backed : ledger.registry.Backed (accountOf ledger pool).debts
  genuine : ∀ d ∈ (accountOf ledger pool).debts, d.addr.reserved = false
  fit : ∀ a ∈ pool, a.Fit ledger.registry

section Accounts

variable {ledger ledger' : Ledger} {pool pool' rest : List Activity} {a : Activity}
  {activity : Option Activity} {deed : Option Deed} {spurious : Bool} {level : Level}

theorem accountOf_cons :
    accountOf ledger (a :: rest) =
      ⟨ledger.registry,
        ledger.debts.map Prod.snd ++ (a.debt?.toList ++ rest.filterMap Activity.debt?),
        a.inHand?.toList ++ rest.filterMap Activity.inHand?⟩ := by
  unfold accountOf
  congr 1
  · rw [List.filterMap_cons]
    cases a.debt? <;> rfl
  · rw [List.filterMap_cons]
    cases a.inHand? <;> rfl

theorem accountOf_of_idle (activity : Activity) (debt : activity.debt? = none)
    (hand : activity.inHand? = none) : accountOf ledger (activity :: rest) = accountOf ledger rest := by
  rw [accountOf_cons, debt, hand]
  rfl

theorem Sound.perm (sound : Sound ledger pool) (perm : pool.Perm pool') : Sound ledger pool' where
  backed := sound.backed.perm ((perm.filterMap _).append_left _)
  genuine d member := sound.genuine d (((perm.filterMap _).append_left _).mem_iff.mpr member)
  fit a member := sound.fit a (perm.mem_iff.mpr member)

theorem mem_debts {d : Debt} (member : a ∈ pool) (settling : a.debt? = some d) (ledger : Ledger) :
    d ∈ (accountOf ledger pool).debts :=
  List.mem_append_right _ (List.mem_filterMap.mpr ⟨a, member, settling⟩)

theorem Sound.step {old new : List Activity} (sound : Sound ledger (old ++ rest))
    (step : Account.Step (accountOf ledger (old ++ rest)) deed (accountOf ledger' (new ++ rest)))
    (fit : ∀ a ∈ new, a.Fit ledger'.registry) : Sound ledger' (new ++ rest) where
  backed := step.backed sound.backed
  genuine := step.genuine sound.genuine
  fit a member := by
    rcases List.mem_append.mp member with fresh | old
    · exact fit a fresh
    · have before := sound.fit a (List.mem_append_right _ old)
      cases a with
      | claiming name addr progress => exact before
      | paying payment => trivial
      | settling d progress =>
        refine before.imp_right fun ⟨clear, paid⟩ => ⟨clear, ?_⟩
        exact step.paid_stays sound.backed (mem_debts (List.mem_append_right _ old) rfl _)
          (mem_debts (List.mem_append_right _ old) rfl _) paid

end Accounts

/-- What a step of a level does, and that its activity is fit afterwards. -/
structure Level.Does (ledger : Ledger) (old rest : List Activity) (deed : Option Deed)
    (ledger' : Ledger) (level' : Level) : Prop where
  step : Account.Step (accountOf ledger (old ++ rest)) deed
    (accountOf ledger' (level'.activity.toList ++ rest))
  fit : ∀ a ∈ level'.activity.toList, a.Fit ledger'.registry

namespace Level

variable {ledger : Ledger} {rest : List Activity} {spurious : Bool} {name : String} {addr : Addr}
  {claim : Claim} {settle : Settle} {debt : Debt} {payment : Paying}

theorem advance_claiming (sound : Sound ledger (.claiming name addr claim :: rest)) (level : Level)
    (spurious : Bool) :
    let next := level.advance spurious ledger (.claiming name addr claim)
    Does ledger [.claiming name addr claim] rest
      (Activity.deed spurious ledger.registry (.claiming name addr claim)) next.1 next.2.1 := by
  obtain ⟨pending, address⟩ := sound.fit _ List.mem_cons_self
  unfold advance Activity.deed
  dsimp only
  rcases Claim.step_cases pending addr spurious ledger.registry with
    ⟨next, still, step⟩ | ⟨p, free, step⟩ | step
  · rw [step]
    cases next with
    | recorded place grown => exact still.elim
    | start | test | take | grow | link =>
      refine ⟨.quiet (.refl _) (.refl _), fun a member => ?_⟩
      rw [List.mem_singleton.mp member]
      exact ⟨still, address⟩
  · rw [step]
    exact ⟨.taken free address (.refl _) (.refl _), by simp [answer]⟩
  · rw [step]
    exact ⟨.grown address (.refl _) (.refl _), by simp [answer]⟩

theorem advance_settling (sound : Sound ledger (.settling debt settle :: rest)) (level : Level)
    (spurious : Bool) :
    let next := level.advance spurious ledger (.settling debt settle)
    Does ledger [.settling debt settle] rest
      (Activity.deed spurious ledger.registry (.settling debt settle)) next.1 next.2.1 := by
  have member : debt ∈ (accountOf ledger (.settling debt settle :: rest)).debts :=
    mem_debts List.mem_cons_self rfl ledger
  have first : (accountOf ledger (.settling debt settle :: rest)).debts.Perm
      (debt :: (accountOf ledger rest).debts) := by
    rw [accountOf_cons]
    exact List.perm_middle
  unfold advance Activity.deed
  dsimp only
  rcases sound.fit _ List.mem_cons_self with rfl | ⟨rfl, paid⟩
  · rcases sound.backed.marked debt member with owed | paid
    · rw [Settle.step_withdraw_of_owed owed]
      exact ⟨.withdrawn owed first (.refl _), by simp [answer]⟩
    · rw [Settle.step_withdraw_of_paid paid]
      refine ⟨.quiet (.refl _) (.refl _), fun a member => ?_⟩
      rw [List.mem_singleton.mp member]
      exact .inr ⟨rfl, paid⟩
  · rw [Settle.step_clear]
    exact ⟨.cleared paid first (.refl _), by simp [answer]⟩

/-- A payer that goes on scanning has nothing in hand. -/
theorem scanning_does {old : Activity} (debt : old.debt? = none) (hand : old.inHand? = none)
    (addr : Addr) (place : Option Place) (onRetain onRelease : List (List Request))
    (calls : List (Callback × List Reply)) (level : Level) :
    Does ledger [old] rest none ledger { level with
      activity := some (.paying ⟨addr, Payment.scan place, onRetain, onRelease, calls⟩) } where
  step := by
    rw [List.singleton_append, accountOf_of_idle old debt hand]
    refine .quiet (.refl _) ?_
    cases place <;> exact .refl _
  fit a member := by
    rw [List.mem_singleton.mp member]
    trivial

theorem advance_paying (ledger : Ledger) (rest : List Activity) (payment : Paying) (level : Level)
    (busy : level.activity = some (.paying payment)) (spurious : Bool) :
    let next := level.advance spurious ledger (.paying payment)
    Does ledger [.paying payment] rest
      (Activity.deed spurious ledger.registry (.paying payment)) next.1 next.2.1 := by
  obtain ⟨addr, progress, onRetain, onRelease, calls⟩ := payment
  have fit (r : Registry) (payment : Paying) :
      ∀ a ∈ (some (Activity.paying payment)).toList, a.Fit r := by
    intro a member
    rw [List.mem_singleton.mp member]
    trivial
  unfold advance Activity.deed
  cases progress with
  | start => exact scanning_does rfl rfl addr ledger.registry.first onRetain onRelease calls level
  | test p =>
    dsimp only [Paying.due]
    rw [Payment.step_test]
    by_cases owed : ledger.registry.read p = some (.owed addr)
    · rw [if_pos owed]
      exact ⟨.quiet (.refl _) (.refl _), fit _ _⟩
    · rw [if_neg owed]
      exact scanning_does rfl rfl addr (ledger.registry.after p) onRetain onRelease calls level
  | mark p =>
    dsimp only [Paying.due]
    by_cases owed : ledger.registry.read p = some (.owed addr)
    · rw [Payment.step_mark_of_owed owed, if_pos owed]
      refine ⟨.paid owed (.refl _) ?_, fit _ _⟩
      dsimp only
      cases (ledger.registry.write p .paid).after p <;> exact .refl _
    · rw [Payment.step_mark_of_not_owed owed, if_neg owed]
      exact ⟨.quiet (.refl _) (.refl _), fit _ _⟩
  | retain p | release p =>
    -- The level waits for the callback, which is put above it.
    have stays := congrArg Option.toList busy
    refine ⟨?_, ?_⟩
    · dsimp only [Paying.due]
      rw [stays]
      exact .quiet (.refl _) (.refl _)
    · dsimp only [Paying.due]
      rw [stays]
      exact fit _ _
  | finished => exact ⟨.quiet (.refl _) (.refl _), by simp [Paying.due, answer]⟩

theorem advance_does {activity : Activity} (sound : Sound ledger (activity :: rest)) (level : Level)
    (busy : level.activity = some activity) (spurious : Bool) :
    let next := level.advance spurious ledger activity
    Does ledger [activity] rest (activity.deed spurious ledger.registry) next.1 next.2.1 := by
  cases activity with
  | claiming name addr claim => exact advance_claiming sound level spurious
  | settling debt settle => exact advance_settling sound level spurious
  | paying payment => exact advance_paying ledger rest payment level busy spurious

theorem advance_above (level : Level) (spurious : Bool) (ledger : Ledger) (activity : Activity) :
    ∀ new ∈ (level.advance spurious ledger activity).2.2, new.activity = none := by
  intro new member
  unfold advance at member
  dsimp only at member
  split at member
  · split at member <;> contradiction
  · split at member <;> contradiction
  · split at member
    · rw [← Option.some.inj member]
    · contradiction
    · contradiction

theorem start_does (ledger : Ledger) (rest : List Activity) (level : Level) (request : Request) :
    let next := level.start ledger request
    Does ledger [] rest none next.1 next.2 := by
  unfold start
  cases request with
  | claim name addr =>
    dsimp only
    split
    · exact ⟨.quiet (.refl _) (.refl _), by simp [answer]⟩
    · next address =>
      refine ⟨.quiet (.refl _) (.refl _), fun a member => ?_⟩
      rw [List.mem_singleton.mp member]
      exact ⟨trivial, by simpa using address⟩
  | settle name =>
    dsimp only
    split
    · exact ⟨.quiet (.refl _) (.refl _), by simp [answer]⟩
    · next debt found =>
      -- The debt goes over from the recorded ones to the activity.
      refine ⟨.quiet ?_ (.refl _), fun a member => ?_⟩
      · exact List.perm_middle.trans ((perm_of_lookup found).symm.append_right _)
      · rw [List.mem_singleton.mp member]
        exact .inl rfl
  | pay addr onRetain onRelease =>
    refine ⟨.quiet (.refl _) (.refl _), fun a member => ?_⟩
    rw [List.mem_singleton.mp member]
    trivial

theorem resume_does (level : Level) (sound : Sound ledger (level.activity.toList ++ rest))
    (replies : List Reply) :
    Does ledger level.activity.toList rest (level.activity.bind Activity.returned) ledger
      (level.resume ledger.registry replies) := by
  have stays : Does ledger level.activity.toList rest none ledger level :=
    ⟨.quiet (.refl _) (.refl _), fun a member => sound.fit a (List.mem_append_left _ member)⟩
  obtain ⟨todo, activity, done⟩ := level
  cases activity with
  | none => exact stays
  | some activity =>
    cases activity with
    | claiming name addr progress => exact stays
    | settling debt progress => exact stays
    | paying payment =>
      obtain ⟨addr, progress, onRetain, onRelease, calls⟩ := payment
      cases progress with
      | start | test p | mark p | finished => exact stays
      | retain p => exact ⟨.retained (.refl _) (.refl _), by simp [resume, Paying.due, Activity.Fit]⟩
      | release p =>
        refine ⟨.released (.refl _) ?_, by simp [resume, Paying.due, Activity.Fit]⟩
        dsimp only [resume, Paying.due, Payment.resume]
        cases ledger.registry.after p <;> exact .refl _

end Level

namespace Thread

variable {ledger : Ledger} {others : List Activity}

theorem activities_cons (level : Level) (below : Thread) :
    activities (level :: below) = level.activity.toList ++ activities below := by
  unfold activities
  rw [List.filterMap_cons]
  cases level.activity <;> rfl

/-- What a step of a thread does, whatever the other threads are in the middle of. -/
theorem step_account (thread : Thread) (spurious : Bool)
    (sound : Sound ledger (thread.activities ++ others)) :
    let next := thread.step spurious ledger
    Account.Step (accountOf ledger (thread.activities ++ others)) (thread.deed spurious ledger)
        (accountOf next.1 (next.2.activities ++ others)) ∧
      Sound next.1 (next.2.activities ++ others) := by
  -- A step of the innermost level counts as one of the pool that holds the other levels too.
  have whole {ledger' : Ledger} {old : List Activity} {below : Thread} (above : Thread)
      {level' : Level} {deed : Option Deed} (sound : Sound ledger (old ++ (activities below ++ others)))
      (new : above.activities = [])
      (does : Level.Does ledger old (activities below ++ others) deed ledger' level') :
      Account.Step (accountOf ledger (old ++ (activities below ++ others))) deed
          (accountOf ledger' (activities (above ++ level' :: below) ++ others)) ∧
        Sound ledger' (activities (above ++ level' :: below) ++ others) := by
    have pool : activities (above ++ level' :: below) ++ others =
        level'.activity.toList ++ (activities below ++ others) := by
      rw [← List.append_assoc, ← activities_cons, activities, List.filterMap_append]
      exact congrArg (· ++ others) (congrArg (· ++ activities (level' :: below)) new)
    rw [pool]
    exact ⟨does.step, sound.step does.step does.fit⟩
  cases thread with
  | nil => exact ⟨.quiet (.refl _) (.refl _), sound⟩
  | cons level below =>
    obtain ⟨todo, activity, replies⟩ := level
    rw [activities_cons, List.append_assoc] at sound ⊢
    cases activity with
    | some activity =>
      have above := Level.advance_above ⟨todo, some activity, replies⟩ spurious ledger activity
      refine whole _ sound ?_ (Level.advance_does sound ⟨todo, some activity, replies⟩ rfl spurious)
      rw [activities, List.filterMap_eq_nil_iff]
      exact fun new member => above new (Option.mem_toList.mp member)
    | none =>
      cases todo with
      | cons request todo =>
        exact whole [] sound rfl (Level.start_does ledger _ ⟨todo, none, replies⟩ request)
      | nil =>
        cases below with
        | nil => exact ⟨.quiet (.refl _) (.refl _), sound⟩
        | cons caller rest =>
          have below : activities (caller :: rest) ++ others =
              caller.activity.toList ++ (activities rest ++ others) := by
            rw [activities_cons, List.append_assoc]
          rw [Option.toList_none, List.nil_append, below] at sound ⊢
          exact whole [] sound rfl (Level.resume_does caller sound replies)

end Thread

namespace Session

theorem step_of_no_thread {s : Session} {i : Nat} {spurious : Bool} (found : s.threads[i]? = none) :
    s.step i spurious = s := by
  simp only [step, found]

theorem step_of_getElem? {s : Session} {thread : Thread} {i : Nat} {spurious : Bool}
    (found : s.threads[i]? = some thread) :
    s.step i spurious =
      ⟨(thread.step spurious s.ledger).1, s.threads.set i (thread.step spurious s.ledger).2⟩ := by
  simp only [step, found]

/-- What a step of a session does to its account, and that it leaves the session sound. -/
theorem step_does (s : Session) (sound : Sound s.ledger s.activities) (i : Nat) (spurious : Bool) :
    Account.Step s.account (s.deed i spurious) (s.step i spurious).account ∧
      Sound (s.step i spurious).ledger (s.step i spurious).activities := by
  cases found : s.threads[i]? with
  | none =>
    have nothing : s.deed i spurious = none := by simp only [deed, found, Option.bind_none]
    rw [step_of_no_thread found, nothing]
    exact ⟨.quiet (.refl _) (.refl _), sound⟩
  | some thread =>
    obtain ⟨bound, rfl⟩ := List.getElem?_eq_some_iff.mp found
    have before := (List.getElem_cons_eraseIdx_perm bound).symm.flatMap_right Thread.activities
    have does := Thread.step_account s.threads[i] spurious (sound.perm before)
    have after := (List.set_perm_cons_eraseIdx bound
      (s.threads[i].step spurious s.ledger).2).flatMap_right Thread.activities
    have same : s.deed i spurious = s.threads[i].deed spurious s.ledger := by
      simp only [deed, found, Option.bind_some]
    rw [step_of_getElem? found, same]
    refine ⟨does.1.perm ?_ ?_ (before.filterMap _) (after.filterMap _), does.2.perm after.symm⟩
    · exact (before.filterMap _).append_left _
    · exact (after.filterMap _).append_left _

theorem run_cons (i : Nat) (spurious : Bool) (schedule : List (Nat × Bool)) (s : Session) :
    s.run ((i, spurious) :: schedule) = (s.step i spurious).run schedule := rfl

theorem run_append (before after : List (Nat × Bool)) (s : Session) :
    s.run (before ++ after) = (s.run before).run after := List.foldl_append

theorem activities_ofPrograms (programs : List (List Request)) :
    (ofPrograms programs).activities = [] := by
  rw [activities, ofPrograms, List.flatMap_map]
  exact List.flatMap_eq_nil_iff.mpr fun _ _ => rfl

theorem account_ofPrograms (programs : List (List Request)) :
    (ofPrograms programs).account = ⟨.empty, [], []⟩ := by
  rw [account, activities_ofPrograms]
  rfl

theorem ofPrograms_sound (programs : List (List Request)) :
    Sound (ofPrograms programs).ledger (ofPrograms programs).activities := by
  rw [activities_ofPrograms]
  exact ⟨.empty, nofun, nofun⟩

theorem run_sound (schedule : List (Nat × Bool)) (s : Session) (sound : Sound s.ledger s.activities) :
    Sound (s.run schedule).ledger (s.run schedule).activities := by
  induction schedule generalizing s with
  | nil => exact sound
  | cons turn schedule ih =>
    rw [run_cons]
    exact ih _ (step_does s sound turn.1 turn.2).2

theorem run_nodes_le (schedule : List (Nat × Bool)) (s : Session)
    (sound : Sound s.ledger s.activities) :
    s.ledger.registry.nodes.length ≤ (s.run schedule).ledger.registry.nodes.length := by
  induction schedule generalizing s with
  | nil => exact Nat.le_refl _
  | cons turn schedule ih =>
    obtain ⟨step, next⟩ := step_does s sound turn.1 turn.2
    rw [run_cons]
    exact Nat.le_trans step.nodes_le (ih _ next)

/-- A deed of a schedule is one of the step that is taken when the deeds before it are done. -/
theorem exists_step_of_deeds {schedule : List (Nat × Bool)} {s : Session} {before after : List Deed}
    {deed : Deed} (deeds : s.deeds schedule = before ++ deed :: after) :
    ∃ earlier i spurious, s.deeds earlier = before ∧
      (s.run earlier).deed i spurious = some deed := by
  induction schedule generalizing s before with
  | nil => simp [Session.deeds] at deeds
  | cons turn schedule ih =>
    obtain ⟨i, spurious⟩ := turn
    unfold Session.deeds at deeds
    cases first : s.deed i spurious with
    | none =>
      rw [first, Option.toList_none, List.nil_append] at deeds
      obtain ⟨earlier, j, later, same, done⟩ := ih deeds
      refine ⟨(i, spurious) :: earlier, j, later, ?_, done⟩
      rw [Session.deeds, first, same]
      rfl
    | some own =>
      rw [first, Option.toList_some, List.singleton_append] at deeds
      cases before with
      | nil =>
        refine ⟨[], i, spurious, rfl, ?_⟩
        rw [← (List.cons.inj deeds).1]
        exact first
      | cons head before =>
        obtain ⟨rfl, rest⟩ := List.cons.inj deeds
        obtain ⟨earlier, j, later, same, done⟩ := ih rest
        refine ⟨(i, spurious) :: earlier, j, later, ?_, done⟩
        rw [Session.deeds, first, same]
        rfl

end Session

end SharedCells.Registry
