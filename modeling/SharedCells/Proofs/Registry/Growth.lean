import Mathlib.Data.List.Infix
import SharedCells.Proofs.Registry.Claims
import SharedCells.Proofs.Registry.Custody
import SharedCells.Proofs.Registry.Roster

/-! The list of nodes grows only with the number of claims and debts at once.

Whatever the threads do, the claims and debts of a session can be listed from the
newest to the oldest, and what each step does to them is a step of that list. -/

set_option autoImplicit false

namespace SharedCells.Registry

namespace Ticket

/-- The scan of thread `i`: where it began, and what is left of it. -/
def scan? (i : Nat) (t : Ticket) : Option (Nat × Nat) :=
  if t.scanner = some i then some (t.base, t.left) else none

/-- The mark that the ticket owns. -/
def mark? (t : Ticket) : Option Nat := if t.scanner = none then some t.left else none

variable {t : Ticket} {i j : Nat}

theorem scan?_of_ne (own : t.scanner = some i ∨ t.scanner = none) (ne : j ≠ i) : t.scan? j = none := by
  rcases own with own | own <;> simp [scan?, own, ne.symm]

theorem eq_of_scan? {base left : Nat} (scans : t.scan? i = some (base, left)) :
    t = ⟨some i, base, left⟩ := by
  obtain ⟨scanner, base', left'⟩ := t
  simp only [scan?] at scans
  split at scans
  · simp_all
  · contradiction

theorem of_mark? {left : Nat} (owns : t.mark? = some left) : t.scanner = none ∧ t.left = left := by
  unfold mark? at owns
  split at owns
  · next free => exact ⟨free, Option.some.inj owns⟩
  · contradiction

/-- A ticket is a scan or owns a mark. -/
theorem length_scan?_add_mark? (own : t.scanner = some i ∨ t.scanner = none) :
    (t.scan? i).toList.length + t.mark?.toList.length = 1 := by
  rcases own with own | own <;> simp [scan?, mark?, own]

end Ticket

theorem filterMap_insert {α β : Type} (f : α → Option β) (newer older : List α) (a : α) :
    (newer ++ a :: older).filterMap f = newer.filterMap f ++ ((f a).toList ++ older.filterMap f) := by
  rw [List.filterMap_append, List.filterMap_cons]
  cases f a <;> rfl

/-- The mark of a debt, as a ticket counts it. -/
def Debt.ticket (d : Debt) : Nat := d.place.rank + 1

namespace Session

/-- The claims and debts of a session are on the roster; `base i` is the number of nodes that thread `i`
has seen when it looked at the head. -/
structure Enrolled (base : Nat → Nat) (s : Session) (R : Roster) : Prop where
  nodes : R.nodes = s.nodes
  scans : ∀ i, R.tickets.filterMap (Ticket.scan? i) = ((s.left i).map (Prod.mk (base i))).toList
  marks : (R.tickets.filterMap Ticket.mark?).Perm (s.unsettled.map Debt.ticket)
  active : R.tickets.length = s.active

/-- The number of nodes that each thread's scan began with, or begins with if it begins now. -/
def rebase (s : Session) (base : Nat → Nat) (i : Nat) : Nat :=
  if (s.left i).isSome then base i else s.nodes

variable {base : Nat → Nat} {s s' : Session} {R : Roster} {i j left : Nat} {deed : Option Deed}

theorem map_rebase (same : s'.left j = s.left j) :
    (s'.left j).map (Prod.mk (s.rebase base j)) = (s.left j).map (Prod.mk (base j)) := by
  rw [same, rebase]
  cases s.left j <;> rfl

namespace Enrolled

theorem ofPrograms (programs : List (List Request)) :
    Enrolled (fun _ => 0) (ofPrograms programs) ⟨0, []⟩ := by
  have unsettled : (Session.ofPrograms programs).unsettled = [] :=
    congrArg Account.debts (account_ofPrograms programs)
  refine ⟨rfl, fun i => ?_, ?_, ?_⟩
  · rw [left, current_ofPrograms]
    rfl
  · rw [unsettled]
    exact .nil
  · rw [Session.active, activities_ofPrograms, unsettled]
    rfl

theorem exists_owner (enrolled : Enrolled base s R) {d : Debt} (member : d ∈ s.unsettled) :
    ∃ t ∈ R.tickets, t.scanner = none ∧ t.left = d.ticket := by
  have owned := enrolled.marks.mem_iff.mpr (List.mem_map_of_mem member)
  obtain ⟨t, inside, owns⟩ := List.mem_filterMap.mp owned
  exact ⟨t, inside, Ticket.of_mark? owns⟩

theorem stay (enrolled : Enrolled base s R) (turned : Turned i deed s s') (same : s'.left i = s.left i)
    (quiet : ∀ d, deed ≠ some (.recorded d)) :
    ∃ R', (R' = R ∨ R.Step R') ∧ Enrolled (s.rebase base) s' R' := by
  have lefts (j : Nat) : s'.left j = s.left j := by
    by_cases own : j = i
    · exact own ▸ same
    · exact turned.others j own
  have nodes := turned.account.nodes_of_quiet quiet
  have length := enrolled.active
  have active := turned.active
  rw [same] at active
  rcases turned.account.quiet_leaves quiet with debts | ⟨d, debts⟩
  · have count : s'.unsettled.length = s.unsettled.length := debts.length_eq
    refine ⟨R, .inl rfl, enrolled.nodes.trans nodes.symm, fun j => ?_,
      enrolled.marks.trans (debts.map _).symm, ?_⟩
    · rw [enrolled.scans j, map_rebase (lefts j)]
    · omega
  · -- A debt is settled, and its ticket goes.
    obtain ⟨t, inside, owns, ticket⟩ := enrolled.exists_owner (debts.mem_iff.mpr List.mem_cons_self)
    obtain ⟨newer, older, split⟩ := List.append_of_mem inside
    obtain ⟨n, tickets⟩ := R
    subst split
    have marks := enrolled.marks.trans (debts.map Debt.ticket)
    have mark : t.mark? = some d.ticket := by rw [Ticket.mark?, if_pos owns, ticket]
    have count : s.unsettled.length = s'.unsettled.length + 1 := debts.length_eq
    refine ⟨⟨n, newer ++ older⟩, .inr .leave, enrolled.nodes.trans nodes.symm, fun j => ?_, ?_, ?_⟩
    · have scan : t.scan? j = none := by simp [Ticket.scan?, owns]
      have before := enrolled.scans j
      rw [filterMap_insert, scan] at before
      rw [List.filterMap_append, map_rebase (lefts j), ← before]
      rfl
    · rw [filterMap_insert, mark, List.map_cons] at marks
      rw [List.filterMap_append]
      exact (List.perm_middle.symm.trans marks).cons_inv
    · simp only [List.length_append, List.length_cons] at length ⊢
      omega

theorem advance (enrolled : Enrolled base s R) (turned : Turned i deed s s')
    (scanning : s.left i = some left) :
    ∃ newer older, R = ⟨s.nodes, newer ++ ⟨some i, base i, left⟩ :: older⟩ ∧
      ∀ t : Ticket, t.scanner = some i ∨ t.scanner = none →
        t.scan? i = (s'.left i).map (Prod.mk (base i)) →
        (s'.unsettled.map Debt.ticket).Perm (t.mark?.toList ++ s.unsettled.map Debt.ticket) →
        Enrolled (s.rebase base) s' ⟨s'.nodes, newer ++ t :: older⟩ := by
  have own := enrolled.scans i
  rw [scanning, Option.map_some, Option.toList_some, List.filterMap_eq_cons_iff] at own
  obtain ⟨newer, found, older, split, newerOthers, scans, olderOthers⟩ := own
  obtain rfl := Ticket.eq_of_scan? scans
  have marks := enrolled.marks
  have length := enrolled.active
  rw [split, filterMap_insert] at marks
  rw [split, List.length_append, List.length_cons] at length
  refine ⟨newer, older, Roster.ext enrolled.nodes split,
    fun t own scan recorded => ⟨rfl, fun j => ?_, ?_, ?_⟩⟩
  · rw [filterMap_insert]
    by_cases same : j = i
    · subst same
      have stays : s.rebase base j = base j := by simp [rebase, scanning]
      rw [List.filterMap_eq_nil_iff.mpr newerOthers, olderOthers, scan, stays, List.nil_append,
        List.append_nil]
    · have before := enrolled.scans j
      rw [split, filterMap_insert, Ticket.scan?_of_ne (.inl rfl) same] at before
      rw [Ticket.scan?_of_ne own same, before, map_rebase (turned.others j same)]
  · rw [filterMap_insert]
    exact (List.perm_append_comm_assoc _ _ _).trans ((marks.append_left _).trans recorded.symm)
  · -- The ticket is still one, a scan or a debt.
    have debts := recorded.length_eq
    have one := Ticket.length_scan?_add_mark? own
    have active := turned.active
    rw [List.length_append, List.length_map, List.length_map] at debts
    rw [scan, Option.toList_map, List.length_map] at one
    rw [scanning, Option.toList_some, List.length_singleton] at active
    rw [List.length_append, List.length_cons]
    omega

theorem enter (enrolled : Enrolled base s R) (turned : Turned i none s s') (before : s.left i = none)
    (after : s'.left i = some (breadth * s.nodes)) :
    ∃ R', R.Step R' ∧ Enrolled (s.rebase base) s' R' := by
  obtain ⟨n, tickets⟩ := R
  have same : n = s.nodes := enrolled.nodes
  subst same
  have debts : s'.unsettled.Perm s.unsettled := turned.account.leaves
  have count := debts.length_eq
  have length := enrolled.active
  have active := turned.active
  refine ⟨_, .enter i, (turned.account.nodes_of_quiet nofun).symm, fun j => ?_, ?_, ?_⟩
  · have scans := enrolled.scans j
    by_cases own : j = i
    · -- No other ticket tells of a scan of this thread.
      subst own
      rw [before] at scans
      simp [Ticket.scan?, scans, after, rebase, before]
    · rw [List.filterMap_cons, Ticket.scan?_of_ne (.inl rfl) own, map_rebase (turned.others j own)]
      exact scans
  · exact enrolled.marks.trans (debts.map _).symm
  · rw [before, after] at active
    simp only [Option.toList_none, Option.toList_some, List.length_nil, List.length_cons]
      at active length ⊢
    omega

/-- What a step does to the claims and debts is a step of the roster. -/
theorem step (enrolled : Enrolled base s R) (backed : s.ledger.registry.Backed s.unsettled)
    (turned : Turned i deed s s') :
    ∃ R', (R' = R ∨ R.Step R') ∧ Enrolled (s.rebase base) s' R' := by
  have progress := turned.progress
  generalize before : s.left i = left at progress
  generalize after : s'.left i = left' at progress
  cases progress with
  | rest quiet => exact enrolled.stay turned (after.trans before.symm) quiet
  | enter =>
    obtain ⟨R', entered, next⟩ := enrolled.enter turned before after
    exact ⟨R', .inr entered, next⟩
  | @pass p mark read taken =>
    obtain ⟨newer, older, rfl, next⟩ := enrolled.advance turned before
    -- The mark that the scan leaves behind is a debt's, and the debt has its ticket.
    obtain ⟨d, member, rfl⟩ := backed.claimed p mark read taken
    obtain ⟨owner, inside, owns, there⟩ := enrolled.exists_owner member
    have nodes : s'.nodes = s.nodes := turned.account.nodes_of_quiet nofun
    refine ⟨_, .inr (.pass rfl rfl inside owns there), ?_⟩
    rw [← nodes]
    exact next _ (.inl rfl) (by simp [Ticket.scan?, after]) (turned.account.leaves.map _)
  | @take p addr read =>
    obtain ⟨newer, older, rfl, next⟩ := enrolled.advance turned before
    have nodes : s'.nodes = s.nodes := turned.account.nodes_of_taken read
    refine ⟨_, .inr (.take rfl), ?_⟩
    rw [← nodes]
    exact next _ (.inr rfl) (by simp [Ticket.scan?, after]) (turned.account.leaves.map _)
  | @push addr =>
    obtain ⟨newer, older, rfl, next⟩ := enrolled.advance turned before
    have nodes : s'.nodes = s.nodes + 1 := turned.account.nodes_of_grown
    refine ⟨_, .inr (.push rfl rfl), ?_⟩
    rw [← nodes]
    refine next _ (.inr rfl) (by simp [Ticket.scan?, after]) ?_
    -- The debt is recorded in the first mark of the new node, which has the highest rank of all.
    have first : breadth * s'.nodes = Debt.ticket ⟨⟨s.nodes, 0⟩, addr⟩ := by
      simp only [Debt.ticket, Place.rank, breadth, Fin.val_zero]
      omega
    rw [first]
    exact turned.account.leaves.map _

end Enrolled

/-- The claims and debts are on a roster that is bounded. -/
structure Listed (P : Nat) (base : Nat → Nat) (s : Session) : Prop where
  orderly : s.Orderly
  roster : ∃ R, Enrolled base s R ∧ Roster.Bounded P R

namespace Listed

variable {P : Nat} {schedule : List (Nat × Bool)} {spurious : Bool}

theorem ofPrograms (P : Nat) (programs : List (List Request)) :
    Listed P (fun _ => 0) (ofPrograms programs) where
  orderly := .ofPrograms programs
  roster := ⟨⟨0, []⟩, .ofPrograms programs, .empty P⟩

theorem step (listed : Listed P base s) (few : (s.step i spurious).active ≤ P) :
    Listed P (s.rebase base) (s.step i spurious) := by
  obtain ⟨orderly, R, enrolled, bounded⟩ := listed
  obtain ⟨turned, orderly'⟩ := orderly.step i spurious
  obtain ⟨R', step, enrolled'⟩ := enrolled.step orderly.sound.backed turned
  refine ⟨orderly', R', enrolled', ?_⟩
  rcases step with rfl | step
  · exact bounded
  · exact step.bounded bounded (enrolled'.active.symm ▸ few)

/-- There are never more than `P` claims and debts at once. The scans that last all the time began with
as many nodes as before. -/
theorem run (listed : Listed P base s)
    (few : ∀ earlier, earlier <+: schedule → (s.run earlier).active ≤ P) :
    ∃ base', Listed P base' (s.run schedule) ∧
      ∀ i, (∀ earlier, earlier <+: schedule → ((s.run earlier).left i).isSome) → base' i = base i := by
  induction schedule generalizing s base with
  | nil => exact ⟨base, listed, fun _ _ => rfl⟩
  | cons turn schedule ih =>
    obtain ⟨i, spurious⟩ := turn
    have later {earlier : List (Nat × Bool)} (start : earlier <+: schedule) :
        (i, spurious) :: earlier <+: (i, spurious) :: schedule :=
      List.cons_prefix_cons.mpr ⟨rfl, start⟩
    obtain ⟨base', listed', kept⟩ := ih (listed.step (few _ (later List.nil_prefix)))
      fun earlier start => few _ (later start)
    -- A scan that lasts from the first state on keeps its base in the first step too.
    refine ⟨base', listed', fun j scanning => ?_⟩
    have first : (s.left j).isSome := scanning [] List.nil_prefix
    rw [kept j fun earlier start => scanning _ (later start), rebase, if_pos first]

end Listed

/-- The list of nodes grows only with the number of claims and debts at once. If a claim looks at the
head in the first of some steps, scans all the time, and then pushes a node, there have been eight claims
and debts beside it at a time for each node that it has seen. So with never more than `P` claims and debts
at a time there are never more nodes than `P` need, and `P - 1` more. -/
theorem nodes_follow_concurrency (programs : List (List Request)) :
    (∀ before during i spurious spurious',
      let start := (ofPrograms programs).run before
      let last := (start.step i spurious).run during
      start.left i = none →
      (∀ earlier, earlier <+: during → (((start.step i spurious).run earlier).left i).isSome) →
      last.nodes < (last.step i spurious').nodes →
      ∃ earlier, earlier <+: before ++ (i, spurious) :: during ∧
        8 * start.nodes + 1 ≤ ((ofPrograms programs).run earlier).active) ∧
    ∀ schedule P,
      (∀ earlier, earlier <+: schedule → ((ofPrograms programs).run earlier).active ≤ P) →
      ((ofPrograms programs).run schedule).nodes ≤ (P + 7) / 8 + (P - 1) := by
  constructor
  · intro before during i spurious spurious' start last idle scanning grown
    by_contra never
    have few (earlier : List (Nat × Bool)) (early : earlier <+: before ++ (i, spurious) :: during) :
        ((ofPrograms programs).run earlier).active ≤ 8 * start.nodes := by
      by_contra many
      exact never ⟨earlier, early, Nat.not_le.mp many⟩
    have fewer (earlier : List (Nat × Bool)) (early : earlier <+: during) :
        ((start.step i spurious).run earlier).active ≤ 8 * start.nodes := by
      rw [← run_cons, ← run_append]
      exact few _ (List.prefix_append_right_inj _ |>.mpr (List.cons_prefix_cons.mpr ⟨rfl, early⟩))
    -- At the look at the head, the claim's ticket gets the nodes that are there as its base.
    obtain ⟨base, listed, -⟩ := (Listed.ofPrograms _ programs).run fun earlier early =>
      few earlier (early.trans (List.prefix_append _ _))
    have based : start.rebase base i = start.nodes := by simp [rebase, idle]
    obtain ⟨base', ⟨orderly, R, enrolled, bounded⟩, kept⟩ :=
      (listed.step (fewer [] List.nil_prefix)).run fewer
    -- At the push, nothing is left of it.
    obtain ⟨turned, -⟩ := orderly.step i spurious'
    obtain ⟨newer, older, rfl, -⟩ := enrolled.advance turned (turned.done_of_grown grown)
    have full := bounded.full (t := ⟨some i, base' i, 0⟩) (by simp) rfl
    rw [kept i scanning, based] at full
    exact absurd full (Nat.not_succ_le_self _)
  · intro schedule P few
    obtain ⟨base, ⟨-, R, enrolled, bounded⟩, -⟩ := (Listed.ofPrograms P programs).run few
    rw [← enrolled.nodes]
    exact bounded.nodes_le

/-- A claim finds the only node full, and pushes another one, though a mark that it has passed is free
again by then. -/
theorem nodes_follow_concurrency_freed_behind :
    let crowd := ofPrograms [[.claim "a" 16, .claim "b" 16, .claim "c" 16, .claim "d" 16, .claim "e" 16,
      .claim "f" 16, .claim "g" 16, .claim "h" 16, .settle "a"], [.claim "i" 16]]
    let before := List.replicate 60 (0, false) ++ [(1, false)]
    let during := List.replicate 3 (1, false) ++ List.replicate 2 (0, false) ++ List.replicate 6 (1, false)
    let start := crowd.run before
    let last := (start.step 1 false).run during
    start.left 1 = none ∧
      (∀ earlier, earlier <+: during → (((start.step 1 false).run earlier).left 1).isSome) ∧
      last.ledger.registry.read ⟨0, 0⟩ = some .free ∧
      start.nodes = 1 ∧ last.nodes < (last.step 1 false).nodes ∧
      (∃ earlier, earlier <+: before ++ (1, false) :: during ∧ 8 * 1 + 1 ≤ (crowd.run earlier).active) ∧
      (∀ earlier, earlier <+: before ++ (1, false) :: during ++ [(1, false)] →
        (crowd.run earlier).active ≤ 9) ∧
      (crowd.run (before ++ (1, false) :: during ++ [(1, false)])).nodes ≤ 10 := by
  intro crowd before during start last
  have idle : start.left 1 = none := by
    decide +kernel
  have scanning : ∀ earlier ∈ during.inits, (((start.step 1 false).run earlier).left 1).isSome := by
    decide +kernel
  have freed : last.ledger.registry.read ⟨0, 0⟩ = some .free := by
    decide +kernel
  have seen : start.nodes = 1 := by
    decide +kernel
  have grown : last.nodes < (last.step 1 false).nodes := by
    decide +kernel
  have few : ∀ earlier ∈ (before ++ (1, false) :: during ++ [(1, false)]).inits,
      (crowd.run earlier).active ≤ 9 := by
    decide +kernel
  simp only [List.mem_inits] at scanning few
  obtain ⟨crowded, bounded⟩ := nodes_follow_concurrency
    [[.claim "a" 16, .claim "b" 16, .claim "c" 16, .claim "d" 16, .claim "e" 16,
      .claim "f" 16, .claim "g" 16, .claim "h" 16, .settle "a"], [.claim "i" 16]]
  have nine := crowded before during 1 false false idle scanning grown
  have within := bounded (before ++ (1, false) :: during ++ [(1, false)]) 9 few
  rw [seen] at nine
  exact ⟨idle, scanning, freed, seen, grown, nine, few, within⟩

end Session

end SharedCells.Registry
