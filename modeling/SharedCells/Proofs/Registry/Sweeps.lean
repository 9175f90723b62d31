import SharedCells.Proofs.Registry.Stack

/-! What a scan comes to.

A scan reads the head once, and then follows the links through nodes that stay as they are linked.
So it looks at the marks of exactly those nodes that were there when it read the head, the newest node
first and each once, whatever is pushed meanwhile. A payment scans up to the end, and so does a claim
unless it takes a mark on the way. -/

set_option autoImplicit false

namespace SharedCells.Registry

namespace Place

/-- The marks of a node, in the order of a scan. -/
def ofNode (n : Nat) : List Place := (List.finRange breadth).map (Place.mk n)

theorem nodup_flatMap_ofNode {ns : List Nat} (apart : ns.Nodup) : (ns.flatMap ofNode).Nodup := by
  have here (n : Nat) : (ofNode n).Nodup :=
    (List.nodup_finRange breadth).map fun _ _ same => (Place.mk.inj same).2
  refine List.nodup_flatMap.mpr ⟨fun n _ => here n, apart.imp fun ne p one two => ?_⟩
  obtain ⟨_, -, rfl⟩ := List.mem_map.mp one
  obtain ⟨_, -, same⟩ := List.mem_map.mp two
  exact ne (Place.mk.inj same).1.symm

/-- The places from one on to the end of the oldest node. -/
def onward (p : Place) : List Place :=
  ((List.finRange breadth).drop p.index).map (Place.mk p.node) ++ (newestFirst p.node).flatMap ofNode

theorem onward_eq (p : Place) :
    p.onward = p :: (((List.finRange breadth).drop (p.index + 1)).map (Place.mk p.node) ++
      (newestFirst p.node).flatMap ofNode) := by
  have room : p.index.val < (List.finRange breadth).length := by
    rw [List.length_finRange]
    exact p.index.isLt
  rw [onward, List.drop_eq_getElem_cons room, List.getElem_finRange]
  rfl

theorem onward_first (n : Nat) : onward ⟨n, 0⟩ = (newestFirst (n + 1)).flatMap ofNode := by
  rw [newestFirst_succ]
  rfl

end Place

/-- Where a scan stands. -/
inductive Sweep where
  /-- It is about to look at the place. -/
  | facing (p : Place)
  /-- It has looked at the place, and not gone on yet. -/
  | past (p : Place)
  | ended
  deriving DecidableEq

namespace Sweep

/-- A scan that goes on at a place, or is over. -/
def ofPlace : Option Place → Sweep
  | some p => facing p
  | none => ended

/-- The place that the scan looks at in its next step. -/
def look? : Sweep → Option Place
  | facing p => some p
  | past _ | ended => none

/-- The places that the scan has yet to look at. -/
def Leaves (r : Registry) : Sweep → List Place → Prop
  | facing p, ps => p.Published r ∧ ps = p.onward
  | past p, ps => p.Published r ∧ p.onward = p :: ps
  | ended, ps => ps = []

variable {r r' : Registry} {sweep : Sweep} {p : Place} {ps : List Place}

theorem Leaves.mono (leaves : sweep.Leaves r ps) (grows : r.nodes.length ≤ r'.nodes.length) :
    sweep.Leaves r' ps := by
  cases sweep with
  | facing p | past p => exact ⟨Nat.lt_of_lt_of_le leaves.1 grows, leaves.2⟩
  | ended => exact leaves

theorem leaves_previous {n : Nat} (old : n ≤ r.nodes.length) :
    (ofPlace ((previous n).map fun node => ⟨node, 0⟩)).Leaves r
      ((newestFirst n).flatMap Place.ofNode) := by
  cases n with
  | zero => rfl
  | succ n => exact ⟨old, (Place.onward_first n).symm⟩

theorem leaves_first (chained : r.Chained) :
    (ofPlace r.first).Leaves r ((newestFirst r.nodes.length).flatMap Place.ofNode) := by
  rw [first, chained.head]
  exact leaves_previous (Nat.le_refl _)

theorem leaves_after (chained : r.Chained) (leaves : (past p).Leaves r ps) :
    (ofPlace (r.after p)).Leaves r ps := by
  obtain ⟨published, here⟩ := leaves
  rw [Place.onward_eq, List.cons.injEq] at here
  obtain ⟨-, rfl⟩ := here
  unfold after
  split
  · exact ⟨published, rfl⟩
  · next last =>
    -- The node has no more marks, and links to the one before it.
    have none : (List.finRange breadth).drop (p.index + 1) = [] :=
      List.drop_eq_nil_iff.mpr (by simpa using last)
    have found : r.nodes[p.node]? = some r.nodes[p.node] := List.getElem?_eq_getElem published
    rw [none, List.map_nil, List.nil_append, found, Option.bind_some, chained.next _ _ found]
    exact leaves_previous (Nat.le_of_lt published)

end Sweep

def Claim.sweep? : Claim → Option Sweep
  | .test p => some (.facing p)
  | .take p => some (.past p)
  | .grow | .link _ => some .ended
  | .start | .recorded _ _ => none

def Payment.sweep? : Payment → Option Sweep
  | .test p => some (.facing p)
  | .retain p | .mark p | .release p => some (.past p)
  | .finished => some .ended
  | .start => none

namespace Activity

/-- Where the scan of the activity stands, if it has one and has read the head. -/
def sweep? : Activity → Option Sweep
  | .claiming _ _ progress => progress.sweep?
  | .paying payment => payment.progress.sweep?
  | .settling _ _ => none

/-- The activity is about to read the head for its scan. -/
def Begins : Activity → Prop
  | .claiming _ _ progress => progress = .start
  | .paying payment => payment.progress = .start
  | .settling _ _ => False

instance : DecidablePred Begins
  | .claiming _ _ _ | .paying _ => inferInstanceAs (Decidable (_ = _))
  | .settling _ _ => inferInstanceAs (Decidable False)

/-- The place whose mark the activity looks at in its next step. -/
def look? (activity : Activity) : Option Place := activity.sweep?.bind Sweep.look?

end Activity

/-- The activity has ended, or it goes on with its scan: what it has looked at and what is left are
the places that were left. -/
def Onward (r : Registry) (looked ps : List Place) (next : Option Activity) : Prop :=
  next = none ∨ ∃ activity sweep ps', next = some activity ∧ activity.sweep? = some sweep ∧
    sweep.Leaves r ps' ∧ looked ++ ps' = ps

section Steps

variable {r : Registry} {ledger : Ledger} {level : Level} {activity : Activity} {sweep : Sweep}
  {p : Place} {ps : List Place}

theorem Onward.ended {looked : List Place} : Onward r looked ps none := .inl rfl

theorem Onward.goes {next : Activity} (sweeps : next.sweep? = some sweep)
    (leaves : sweep.Leaves r ps) : Onward r [] ps (some next) := .inr ⟨next, sweep, ps, rfl, sweeps, leaves, rfl⟩

theorem Sweep.Leaves.looked (leaves : (facing p).Leaves r ps) :
    ∃ rest, (past p).Leaves r rest ∧ [p] ++ rest = ps := by
  obtain ⟨published, rfl⟩ := leaves
  exact ⟨_, ⟨published, p.onward_eq⟩, p.onward_eq.symm⟩

theorem Onward.looks {next : Activity} (leaves : (Sweep.facing p).Leaves r ps)
    (goes : ∀ rest, (Sweep.past p).Leaves r rest →
      ∃ sweep, next.sweep? = some sweep ∧ sweep.Leaves r rest) :
    Onward r [p] ps (some next) := by
  obtain ⟨rest, past, split⟩ := leaves.looked
  obtain ⟨sweep, sweeps, left⟩ := goes rest past
  exact .inr ⟨next, sweep, rest, rfl, sweeps, left, split⟩

theorem Claim.sweep?_scan (place : Option Place) :
    (Claim.scan place).sweep? = some (.ofPlace place) := by
  cases place <;> rfl

theorem Payment.sweep?_scan (place : Option Place) :
    (Payment.scan place).sweep? = some (.ofPlace place) := by
  cases place <;> rfl

theorem Claim.step_onward {claim : Claim} (chained : r.Chained) (sweeps : claim.sweep? = some sweep)
    (leaves : sweep.Leaves r ps) (name : String) (addr : Addr) (spurious : Bool) :
    let next := claim.step addr spurious r
    (∃ place grown, next.1 = .recorded place grown) ∨
      Onward next.2 sweep.look?.toList ps (some (.claiming name addr next.1)) := by
  cases claim with
  | start | recorded => contradiction
  | test p =>
    obtain rfl := Option.some.inj sweeps
    refine .inr (.looks leaves fun rest past => ?_)
    simp only [step]
    split
    · exact ⟨_, rfl, past⟩
    · exact ⟨_, sweep?_scan _, Sweep.leaves_after chained past⟩
  | take p =>
    obtain rfl := Option.some.inj sweeps
    by_cases free : r.read p = some .free
    · exact .inl ⟨p, false, by simp only [step, replace, if_pos free]⟩
    · simp only [step, replace, if_neg free]
      exact .inr (.goes (sweep?_scan _) (Sweep.leaves_after chained leaves))
  | grow =>
    obtain rfl := Option.some.inj sweeps
    exact .inr (.goes rfl leaves)
  | link next =>
    obtain rfl := Option.some.inj sweeps
    by_cases won : r.head = next ∧ spurious = false
    · exact .inl ⟨⟨r.nodes.length, 0⟩, true, by simp only [step, if_pos won]⟩
    · simp only [step, if_neg won]
      exact .inr (.goes rfl leaves)

theorem Level.advance_onward (chained : ledger.registry.Chained) (busy : level.activity = some activity)
    (sweeps : activity.sweep? = some sweep) (leaves : sweep.Leaves ledger.registry ps)
    (spurious : Bool) :
    let next := level.advance spurious ledger activity
    Onward next.1.registry activity.look?.toList ps next.2.1.activity := by
  have looks : activity.look? = sweep.look? := by rw [Activity.look?, sweeps, Option.bind_some]
  rw [looks]
  cases activity with
  | settling => contradiction
  | claiming name addr claim =>
    have onward := Claim.step_onward chained sweeps leaves name addr spurious
    simp only [advance]
    generalize claim.step addr spurious ledger.registry = next at onward
    obtain ⟨next, registry⟩ := next
    cases next with
    | recorded => exact .ended
    | start | test | take | grow | link =>
      rcases onward with ⟨place, grown, recorded⟩ | onward
      · contradiction
      · exact onward
  | paying payment =>
    obtain ⟨addr, progress, onRetain, onRelease, calls⟩ := payment
    cases progress with
    | start => contradiction
    | test p =>
      obtain rfl := Option.some.inj sweeps
      refine .looks leaves fun rest past => ?_
      simp only [Activity.sweep?]
      split
      · exact ⟨_, rfl, past⟩
      · exact ⟨_, Payment.sweep?_scan _, Sweep.leaves_after chained past⟩
    | mark p =>
      obtain rfl := Option.some.inj sweeps
      simp only [advance, Paying.due]
      by_cases owed : ledger.registry.read p = some (.owed addr)
      · rw [Payment.step_mark_of_owed owed]
        exact .goes (Payment.sweep?_scan _) (Sweep.leaves_after chained.write (leaves.mono (by simp)))
      · rw [Payment.step_mark_of_not_owed owed]
        exact .goes rfl leaves
    | retain p | release p =>
      -- The level waits for its callback, and stays as it is.
      obtain rfl := Option.some.inj sweeps
      simp only [advance, Paying.due, busy]
      exact .goes rfl leaves
    | finished => exact .ended

theorem Level.resume_onward (chained : r.Chained) (busy : level.activity = some activity)
    (sweeps : activity.sweep? = some sweep) (leaves : sweep.Leaves r ps) (replies : List Reply) :
    Onward r [] ps (level.resume r replies).activity := by
  unfold resume
  rw [busy]
  cases activity with
  | settling => contradiction
  | claiming name addr claim =>
    dsimp only
    rw [busy]
    exact .goes sweeps leaves
  | paying payment =>
    obtain ⟨addr, progress, onRetain, onRelease, calls⟩ := payment
    cases progress with
    | start | test | mark | finished =>
      simp only [Paying.due, busy]
      exact .goes sweeps leaves
    | retain p =>
      obtain rfl := Option.some.inj sweeps
      exact .goes rfl leaves
    | release p =>
      obtain rfl := Option.some.inj sweeps
      exact .goes (Payment.sweep?_scan _) (Sweep.leaves_after chained leaves)

theorem Level.resume_busy (busy : level.activity = some activity) (r : Registry)
    (replies : List Reply) : (level.resume r replies).activity ≠ none := by
  unfold resume
  rw [busy]
  cases activity with
  | claiming | settling => simp [busy]
  | paying payment =>
    dsimp only
    split <;> simp [busy]

theorem Claim.ended_of_grown {claim : Claim} {addr : Addr} {spurious : Bool}
    (sweeps : claim.sweep? = some sweep) (grown : (claim.step addr spurious r).1 = .recorded p true) :
    sweep = .ended := by
  cases claim with
  | start | recorded => contradiction
  | test q =>
    simp only [step] at grown
    split at grown
    · contradiction
    · cases found : r.after q <;> simp [found, scan] at grown
  | take q =>
    by_cases free : r.read q = some .free
    · simp [step, replace, if_pos free] at grown
    · simp only [step, replace, if_neg free] at grown
      cases found : r.after q <;> simp [found, scan] at grown
  | grow | link => exact (Option.some.inj sweeps).symm

/-- An activity that ends without taking a mark has come to the end of its scan. -/
theorem Level.advance_ends {spurious : Bool} (busy : level.activity = some activity)
    (sweeps : activity.sweep? = some sweep)
    (ends : (level.advance spurious ledger activity).2.1.activity = none)
    (through : (activity.pushed spurious ledger.registry).isSome ∨
      activity.deed spurious ledger.registry = none) : sweep = .ended := by
  cases activity with
  | settling => contradiction
  | claiming name addr claim =>
    simp only [advance] at ends
    simp only [Activity.pushed, Activity.deed] at through
    cases step : (claim.step addr spurious ledger.registry).1 with
    | recorded p grown =>
      cases grown with
      | false => simp [step] at through
      | true => exact Claim.ended_of_grown sweeps step
    | start | test | take | grow | link =>
      generalize claim.step addr spurious ledger.registry = next at ends step
      obtain ⟨next, registry⟩ := next
      subst step
      contradiction
  | paying payment =>
    obtain ⟨addr, progress, onRetain, onRelease, calls⟩ := payment
    cases progress with
    | start | test | mark => contradiction
    | retain | release =>
      -- The level waits for its callback, and stays as it is.
      simp [advance, Paying.due, busy] at ends
    | finished => exact (Option.some.inj sweeps).symm

theorem Level.advance_begins (ledger : Ledger) (begins : activity.Begins) (level : Level)
    (spurious : Bool) :
    let next := level.advance spurious ledger activity
    next.1.registry = ledger.registry ∧
      ∃ activity, next.2.1.activity = some activity ∧
        activity.sweep? = some (.ofPlace ledger.registry.first) := by
  cases activity with
  | settling => exact begins.elim
  | claiming name addr claim =>
    obtain rfl : claim = .start := begins
    simp only [advance, Claim.step]
    cases ledger.registry.first <;> exact ⟨rfl, _, rfl, rfl⟩
  | paying payment =>
    obtain ⟨addr, progress, onRetain, onRelease, calls⟩ := payment
    obtain rfl : progress = .start := begins
    exact ⟨rfl, _, rfl, Payment.sweep?_scan _⟩

end Steps

namespace Session

/-- The place whose mark this activity looks at in the next step of thread `j`. -/
def look? (s : Session) (i depth j : Nat) : Option Place :=
  if j = i ∧ s.Acts i depth then (s.activity? i depth).bind Activity.look? else none

/-- The places that this activity looks at in the steps of a schedule, in that order. -/
def looks (i depth : Nat) : List (Nat × Bool) → Session → List Place
  | [], _ => []
  | (j, spurious) :: schedule, s =>
    (s.look? i depth j).toList ++ looks i depth schedule (s.step j spurious)

variable {s : Session} {i depth : Nat} {activity : Activity} {sweep : Sweep} {ps : List Place}

theorem look?_of_not_acts {j : Nat} (waits : ¬ (j = i ∧ s.Acts i depth)) : s.look? i depth j = none :=
  if_neg waits

theorem look?_of_acts (busy : s.activity? i depth = some activity) (acts : s.Acts i depth) :
    s.look? i depth i = activity.look? := by
  rw [look?, if_pos ⟨rfl, acts⟩, busy, Option.bind_some]

/-- A step of any thread leaves a scan with what is left of it. -/
theorem step_onward (orderly : s.Orderly) (busy : s.activity? i depth = some activity)
    (sweeps : activity.sweep? = some sweep) (leaves : sweep.Leaves s.ledger.registry ps) (j : Nat)
    (spurious : Bool) :
    let next := s.step j spurious
    Onward next.ledger.registry (s.look? i depth j).toList ps (next.activity? i depth) := by
  intro next
  obtain ⟨turned, orderly'⟩ := orderly.step j spurious
  have left : sweep.Leaves next.ledger.registry ps := leaves.mono turned.account.nodes_le
  have moves := step_activity? busy j spurious
  by_cases acts : j = i ∧ s.Acts i depth
  · rw [if_pos acts] at moves
    obtain ⟨level, active, ledger, activity'⟩ := moves
    rw [activity', ledger, acts.1, look?_of_acts busy acts.2]
    exact Level.advance_onward orderly.chained active sweeps leaves spurious
  · rw [if_neg acts] at moves
    rw [look?_of_not_acts acts]
    rcases moves with stays | ⟨-, level, replies, active, activity'⟩
    · rw [stays]
      exact .goes sweeps left
    · rw [activity']
      exact Level.resume_onward orderly'.chained active sweeps left replies

theorem step_ends (busy : s.activity? i depth = some activity) (sweeps : activity.sweep? = some sweep)
    {j : Nat} {spurious : Bool} (ends : (s.step j spurious).activity? i depth = none)
    (through : (s.pushed j spurious).isSome ∨ s.deed j spurious = none) : sweep = .ended := by
  have moves := step_activity? busy j spurious
  dsimp only at moves
  rw [ends] at moves
  split at moves
  · next acts =>
    obtain ⟨rfl, acts⟩ := acts
    obtain ⟨level, active, -, ends⟩ := moves
    have current := current_of_acts busy acts
    rw [pushed, current, Option.bind_some, (deed_of_current current spurious).1] at through
    exact Level.advance_ends active sweeps ends.symm through
  · rcases moves with stays | ⟨-, level, replies, active, ends⟩
    · contradiction
    · exact absurd ends.symm (Level.resume_busy active _ _)

/-- While a scan is not over, what it has looked at and what is left are what was left. -/
theorem run_onward (orderly : s.Orderly) (busy : s.activity? i depth = some activity)
    (sweeps : activity.sweep? = some sweep) (leaves : sweep.Leaves s.ledger.registry ps)
    {during : List (Nat × Bool)}
    (on : ∀ earlier, earlier <+: during → (s.run earlier).activity? i depth ≠ none) :
    let now := s.run during
    Onward now.ledger.registry (s.looks i depth during) ps (now.activity? i depth) := by
  induction during generalizing s activity sweep ps with
  | nil => exact .inr ⟨activity, sweep, ps, busy, sweeps, leaves, rfl⟩
  | cons turn during ih =>
    obtain ⟨j, spurious⟩ := turn
    have later (earlier : List (Nat × Bool)) (start : earlier <+: during) :
        ((s.step j spurious).run earlier).activity? i depth ≠ none :=
      on ((j, spurious) :: earlier) (List.cons_prefix_cons.mpr ⟨rfl, start⟩)
    obtain ⟨activity', sweep', ps', busy', sweeps', leaves', split⟩ :=
      (step_onward orderly busy sweeps leaves j spurious).resolve_left (later [] List.nil_prefix)
    rw [run_cons, looks, ← split]
    exact (ih (orderly.step j spurious).2 busy' sweeps' leaves' later).imp_right
      fun ⟨activity, sweep, rest, busy, sweeps, leaves, split⟩ =>
        ⟨activity, sweep, rest, busy, sweeps, leaves, by rw [List.append_assoc, split]⟩

theorem step_begins (orderly : s.Orderly) (busy : s.activity? i depth = some activity)
    (begins : activity.Begins) (acts : s.Acts i depth) (spurious : Bool) :
    let read := s.step i spurious
    ∃ activity sweep, read.activity? i depth = some activity ∧ activity.sweep? = some sweep ∧
      sweep.Leaves read.ledger.registry ((newestFirst s.nodes).flatMap Place.ofNode) := by
  have moves := step_activity? busy i spurious
  rw [if_pos ⟨rfl, acts⟩] at moves
  obtain ⟨level, -, ledger, activity'⟩ := moves
  obtain ⟨same, scanning, busy', sweeps⟩ := Level.advance_begins s.ledger begins level spurious
  refine ⟨scanning, _, activity'.trans busy', sweeps, ?_⟩
  rw [ledger, same]
  exact Sweep.leaves_first orderly.chained

/-- A scan looks at the marks of the nodes that were there when it read the head: at all of them, unless
it ends with a mark that it has taken. -/
theorem run_looks (orderly : s.Orderly) (busy : s.activity? i depth = some activity)
    (begins : activity.Begins) (acts : s.Acts i depth) {spurious : Bool} {during : List (Nat × Bool)}
    (on : ∀ earlier, earlier <+: during →
      ((s.step i spurious).run earlier).activity? i depth ≠ none) :
    let read := s.step i spurious
    let now := read.run during
    let places := (newestFirst s.nodes).flatMap Place.ofNode
    read.looks i depth during <+: places ∧
      ∀ j fails, (now.step j fails).activity? i depth = none →
        (now.pushed j fails).isSome ∨ now.deed j fails = none →
        read.looks i depth during = places := by
  intro read now places
  obtain ⟨scanning, sweep, busy, sweeps, leaves⟩ := step_begins orderly busy begins acts spurious
  have onward := run_onward (orderly.step i spurious).2 busy sweeps leaves on
  obtain ⟨last, sweep, left, busy, sweeps, leaves, split⟩ :=
    onward.resolve_left (on during (List.prefix_refl _))
  refine ⟨⟨left, split⟩, fun j fails ends through => ?_⟩
  obtain rfl := step_ends busy sweeps ends through
  obtain rfl : left = [] := leaves
  rwa [List.append_nil] at split

/-- Whatever the threads do, the links from the head lead through the nodes of all pushes so far, the
newest first and each once, and the links of these nodes stay. A push hands out the first mark of
its node, which owes the address from when the node is in front of the others until the debt is paid
or settled. A scan that reads the head looks at the marks of the nodes of that moment, the newest
first and each once, and has looked at all of them when it ends, unless it ends with a mark that it
has taken. Claims that have all found no node may push in any order. -/
theorem run_stacks_nodes (programs : List (List Request)) (schedule : List (Nat × Bool)) :
    let begun := ofPrograms programs
    let s := begun.run schedule
    let stack := begun.stack schedule
    ((∀ ns, Linked s.ledger.registry s.ledger.registry.head ns ↔ ns = stack) ∧ stack.Nodup ∧
      ∀ n, n ∈ stack ↔ n < s.nodes) ∧
    (∀ later,
      let now := (s.run later).ledger.registry
      Linked now now.head (s.stack later ++ stack) ∧
        ∀ (n : Nat) (node : Node), s.ledger.registry.nodes[n]? = some node →
          ∃ node', now.nodes[n]? = some node' ∧ node'.next = node.next) ∧
    (∀ i spurious d, s.pushed i spurious = some d →
      let next := s.step i spurious
      d.place.index = 0 ∧ d.place.node ∉ stack ∧
        Linked next.ledger.registry next.ledger.registry.head (d.place.node :: stack) ∧
        d ∈ next.unsettled ∧
        ∀ later, .paid d ∉ next.deeds later →
          (∀ outstanding, .settled d outstanding ∉ next.deeds later) →
          (next.run later).ledger.registry.read d.place = some (.owed d.addr)) ∧
    (∀ i depth activity, s.activity? i depth = some activity → activity.Begins → s.Acts i depth →
      ∀ spurious during,
      let read := s.step i spurious
      (∀ earlier, earlier <+: during → (read.run earlier).activity? i depth ≠ none) →
      let now := read.run during
      let places := stack.flatMap Place.ofNode
      places.Nodup ∧ read.looks i depth during <+: places ∧
        ∀ j fails, (now.step j fails).activity? i depth = none →
          (now.pushed j fails).isSome ∨ now.deed j fails = none →
          read.looks i depth during = places) := by
  intro begun s stack
  have orderly : s.Orderly := (Orderly.ofPrograms programs).run schedule
  -- Nodes are numbered as they are pushed, so the stack is all numbers, the newest first.
  have newest : stack = newestFirst s.nodes := stack_ofPrograms programs schedule
  have member (n : Nat) : n ∈ stack ↔ n < s.nodes := by
    rw [newest, newestFirst, List.mem_reverse, List.mem_range]
  have apart : stack.Nodup := newest ▸ List.nodup_reverse.mpr List.nodup_range
  have linked : Linked s.ledger.registry s.ledger.registry.head stack :=
    newest ▸ orderly.chained.linked
  refine ⟨⟨fun ns => ⟨fun there => there.unique linked, fun same => same ▸ linked⟩, apart, member⟩,
    fun later => ⟨?_, fun n node found => ?_⟩,
    fun i spurious d pushed => ?_, fun i depth activity busy begins acts spurious during => ?_⟩
  · have stacked : s.stack later ++ stack = newestFirst (s.run later).nodes := by
      rw [← stack_append, stack_ofPrograms, run_append]
    rw [stacked]
    exact (orderly.run later).chained.linked
  · exact orderly.chained.keeps_links (orderly.run later).chained
      (run_nodes_le later s orderly.sound) found
  · obtain ⟨place, nodes, unsettled, owes⟩ := step_pushed orderly pushed
    have front : newestFirst (s.step i spurious).nodes = d.place.node :: stack := by
      rw [nodes, newestFirst_succ, newest, place]
    refine ⟨by rw [place], ?_, front ▸ (orderly.step i spurious).2.chained.linked, unsettled, owes⟩
    rw [place, member]
    exact Nat.lt_irrefl _
  · intro read on now places
    have looks := run_looks orderly busy begins acts on
    rw [← newest] at looks
    exact ⟨Place.nodup_flatMap_ofNode apart, looks⟩

/-- Three claims have found no node. The first one fails to push, once for no reason and once because of
the second one. The third one fails twice, and pushes while a payment scans the nodes of the other
two. -/
theorem run_stacks_nodes_contended :
    let begun := ofPrograms [[.claim "a" 16], [.claim "b" 24], [.claim "c" 32], [.pay 24 [] []]]
    let fails : List (Nat × Bool) :=
      [(0, true), (1, false), (2, false), (0, false), (0, false), (2, false)]
    let race := [0, 1, 2, 0, 1, 2, 0, 1, 2].map (·, false) ++ fails ++ [(3, false)]
    let s := begun.run race
    let next := s.step 2 false
    let read := s.step 3 false
    let during := .replicate 3 (3, false) ++ [(2, false)] ++ .replicate 16 (3, false)
    begun.stack race = [1, 0] ∧ Linked s.ledger.registry s.ledger.registry.head [1, 0] ∧
      s.pushed 2 false = some ⟨⟨2, 0⟩, 32⟩ ∧
      (next.run during).ledger.registry.read ⟨2, 0⟩ = some (.owed 32) ∧
      Linked (read.run during).ledger.registry (read.run during).ledger.registry.head [2, 1, 0] ∧
      read.looks 3 0 during = [1, 0].flatMap Place.ofNode := by
  intro begun fails race s next read during
  obtain ⟨⟨linked, -⟩, later, pushes, scans⟩ := run_stacks_nodes
    [[.claim "a" 16], [.claim "b" 24], [.claim "c" 32], [.pay 24 [] []]] race
  have stack : begun.stack race = [1, 0] := by decide +kernel
  have grows : s.stack ((3, false) :: during) = [2] := by decide +kernel
  have pushed : s.pushed 2 false = some ⟨⟨2, 0⟩, 32⟩ := by decide +kernel
  have begins : (s.activity? 3 0).any (Activity.Begins ·) := by decide +kernel
  obtain ⟨activity, busy, begins⟩ := (Option.any_eq_true ..).mp begins
  obtain ⟨-, -, -, -, owes⟩ := pushes 2 false _ pushed
  obtain ⟨-, -, looks⟩ := scans 3 0 activity busy (of_decide_eq_true begins) (by decide +kernel)
    false during fun earlier start => by
      rw [← List.mem_inits] at start
      revert earlier
      decide +kernel
  have linked' := (later ((3, false) :: during)).1
  rw [stack] at linked' looks
  rw [grows, run_cons] at linked'
  -- With the names spelled out the goal is what the facts say, and nothing is run to compare them.
  dsimp only [read, next, s, begun]
  exact ⟨stack, (linked _).mpr stack.symm, pushed,
    owes during (by decide +kernel) (by decide +kernel), linked',
    looks 3 false (by decide +kernel) (.inr (by decide +kernel))⟩

end Session

end SharedCells.Registry
