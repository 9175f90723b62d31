import SharedCells.Proofs.Registry.Deeds

/-! How the claims of a session go on.

A claim counts from its look at the head until its debt is settled. Until the
debt is recorded it scans, and only the innermost level of a thread can be in
the middle of that: the levels below wait for callbacks of their payments. So
each step lets one scan of its thread go on at most. -/

set_option autoImplicit false

namespace SharedCells.Registry

/-- How many places a claim has not passed yet, if it has looked at the head and not recorded its debt
yet; the place that it has come to is one of them. -/
def Claim.left : Claim → Option Nat
  | .start | .recorded _ _ => none
  | .test p | .take p => some (p.rank + 1)
  | .grow | .link _ => some 0

def Activity.left : Activity → Option Nat
  | .claiming _ _ progress => progress.left
  | _ => none

namespace Thread

/-- The activity in progress on the innermost level. -/
def current (thread : Thread) : Option Activity := thread.head?.bind Level.activity

/-- The levels below the innermost one wait for their payments. -/
def Waits (thread : Thread) : Prop :=
  ∀ level ∈ thread.tail, ∃ payment, level.activity = some (.paying payment)

end Thread

namespace Session

/-- What thread `i` is in the middle of. -/
def current (s : Session) (i : Nat) : Option Activity := s.threads[i]?.bind Thread.current

/-- How many places the claim of thread `i` has not passed yet, if it has one that has looked at the
head and not recorded its debt yet. -/
def left (s : Session) (i : Nat) : Option Nat := (s.current i).bind Activity.left

/-- How many nodes there are. -/
def nodes (s : Session) : Nat := s.ledger.registry.nodes.length

/-- How many claims there are between the look at the head and the settlement of the debt. -/
def active (s : Session) : Nat :=
  s.activities.countP (fun activity => activity.left.isSome) + s.unsettled.length

end Session

/-- The place that a claim has come to is on a node. -/
def Claim.On (r : Registry) : Claim → Prop
  | .test p | .take p => p.Published r
  | _ => True

def Activity.On (r : Registry) : Activity → Prop
  | .claiming _ _ progress => progress.On r
  | _ => True

/-- What a step may do to the claim of its thread, besides its deed. -/
inductive Progress (r : Registry) : Option Nat → Option Deed → Option Nat → Prop where
  | rest {left : Option Nat} {deed : Option Deed} : (∀ d, deed ≠ some (.recorded d)) →
      Progress r left deed left
  | enter : Progress r none none (some (breadth * r.nodes.length))
  | pass {p : Place} {mark : Mark} : r.read p = some mark → mark ≠ .free →
      Progress r (some (p.rank + 1)) none (some p.rank)
  | take {p : Place} {addr : Addr} : r.read p = some .free →
      Progress r (some (p.rank + 1)) (some (.recorded ⟨p, addr⟩)) none
  | push {addr : Addr} :
      Progress r (some 0) (some (.recorded ⟨⟨r.nodes.length, 0⟩, addr⟩)) none

theorem Progress.still {r : Registry} {left : Option Nat} : Progress r left none left := .rest (by simp)

section Claims

variable {r : Registry} {p : Place} {claim : Claim} {name : String} {addr : Addr} {spurious : Bool}

theorem left_scan_first (chained : r.Chained) :
    (Claim.scan r.first).left = some (breadth * r.nodes.length) ∧ (Claim.scan r.first).On r := by
  cases first : r.first with
  | none =>
    rw [chained.first_eq_none first]
    exact ⟨rfl, trivial⟩
  | some q =>
    obtain ⟨published, rank⟩ := chained.rank_first first
    refine ⟨?_, published⟩
    rw [Nat.mul_comm, ← rank]
    rfl

theorem left_scan_after (chained : r.Chained) (published : p.Published r) :
    (Claim.scan (r.after p)).left = some p.rank ∧ (Claim.scan (r.after p)).On r := by
  cases after : r.after p with
  | none =>
    rw [chained.after_eq_none published after]
    exact ⟨rfl, trivial⟩
  | some q =>
    obtain ⟨published, rank⟩ := chained.rank_after published after
    refine ⟨?_, published⟩
    rw [← rank]
    rfl

theorem exists_mark (published : p.Published r) : ∃ mark, r.read p = some mark :=
  Option.isSome_iff_exists.mp (read_isSome_iff.mpr published)

theorem deed_of_scan {place : Option Place} (scans : claim.step addr spurious r = (.scan place, r)) :
    Activity.deed spurious r (.claiming name addr claim) = none := by
  simp only [Activity.deed, scans]
  cases place <;> rfl

/-- A claim leaves behind a place whose mark is taken. -/
theorem Claim.passes (chained : r.Chained) (published : p.Published r) (taken : r.read p ≠ some .free)
    (here : claim.left = some (p.rank + 1))
    (scans : claim.step addr spurious r = (.scan (r.after p), r)) :
    Progress r claim.left (Activity.deed spurious r (.claiming name addr claim))
        (claim.step addr spurious r).1.left ∧
      (claim.step addr spurious r).1.On (claim.step addr spurious r).2 := by
  obtain ⟨mark, read⟩ := exists_mark published
  obtain ⟨left, on⟩ := left_scan_after chained published
  rw [deed_of_scan scans, scans, here]
  dsimp only
  rw [left]
  exact ⟨.pass read fun free => taken (free ▸ read), on⟩

theorem Claim.step_progress (pending : claim.Pending) (chained : r.Chained) (on : claim.On r) :
    Progress r claim.left (Activity.deed spurious r (.claiming name addr claim))
        (claim.step addr spurious r).1.left ∧
      (claim.step addr spurious r).1.On (claim.step addr spurious r).2 := by
  cases claim with
  | start =>
    obtain ⟨left, on⟩ := left_scan_first chained
    rw [deed_of_scan rfl]
    exact ⟨left ▸ .enter, on⟩
  | test p =>
    by_cases free : r.read p = some .free
    · simp only [Activity.deed, step, if_pos free]
      exact ⟨.still, on⟩
    · exact Claim.passes chained on free rfl (by simp only [step, if_neg free])
  | take p =>
    by_cases free : r.read p = some .free
    · simp only [Activity.deed, step, replace, if_pos free]
      exact ⟨.take free, trivial⟩
    · exact Claim.passes chained on free rfl (by simp only [step, replace, if_neg free])
  | grow => exact ⟨.still, trivial⟩
  | link next =>
    by_cases won : r.head = next ∧ spurious = false
    · simp only [Activity.deed, step, if_pos won]
      exact ⟨.push, trivial⟩
    · simp only [Activity.deed, step, if_neg won]
      exact ⟨.still, trivial⟩
  | recorded p grown => exact pending.elim

end Claims

section Activities

variable {r r' : Registry} {ledger : Ledger} {rest : List Activity} {activity : Activity}
  {spurious : Bool}

theorem Activity.On.mono (on : activity.On r) (grows : r.nodes.length ≤ r'.nodes.length) :
    activity.On r' := by
  cases activity with
  | claiming name addr progress =>
    cases progress with
    | test p | take p => exact Nat.lt_of_lt_of_le on grows
    | start | grow | link | recorded => trivial
  | settling | paying => trivial

theorem Progress.idle {deed : Option Deed} {left left' : Option Nat} (before : left = none)
    (nothing : ∀ d, deed ≠ some (.recorded d)) (after : left' = none) : Progress r left deed left' := by
  subst before after
  exact .rest nothing

/-- After a step of an activity the innermost level is its own one, or a new one above. -/
theorem Level.advance_progress (sound : Sound ledger (activity :: rest))
    (chained : ledger.registry.Chained) (on : activity.On ledger.registry) (level : Level)
    (busy : level.activity = some activity) (spurious : Bool) :
    let next := level.advance spurious ledger activity
    let top := (next.2.2.getD next.2.1).activity
    Progress ledger.registry activity.left (activity.deed spurious ledger.registry)
        (top.bind Activity.left) ∧
      (∀ a ∈ top, a.On next.1.registry) ∧
      (next.2.2.isSome → ∃ payment, next.2.1.activity = some (.paying payment)) := by
  cases activity with
  | claiming name addr claim =>
    obtain ⟨progress, on⟩ := Claim.step_progress
      (sound.fit _ List.mem_cons_self).1 chained on
    simp only [advance]
    generalize claim.step addr spurious ledger.registry = next at progress on
    obtain ⟨next, registry⟩ := next
    cases next with
    | recorded p grown => exact ⟨progress, by simp [answer], by simp⟩
    | start | test | take | grow | link =>
      exact ⟨progress, by simpa [Activity.On] using on, by simp⟩
  | settling debt settle =>
    have nothing := Activity.deed_settling_ne_recorded debt settle spurious ledger.registry
    simp only [advance]
    split
    · exact ⟨.idle rfl nothing rfl, by simp [answer], by simp⟩
    · exact ⟨.idle rfl nothing rfl, by simp [answer], by simp⟩
    · exact ⟨.idle rfl nothing rfl, by simp [Activity.On], by simp⟩
  | paying payment =>
    have nothing := Activity.deed_paying_ne_recorded payment spurious ledger.registry
    simp only [advance]
    split
    · exact ⟨.idle rfl nothing rfl, by simp, fun _ => ⟨payment, busy⟩⟩
    · exact ⟨.idle rfl nothing rfl, by simp [answer], by simp⟩
    · exact ⟨.idle rfl nothing rfl, by simp [Activity.On], by simp⟩

theorem Level.start_progress (level : Level) (ledger : Ledger) (request : Request) (r : Registry) :
    let next := level.start ledger request
    next.2.activity.bind Activity.left = none ∧ ∀ a ∈ next.2.activity, a.On r := by
  unfold start
  cases request with
  | claim name addr =>
    dsimp only
    split
    · exact ⟨rfl, by simp [answer]⟩
    · exact ⟨rfl, by simp [Activity.On, Claim.On]⟩
  | settle name =>
    dsimp only
    split
    · exact ⟨rfl, by simp [answer]⟩
    · exact ⟨rfl, by simp [Activity.On]⟩
  | pay addr onRetain onRelease => exact ⟨rfl, by simp [Activity.On]⟩

theorem Level.resume_progress {level : Level} {payment : Paying}
    (busy : level.activity = some (.paying payment)) (r : Registry) (replies : List Reply) :
    ∃ payment', (level.resume r replies).activity = some (.paying payment') := by
  unfold resume
  rw [busy]
  dsimp only
  split
  · exact ⟨_, rfl⟩
  · exact ⟨payment, busy⟩

namespace Thread

variable {others : List Activity}

theorem step_progress {thread : Thread} (sound : Sound ledger (thread.activities ++ others))
    (chained : ledger.registry.Chained) (on : ∀ a ∈ thread.current, a.On ledger.registry)
    (waits : thread.Waits) (spurious : Bool) :
    let next := thread.step spurious ledger
    Progress ledger.registry (thread.current.bind Activity.left) (thread.deed spurious ledger)
        (next.2.current.bind Activity.left) ∧
      (∀ a ∈ next.2.current, a.On next.1.registry) ∧ next.2.Waits := by
  cases thread with
  | nil => exact ⟨.still, on, waits⟩
  | cons level below =>
    obtain ⟨todo, activity, replies⟩ := level
    cases activity with
    | some activity =>
      rw [activities_cons, List.append_assoc] at sound
      obtain ⟨progress, on', above⟩ := Level.advance_progress sound chained
        (on activity rfl) ⟨todo, some activity, replies⟩ rfl spurious
      dsimp only [step]
      generalize Level.advance spurious ledger ⟨todo, some activity, replies⟩ activity = next
        at progress on' above
      obtain ⟨ledger', level', top⟩ := next
      cases top with
      | none => exact ⟨progress, on', waits⟩
      | some top => exact ⟨progress, on', List.forall_mem_cons.mpr ⟨above rfl, waits⟩⟩
    | none =>
      cases todo with
      | cons request todo =>
        obtain ⟨left, on'⟩ := Level.start_progress ⟨todo, none, replies⟩ ledger request
          (Level.start ledger ⟨todo, none, replies⟩ request).1.registry
        exact ⟨.idle rfl (by simp [deed]) left, on', waits⟩
      | nil =>
        cases below with
        | nil => exact ⟨.still, on, waits⟩
        | cons caller rest =>
          -- The callback has ended, and the payment below it goes on.
          obtain ⟨⟨payment, busy⟩, waits⟩ := List.forall_mem_cons.mp waits
          obtain ⟨payment', resumed⟩ := Level.resume_progress busy ledger.registry replies
          refine ⟨.idle rfl (fun d => ?_) ?_, fun a member => ?_, waits⟩
          · simp only [deed, List.head?_cons, Option.bind_some, busy]
            exact Activity.returned_ne_recorded (.paying payment) d
          · simp only [step, current, List.head?_cons, Option.bind_some, resumed, Activity.left]
          · simp only [step, current, List.head?_cons, Option.bind_some, resumed,
              Option.mem_some_iff] at member
            subst member
            trivial

/-- There is one scan at most, that of the innermost level. -/
theorem Waits.countP_scans {thread : Thread} (waits : thread.Waits) :
    thread.activities.countP (fun activity => activity.left.isSome) =
      (thread.current.bind Activity.left).toList.length := by
  cases thread with
  | nil => rfl
  | cons level below =>
    have none : (activities below).countP (fun activity => activity.left.isSome) = 0 := by
      rw [List.countP_eq_zero]
      intro activity member
      obtain ⟨level, inside, busy⟩ := List.mem_filterMap.mp member
      obtain ⟨payment, paying⟩ := waits level inside
      rw [busy, Option.some.injEq] at paying
      subst paying
      exact Bool.false_ne_true
    rw [activities_cons, List.countP_append, none]
    simp only [current, List.head?_cons, Option.bind_some]
    cases level.activity with
    | none => rfl
    | some activity => cases left : activity.left <;> simp [left]

end Thread

end Activities

namespace Session

/-- What the steps of a session preserve, so that a scan goes on as it should. -/
structure Orderly (s : Session) : Prop where
  sound : Sound s.ledger s.activities
  chained : s.ledger.registry.Chained
  on : ∀ i, ∀ a ∈ s.current i, a.On s.ledger.registry
  waits : ∀ thread ∈ s.threads, thread.Waits

/-- What a step of thread `i` does to the claims. -/
structure Turned (i : Nat) (deed : Option Deed) (s s' : Session) : Prop where
  progress : Progress s.ledger.registry (s.left i) deed (s'.left i)
  others : ∀ j, j ≠ i → s'.left j = s.left j
  account : Account.Step s.account deed s'.account
  active : s'.active + (s.left i).toList.length + s.unsettled.length =
    s.active + (s'.left i).toList.length + s'.unsettled.length

/-- A node is pushed by a claim that has nothing left to scan. -/
theorem Turned.done_of_grown {s s' : Session} {i : Nat} {deed : Option Deed}
    (turned : Turned i deed s s') (grown : s.nodes < s'.nodes) : s.left i = some 0 := by
  have progress := turned.progress
  generalize s.left i = left at progress ⊢
  generalize s'.left i = left' at progress
  cases progress with
  | rest quiet => exact absurd (turned.account.nodes_of_quiet quiet) (Nat.ne_of_gt grown)
  | enter | pass => exact absurd (turned.account.nodes_of_quiet (by simp)) (Nat.ne_of_gt grown)
  | take read => exact absurd (turned.account.nodes_of_taken read) (Nat.ne_of_gt grown)
  | push => rfl

theorem current_ofPrograms (programs : List (List Request)) (i : Nat) :
    (ofPrograms programs).current i = none := by
  simp only [current, ofPrograms, List.getElem?_map]
  cases programs[i]? <;> rfl

theorem Orderly.ofPrograms (programs : List (List Request)) : Orderly (ofPrograms programs) where
  sound := ofPrograms_sound programs
  chained := .empty
  on i a member := by
    rw [current_ofPrograms] at member
    contradiction
  waits thread member := by
    obtain ⟨requests, -, rfl⟩ := List.mem_map.mp member
    exact nofun

variable {s : Session}

theorem current_step_of_ne {i j : Nat} (ne : j ≠ i) (spurious : Bool) :
    (s.step i spurious).current j = s.current j := by
  cases found : s.threads[i]? with
  | none => rw [step_of_no_thread found]
  | some thread =>
    rw [step_of_getElem? found, current, List.getElem?_set_ne ne.symm]
    rfl

theorem current_step_self {thread : Thread} {i : Nat} (found : s.threads[i]? = some thread)
    (spurious : Bool) :
    (s.step i spurious).current i = (thread.step spurious s.ledger).2.current := by
  obtain ⟨bound, -⟩ := List.getElem?_eq_some_iff.mp found
  rw [step_of_getElem? found, current, List.getElem?_set_self bound, Option.bind_some]

theorem Orderly.step (orderly : s.Orderly) (i : Nat) (spurious : Bool) :
    Turned i (s.deed i spurious) s (s.step i spurious) ∧ (s.step i spurious).Orderly := by
  obtain ⟨account, sound⟩ := step_does s orderly.sound i spurious
  cases found : s.threads[i]? with
  | none =>
    have nothing : s.deed i spurious = none := by simp only [deed, found, Option.bind_none]
    rw [step_of_no_thread found, nothing] at account ⊢
    exact ⟨⟨.still, fun _ _ => rfl, account, rfl⟩, orderly⟩
  | some thread =>
    obtain ⟨bound, here⟩ := List.getElem?_eq_some_iff.mp found
    have current : s.current i = thread.current := by rw [Session.current, found, Option.bind_some]
    have current' := current_step_self found spurious
    have deed : s.deed i spurious = thread.deed spurious s.ledger := by
      rw [Session.deed, found, Option.bind_some]
    have waits : thread.Waits := orderly.waits thread (List.mem_of_getElem? found)
    -- The activities are those of this thread and those of the others, before the step and after it.
    have before := (List.getElem_cons_eraseIdx_perm bound).symm.flatMap_right Thread.activities
    have after := (List.set_perm_cons_eraseIdx bound
      (thread.step spurious s.ledger).2).flatMap_right Thread.activities
    rw [here] at before
    obtain ⟨progress, on, waits'⟩ := Thread.step_progress (orderly.sound.perm before) orderly.chained
      (current ▸ orderly.on i) waits spurious
    refine ⟨⟨?_, fun j ne => ?_, account, ?_⟩, sound, account.chained orderly.chained, fun j => ?_, ?_⟩
    · rw [left, left, current, current', deed]
      exact progress
    · rw [left, current_step_of_ne ne, left]
    · have scans := before.countP_eq fun activity => activity.left.isSome
      have scans' := after.countP_eq fun activity => activity.left.isSome
      rw [List.flatMap_cons, List.countP_append, waits.countP_scans] at scans
      rw [List.flatMap_cons, List.countP_append, waits'.countP_scans] at scans'
      rw [active, active, left, left, current, current', activities, activities, scans,
        step_of_getElem? found, scans']
      omega
    · by_cases same : j = i
      · subst same
        rw [current', step_of_getElem? found]
        exact on
      · rw [current_step_of_ne same]
        exact fun a member => (orderly.on j a member).mono account.nodes_le
    · rw [step_of_getElem? found]
      intro other member
      rcases List.mem_or_eq_of_mem_set member with old | rfl
      · exact orderly.waits other old
      · exact waits'

end Session

end SharedCells.Registry
