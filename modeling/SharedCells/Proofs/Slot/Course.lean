import SharedCells.Proofs.Slot.Dealings

/-! The course of a call of a thread that runs alone.

A call goes on by its own steps. After a step that has put a level on the stack it
waits until the levels above it are closed; they may do anything meanwhile, except
that they leave alone what the call owns. A call returns when it is about to note
its outcome. -/

set_option autoImplicit false

namespace SharedCells.Slot

open Machine

/-- The call is about to note its outcome. -/
def Call.Returns (call : Call) : Prop := ∃ note code, call.code = .note note :: code

def Call.returns (call : Call) : Bool :=
  match call.code with
  | .note _ :: _ => true
  | _ => false

def Instruction.Notes : Instruction → Prop
  | .note _ => True
  | _ => False

theorem Call.not_returns {call : Call} {i : Instruction} {code : List Instruction}
    (head : call.code = i :: code) (quiet : ¬ i.Notes) : ¬ call.Returns := by
  rintro ⟨note, rest, same⟩
  obtain ⟨rfl, -⟩ := List.cons.inj (head.symm.trans same)
  exact quiet trivial

namespace Machine

/-- How many steps the call on a level of thread `i` takes; a step is not counted in which an exchange
may fail for no reason. -/
def ownSteps (m : Machine) (schedule : List (Nat × Choice)) (i depth : Nat) : Nat :=
  (m.moments schedule).countP fun moment => (moment.call? i depth).isSome && !moment.choice.spurious

/-- How many steps are taken by others than this call. -/
def otherSteps (m : Machine) (schedule : List (Nat × Choice)) (i depth : Nat) : Nat :=
  (m.moments schedule).countP fun moment => (moment.call? i depth).isNone

/-- The call has not returned at any moment before the end of the schedule. -/
def Unreturned (m : Machine) (schedule : List (Nat × Choice)) (i depth : Nat) : Prop :=
  ∀ moment ∈ m.moments schedule, ∀ call, moment.call? i depth = some call → ¬ call.Returns

variable {m m' : Machine} {i depth : Nat} {schedule later : List (Nat × Choice)}

theorem length_moments (sound : m.Sound) : (m.moments schedule).length = schedule.length := by
  induction schedule generalizing m with
  | nil => rfl
  | cons turn rest ih =>
    obtain ⟨j, choice⟩ := turn
    obtain ⟨next, stepped⟩ := step_ok sound j choice
    rw [moments_cons stepped, List.length_cons, List.length_cons, ih (step_sound sound stepped)]

theorem choice_of_moments (sound : m.Sound) {moment : Moment} (member : moment ∈ m.moments schedule) :
    (moment.thread, moment.choice) ∈ schedule := by
  induction schedule generalizing m with
  | nil => exact absurd member List.not_mem_nil
  | cons turn rest ih =>
    obtain ⟨j, choice⟩ := turn
    obtain ⟨next, stepped⟩ := step_ok sound j choice
    rw [moments_cons stepped] at member
    rcases List.mem_cons.mp member with rfl | later
    · exact List.mem_cons_self
    · exact List.mem_cons_of_mem _ (ih (step_sound sound stepped) later)

/-- That a call has not returned can be read off the steps. -/
theorem unreturned_of_all (quiet : (m.moments schedule).all fun moment =>
      (moment.call? i depth).all fun call => !call.returns) : m.Unreturned schedule i depth := by
  rintro moment member call acts ⟨note, rest, head⟩
  have never := List.all_eq_true.mp quiet moment member
  rw [acts, Option.all_some, Call.returns, head] at never
  contradiction

theorem ownSteps_append (ran : m.run schedule = .ok m') :
    m.ownSteps (schedule ++ later) i depth =
      m.ownSteps schedule i depth + m'.ownSteps later i depth := by
  rw [ownSteps, moments_append ran, List.countP_append]
  rfl

theorem otherSteps_append (ran : m.run schedule = .ok m') :
    m.otherSteps (schedule ++ later) i depth =
      m.otherSteps schedule i depth + m'.otherSteps later i depth := by
  rw [otherSteps, moments_append ran, List.countP_append]
  rfl

theorem Unreturned.append (before : m.Unreturned schedule i depth) (ran : m.run schedule = .ok m')
    (after : m'.Unreturned later i depth) : m.Unreturned (schedule ++ later) i depth := by
  intro moment member
  rw [moments_append ran] at member
  exact (List.mem_append.mp member).elim (before moment) (after moment)

theorem solo_cons (choice : Choice) (choices : List Choice) :
    solo (choice :: choices) = (0, choice) :: solo choices := rfl

theorem solo_append (choices more : List Choice) : solo (choices ++ more) = solo choices ++ solo more :=
  List.map_append

end Machine

/-- The only thread is in the middle of a call. -/
def stage (level : Level) (below : Thread) (w : World) (call : Call) : Machine :=
  ⟨w, [{ level with call := some call } :: below]⟩

/-- What every step of a thread that runs alone keeps. -/
structure Staged (level : Level) (below : Thread) (w : World) (call : Call) : Prop where
  sound : (stage level below w call).Sound
  lone : Thread.Lone w ({ level with call := some call } :: below)

/-- The call comes from one state to another before it returns. -/
structure Segment (level : Level) (below : Thread) (w : World) (call : Call) (choices : List Choice)
    (w' : World) (call' : Call) : Prop where
  ran : (stage level below w call).run (solo choices) = .ok (stage level below w' call')
  staged : Staged level below w' call'
  before : (stage level below w call).Unreturned (solo choices) 0 below.length

variable {level : Level} {below : Thread} {w w' w₁ : World} {call call' call₁ : Call} {turn : Turn}
  {i : Instruction} {code : List Instruction} {choice : Choice} {choices more later : List Choice}

theorem Segment.refl (staged : Staged level below w call) : Segment level below w call [] w call :=
  ⟨rfl, staged, nofun⟩

theorem Segment.trans (first : Segment level below w call choices w₁ call₁)
    (second : Segment level below w₁ call₁ more w' call') :
    Segment level below w call (choices ++ more) w' call' where
  ran := by rw [solo_append, run_append first.ran, second.ran]
  staged := second.staged
  before := by
    rw [solo_append]
    exact first.before.append first.ran second.before

theorem stage_acts {next : Machine} :
    Moment.call? ⟨stage level below w call, 0, choice, next⟩ 0 below.length = some call := by
  rw [Moment.call?, if_pos rfl]
  exact if_pos rfl

theorem Segment.rest (segment : Segment level below w call (choices ++ more) w' call')
    (first : Segment level below w call choices w₁ call₁) :
    Segment level below w₁ call₁ more w' call' where
  ran := by
    rw [← run_append first.ran, ← solo_append]
    exact segment.ran
  staged := segment.staged
  before moment member := segment.before moment (by
    rw [solo_append, moments_append first.ran]
    exact List.mem_append_right _ member)

/-- A call that has returned goes nowhere. -/
theorem Segment.of_returns (segment : Segment level below w call choices w' call')
    (staged : Staged level below w call) (returns : call.Returns) :
    choices = [] ∧ w' = w ∧ call' = call := by
  cases choices with
  | nil =>
    obtain ⟨rfl, threads⟩ := Machine.mk.inj (Except.ok.inj segment.ran)
    have top := (List.cons.inj (List.cons.inj threads).1).1
    exact ⟨rfl, rfl, (Option.some.inj (congrArg Level.call top)).symm⟩
  | cons choice rest =>
    obtain ⟨next, stepped⟩ := step_ok staged.sound 0 choice
    have member : ⟨stage level below w call, 0, choice, next⟩ ∈
        (stage level below w call).moments (solo (choice :: rest)) :=
      (moments_cons stepped).symm ▸ List.mem_cons_self
    exact absurd returns (segment.before _ member call stage_acts)

theorem Segment.stepped (segment : Segment level below w call [choice] w' call')
    (staged : Staged level below w call) :
    (stage level below w call).step 0 choice = .ok (stage level below w' call') := by
  obtain ⟨next, stepped⟩ := step_ok staged.sound 0 choice
  obtain rfl := Except.ok.inj ((run_cons stepped).symm.trans segment.ran)
  exact stepped

theorem Segment.objectId {ref : Ref} (segment : Segment level below w call [choice] w' call')
    (staged : Staged level below w call) (counts : w.Counts ref) : w'.objectId ref = w.objectId ref :=
  step_objectId staged.sound (segment.stepped staged) counts

namespace Staged

theorem tidy (staged : Staged level below w call) : call.Tidy :=
  staged.lone.tidy call (by rw [Thread.calls_cons_of_some rfl]; exact List.mem_cons_self)

theorem meets (staged : Staged level below w call) (head : call.code = i :: code) :
    i.Meets w.registry := by
  have meets := (Thread.meets_of_some rfl).mp staged.lone.meets
  rwa [Call.Meets, head] at meets

theorem step (staged : Staged level below w call) (head : call.code = i :: code)
    (choice : Choice) : ∃ inUse turn,
      Turn.run choice inUse { world := w, call := { call with code } } i = .ok turn ∧
      (stage level below w call).step 0 choice =
        .ok ⟨turn.world, [turn.above.toList ++ { level with call := some turn.call } :: below]⟩ ∧
      Machine.Sound ⟨turn.world, [turn.above.toList ++ { level with call := some turn.call } :: below]⟩ ∧
      Thread.Lone turn.world (turn.above.toList ++ { level with call := some turn.call } :: below) := by
  obtain ⟨next, stepped⟩ := step_ok staged.sound 0 choice
  obtain ⟨w', thread', moved, rfl⟩ := step_only stepped
  let thread : Thread := { level with call := some call } :: below
  have carried := moved.symm.trans (staged.lone.step_instruction rfl head)
  cases ran : Turn.run choice (fun slot => thread.uses slot || thread.uses slot)
      { world := w, call := { call with code } } i with
  | error fault =>
    rw [ran] at carried
    contradiction
  | ok turn =>
    rw [ran] at carried
    obtain ⟨rfl, rfl⟩ := Prod.mk.inj (Except.ok.inj carried)
    exact ⟨_, turn, ran, stepped, step_sound staged.sound stepped, staged.lone.instruction rfl head ran⟩

end Staged

theorem staged_of_run {program : List Command} {before : List Choice}
    (solitary : ∀ command ∈ program, command.Solitary)
    (reached : (ofPrograms [program]).run (solo before) = .ok (stage level below w call)) :
    Staged level below w call := by
  obtain ⟨sound, thread, only, lone⟩ := lone_of_run solitary reached
  obtain rfl := (List.cons.inj only).1
  exact ⟨sound, lone⟩

theorem segment_of_run {program : List Command} {before : List Choice}
    (solitary : ∀ command ∈ program, command.Solitary)
    (reached : (ofPrograms [program]).run (solo before) = .ok (stage level below w call))
    (ran : (stage level below w call).run (solo choices) = .ok (stage level below w' call'))
    (quiet : (stage level below w call).Unreturned (solo choices) 0 below.length) :
    Segment level below w call choices w' call' := by
  have ends : (ofPrograms [program]).run (solo (before ++ choices)) = .ok (stage level below w' call') := by
    rw [solo_append, run_append reached, ran]
  exact ⟨ran, staged_of_run solitary ends, quiet⟩

theorem Level.close_events (level : Level) (w : World) (call : Call) :
    ∃ events, (level.close w call).2 = { call with events } := by
  unfold Level.close
  cases level.role <;> exact ⟨_, rfl⟩

/-- A step of a level above a call leaves the call as it is, but for what is noted about it. The level
next above the call stays what it is until it is closed. -/
theorem Thread.step_above {top : Level} {upper thread' : Thread} {others : SlotId → Bool}
    (lone : Thread.Lone w (top :: upper ++ { level with call := some call } :: below))
    (stacked : Thread.Stacked (top :: upper ++ { level with call := some call } :: below))
    (ran : Thread.step choice others w (top :: upper ++ { level with call := some call } :: below) =
      .ok (w', thread')) :
    ∃ upper' events, thread' = upper' ++ { level with call := some { call with events } } :: below ∧
      (upper' ≠ [] → (upper'.map Level.role).getLast? = ((top :: upper).map Level.role).getLast?) := by
  rw [List.cons_append] at lone stacked ran
  have move := Thread.step_cases stacked ran
  generalize same : upper ++ { level with call := some call } :: below = lower at *
  cases move with
  | rest => exact ⟨top :: upper, call.events, by rw [← same]; rfl, fun _ => rfl⟩
  | @instruction _ _ _ _ _ turn =>
    refine ⟨turn.above.toList ++ { top with call := some turn.call } :: upper, call.events, ?_,
      fun _ => ?_⟩
    · rw [← same, List.append_assoc]
      rfl
    · rw [List.map_append]
      exact List.getLast?_append_of_ne_nil _ (List.cons_ne_nil _ _)
  | block busy head turned recorded => exact absurd ran (lone.no_block busy head turned recorded)
  | @scope _ _ c =>
    exact ⟨{ top with call := some { c with code := c.registers.owned.map .release } } :: upper,
      call.events, by rw [← same]; rfl, fun _ => rfl⟩
  | finish record =>
    exact ⟨{ top with call := none, records := record :: top.records } :: upper, call.events,
      by rw [← same]; rfl, fun _ => rfl⟩
  | @start _ _ command todo =>
    exact ⟨{ top with todo, call := some _ } :: upper, call.events, by rw [← same]; rfl, fun _ => rfl⟩
  | @close _ caller rest waiting _ _ waits =>
    cases upper with
    | nil =>
      obtain ⟨rfl, rfl⟩ := List.cons.inj same
      obtain rfl := Option.some.inj waits
      obtain ⟨events, told⟩ := top.close_events w call
      exact ⟨[], events, by rw [told]; rfl, fun above => absurd rfl above⟩
    | cons second upper =>
      obtain ⟨rfl, rfl⟩ := List.cons.inj same
      exact ⟨{ second with call := some (top.close w waiting).2 } :: upper, call.events, rfl,
        fun _ => List.getLast?_cons_cons.symm⟩

/-- The only thread is in the middle of a call that waits for the levels above it. -/
def waiting (upper : Thread) (level : Level) (below : Thread) (w : World) (call : Call) : Machine :=
  ⟨w, [upper ++ { level with call := some call } :: below]⟩

/-- The levels above a call are closed. The call is as it was, but for what is noted about it, and owns
the same objects. -/
structure Waited (upper : Thread) (level : Level) (below : Thread) (w : World) (call : Call)
    (choices : List Choice) (w' : World) (call' : Call) : Prop where
  ran : (waiting upper level below w call).run (solo choices) = .ok (stage level below w' call')
  staged : Staged level below w' call'
  idle : ∀ moment ∈ (waiting upper level below w call).moments (solo choices),
    moment.call? 0 below.length = none
  told : ∃ events, call' = { call with events }
  names : ∀ register, w'.objectId (call.registers.get register) =
    w.objectId (call.registers.get register)
  quiet : upper = [] → choices = [] ∧ w' = w ∧ call' = call

theorem innermost_above {upper : Thread} (above : upper ≠ []) :
    Thread.innermost (upper ++ { level with call := some call } :: below) below.length = none := by
  cases upper with
  | nil => exact absurd rfl above
  | cons top upper =>
    have lower : below.length < (upper ++ { level with call := some call } :: below).length := by
      rw [List.length_append, List.length_cons]
      omega
    exact Thread.innermost_of_lt lower

theorem waiting_idle {upper : Thread} (above : upper ≠ []) {next : Machine} :
    Moment.call? ⟨waiting upper level below w call, 0, choice, next⟩ 0 below.length = none := by
  rw [Moment.call?, if_pos rfl]
  exact innermost_above above

theorem mem_waiting {upper : Thread} : call ∈ (waiting upper level below w call).calls := by
  have member : call ∈ Thread.calls (upper ++ { level with call := some call } :: below) :=
    List.mem_filterMap.mpr ⟨_, List.mem_append_right _ List.mem_cons_self, rfl⟩
  exact List.mem_flatMap.mpr ⟨_, List.mem_cons_self, member⟩

theorem mem_stage : call ∈ (stage level below w call).calls := by
  have waits : call ∈ (waiting [] level below w call).calls := mem_waiting
  exact waits

theorem Staged.counts (staged : Staged level below w call) (register : Register) :
    w.Counts (call.registers.get register) :=
  staged.sound.counted.counts_register mem_stage register

theorem Staged.bound {slot : SlotId} (staged : Staged level below w call) (acts : call.slot = some slot) :
    slot < w.words.length := (staged.sound.counted.sane call mem_stage).slot slot acts

theorem Segment.of_waited {upper : Thread} (unreturned : ¬ call.Returns)
    (steps : (stage level below w call).step 0 choice = .ok (waiting upper level below w₁ call₁))
    (waited : Waited upper level below w₁ call₁ choices w' call') :
    Segment level below w call (choice :: choices) w' call' := by
  refine ⟨(run_cons steps).trans waited.ran, waited.staged, fun moment member c acts => ?_⟩
  rw [solo_cons, moments_cons steps] at member
  rcases List.mem_cons.mp member with rfl | later
  · obtain rfl := Option.some.inj (stage_acts.symm.trans acts)
    exact unreturned
  · rw [waited.idle moment later] at acts
    contradiction

/-- A call waits for the levels above it until they are closed, or until the end. -/
theorem wait {upper : Thread} (choices : List Choice)
    (sound : (waiting upper level below w call).Sound)
    (lone : Thread.Lone w (upper ++ { level with call := some call } :: below)) :
    (∃ done rest w' call', choices = done ++ rest ∧
      Waited upper level below w call done w' call') ∨
    (upper ≠ [] ∧ (∀ moment ∈ (waiting upper level below w call).moments (solo choices),
        moment.call? 0 below.length = none) ∧
      ∀ m', (waiting upper level below w call).run (solo choices) = .ok m' →
        ∃ thread, m'.threads = [thread] ∧ thread.innermost below.length = none) := by
  induction choices generalizing w upper call with
  | nil =>
    by_cases above : upper = []
    · subst above
      exact .inl ⟨[], [], w, call, rfl, rfl, ⟨sound, lone⟩, nofun, ⟨call.events, rfl⟩, fun _ => rfl,
        fun _ => ⟨rfl, rfl, rfl⟩⟩
    · refine .inr ⟨above, nofun, fun m' ran => ?_⟩
      obtain rfl := Except.ok.inj ran
      exact ⟨_, rfl, innermost_above above⟩
  | cons choice rest ih =>
    cases upper with
    | nil =>
      exact .inl ⟨[], choice :: rest, w, call, rfl, rfl, ⟨sound, lone⟩, nofun, ⟨call.events, rfl⟩,
        fun _ => rfl, fun _ => ⟨rfl, rfl, rfl⟩⟩
    | cons top upper =>
      obtain ⟨next, stepped⟩ := step_ok sound 0 choice
      obtain ⟨w', thread', moved, rfl⟩ := step_only stepped
      have stacked := sound.stacked _ List.mem_cons_self
      -- What stands above the call goes its own way, and the call keeps its place and its registers.
      obtain ⟨upper', events, rfl, -⟩ := Thread.step_above lone stacked moved
      have idle : Moment.call? ⟨waiting (top :: upper) level below w call, 0, choice,
          waiting upper' level below w' { call with events }⟩ 0 below.length = none :=
        waiting_idle (List.cons_ne_nil top upper)
      have member : call ∈ (waiting (top :: upper) level below w call).calls := mem_waiting
      have names (register : Register) : w'.objectId (call.registers.get register) =
          w.objectId (call.registers.get register) :=
        step_objectId sound stepped (sound.counted.counts_register member register)
      rcases ih (step_sound sound stepped) (lone.step stacked moved) with
        ⟨done, rest, w'', call', rfl, waited⟩ | ⟨-, still, last⟩
      · refine .inl ⟨choice :: done, rest, w'', call', rfl, ?_⟩
        obtain ⟨events', told⟩ := waited.told
        refine ⟨?_, waited.staged, ?_, ⟨events', told⟩, fun register => ?_, nofun⟩
        · exact (run_cons stepped).trans waited.ran
        · intro moment there
          rw [solo_cons, moments_cons stepped] at there
          rcases List.mem_cons.mp there with rfl | later
          · exact idle
          · exact waited.idle moment later
        · exact (waited.names register).trans (names register)
      · refine .inr ⟨List.cons_ne_nil top upper, fun moment there => ?_, fun m' ran => last m' ?_⟩
        · rw [solo_cons, moments_cons stepped] at there
          rcases List.mem_cons.mp there with rfl | later
          · exact idle
          · exact still moment later
        · exact (run_cons stepped).symm.trans ran

/-- The call comes to the goal after so many of its own steps at most, unless the choices end before.
The goal is told by which choices it is reached and what the call does meanwhile. If the call is left
alone, all steps are its own. -/
def Comes (level : Level) (below : Thread) (bound : Nat) (alone : Prop) (later : List Choice)
    (goal : List Choice → List Dealing → World → Call → Prop) (w : World) (call : Call) : Prop :=
  (∃ done rest w' call', later = done ++ rest ∧ Segment level below w call done w' call' ∧
    (stage level below w call).ownSteps (solo done) 0 below.length ≤ bound ∧
    (alone → (stage level below w call).otherSteps (solo done) 0 below.length = 0) ∧
    goal done ((stage level below w call).dealings (solo done) 0 below.length) w' call') ∨
  ((stage level below w call).ownSteps (solo later) 0 below.length ≤ bound ∧
    (alone → (stage level below w call).otherSteps (solo later) 0 below.length = 0) ∧
    (stage level below w call).Unreturned (solo later) 0 below.length ∧
    ∀ m', (stage level below w call).run (solo later) = .ok m' → ∃ thread, m'.threads = [thread] ∧
      ∀ last, thread.innermost below.length = some last → ¬ last.Returns)

namespace Comes

variable {bound bound' : Nat} {alone alone' : Prop}
  {goal goal' : List Choice → List Dealing → World → Call → Prop}

theorem here (staged : Staged level below w call) (there : goal [] [] w call) :
    Comes level below bound alone later goal w call :=
  .inl ⟨[], later, w, call, rfl, .refl staged, Nat.zero_le _, fun _ => rfl, there⟩

theorem mono (comes : Comes level below bound alone later goal w call) (le : bound ≤ bound')
    (left : alone' → alone) (follows : ∀ done dealings w' call', goal done dealings w' call' →
      goal' done dealings w' call') : Comes level below bound' alone' later goal' w call := by
  rcases comes with ⟨done, rest, w', call', same, segment, own, idle, there⟩ | ⟨own, idle, unreturned⟩
  · exact .inl ⟨done, rest, w', call', same, segment, own.trans le, idle ∘ left, follows _ _ _ _ there⟩
  · exact .inr ⟨own.trans le, idle ∘ left, unreturned⟩

theorem imp (comes : Comes level below bound alone later goal w call)
    (follows : ∀ done dealings w' call', goal done dealings w' call' →
      goal' done dealings w' call') : Comes level below bound alone later goal' w call :=
  comes.mono (Nat.le_refl _) id follows

theorem within (comes : Comes level below bound alone later goal w call) (le : bound ≤ bound') :
    Comes level below bound' alone later goal w call :=
  comes.mono le id fun _ _ _ _ there => there

theorem record (comes : Comes level below bound alone later goal w call) :
    Comes level below bound alone later (fun done dealings w' call' =>
      goal done dealings w' call' ∧ Segment level below w call done w' call' ∧
        dealings = (stage level below w call).dealings (solo done) 0 below.length) w call := by
  rcases comes with ⟨done, rest, w', call', same, segment, own, idle, there⟩ | still
  · exact .inl ⟨done, rest, w', call', same, segment, own, idle, there, segment, rfl⟩
  · exact .inr still

/-- The goal lies on the way of a call that returns. -/
theorem of_returns (comes : Comes level below bound alone choices goal w call)
    (segment : Segment level below w call choices w' call') (returns : call'.Returns) :
    ∃ done rest w₁ call₁, choices = done ++ rest ∧ Segment level below w call done w₁ call₁ ∧
      goal done ((stage level below w call).dealings (solo done) 0 below.length) w₁ call₁ ∧
      Segment level below w₁ call₁ rest w' call' := by
  rcases comes with ⟨done, rest, w₁, call₁, rfl, first, -, -, there⟩ | ⟨-, -, -, last⟩
  · exact ⟨done, rest, w₁, call₁, rfl, first, there, segment.rest first⟩
  · obtain ⟨thread, only, never⟩ := last _ segment.ran
    obtain rfl := (List.cons.inj only).1
    exact absurd returns (never call' (if_pos rfl))

/-- A call that is left alone comes to its goal if it is given enough choices. -/
theorem reach (comes : Comes level below bound True (List.replicate (bound + 1) {}) goal w call)
    (staged : Staged level below w call) : ∃ done w' call', Segment level below w call done w' call' ∧
      (stage level below w call).otherSteps (solo done) 0 below.length = 0 ∧
      goal done ((stage level below w call).dealings (solo done) 0 below.length) w' call' := by
  rcases comes with ⟨done, rest, w', call', -, segment, -, idle, there⟩ | ⟨own, idle, -, -⟩
  · exact ⟨done, w', call', segment, idle trivial, there⟩
  · -- All steps would be the call's own, and there are too many of them.
    have all : (stage level below w call).ownSteps (solo (List.replicate (bound + 1) {})) 0
        below.length = (solo (List.replicate (bound + 1) {})).length := by
      rw [← length_moments staged.sound]
      refine List.countP_eq_length.mpr fun moment member => ?_
      have acts := List.countP_eq_zero.mp (idle trivial) moment member
      obtain ⟨choice, chosen, same⟩ := List.mem_map.mp (choice_of_moments staged.sound member)
      rw [Bool.not_eq_true, Option.isNone_eq_false_iff] at acts
      rw [← (Prod.mk.inj same).2, List.eq_of_mem_replicate chosen, acts]
      rfl
    rw [all, solo, List.length_map, List.length_replicate] at own
    omega

/-- The call goes on from where it has come to. -/
theorem after (segment : Segment level below w call choices w₁ call₁)
    (own : (stage level below w call).ownSteps (solo choices) 0 below.length ≤ bound')
    (idle : alone → (stage level below w call).otherSteps (solo choices) 0 below.length = 0)
    (next : Comes level below bound alone more (fun done dealings => goal (choices ++ done)
      ((stage level below w call).dealings (solo choices) 0 below.length ++ dealings)) w₁ call₁) :
    Comes level below (bound + bound') alone (choices ++ more) goal w call := by
  rcases next with ⟨done, rest, w', call', rfl, onward, own', idle', there⟩ |
    ⟨own', idle', unreturned, last⟩
  · refine .inl ⟨choices ++ done, rest, w', call', (List.append_assoc _ _ _).symm,
      segment.trans onward, ?_, fun left => ?_, ?_⟩
    · rw [solo_append, ownSteps_append segment.ran]
      omega
    · rw [solo_append, otherSteps_append segment.ran, idle left, idle' left]
    · rwa [solo_append, dealings_append segment.ran]
  · refine .inr ⟨?_, fun left => ?_, ?_, fun m' ran => last m' ?_⟩
    · rw [solo_append, ownSteps_append segment.ran]
      omega
    · rw [solo_append, otherSteps_append segment.ran, idle left, idle' left]
    · rw [solo_append]
      exact segment.before.append segment.ran unreturned
    · rw [solo_append, run_append segment.ran] at ran
      exact ran

theorem bind (comes : Comes level below bound' alone later goal w call)
    (next : ∀ done rest dealings w₁ call₁, later = done ++ rest →
      Segment level below w call done w₁ call₁ → goal done dealings w₁ call₁ →
      Comes level below bound alone rest
        (fun more dealings' => goal' (done ++ more) (dealings ++ dealings')) w₁ call₁) :
    Comes level below (bound + bound') alone later goal' w call := by
  rcases comes with ⟨done, rest, w₁, call₁, rfl, segment, own, idle, there⟩ | ⟨own, idle, unreturned⟩
  · exact after segment own idle (next done rest _ w₁ call₁ rfl segment there)
  · exact .inr ⟨by omega, idle, unreturned⟩

end Comes

section Step

variable {bound : Nat} {alone : Prop} {goal : List Choice → List Dealing → World → Call → Prop}

theorem counts_of_idle {m : Machine} {depth : Nat} {schedule : List (Nat × Choice)}
    (idle : ∀ moment ∈ m.moments schedule, moment.call? 0 depth = none) :
    m.ownSteps schedule 0 depth = 0 ∧ m.dealings schedule 0 depth = [] := by
  refine ⟨List.countP_eq_zero.mpr fun moment member => ?_, ?_⟩
  · simp [idle moment member]
  · exact List.flatMap_eq_nil_iff.mpr fun moment member => Moment.dealings_of_waits (idle moment member)

theorem Comes.step (staged : Staged level below w call) (head : call.code = i :: code)
    (quiet : ¬ i.Notes)
    (left : ∀ choice inUse turn,
      Turn.run choice inUse { world := w, call := { call with code } } i = .ok turn →
      (waiting turn.above.toList level below turn.world turn.call).Sound → alone → turn.above = none)
    (next : ∀ choice inUse turn done rest w' call', later = choice :: done ++ rest →
      Turn.run choice inUse { world := w, call := { call with code } } i = .ok turn →
      (waiting turn.above.toList level below turn.world turn.call).Sound →
      Waited turn.above.toList level below turn.world turn.call done w' call' →
      Segment level below w call (choice :: done) w' call' →
      Comes level below (if choice.spurious then bound + 1 else bound) alone rest
        (fun more dealings => goal (choice :: done ++ more)
          (i.dealings choice { world := w, call := { call with code } } ++ dealings)) w' call') :
    Comes level below (bound + 1) alone later goal w call := by
  have unreturned := Call.not_returns head quiet
  cases later with
  | nil =>
    refine .inr ⟨Nat.zero_le _, fun _ => rfl, nofun, fun m' ran => ?_⟩
    obtain rfl := Except.ok.inj ran
    refine ⟨_, rfl, fun last top => ?_⟩
    rw [Thread.innermost, if_pos rfl] at top
    obtain rfl := Option.some.inj top
    exact unreturned
  | cons choice later =>
    obtain ⟨inUse, turn, ran, stepped, sound, lone⟩ := staged.step head choice
    have waits : (stage level below w call).step 0 choice =
        .ok (waiting turn.above.toList level below turn.world turn.call) := stepped
    have spent : (if choice.spurious then bound + 1 else bound) + (if choice.spurious then 0 else 1) =
        bound + 1 := by
      split <;> omega
    have own {schedule : List (Nat × Choice)} :
        (stage level below w call).ownSteps ((0, choice) :: schedule) 0 below.length =
          (waiting turn.above.toList level below turn.world turn.call).ownSteps schedule 0 below.length
            + if choice.spurious then 0 else 1 := by
      rw [ownSteps, moments_cons waits, List.countP_cons, stage_acts]
      cases choice.spurious <;> rfl
    have first : ∀ moment : Moment, moment = ⟨stage level below w call, 0, choice,
        waiting turn.above.toList level below turn.world turn.call⟩ → ∀ c,
        moment.call? 0 below.length = some c → ¬ c.Returns := by
      rintro moment rfl c acts
      obtain rfl := Option.some.inj (stage_acts.symm.trans acts)
      exact unreturned
    -- Either the call goes on at some later step, or what the step put above it is never done.
    rcases wait later sound lone with ⟨done, rest, w', call', rfl, waited⟩ |
      ⟨above, idle, last⟩
    · obtain ⟨noSteps, nothing⟩ := counts_of_idle waited.idle
      have segment : Segment level below w call (choice :: done) w' call' :=
        .of_waited unreturned waits waited
      have dealt : (stage level below w call).dealings (solo (choice :: done)) 0 below.length =
          i.dealings choice { world := w, call := { call with code } } := by
        rw [solo_cons, Machine.dealings, moments_cons waits, List.flatMap_cons,
          Moment.dealings_of_acts stage_acts head]
        exact (congrArg _ nothing).trans (List.append_nil _)
      have waste (alone : turn.above = none) :
          (stage level below w call).otherSteps (solo (choice :: done)) 0 below.length = 0 := by
        obtain ⟨rfl, -⟩ := waited.quiet (by rw [alone]; rfl)
        rw [solo_cons, otherSteps, moments_cons waits, List.countP_cons, stage_acts]
        rfl
      have onward := next choice inUse turn done rest w' call' rfl ran sound waited segment
      rw [← spent]
      refine Comes.after segment ?_ (waste ∘ left choice inUse turn ran sound) ?_
      · rw [solo_cons, own, noSteps, Nat.zero_add]
      · rw [dealt]
        exact onward
    · obtain ⟨noSteps, -⟩ := counts_of_idle idle
      refine .inr ⟨?_, fun alone => ?_, fun moment member c acts => ?_, fun m' ran => ?_⟩
      · rw [solo_cons, own, noSteps]
        split <;> omega
      · exact absurd (by rw [left choice inUse turn ran sound alone]; rfl) above
      · rw [solo_cons, moments_cons waits] at member
        rcases List.mem_cons.mp member with here | later
        · exact first moment here c acts
        · rw [idle moment later] at acts
          contradiction
      · obtain ⟨thread, same, top⟩ := last m' ((run_cons waits).symm.trans ran)
        refine ⟨thread, same, fun c there => ?_⟩
        rw [top] at there
        contradiction

/-- A step that puts no level on the stack. -/
theorem Comes.goes (staged : Staged level below w call) (head : call.code = i :: code)
    (quiet : ¬ i.Notes)
    (flat : ∀ choice inUse turn,
      Turn.run choice inUse { world := w, call := { call with code } } i = .ok turn →
      turn.above = none)
    (onward : ∀ choice inUse turn rest, later = choice :: rest →
      Turn.run choice inUse { world := w, call := { call with code } } i = .ok turn →
      Segment level below w call [choice] turn.world turn.call →
      Comes level below bound alone rest (fun more dealings => goal (choice :: more)
        (i.dealings choice { world := w, call := { call with code } } ++ dealings))
        turn.world turn.call) :
    Comes level below (bound + 1) alone later goal w call := by
  refine Comes.step staged head quiet (fun choice inUse turn ran _ _ => flat choice inUse turn ran)
    fun choice inUse turn done rest w₁ call₁ same ran _ waited segment => ?_
  obtain ⟨rfl, rfl, rfl⟩ := waited.quiet (by rw [flat choice inUse turn ran]; rfl)
  refine (onward choice inUse turn rest same ran segment).within ?_
  split <;> omega

/-- A step that puts no level on the stack, and that comes out the same whatever is chosen. -/
theorem Comes.next (staged : Staged level below w call) (head : call.code = i :: code)
    (quiet : ¬ i.Notes) (w' : World) (call' : Call) (dealt : List Dealing)
    (goes : ∀ choice inUse, Turn.Goes choice inUse { world := w, call := { call with code } } i
      (.ok { world := w', call := call' }))
    (deals : ∀ choice, i.dealings choice { world := w, call := { call with code } } = dealt)
    (onward : ∀ choice rest, later = choice :: rest → Segment level below w call [choice] w' call' →
      Comes level below bound alone rest
        (fun more dealings => goal (choice :: more) (dealt ++ dealings)) w' call') :
    Comes level below (bound + 1) alone later goal w call := by
  have only {choice : Choice} {inUse : SlotId → Bool} {turn : Turn}
      (ran : Turn.run choice inUse { world := w, call := { call with code } } i = .ok turn) :
      turn = { world := w', call := call' } := Turn.eq_of_goes ran (goes choice inUse)
  refine Comes.goes staged head quiet (fun choice inUse turn ran => by rw [only ran])
    fun choice inUse turn rest same ran segment => ?_
  obtain rfl := only ran
  rw [deals]
  exact onward choice rest same segment

theorem Comes.gives_way (staged : Staged level below w call) (head : call.code = i :: code)
    (quiet : ¬ i.Notes) (new : List Instruction) (dealt : List Dealing)
    (gives : ∀ choice inUse,
      Turn.GivesWay choice inUse { world := w, call := { call with code } } i new)
    (deals : ∀ choice, i.dealings choice { world := w, call := { call with code } } = dealt)
    (onward : ∀ choice rest, later = choice :: rest →
      Segment level below w call [choice] w { call with code := new ++ code } →
      Comes level below bound alone rest
        (fun more dealings => goal (choice :: more) (dealt ++ dealings)) w { call with code := new ++ code }) :
    Comes level below (bound + 1) alone later goal w call :=
  .next staged head quiet w { call with code := new ++ code } dealt
    (fun choice inUse => .gives_way (gives choice inUse)) deals onward

end Step

end SharedCells.Slot
