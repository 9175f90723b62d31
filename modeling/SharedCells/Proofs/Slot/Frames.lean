import SharedCells.Proofs.Slot.Safety
import SharedCells.Proofs.Slot.Stores

/-! A call goes on by its own steps only.

A call is found again by its thread and by the number of the level it is on,
counted from the outermost one. Steps of other threads and of the levels above
it leave it as it is, but for what is noted about it; they also leave alone the
objects that it owns. -/

set_option autoImplicit false

namespace SharedCells.Slot

/-- Two calls that differ at most in what is noted about them. -/
structure Call.Alike (call call' : Call) : Prop where
  code : call'.code = call.code
  slot : call'.slot = call.slot
  registers : call'.registers = call.registers
  exchanged : call'.exchanged = call.exchanged
  outcome : call'.outcome = call.outcome

theorem Call.Alike.refl (call : Call) : call.Alike call := ⟨rfl, rfl, rfl, rfl, rfl⟩

theorem Level.close_alike (level : Level) (w : World) (call : Call) :
    call.Alike (level.close w call).2 := by
  unfold Level.close
  cases level.role <;> exact ⟨rfl, rfl, rfl, rfl, rfl⟩

namespace Thread

/-- The call in progress on a level. -/
def callAt (thread : Thread) (depth : Nat) : Option Call := thread.reverse[depth]?.bind Level.call

/-- The call on a level if nothing is above that level. -/
def innermost (thread : Thread) (depth : Nat) : Option Call :=
  match thread with
  | [] => none
  | level :: below => if below.length = depth then level.call else none

variable {choice : Choice} {inUse : SlotId → Bool} {w w' : World} {thread thread' below : Thread}
  {level : Level} {depth : Nat} {call : Call}

theorem callAt_length : callAt (level :: below) below.length = level.call := by
  rw [callAt, List.reverse_cons, ← List.length_reverse, List.getElem?_concat_length]
  rfl

theorem callAt_of_lt (lower : depth < below.length) :
    callAt (level :: below) depth = callAt below depth := by
  rw [callAt, callAt, List.reverse_cons, List.getElem?_append_left (by simpa using lower)]

theorem callAt_lt (there : thread.callAt depth = some call) : depth < thread.length := by
  obtain ⟨level, found, -⟩ := Option.bind_eq_some_iff.mp there
  simpa using (List.getElem?_eq_some_iff.mp found).1

theorem callAt_of_innermost (top : thread.innermost depth = some call) :
    thread.callAt depth = some call := by
  cases thread with
  | nil => exact absurd top nofun
  | cons level below =>
    unfold innermost at top
    dsimp only at top
    split at top
    · next same => rw [← same, callAt_length, top]
    · contradiction

theorem mem_calls_of_callAt (there : thread.callAt depth = some call) : call ∈ thread.calls := by
  obtain ⟨level, found, busy⟩ := Option.bind_eq_some_iff.mp there
  exact List.mem_filterMap.mpr ⟨level, List.mem_reverse.mp (List.mem_of_getElem? found), busy⟩

theorem callAt_unwait (thread : Thread) (depth : Nat) :
    (unwait thread).callAt depth =
      (thread.callAt depth).map fun call => { call with during := none } := by
  rw [callAt, callAt, unwait, ← List.map_reverse, List.getElem?_map]
  cases thread.reverse[depth]? <;> rfl

theorem innermost_of_lt (lower : depth < below.length) : innermost (level :: below) depth = none :=
  if_neg (Nat.ne_of_gt lower)

/-- A step carries on the call on the innermost level by its next instruction, and leaves the
others alike. -/
theorem Move.callAt (move : Move choice inUse w thread w' thread')
    (there : thread.callAt depth = some call) :
    (thread.innermost depth = some call ∧ (call.code = [] → w' = w) ∧
        ∀ i code, call.code = i :: code → ∃ turn call',
        Turn.run choice inUse { world := w, call := { call with code } } i = .ok turn ∧
        w' = turn.world ∧ thread'.callAt depth = some call' ∧ turn.call.Alike call') ∨
      thread.innermost depth = none ∧
        ∃ call', thread'.callAt depth = some call' ∧ call.Alike call' := by
  cases thread with
  | nil => exact absurd (callAt_lt there) (Nat.not_lt_zero _)
  | cons level below =>
    rcases Nat.lt_or_eq_of_le (Nat.le_of_lt_succ (callAt_lt there)) with lower | rfl
    · -- The call waits for a level above it.
      refine .inr ⟨innermost_of_lt lower, ?_⟩
      have inside : Thread.callAt below depth = some call := callAt_of_lt lower ▸ there
      cases move with
      | rest => exact ⟨call, there, .refl call⟩
      | @instruction _ _ _ _ _ turn =>
        refine ⟨call, ?_, .refl call⟩
        cases turn.above with
        | none => exact (callAt_of_lt lower).trans inside
        | some new =>
          have lower' : depth < ({ level with call := some turn.call } :: below).length :=
            Nat.lt_succ_of_lt lower
          exact (callAt_of_lt lower').trans ((callAt_of_lt lower).trans inside)
      | @block _ _ _ _ _ turn =>
        have lower' : depth < (unwait ({ level with call := some turn.call } :: below)).length := by
          simpa [unwait] using Nat.lt_succ_of_lt lower
        refine ⟨{ call with during := none }, ?_, ⟨rfl, rfl, rfl, rfl, rfl⟩⟩
        rw [callAt_of_lt lower', callAt_unwait, callAt_of_lt lower, inside]
        rfl
      | scope | finish | start => exact ⟨call, (callAt_of_lt lower).trans inside, .refl call⟩
      | @close _ caller rest waiting idle ended waits =>
        rcases Nat.lt_or_eq_of_le (Nat.le_of_lt_succ lower) with deeper | rfl
        · exact ⟨call, (callAt_of_lt deeper).trans (callAt_of_lt deeper ▸ inside), .refl call⟩
        · rw [callAt_length, waits, Option.some.injEq] at inside
          subst inside
          exact ⟨(level.close w waiting).2, callAt_length, level.close_alike w waiting⟩
    · -- The call is on the innermost level, so the step is its own.
      have current : level.call = some call := callAt_length ▸ there
      have top : innermost (level :: below) below.length = some call := by
        rw [innermost, if_pos rfl, current]
      cases move with
      | rest idle =>
        rw [idle level below rfl] at current
        contradiction
      | @instruction _ _ call' i code turn busy head ran =>
        obtain rfl := Option.some.inj (current.symm.trans busy)
        refine .inl ⟨top, fun ended => absurd (head.symm.trans ended) (List.cons_ne_nil i code),
          fun i' code' head' => ?_⟩
        obtain ⟨rfl, rfl⟩ := List.cons.inj (head.symm.trans head')
        refine ⟨turn, turn.call, ran, rfl, ?_, .refl _⟩
        cases turn.above with
        | none => exact callAt_length
        | some new =>
          have lower : below.length < ({ level with call := some turn.call } :: below).length :=
            Nat.lt_succ_self _
          exact (callAt_of_lt lower).trans callAt_length
      | @block _ _ call' i code turn todo busy head ran =>
        obtain rfl := Option.some.inj (current.symm.trans busy)
        have lower : below.length <
            (unwait ({ level with call := some turn.call } :: below)).length := by
          simp [unwait]
        refine .inl ⟨top, fun ended => absurd (head.symm.trans ended) (List.cons_ne_nil i code),
          fun i' code' head' => ?_⟩
        obtain ⟨rfl, rfl⟩ := List.cons.inj (head.symm.trans head')
        refine ⟨turn, { turn.call with during := none }, ran, rfl, ?_, ⟨rfl, rfl, rfl, rfl, rfl⟩⟩
        rw [callAt_of_lt lower, callAt_unwait, callAt_length]
        rfl
      | scope busy ended | finish _ busy ended =>
        obtain rfl := Option.some.inj (current.symm.trans busy)
        exact .inl ⟨top, fun _ => rfl, fun i code head =>
          absurd (head.symm.trans ended) (List.cons_ne_nil i code)⟩
      | start idle | close idle =>
        rw [idle] at current
        contradiction

theorem Move.forall_calls_of_top {P : Call → Prop} (move : Move choice inUse w thread w' thread')
    (each : ∀ call ∈ thread.calls, P call)
    (run : ∀ call i code turn, thread.head?.bind Level.call = some call → P call →
      call.code = i :: code →
      Turn.run choice inUse { world := w, call := { call with code } } i = .ok turn → P turn.call)
    (scope : ∀ call, P call → P { call with code := call.registers.owned.map .release })
    (start : ∀ command : Command, P (command.start w inUse).2)
    (alike : ∀ call call', call.Alike call' → P call → P call') : ∀ call ∈ thread'.calls, P call := by
  cases move with
  | rest => exact each
  | @instruction level below call i code turn busy head ran =>
    rw [calls_cons_of_some busy] at each
    obtain ⟨first, others⟩ := List.forall_mem_cons.mp each
    rw [calls_of_run ran rfl]
    exact List.forall_mem_cons.mpr ⟨run call i code turn busy first head ran, others⟩
  | @block level below call i code turn todo busy head ran =>
    rw [calls_cons_of_some busy] at each
    obtain ⟨first, others⟩ := List.forall_mem_cons.mp each
    rw [calls_cons_of_none rfl, calls_unwait, calls_cons_of_some rfl]
    intro call' member
    obtain ⟨call'', inside, rfl⟩ := List.mem_map.mp member
    refine alike call'' _ ⟨rfl, rfl, rfl, rfl, rfl⟩ ?_
    exact List.forall_mem_cons.mpr ⟨run call i code turn busy first head ran, others⟩ call'' inside
  | @scope level below call busy =>
    rw [calls_cons_of_some busy] at each
    obtain ⟨first, others⟩ := List.forall_mem_cons.mp each
    exact List.forall_mem_cons.mpr ⟨scope call first, others⟩
  | @finish level below call record busy =>
    rw [calls_cons_of_some busy] at each
    exact (List.forall_mem_cons.mp each).2
  | @start level below command todo idle =>
    rw [calls_cons_of_none idle] at each
    exact List.forall_mem_cons.mpr ⟨start command, each⟩
  | @close level caller below call idle ended waits =>
    rw [calls_cons_of_none idle, calls_cons_of_some waits] at each
    obtain ⟨first, others⟩ := List.forall_mem_cons.mp each
    exact List.forall_mem_cons.mpr ⟨alike call _ (level.close_alike w call) first, others⟩

theorem Move.forall_calls {P : Call → Prop} (move : Move choice inUse w thread w' thread')
    (each : ∀ call ∈ thread.calls, P call)
    (run : ∀ call i code turn, P call → call.code = i :: code →
      Turn.run choice inUse { world := w, call := { call with code } } i = .ok turn → P turn.call)
    (scope : ∀ call, P call → P { call with code := call.registers.owned.map .release })
    (start : ∀ command : Command, P (command.start w inUse).2)
    (alike : ∀ call call', call.Alike call' → P call → P call') : ∀ call ∈ thread'.calls, P call :=
  move.forall_calls_of_top each (fun call i code turn _ => run call i code turn) scope start alike

end Thread

namespace World

/-- Something refers to the object that the reference names, if it names one. -/
def Counts (w : World) (ref : Ref) : Prop := ∀ addr, ref = some addr → 0 < w.heap.count addr

variable {w w' : World} {ref other : Ref}

theorem objectId_of_counts {addr : Addr} (counts : w.Counts (some addr)) :
    ∃ object, w.heap.live? addr = some object ∧ w.objectId (some addr) = some object.id := by
  obtain ⟨object, live⟩ := Heap.count_pos_iff.mp (counts addr rfl)
  refine ⟨object, live, ?_⟩
  rw [objectId, Option.bind_some, (Heap.live?_eq_some_iff.mp live).1]
  rfl

theorem objectId_inj (numbered : w.heap.Numbered) (counts : w.Counts ref) (counts' : w.Counts other)
    (same : w.objectId ref = w.objectId other) : ref = other := by
  cases ref with
  | none =>
    cases other with
    | none => rfl
    | some addr =>
      obtain ⟨object, -, id⟩ := objectId_of_counts counts'
      rw [id] at same
      contradiction
  | some addr =>
    obtain ⟨object, live, id⟩ := objectId_of_counts counts
    cases other with
    | none =>
      rw [id] at same
      contradiction
    | some addr' =>
      obtain ⟨object', live', id'⟩ := objectId_of_counts counts'
      rw [id, id', Option.some.injEq] at same
      rw [numbered.unique addr addr' object object' (Heap.live?_eq_some_iff.mp live).1
        (Heap.live?_eq_some_iff.mp live').1 same]

theorem objectId_of_change (change : w.heap.Change w'.heap) (bounded : w.heap.Bounded)
    (counts : w.Counts ref) : w'.objectId ref = w.objectId ref := by
  cases ref with
  | none => rfl
  | some addr =>
    obtain ⟨object, live, id⟩ := objectId_of_counts counts
    obtain ⟨next, found, same, -⟩ := change.live_stays bounded live
    rw [id, objectId, Option.bind_some, found, Option.map_some, same]

end World

section Counts

variable {w : World} {calls : List Call} {graves loose : List Addr}

theorem Sound.counts_register (sound : Sound w calls graves loose) {call : Call}
    (member : call ∈ calls) (register : Register) : w.Counts (call.registers.get register) :=
  fun _ holds => sound.counted_of_register member register holds

theorem Sound.counts_word (sound : Sound w calls graves loose) (slot : SlotId) :
    w.Counts (w.word slot) := fun _ word =>
  sound.counted_of_word (List.mem_of_getElem? (Option.join_eq_some_iff.mp word))

end Counts

/-- A step of a run, between two states of the machine. -/
structure Moment where
  before : Machine
  thread : Nat
  choice : Choice
  after : Machine

namespace Moment

/-- The call on a level of thread `i` if it is this call that takes the step. -/
def call? (moment : Moment) (i depth : Nat) : Option Call :=
  if moment.thread = i then moment.before.threads[i]?.bind (·.innermost depth) else none

/-- The slot whose word that call exchanges in the step. -/
def stores (moment : Moment) (i depth : Nat) : Option SlotId :=
  (moment.call? i depth).bind fun call =>
    match call.code with
    | [] => none
    | instruction :: code =>
      instruction.stores moment.choice { world := moment.before.world, call := { call with code } }

variable {moment : Moment} {i depth : Nat}

theorem stores_of_waits (waits : moment.call? i depth = none) : moment.stores i depth = none := by
  rw [stores, waits, Option.bind_none]

theorem stores_of_acts {call : Call} {instruction : Instruction} {code : List Instruction}
    (acts : moment.call? i depth = some call) (head : call.code = instruction :: code) :
    moment.stores i depth = instruction.stores moment.choice
      { world := moment.before.world, call := { call with code } } := by
  rw [stores, acts, Option.bind_some, head]

end Moment

namespace Machine

/-- The call in progress on a level of thread `i`. -/
def callAt (m : Machine) (i depth : Nat) : Option Call := m.threads[i]?.bind (·.callAt depth)

/-- The steps that a schedule brings about. -/
def moments (m : Machine) : List (Nat × Choice) → List Moment
  | [] => []
  | (i, choice) :: rest =>
    match m.step i choice with
    | .ok m' => ⟨m, i, choice, m'⟩ :: moments m' rest
    | .error _ => []

variable {m m' : Machine} {i j depth : Nat} {choice : Choice} {call : Call} {ref : Ref}
  {schedule : List (Nat × Choice)}

theorem moments_cons (stepped : m.step j choice = .ok m') :
    m.moments ((j, choice) :: schedule) = ⟨m, j, choice, m'⟩ :: m'.moments schedule := by
  rw [moments, stepped]

theorem mem_calls_of_callAt (there : m.callAt i depth = some call) : call ∈ m.calls := by
  obtain ⟨thread, found, inside⟩ := Option.bind_eq_some_iff.mp there
  exact List.mem_flatMap.mpr ⟨thread, List.mem_of_getElem? found, Thread.mem_calls_of_callAt inside⟩

/-- A call takes a step by its next instruction, or stays as it is. -/
theorem step_callAt (sound : m.Sound) (ran : m.step j choice = .ok m')
    (there : m.callAt i depth = some call) :
    (Moment.call? ⟨m, j, choice, m'⟩ i depth = some call ∧
      (call.code = [] → m'.world = m.world) ∧
      ∀ instruction code, call.code = instruction :: code → ∃ inUse turn call',
        Turn.run choice inUse { world := m.world, call := { call with code } } instruction =
          .ok turn ∧
        m'.world = turn.world ∧ m'.callAt i depth = some call' ∧ turn.call.Alike call') ∨
    (Moment.call? ⟨m, j, choice, m'⟩ i depth = none ∧
      ∃ call', m'.callAt i depth = some call' ∧ call.Alike call') := by
  obtain ⟨thread, found, inside⟩ := Option.bind_eq_some_iff.mp there
  by_cases own : j = i
  · -- A step of the call's own thread is its step unless a level above it is at work.
    subst own
    have acts : Moment.call? ⟨m, j, choice, m'⟩ j depth = thread.innermost depth := by
      rw [Moment.call?, if_pos rfl, found, Option.bind_some]
    rcases step_cases sound ran with ⟨gone, -⟩ | ⟨thread', w', next, found', move, rfl⟩
    · rw [found] at gone
      contradiction
    · obtain rfl := Option.some.inj (found.symm.trans found')
      have bound : j < m.threads.length := (List.getElem?_eq_some_iff.mp found).1
      have after : (⟨w', m.threads.set j next⟩ : Machine).callAt j depth = next.callAt depth := by
        rw [callAt, List.getElem?_set_self bound, Option.bind_some]
      rw [acts, after]
      rcases move.callAt inside with ⟨top, ended, goes⟩ | stays
      · refine .inl ⟨top, ended, fun instruction code head => ?_⟩
        obtain ⟨turn, call', goes⟩ := goes instruction code head
        exact ⟨_, turn, call', goes⟩
      · exact .inr stays
  · refine .inr ⟨by rw [Moment.call?, if_neg own], call, ?_, .refl call⟩
    rcases step_cases sound ran with ⟨-, rfl⟩ | ⟨thread', w', next, -, -, rfl⟩
    · exact there
    · rw [callAt, List.getElem?_set_ne own, found, Option.bind_some, inside]

theorem callAt_of_acts {moment : Moment} (acts : moment.call? i depth = some call) :
    moment.before.callAt i depth = some call := by
  unfold Moment.call? at acts
  split at acts
  · obtain ⟨thread, found, top⟩ := Option.bind_eq_some_iff.mp acts
    rw [callAt, found, Option.bind_some, Thread.callAt_of_innermost top]
  · contradiction

/-- A call changes no slot in a step in which it does not exchange its word. -/
theorem step_words {slot : SlotId} (sound : m.Sound) (ran : m.step j choice = .ok m')
    (acts : Moment.call? ⟨m, j, choice, m'⟩ i depth = some call)
    (quiet : Moment.stores ⟨m, j, choice, m'⟩ i depth = none) (there : slot < m.world.words.length) :
    m'.world.word slot = m.world.word slot := by
  rcases step_callAt sound ran (callAt_of_acts acts) with ⟨-, ended, goes⟩ | ⟨waits, -⟩
  · cases head : call.code with
    | nil => rw [ended head]
    | cons instruction code =>
      obtain ⟨inUse, turn, call', turned, world, -⟩ := goes instruction code head
      have words := Turn.run_words turned there
      rw [← Moment.stores_of_acts acts head, quiet, if_neg nofun] at words
      rw [world, words]
  · rw [waits] at acts
    contradiction

theorem mem_moments {moment : Moment} (sound : m.Sound) (member : moment ∈ m.moments schedule) :
    moment.before.Sound ∧ moment.before.step moment.thread moment.choice = .ok moment.after := by
  induction schedule generalizing m with
  | nil => exact absurd member List.not_mem_nil
  | cons turn rest ih =>
    obtain ⟨j, choice⟩ := turn
    obtain ⟨next, stepped⟩ := step_ok sound j choice
    rw [moments_cons stepped] at member
    rcases List.mem_cons.mp member with rfl | later
    · exact ⟨sound, stepped⟩
    · exact ih (step_sound sound stepped) later

theorem step_forall_calls {P : Call → Prop} (sound : m.Sound) (ran : m.step j choice = .ok m')
    (each : ∀ call ∈ m.calls, P call)
    (run : ∀ (inUse : SlotId → Bool) (call : Call) (i : Instruction) (code : List Instruction)
      (turn : Turn), P call → call.code = i :: code →
      Turn.run choice inUse { world := m.world, call := { call with code } } i = .ok turn →
      P turn.call)
    (scope : ∀ call, P call → P { call with code := call.registers.owned.map .release })
    (start : ∀ (command : Command) (inUse : SlotId → Bool), P (command.start m.world inUse).2)
    (alike : ∀ call call', call.Alike call' → P call → P call') : ∀ call ∈ m'.calls, P call := by
  rcases step_cases sound ran with ⟨-, rfl⟩ | ⟨thread, w', thread', found, move, rfl⟩
  · exact each
  · have bound : j < m.threads.length := (List.getElem?_eq_some_iff.mp found).1
    have before := perm_flatMap found Thread.calls
    intro call member
    rcases List.mem_append.mp ((perm_flatMap_set bound thread' Thread.calls).mem_iff.mp member) with
      own | others
    · refine move.forall_calls (fun c inside => each c ?_) (run _) scope
        (fun command => start command _) alike call own
      exact before.mem_iff.mpr (List.mem_append_left _ inside)
    · exact each call (before.mem_iff.mpr (List.mem_append_right _ others))

/-- What holds of every call when it starts, and stays with it, holds of the calls of all threads. -/
theorem run_forall_calls {P : Call → Prop}
    (start : ∀ (command : Command) (w : World) (inUse : SlotId → Bool), P (command.start w inUse).2)
    (run : ∀ (choice : Choice) (inUse : SlotId → Bool) (w : World) (call : Call) (i : Instruction)
      (code : List Instruction) (turn : Turn), P call → call.code = i :: code →
      Turn.run choice inUse { world := w, call := { call with code } } i = .ok turn → P turn.call)
    (scope : ∀ call, P call → P { call with code := call.registers.owned.map .release })
    (alike : ∀ call call', call.Alike call' → P call → P call') (sound : m.Sound)
    (each : ∀ call ∈ m.calls, P call) (ran : m.run schedule = .ok m') : ∀ call ∈ m'.calls, P call := by
  induction schedule generalizing m with
  | nil =>
    obtain rfl := Except.ok.inj ran
    exact each
  | cons turn rest ih =>
    obtain ⟨j, choice⟩ := turn
    obtain ⟨next, stepped⟩ := step_ok sound j choice
    refine ih (step_sound sound stepped) ?_ (run_cons stepped ▸ ran)
    exact step_forall_calls sound stepped each (fun inUse => run choice inUse m.world) scope
      (fun command => start command m.world) alike

/-- A step does not change which object a reference names that something owns. -/
theorem step_objectId (sound : m.Sound) (ran : m.step i choice = .ok m') (counts : m.world.Counts ref) :
    m'.world.objectId ref = m.world.objectId ref :=
  World.objectId_of_change (step_change sound ran) sound.counted.bounded counts

end Machine

end SharedCells.Slot
