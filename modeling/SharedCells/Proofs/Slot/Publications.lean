import SharedCells.Proofs.Slot.Frames

/-! What is put into a slot, by whom, and in what order.

A reference is put into a slot when the slot is created and whenever a call
exchanges its word. No other step touches it, so that at every moment the slot
holds what was put into it last. -/

set_option autoImplicit false

namespace SharedCells.Slot

theorem Command.start_words (command : Command) (w : World) (inUse : SlotId → Bool) :
    (command.start w inUse).1.words = w.words := by
  obtain ⟨operation, during⟩ := command
  unfold Command.start
  dsimp only
  split
  · rfl
  · split
    · rfl
    · split <;> rfl

theorem Level.close_words (level : Level) (w : World) (call : Call) :
    (level.close w call).1.words = w.words := by
  unfold Level.close
  cases level.role <;> rfl

namespace Thread

/-- The slot whose word the thread exchanges in its next step. -/
def stores (choice : Choice) (w : World) (thread : Thread) : Option SlotId :=
  (thread.head?.bind Level.call).bind fun call =>
    match call.code with
    | [] => none
    | i :: code => i.stores choice { world := w, call := { call with code } }

variable {choice : Choice} {inUse : SlotId → Bool} {w w' : World} {thread thread' : Thread}
  {slot : SlotId}

/-- A step creates the slot, exchanges its word, or leaves it alone. -/
theorem Move.word (move : Move choice inUse w thread w' thread')
    (quiet : thread.stores choice w ≠ some slot)
    (old : ¬ (w.words.length ≤ slot ∧ slot < w'.words.length)) : w'.word slot = w.word slot := by
  have ran {level : Level} {below : Thread} {call : Call} {i : Instruction}
      {code : List Instruction} {turn : Turn} (busy : level.call = some call)
      (head : call.code = i :: code)
      (ran : Turn.run choice inUse { world := w, call := { call with code } } i = .ok turn)
      (quiet : Thread.stores choice w (level :: below) ≠ some slot)
      (old : ¬ (w.words.length ≤ slot ∧ slot < turn.world.words.length)) :
      turn.world.word slot = w.word slot := by
    rcases Nat.lt_or_ge slot w.words.length with there | beyond
    · have words := Turn.run_words ran there
      rwa [if_neg (by simpa [stores, busy, head] using quiet)] at words
    · have beyond' : turn.world.words.length ≤ slot := Nat.le_of_not_lt fun lt => old ⟨beyond, lt⟩
      rw [World.word, World.word, List.getElem?_eq_none beyond, List.getElem?_eq_none beyond']
  cases move with
  | rest | scope | finish => rfl
  | instruction busy head run | block busy head run => exact ran busy head run quiet old
  | start => rw [World.word, Command.start_words, World.word]
  | close => rw [World.word, Level.close_words, World.word]

end Thread

/-- A reference that a thread has put into a slot: the number of the object that it names, if any. -/
structure Publication where
  thread : Nat
  object : Option Nat
  deriving DecidableEq, Repr

namespace Moment

/-- The step exchanges the word of the slot, or creates the slot. -/
def publishes (moment : Moment) (slot : SlotId) : Bool :=
  (moment.before.threads[moment.thread]?.bind
      (Thread.stores moment.choice moment.before.world) == some slot) ||
    decide (moment.before.world.words.length ≤ slot ∧ slot < moment.after.world.words.length)

/-- What the step puts into the slot. -/
def publication? (moment : Moment) (slot : SlotId) : Option Publication :=
  if moment.publishes slot then
    some ⟨moment.thread, moment.after.world.objectId (moment.after.world.word slot)⟩
  else none

end Moment

namespace Machine

/-- What is put into a slot in the course of a schedule. -/
def publications (m : Machine) (schedule : List (Nat × Choice)) (slot : SlotId) :
    List Publication :=
  (m.moments schedule).filterMap (·.publication? slot)

variable {m m' : Machine} {j : Nat} {choice : Choice} {slot : SlotId}
  {schedule later : List (Nat × Choice)}

theorem step_word (sound : m.Sound) (ran : m.step j choice = .ok m')
    (quiet : Moment.publishes ⟨m, j, choice, m'⟩ slot = false) :
    m'.world.word slot = m.world.word slot := by
  rcases step_cases sound ran with ⟨-, rfl⟩ | ⟨thread, w', thread', found, move, rfl⟩
  · rfl
  · simp only [Moment.publishes, found, Option.bind_some, Bool.or_eq_false_iff, beq_eq_false_iff_ne,
      decide_eq_false_iff_not] at quiet
    exact move.word quiet.1 quiet.2

theorem publications_cons (stepped : m.step j choice = .ok m') :
    m.publications ((j, choice) :: schedule) slot =
      (Moment.publication? ⟨m, j, choice, m'⟩ slot).toList ++ m'.publications schedule slot := by
  rw [publications, moments_cons stepped, List.filterMap_cons]
  cases Moment.publication? ⟨m, j, choice, m'⟩ slot <;> rfl

theorem run_append (ran : m.run schedule = .ok m') : m.run (schedule ++ later) = m'.run later := by
  unfold run at ran ⊢
  rw [List.foldlM_append, ran]
  rfl

theorem moments_append (ran : m.run schedule = .ok m') :
    m.moments (schedule ++ later) = m.moments schedule ++ m'.moments later := by
  induction schedule generalizing m with
  | nil =>
    obtain rfl := Except.ok.inj ran
    rfl
  | cons turn rest ih =>
    obtain ⟨j, choice⟩ := turn
    cases stepped : m.step j choice with
    | error fault =>
      rw [run, List.foldlM_cons] at ran
      dsimp only at ran
      rw [stepped] at ran
      contradiction
    | ok next =>
      rw [List.cons_append, moments_cons stepped, moments_cons stepped, List.cons_append,
        ih (run_cons stepped ▸ ran)]

theorem publications_append (ran : m.run schedule = .ok m') :
    m.publications (schedule ++ later) slot =
      m.publications schedule slot ++ m'.publications later slot := by
  rw [publications, moments_append ran, List.filterMap_append]
  rfl

/-- A slot holds what was put into it last. -/
theorem objectId_word_of_run (sound : m.Sound) (ran : m.run schedule = .ok m') (slot : SlotId) :
    m'.world.objectId (m'.world.word slot) =
      (((m.publications schedule slot).getLast?).map Publication.object).getD
        (m.world.objectId (m.world.word slot)) := by
  induction schedule generalizing m with
  | nil =>
    obtain rfl := Except.ok.inj ran
    rfl
  | cons turn rest ih =>
    obtain ⟨j, choice⟩ := turn
    obtain ⟨next, stepped⟩ := step_ok sound j choice
    rw [ih (step_sound sound stepped) (run_cons stepped ▸ ran), publications_cons stepped,
      List.getLast?_append]
    cases later : (next.publications rest slot).getLast? with
    | some publication => rfl
    | none =>
      -- Nothing is put into the slot after the first step.
      unfold Moment.publication?
      split
      · rfl
      · next quiet =>
        have counts := sound.counted.counts_word slot
        exact (congrArg _ (step_word sound stepped (by simpa using quiet))).trans
          (step_objectId sound stepped counts)

end Machine

end SharedCells.Slot
