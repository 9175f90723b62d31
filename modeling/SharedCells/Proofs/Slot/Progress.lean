import SharedCells.Proofs.Slot.Retries

/-! Readers hold nobody back.

The rounds of a load or of a compare-exchange are counted against the steps in
which others changed its slot meanwhile. Loads, failed exchanges and the debt
registry change no slot at all, so that they never cost anybody a round. -/

set_option autoImplicit false

namespace SharedCells.Slot

open Instruction

theorem Thread.Move.read {choice : Choice} {inUse : SlotId → Bool} {w w' : World}
    {thread thread' : Thread} {depth : Nat} {call : Call} {slot : SlotId}
    {accepted : List Instruction} (move : Move choice inUse w thread w' thread')
    (top : thread.innermost depth = some call) (code : call.code = .read .strong :: accepted)
    (acts : call.slot = some slot) :
    w' = w ∧ thread'.innermost depth =
      some { call with code := .attempt (w.word slot) :: accepted } := by
  cases thread with
  | nil => simp [innermost] at top
  | cons level below =>
    unfold innermost at top
    dsimp only at top
    split at top
    · next deep =>
      have word : Turn.word { world := w, call := { call with code := accepted } } = w.word slot := by
        rw [Turn.word, acts, Option.bind_some]
      cases move with
      | rest idle => exact absurd (top.symm.trans (idle level below rfl)) (Option.some_ne_none _)
      | @instruction _ _ call' i rest turn busy head ran =>
        obtain rfl := Option.some.inj (top.symm.trans busy)
        obtain ⟨rfl, rfl⟩ := List.cons.inj (code.symm.trans head)
        obtain rfl := Turn.eq_of_givesWay ran .read_strong
        refine ⟨rfl, (if_pos deep).trans ?_⟩
        rw [← word]
        rfl
      | @block _ _ call' i rest turn todo busy head ran recorded =>
        obtain rfl := Option.some.inj (top.symm.trans busy)
        obtain ⟨rfl, rfl⟩ := List.cons.inj (code.symm.trans head)
        obtain rfl := Turn.eq_of_givesWay ran .read_strong
        contradiction
      | scope busy ended | finish _ busy ended =>
        obtain rfl := Option.some.inj (top.symm.trans busy)
        exact absurd (code.symm.trans ended) (List.cons_ne_nil _ _)
      | start idle | close idle => exact absurd (top.symm.trans idle) (Option.some_ne_none _)
    · contradiction

namespace Moment

/-- The call on a level of thread `i` begins a round in the step. -/
def begins (moment : Moment) (i depth : Nat) : Bool :=
  (moment.call? i depth).any fun call => call.code.head?.any Instruction.begins

/-- The step changes the word of the slot, and it is not a step of the call on that level. -/
def disturbs (moment : Moment) (i depth : Nat) (slot : SlotId) : Bool :=
  (moment.call? i depth).isNone && moment.after.world.word slot != moment.before.world.word slot

end Moment

namespace Machine

/-- The steps of the call on a level of thread `i`. -/
def turns (m : Machine) (schedule : List (Nat × Choice)) (i depth : Nat) : List Moment :=
  (m.moments schedule).filter fun moment => (moment.call? i depth).isSome

/-- The steps in which that call begins a round. -/
def rounds (m : Machine) (schedule : List (Nat × Choice)) (i depth : Nat) : List Moment :=
  (m.moments schedule).filter fun moment => moment.begins i depth

/-- The steps of others that change the slot. -/
def disturbances (m : Machine) (schedule : List (Nat × Choice)) (i depth : Nat) (slot : SlotId) :
    List Moment :=
  (m.moments schedule).filter fun moment => moment.disturbs i depth slot

/-- The call on a level of thread `i` takes no step of the schedule beyond this code. -/
def Within (m : Machine) (schedule : List (Nat × Choice)) (i depth : Nat)
    (accepted : List Instruction) : Prop :=
  ∀ moment ∈ m.moments schedule, ∀ call, moment.call? i depth = some call → call.code ≠ accepted

/-- The call that takes the next step of thread `i`, if it is on that level. -/
def current? (m : Machine) (i depth : Nat) : Option Call := m.threads[i]?.bind (·.innermost depth)

/-- A step of any thread while a call is in the middle of a read or of a compare-exchange. -/
structure Stride (moment : Moment) (i depth : Nat) (slot : SlotId) (rest rest' : List Instruction)
    (call call' : Call) : Prop where
  rounds : (if moment.begins i depth then 1 else 0) + roundsOf (moment.after.world.word slot) rest' ≤
    roundsOf (moment.before.world.word slot) rest + if moment.disturbs i depth slot then 1 else 0
  rests : (∀ j ∈ rest, j.looks = false) → moment.begins i depth = false ∧
    ∀ j ∈ rest', j.looks = false
  writes : (∀ j ∈ rest, ¬ j.Writes) → moment.stores i depth = none ∧ ∀ j ∈ rest', ¬ j.Writes
  verdict : call.exchanged = true ∨ (moment.stores i depth).isSome → call'.exchanged = true

variable {m m' next : Machine} {i j depth : Nat} {choice : Choice} {call call' : Call}
  {schedule : List (Nat × Choice)} {slot : SlotId} {rest accepted : List Instruction}

theorem callAt_of_current (top : m.current? i depth = some call) : m.callAt i depth = some call := by
  obtain ⟨thread, found, top⟩ := Option.bind_eq_some_iff.mp top
  rw [callAt, found, Option.bind_some, Thread.callAt_of_innermost top]

theorem Within.tail (within : m.Within ((j, choice) :: schedule) i depth accepted)
    (stepped : m.step j choice = .ok next) : next.Within schedule i depth accepted :=
  fun moment member => within moment (moments_cons stepped ▸ List.mem_cons_of_mem _ member)

theorem step_searches (sound : m.Sound) (stepped : m.step j choice = .ok next)
    (there : m.callAt i depth = some call) (searches : call.Searches slot rest accepted)
    (within : m.Within ((j, choice) :: schedule) i depth accepted) :
    ∃ call' rest', next.callAt i depth = some call' ∧ call'.Searches slot rest' accepted ∧
      Stride ⟨m, j, choice, next⟩ i depth slot rest rest' call call' := by
  rcases step_callAt sound stepped there with ⟨acts, -, goes⟩ | ⟨waits, call', there', alike⟩
  · cases rest with
    | nil =>
      exact absurd searches.code (within _ (moments_cons stepped ▸ List.mem_cons_self) call acts)
    | cons instruction rest =>
      have head : call.code = instruction :: (rest ++ accepted) := searches.code
      obtain ⟨inUse, turn, call', ran, world, there', alike⟩ := goes instruction _ head
      have bound : slot < m.world.words.length :=
        (sound.counted.sane call (mem_calls_of_callAt there)).slot slot searches.slot
      obtain ⟨rest', searches', narrows⟩ :=
        Turn.run_searches searches searches.slot rfl bound ran
      have begins : Moment.begins ⟨m, j, choice, next⟩ i depth = instruction.begins := by
        simp only [Moment.begins, acts, Option.any_some, head, List.head?_cons]
      have stores := Moment.stores_of_acts acts head
      refine ⟨call', rest', there', searches'.alike alike, ?_, fun none => ?_, fun none => ?_, ?_⟩
      · rw [begins, world]
        exact Nat.le_add_right_of_le narrows.rounds
      · refine ⟨?_, narrows.rests none⟩
        rw [begins]
        have rests := (List.forall_mem_cons.mp none).1
        cases instruction <;> first | rfl | exact absurd rests nofun
      · refine ⟨?_, narrows.writes none⟩
        rw [stores, Option.eq_none_iff_forall_ne_some]
        exact fun slot stores => (List.forall_mem_cons.mp none).1 (stores_eq_some stores).2
      · rw [stores, alike.exchanged]
        exact narrows.verdict
  · have begins : Moment.begins ⟨m, j, choice, next⟩ i depth = false := by
      rw [Moment.begins, waits, Option.any_none]
    have stores := Moment.stores_of_waits waits
    refine ⟨call', rest, there', searches.alike alike, ?_, fun none => ⟨begins, none⟩,
      fun none => ⟨stores, none⟩, ?_⟩
    · simp only [begins, Moment.disturbs, waits, Option.isNone_none, Bool.true_and, bne_iff_ne]
      by_cases same : next.world.word slot = m.world.word slot
      · rw [same]
        simp
      · rw [if_pos same, if_neg nofun, Nat.zero_add]
        exact searches.reading.roundsOf_le
    · rintro (won | won)
      · exact alike.exchanged.trans won
      · rw [stores] at won
        contradiction

theorem rounds_cons_of_begins (stepped : m.step j choice = .ok next)
    (begins : Moment.begins ⟨m, j, choice, next⟩ i depth = true) :
    m.rounds ((j, choice) :: schedule) i depth =
      ⟨m, j, choice, next⟩ :: next.rounds schedule i depth := by
  unfold rounds
  rw [moments_cons stepped]
  exact List.filter_cons_of_pos begins

theorem rounds_cons_of_not_begins (stepped : m.step j choice = .ok next)
    (quiet : Moment.begins ⟨m, j, choice, next⟩ i depth = false) :
    m.rounds ((j, choice) :: schedule) i depth = next.rounds schedule i depth := by
  unfold rounds
  rw [moments_cons stepped]
  exact List.filter_cons_of_neg (Bool.eq_false_iff.mp quiet)

theorem turns_cons_of_acts (stepped : m.step j choice = .ok next)
    (acts : Moment.call? ⟨m, j, choice, next⟩ i depth = some call) :
    m.turns ((j, choice) :: schedule) i depth =
      ⟨m, j, choice, next⟩ :: next.turns schedule i depth := by
  unfold turns
  rw [moments_cons stepped]
  exact List.filter_cons_of_pos (Option.isSome_of_eq_some acts)

theorem turns_rounds_cons_of_waits (stepped : m.step j choice = .ok next)
    (waits : Moment.call? ⟨m, j, choice, next⟩ i depth = none) :
    m.turns ((j, choice) :: schedule) i depth = next.turns schedule i depth ∧
      m.rounds ((j, choice) :: schedule) i depth = next.rounds schedule i depth := by
  refine ⟨?_, rounds_cons_of_not_begins stepped (by rw [Moment.begins, waits, Option.any_none])⟩
  unfold turns
  rw [moments_cons stepped]
  exact List.filter_cons_of_neg (by simp [waits])

/-- The rounds of a search are paid for by what it had before it and by the disturbances. -/
theorem rounds_le (sound : m.Sound) (there : m.callAt i depth = some call)
    (searches : call.Searches slot rest accepted) (within : m.Within schedule i depth accepted) :
    (m.rounds schedule i depth).length ≤
      roundsOf (m.world.word slot) rest + (m.disturbances schedule i depth slot).length := by
  induction schedule generalizing m call rest with
  | nil => exact Nat.zero_le _
  | cons turn schedule ih =>
    obtain ⟨j, choice⟩ := turn
    obtain ⟨next, stepped⟩ := step_ok sound j choice
    obtain ⟨call', rest', there', searches', stride⟩ :=
      step_searches sound stepped there searches within
    have later := ih (step_sound sound stepped) there' searches' (within.tail stepped)
    have now := stride.rounds
    dsimp only at now
    simp only [rounds, disturbances, ← List.countP_eq_length_filter] at later ⊢
    rw [moments_cons stepped, List.countP_cons, List.countP_cons]
    omega

theorem rounds_eq_nil (sound : m.Sound) (there : m.callAt i depth = some call)
    (searches : call.Searches slot rest accepted) (within : m.Within schedule i depth accepted)
    (rests : ∀ j ∈ rest, j.looks = false) : m.rounds schedule i depth = [] := by
  induction schedule generalizing m call rest with
  | nil => rfl
  | cons turn schedule ih =>
    obtain ⟨j, choice⟩ := turn
    obtain ⟨next, stepped⟩ := step_ok sound j choice
    obtain ⟨call', rest', there', searches', stride⟩ :=
      step_searches sound stepped there searches within
    obtain ⟨quiet, rests'⟩ := stride.rests rests
    rw [rounds_cons_of_not_begins stepped quiet]
    exact ih (step_sound sound stepped) there' searches' (within.tail stepped) rests'

theorem stores_eq_none (sound : m.Sound) (there : m.callAt i depth = some call)
    (searches : call.Searches slot rest accepted) (within : m.Within schedule i depth accepted)
    (reads : ∀ j ∈ rest, ¬ j.Writes) : ∀ moment ∈ m.moments schedule, moment.stores i depth = none := by
  induction schedule generalizing m call rest with
  | nil => nofun
  | cons turn schedule ih =>
    obtain ⟨j, choice⟩ := turn
    obtain ⟨next, stepped⟩ := step_ok sound j choice
    obtain ⟨call', rest', there', searches', stride⟩ :=
      step_searches sound stepped there searches within
    obtain ⟨quiet, reads'⟩ := stride.writes reads
    rw [moments_cons stepped]
    exact List.forall_mem_cons.mpr
      ⟨quiet, ih (step_sound sound stepped) there' searches' (within.tail stepped) reads'⟩

theorem exchanged_of_stores (sound : m.Sound) (there : m.callAt i depth = some call)
    (searches : call.Searches slot rest accepted) (within : m.Within schedule i depth accepted)
    (ran : m.run schedule = .ok m') (there' : m'.callAt i depth = some call')
    (wrote : call.exchanged = true ∨
      ∃ moment ∈ m.moments schedule, (moment.stores i depth).isSome) :
    call'.exchanged = true := by
  induction schedule generalizing m call rest with
  | nil =>
    obtain rfl := Except.ok.inj ran
    obtain rfl := Option.some.inj (there.symm.trans there')
    exact wrote.resolve_right fun ⟨_, member, _⟩ => absurd member List.not_mem_nil
  | cons turn schedule ih =>
    obtain ⟨j, choice⟩ := turn
    obtain ⟨next, stepped⟩ := step_ok sound j choice
    obtain ⟨call₁, rest₁, there₁, searches₁, stride⟩ :=
      step_searches sound stepped there searches within
    refine ih (step_sound sound stepped) there₁ searches₁ (within.tail stepped)
      (run_cons stepped ▸ ran) ?_
    rw [moments_cons stepped] at wrote
    rcases wrote with before | ⟨moment, member, stores⟩
    · exact .inl (stride.verdict (.inl before))
    · rcases List.mem_cons.mp member with rfl | later
      · exact .inl (stride.verdict (.inr stores))
      · exact .inr ⟨moment, later, stores⟩

/-- All steps of a search are steps of instructions that a read is made of. -/
theorem turns_read (sound : m.Sound) (there : m.callAt i depth = some call)
    (searches : call.Searches slot rest accepted) (within : m.Within schedule i depth accepted) :
    ∀ moment ∈ m.moments schedule, ∀ call, moment.call? i depth = some call →
      ∃ instruction code, call.code = instruction :: code ∧ instruction.Reads := by
  induction schedule generalizing m call rest with
  | nil => nofun
  | cons turn schedule ih =>
    obtain ⟨j, choice⟩ := turn
    obtain ⟨next, stepped⟩ := step_ok sound j choice
    obtain ⟨call', rest', there', searches', -⟩ :=
      step_searches sound stepped there searches within
    rw [moments_cons stepped]
    refine List.forall_mem_cons.mpr ⟨fun other acts => ?_,
      ih (step_sound sound stepped) there' searches' (within.tail stepped)⟩
    obtain rfl := Option.some.inj (there.symm.trans (callAt_of_acts acts))
    cases rest with
    | nil =>
      exact absurd searches.code (within _ (moments_cons stepped ▸ List.mem_cons_self) call acts)
    | cons instruction rest =>
      exact ⟨instruction, rest ++ accepted, searches.code, searches.reading.reads _ List.mem_cons_self⟩

theorem step_keeps_words {instruction : Instruction} {code : List Instruction} (sound : m.Sound)
    (stepped : m.step j choice = .ok next)
    (acts : Moment.call? ⟨m, j, choice, next⟩ i depth = some call)
    (head : call.code = instruction :: code) (reads : instruction.Reads)
    (quiet : Moment.stores ⟨m, j, choice, next⟩ i depth = none) :
    next.world.words = m.world.words := by
  rcases step_callAt sound stepped (callAt_of_acts acts) with ⟨-, -, goes⟩ | ⟨waits, -⟩
  · obtain ⟨inUse, turn, call', turned, world, -⟩ := goes instruction code head
    rw [Moment.stores_of_acts acts head] at quiet
    rw [world]
    exact Turn.run_keeps_words reads quiet turned
  · rw [acts] at waits
    contradiction

theorem step_current_other (sound : m.Sound) (stepped : m.step j choice = .ok next) (other : j ≠ i) :
    next.current? i depth = m.current? i depth := by
  rcases step_cases sound stepped with ⟨-, rfl⟩ | ⟨thread, w', thread', found, move, rfl⟩
  · rfl
  · rw [current?, current?, List.getElem?_set_ne other]

theorem step_current_read (sound : m.Sound) (stepped : m.step i choice = .ok next)
    (top : m.current? i depth = some call) (code : call.code = .read .strong :: accepted)
    (acts : call.slot = some slot) :
    next.world = m.world ∧ next.current? i depth =
      some { call with code := .attempt (m.world.word slot) :: accepted } := by
  obtain ⟨thread, found, inside⟩ := Option.bind_eq_some_iff.mp top
  rcases step_cases sound stepped with ⟨gone, -⟩ | ⟨thread', w', thread'', found', move, rfl⟩
  · rw [found] at gone
    contradiction
  · obtain rfl := Option.some.inj (found.symm.trans found')
    have bound : i < m.threads.length := (List.getElem?_eq_some_iff.mp found).1
    rw [current?, List.getElem?_set_self bound, Option.bind_some]
    exact move.read inside code acts

/-- A step of another thread leaves a slot alone to which only one thread publishes. -/
theorem step_word_of_sole (sound : m.Sound) (stepped : m.step j choice = .ok next) (other : j ≠ i)
    (sole : ∀ p ∈ m.publications ((j, choice) :: schedule) slot, p.thread = i) :
    next.world.word slot = m.world.word slot := by
  refine step_word sound stepped (Bool.eq_false_iff.mpr fun publishes => other ?_)
  rw [publications_cons stepped, Moment.publication?, if_pos publishes] at sole
  exact sole _ List.mem_cons_self

theorem sole_attempt (sound : m.Sound) (top : m.current? i depth = some call)
    (code : call.code = .attempt call.registers.expected :: accepted) (acts : call.slot = some slot)
    (holds : m.world.word slot = call.registers.expected)
    (within : m.Within schedule i depth accepted)
    (sole : ∀ p ∈ m.publications schedule slot, p.thread = i)
    (ran : m.run schedule = .ok m') (there : m'.callAt i depth = some call') :
    (m.turns schedule i depth = [] ∧ m.rounds schedule i depth = [] ∧ call'.code ≠ accepted) ∨
      (m.rounds schedule i depth).length = 1 ∧ call'.exchanged = true := by
  induction schedule generalizing m with
  | nil =>
    obtain rfl := Except.ok.inj ran
    obtain rfl := Option.some.inj ((callAt_of_current top).symm.trans there)
    refine .inl ⟨rfl, rfl, fun same => ?_⟩
    rw [code] at same
    exact List.cons_ne_self _ _ same
  | cons turn schedule ih =>
    obtain ⟨j, choice⟩ := turn
    obtain ⟨next, stepped⟩ := step_ok sound j choice
    have sound' := step_sound sound stepped
    have rest : ∀ p ∈ next.publications schedule slot, p.thread = i := fun p member =>
      sole p (publications_cons stepped ▸ List.mem_append_right _ member)
    by_cases own : j = i
    · subst own
      have acts' : Moment.call? ⟨m, j, choice, next⟩ j depth = some call := (if_pos rfl).trans top
      rcases step_callAt sound stepped (callAt_of_current top) with ⟨-, -, goes⟩ | ⟨waits, -⟩
      · obtain ⟨inUse, turn, call₁, turned, world, there₁, alike⟩ := goes _ accepted code
        -- The slot holds what the attempt expects, so it stores, and no round follows.
        have stores : (Instruction.attempt call.registers.expected).stores choice
            { world := m.world, call := { call with code := accepted } } = some slot := by
          simp [Instruction.stores, acts, holds, Turn.get, Registers.get]
        have acts₁ := (Turn.run_slot (i := .attempt call.registers.expected) trivial turned).trans acts
        cases Turn.run_search (i := .attempt call.registers.expected) trivial turned with
        | next _ _ _ _ _ _ _ quiet =>
          rw [quiet] at stores
          contradiction
        | rests new rests code' verdict =>
          have searches : turn.call.Searches slot new accepted := by
            refine ⟨acts₁, code', fun j member => (rests j member).1, ?_⟩
            rw [List.countP_eq_zero.mpr fun j member => by simp [(rests j member).2]]
            exact Nat.zero_le _
          have searches₁ := searches.alike alike
          have won : call₁.exchanged = true :=
            alike.exchanged.trans (verdict (.inr (by rw [stores]; rfl)))
          have none := rounds_eq_nil sound' there₁ searches₁ (within.tail stepped)
            fun j member => (rests j member).2
          refine .inr ⟨?_, exchanged_of_stores sound' there₁ searches₁ (within.tail stepped)
            (run_cons stepped ▸ ran) there (.inl won)⟩
          have begins : Moment.begins ⟨m, j, choice, next⟩ j depth = true := by
            rw [Moment.begins, acts', Option.any_some, code]
            rfl
          rw [rounds_cons_of_begins stepped begins, none]
          rfl
      · rw [acts'] at waits
        contradiction
    · have waits : Moment.call? ⟨m, j, choice, next⟩ i depth = none := if_neg own
      -- The others leave the word alone, so that the attempt finds it as it is now.
      have current := (step_current_other sound stepped own).trans top
      have word := (step_word_of_sole sound stepped own sole).trans holds
      have later := ih sound' current word (within.tail stepped) rest (run_cons stepped ▸ ran)
      obtain ⟨turns, rounds⟩ := turns_rounds_cons_of_waits stepped waits
      rwa [turns, rounds]

theorem sole_exchange (sound : m.Sound) (top : m.current? i depth = some call)
    (code : call.code = .read .strong :: accepted) (acts : call.slot = some slot)
    (holds : m.world.word slot = call.registers.expected)
    (within : m.Within schedule i depth accepted)
    (sole : ∀ p ∈ m.publications schedule slot, p.thread = i)
    (ran : m.run schedule = .ok m') (there : m'.callAt i depth = some call') :
    ((m.turns schedule i depth).length < 2 ∧ m.rounds schedule i depth = [] ∧
        call'.code ≠ accepted) ∨
      (m.rounds schedule i depth).length = 1 ∧ call'.exchanged = true := by
  induction schedule generalizing m with
  | nil =>
    obtain rfl := Except.ok.inj ran
    obtain rfl := Option.some.inj ((callAt_of_current top).symm.trans there)
    refine .inl ⟨Nat.zero_lt_two, rfl, fun same => ?_⟩
    rw [code] at same
    exact List.cons_ne_self _ _ same
  | cons turn schedule ih =>
    obtain ⟨j, choice⟩ := turn
    obtain ⟨next, stepped⟩ := step_ok sound j choice
    have sound' := step_sound sound stepped
    have rest : ∀ p ∈ next.publications schedule slot, p.thread = i := fun p member =>
      sole p (publications_cons stepped ▸ List.mem_append_right _ member)
    by_cases own : j = i
    · subst own
      have acts' : Moment.call? ⟨m, j, choice, next⟩ j depth = some call := (if_pos rfl).trans top
      obtain ⟨world, current⟩ := step_current_read sound stepped top code acts
      have begins : Moment.begins ⟨m, j, choice, next⟩ j depth = false := by
        rw [Moment.begins, acts', Option.any_some, code]
        rfl
      -- The read finds the expected reference, and goes on to attempt the exchange with it.
      have later := sole_attempt sound' current (by rw [holds]) acts (world ▸ holds)
        (within.tail stepped) rest (run_cons stepped ▸ ran) there
      rw [turns_cons_of_acts stepped acts', rounds_cons_of_not_begins stepped begins]
      refine later.imp_left fun ⟨turns, rounds, left⟩ => ⟨?_, rounds, left⟩
      rw [turns]
      exact Nat.one_lt_two
    · have waits : Moment.call? ⟨m, j, choice, next⟩ i depth = none := if_neg own
      have current := (step_current_other sound stepped own).trans top
      have word := (step_word_of_sole sound stepped own sole).trans holds
      have later := ih sound' current word (within.tail stepped) rest (run_cons stepped ▸ ran)
      obtain ⟨turns, rounds⟩ := turns_rounds_cons_of_waits stepped waits
      rwa [turns, rounds]

/-- One call that loads its slot or makes a compare-exchange on it, from the moment it begins, and
whatever the threads do meanwhile. It begins at most one round more than others change the slot
during the call. If it is a load, or has exchanged nothing, none of its steps changes any slot; nor
does any step of any call that records a debt, settles one or pays. In particular, when only one
thread ever puts anything into the slot since its creation, and expects what was put there last, then
its strong compare-exchange has succeeded in its first round as soon as it has taken two steps. -/
theorem rounds_follow_disturbances {programs : List (List Command)}
    {before schedule : List (Nat × Choice)} {m : Machine} {i depth : Nat} {call : Call}
    {purpose : Purpose} {slot : SlotId} {accepted : List Instruction}
    (reached : (ofPrograms programs).run before = .ok m) (top : m.current? i depth = some call)
    (code : call.code = .read purpose :: accepted) (acts : call.slot = some slot)
    (within : m.Within schedule i depth accepted) :
    (m.rounds schedule i depth).length ≤ 1 + (m.disturbances schedule i depth slot).length ∧
      (∀ m' call', m.run schedule = .ok m' → m'.callAt i depth = some call' →
        purpose = .load ∨ call'.exchanged = false → ∀ moment ∈ m.turns schedule i depth,
          moment.after.world.words = moment.before.world.words) ∧
      (∀ moment ∈ m.moments schedule, ∀ j level other instruction,
        moment.call? j level = some other → other.code.head? = some instruction →
        instruction.Records → moment.after.world.words = moment.before.world.words) ∧
      (purpose = .strong →
        (∀ p ∈ ((ofPrograms programs).publications (before ++ schedule) slot).tail, p.thread = i) →
        (((ofPrograms programs).publications before slot).getLast?).map Publication.object =
          some (m.world.objectId call.registers.expected) →
        ∀ m' call', m.run schedule = .ok m' → m'.callAt i depth = some call' →
          ((m.turns schedule i depth).length < 2 ∧ m.rounds schedule i depth = [] ∧
              call'.code ≠ accepted) ∨
            (m.rounds schedule i depth).length = 1 ∧ call'.exchanged = true) := by
  have sound : m.Sound := sound_of_run (ofPrograms_sound programs) reached
  have there := callAt_of_current top
  have searches : call.Searches slot [.read purpose] accepted :=
    ⟨acts, code, by simp [Instruction.Reads], by simp [Instruction.looks]⟩
  refine ⟨?_, fun m' call' ran there' kind moment member => ?_,
    fun moment member j level other instruction acts head records => ?_,
    fun strong sole last m' call' ran there' => ?_⟩
  · exact rounds_le sound there searches within
  · obtain ⟨member, turn⟩ := List.mem_filter.mp member
    obtain ⟨other, acts⟩ := Option.isSome_iff_exists.mp turn
    obtain ⟨sound', stepped⟩ := mem_moments sound member
    obtain ⟨instruction, code, head, reads⟩ :=
      turns_read sound there searches within moment member other acts
    refine step_keeps_words sound' stepped acts head reads ?_
    rcases kind with rfl | refused
    · exact stores_eq_none sound there searches within (by simp [Instruction.Writes]) moment member
    · rw [Option.eq_none_iff_forall_ne_some]
      intro target stores
      have won := exchanged_of_stores sound there searches within ran there'
        (.inr ⟨moment, member, Option.isSome_of_eq_some stores⟩)
      -- What stores has exchanged, and this exchange was refused.
      exact absurd (refused.symm.trans won) Bool.false_ne_true
  · obtain ⟨sound', stepped⟩ := mem_moments sound member
    obtain ⟨code, head⟩ := List.head?_eq_some_iff.mp head
    refine step_keeps_words sound' stepped acts head records.reads ?_
    rw [Moment.stores_of_acts acts head]
    exact records.stores _ _
  · subst strong
    -- The slot holds the expected object, since it holds what was put into it last.
    have content := objectId_word_of_run (ofPrograms_sound programs) reached slot
    rw [last, Option.getD_some] at content
    have holds : m.world.word slot = call.registers.expected :=
      World.objectId_inj sound.numbered (sound.counted.counts_word slot)
        (sound.counted.counts_register (mem_calls_of_callAt there) .expected) content
    refine sole_exchange sound top code acts holds within (fun p member => sole p ?_) ran there'
    rw [publications_append reached]
    cases first : (ofPrograms programs).publications before slot with
    | nil =>
      rw [first] at last
      contradiction
    | cons creation others => exact List.mem_append_right others member

/-- A reader looks at the slot between the writer's look and its try. -/
theorem rounds_follow_disturbances_reader_between :
    ∃ m call m' call', (ofPrograms [[.mk (.create "s" .nothing false) none,
          .mk (.compareAndExchange .strong "s" .nothing (.fresh []) .seqCst none none) none],
        [.mk (.load "s" none) none]]).run
          (List.replicate 9 (0, {})) = .ok m ∧
      m.current? 0 0 = some call ∧
      call.code = .read .strong :: [.note (.object .expected), .release .expected] ∧
      m.Within ((0, {}) :: (1, {}) :: (1, {}) :: (0, {}) :: []) 0 0
        [.note (.object .expected), .release .expected] ∧
      m.run ((0, {}) :: (1, {}) :: (1, {}) :: (0, {}) :: []) = .ok m' ∧
      m'.callAt 0 0 = some call' ∧ call'.exchanged = true ∧
      (m.rounds ((0, {}) :: (1, {}) :: (1, {}) :: (0, {}) :: []) 0 0).length = 1 := by
  obtain ⟨m, call, m', call', reached, top, code, acts, within, published, last, ran, there, turns⟩ :
      ∃ m call m' call', (ofPrograms [[.mk (.create "s" .nothing false) none,
            .mk (.compareAndExchange .strong "s" .nothing (.fresh []) .seqCst none none) none],
          [.mk (.load "s" none) none]]).run
            (List.replicate 9 (0, {})) = .ok m ∧
        m.current? 0 0 = some call ∧
        call.code = .read .strong :: [.note (.object .expected), .release .expected] ∧
        call.slot = some 0 ∧
        m.Within ((0, {}) :: (1, {}) :: (1, {}) :: (0, {}) :: []) 0 0
          [.note (.object .expected), .release .expected] ∧
        m.publications ((0, {}) :: (1, {}) :: (1, {}) :: (0, {}) :: []) 0 = [⟨0, some 1⟩] ∧
        (ofPrograms [[.mk (.create "s" .nothing false) none,
            .mk (.compareAndExchange .strong "s" .nothing (.fresh []) .seqCst none none) none],
          [.mk (.load "s" none) none]]).publications
            (List.replicate 9 (0, {})) 0 = [⟨0, m.world.objectId call.registers.expected⟩] ∧
        m.run ((0, {}) :: (1, {}) :: (1, {}) :: (0, {}) :: []) = .ok m' ∧
        m'.callAt 0 0 = some call' ∧
        (m.turns ((0, {}) :: (1, {}) :: (1, {}) :: (0, {}) :: []) 0 0).length = 2 :=
    ⟨_, _, _, _, rfl, rfl, rfl, rfl, first_of_lengths rfl, rfl, rfl, rfl, rfl, rfl⟩
  obtain ⟨-, -, -, sole⟩ := rounds_follow_disturbances reached top code acts within
  rw [publications_append reached, published, last] at sole
  refine ⟨m, call, m', call', reached, top, code, within, ran, there, ?_⟩
  rcases sole rfl (by simp) rfl m' call' ran there with ⟨few, -⟩ | ⟨rounds, won⟩
  · exact absurd (turns ▸ few) (Nat.lt_irrefl 2)
  · exact ⟨won, rounds⟩

end Machine

end SharedCells.Slot
