import SharedCells.Proofs.Slot.Lapses
import SharedCells.Proofs.Slot.Twins

/-! A weak compare-exchange that fails, beside a strong one.

The weak one gives up the value that was passed before it retains what the slot
holds, the strong one afterwards. -/

set_option autoImplicit false

namespace SharedCells.Slot

open Machine Dealing

variable {level : Level} {below : Thread} {w w' : World} {call call' : Call} {rest : List Instruction}
  {alone : Prop} {later : List Choice} {slot : SlotId} {seen : Ref} {purpose : Purpose} {unused : Bool}

/-- One reference more is counted to what was read, if anything was. The read has used the registry
then. -/
structure World.Took (unused : Bool) (seen : Ref) (w w' : World) : Prop where
  spare : w.Spare unused seen w'
  nothing : seen = none → unused = false
  used : seen ≠ none → w'.registry = Registry.sole

theorem took_comes (staged : Staged level below w call)
    (head : call.code = .retain purpose seen :: rest) (holds : call.slot.bind w.word = seen) :
    Comes level below 7 alone later (fun _ dealings w' call' =>
      dealings = loads (w.objectId seen) ∧ (∃ unused, w.Took unused seen w') ∧
      call' = { call with
        code := Turn.settled purpose ++ rest
        registers := call.registers.set .observed seen }) w call := by
  cases seen with
  | none =>
    refine (nothing_comes staged head).mono (by omega) id ?_
    rintro _ _ w' _ ⟨rfl, rfl, rfl⟩
    exact ⟨rfl, ⟨false, .refl w', fun _ => rfl, fun some => absurd rfl some⟩, rfl⟩
  | some addr =>
    have idle : w.registry.Idle := staged.meets head
    refine (retain_comes staged head holds).imp ?_
    rintro _ _ w' _ ⟨dealt, ⟨heap, retained, rfl⟩, rfl⟩
    have used : some addr ≠ none → Registry.sole = Registry.sole := fun _ => rfl
    refine ⟨dealt, ?_, rfl⟩
    rcases idle with fresh | used'
    · exact ⟨true, ⟨retained, ⟨fresh, rfl⟩, rfl, rfl, rfl⟩, fun same => by contradiction, used⟩
    · exact ⟨false, ⟨retained, used'.symm, rfl, rfl, rfl⟩, fun _ => rfl, used⟩

theorem Staged.strong (staged : Staged level below w call) (head : call.code = .read .weak :: rest) :
    Staged level below w { call with code := .read .strong :: rest } := by
  obtain ⟨⟨counted, stacked, numbered⟩, lone⟩ := staged
  have calls (call : Call) : (stage level below w call).calls = call :: below.calls := by
    rw [Machine.calls, stage, List.flatMap_singleton, Thread.calls_cons_of_some rfl]
  refine ⟨⟨?_, fun thread member => ?_, numbered⟩, ?_⟩
  · rw [calls] at counted ⊢
    have steady := counted.steady head trivial fun _ same => by contradiction
    exact (steady.light (List.forall_mem_singleton.mpr trivial) :
      Turn.Steady (Turn.before _ [.read .strong]) _ _ _).sound
  · obtain rfl := List.mem_singleton.mp member
    exact (stacked _ List.mem_cons_self).head rfl
  · have tidy := lone.tidy
    rw [Thread.calls_cons_of_some rfl] at tidy
    obtain ⟨first, others⟩ := List.forall_mem_cons.mp tidy
    have meets : call.Meets w.registry := (Thread.meets_of_some rfl).mp lone.meets
    rw [Call.Meets, head] at meets
    have meets' : Call.Meets w.registry { call with code := .read .strong :: rest } := meets
    refine ⟨lone.objects, ?_, List.forall_mem_cons.mpr (List.forall_mem_cons.mp lone.todo), lone.settled,
      (Thread.meets_of_some rfl).mpr meets'⟩
    rw [Thread.calls_cons_of_some rfl]
    refine List.forall_mem_cons.mpr ⟨⟨first.waits, ?_, ?_, ?_⟩, others⟩
    · have commands := first.commands
      rw [head] at commands
      exact List.forall_mem_cons.mpr ⟨List.forall_mem_nil _, (List.forall_mem_cons.mp commands).2⟩
    · have arranged := first.arranged
      rw [head] at arranged
      exact arranged
    · have pending := first.pending
      rw [head] at pending
      exact pending

theorem keeps_comes (staged : Staged level below w call) (acts : call.slot = some slot)
    (head : call.code = .read .strong :: rest) (differs : w.word slot ≠ call.registers.expected) :
    Comes level below 10 alone later (fun _ _ w' call' => (∃ unused, w.Took unused (w.word slot) w') ∧
      call' = { call with
        code := call.registers.desired.toList.map .drop ++ .move .observed .expected :: rest
        registers := { call.registers with desired := none, observed := w.word slot } }) w call := by
  have word : call.slot.bind w.word = w.word slot := by rw [acts, Option.bind_some]
  refine Comes.bind (reads_comes staged acts head) fun _ _ _ w _ _ tries there => ?_
  obtain ⟨rfl, rfl, rfl⟩ := there
  refine Comes.bind (fails_comes tries.staged acts rfl differs) fun _ _ _ w _ _ retains there => ?_
  obtain ⟨rfl, rfl, rfl⟩ := there
  refine Comes.bind (took_comes retains.staged rfl word) fun _ _ _ w₁ _ _ took there => ?_
  obtain ⟨-, counted, rfl⟩ := there
  refine (empties_comes took.staged rfl).imp ?_
  rintro _ _ _ _ ⟨-, rfl, rfl⟩
  exact ⟨counted, rfl⟩

theorem yields_comes (staged : Staged level below w call) (acts : call.slot = some slot)
    (head : call.code = .read .weak :: rest) (differs : w.word slot ≠ call.registers.expected) :
    Comes level below 3 alone later (fun _ dealings w' call' => dealings = [] ∧ w' = w ∧
      call' = { call with
        code := call.registers.desired.toList.map .drop ++ .revisit (w.word slot) :: rest
        registers := { call.registers with desired := none } }) w call := by
  have word : call.slot.bind w.word = w.word slot := by rw [acts, Option.bind_some]
  refine .gives_way staged head id [.once (w.word slot)] [] (fun _ _ => word ▸ .read_weak) (fun _ => rfl)
    fun _ _ _ tries => ?_
  refine Comes.bind (misses_comes tries.staged acts rfl differs) fun _ _ _ w _ _ misses there => ?_
  obtain ⟨rfl, rfl, rfl⟩ := there
  exact empties_comes misses.staged rfl

theorem falls_comes (staged : Staged level below w call) (acts : call.slot = some slot)
    (head : call.code = .read .weak :: rest) (differs : w.word slot ≠ call.registers.expected) :
    Comes level below 4 False later (fun _ dealings w₁ call₁ =>
      dealings = releases (w.objectId call.registers.desired) ∧
      Staged level below w { call with
        code := call.registers.desired.toList.map .drop ++ .revisit (w.word slot) :: rest
        registers := { call.registers with desired := none } } ∧
      Gave call.registers.desired level below w { call with
        code := .revisit (w.word slot) :: rest
        registers := { call.registers with desired := none } } w₁ call₁) w call := by
  refine Comes.within (?_ : Comes level below (1 + 3) False _ _ _ _) (by omega)
  refine Comes.bind (yields_comes staged acts head differs) fun _ _ _ _ _ _ lost there => ?_
  obtain ⟨rfl, rfl, rfl⟩ := there
  refine (gives_comes lost.staged rfl False.elim).imp ?_
  rintro _ _ _ _ ⟨dealt, gave, -⟩
  exact ⟨dealt, lost.staged, gave⟩

theorem again_comes (staged : Staged level below w call) (acts : call.slot = some slot)
    (head : call.code = .revisit seen :: rest) (holds : w.word slot = seen)
    (differs : seen ≠ call.registers.expected) :
    Comes level below 9 alone later (fun _ dealings w' call' =>
      dealings = .looked :: loads (w.objectId seen) ∧ (∃ unused, w.Took unused seen w') ∧
      call' = { call with
        code := call.registers.expected.toList.map .drop ++ rest
        registers := { call.registers with observed := none, expected := seen } }) w call := by
  have word : call.slot.bind w.word = seen := by rw [acts, Option.bind_some, holds]
  refine Comes.bind (differs_comes staged head differs) fun _ _ _ w _ _ looked there => ?_
  obtain ⟨rfl, rfl, rfl⟩ := there
  refine Comes.bind (took_comes looked.staged rfl word) fun _ _ _ w₁ _ _ took there => ?_
  obtain ⟨rfl, counted, rfl⟩ := there
  refine (replaces_comes took.staged rfl).imp ?_
  rintro _ _ _ _ ⟨rfl, rfl, rfl⟩
  exact ⟨by simp, counted, rfl⟩

section Mirror

variable {w₁ w₂ : World} {call₁ : Call} {choices : List Choice} {ref : Ref}

/-- A slot that holds the same object has kept it alive all the time. -/
theorem Segment.holds (segment : Segment level below w call choices w₁ call₁)
    (staged : Staged level below w call)
    (same : w₁.objectId (w₁.word slot) = w.objectId (w.word slot)) :
    w₁.word slot = w.word slot ∧ ∀ id, w.objectId (w.word slot) = some id → w₁.heap.Lives id := by
  have counts : w₁.Counts (w₁.word slot) := segment.staged.sound.counted.counts_word slot
  have lives (id : Nat) (named : w.objectId (w.word slot) = some id) : w₁.heap.Lives id := by
    rw [← same] at named
    cases word : w₁.word slot with
    | none =>
      rw [word] at named
      contradiction
    | some addr =>
      rw [word] at named counts
      obtain ⟨object, live, id'⟩ := World.objectId_of_counts counts
      obtain rfl := Option.some.inj (named.symm.trans id')
      exact .of_live? live
  obtain ⟨counts', names⟩ :=
    run_stays staged.sound segment.ran (staged.sound.counted.counts_word slot) lives
  exact ⟨World.objectId_inj segment.staged.sound.numbered counts counts' (same.trans names.symm), lives⟩

theorem World.Took.unique {unused' : Bool} (took : w.Took unused ref w₁) (spare : w.Spare unused' ref w₂)
    (nothing : ref = none → unused' = false) (used : ref ≠ none → w₂.registry = Registry.sole) :
    w₂ = w₁ := by
  obtain ⟨heap, registry, words, slots, handles⟩ := took.spare
  obtain ⟨heap', registry', words', slots', handles'⟩ := spare
  have heaps : w₂.heap = w₁.heap := by
    cases ref with
    | none => exact heap'.trans heap.symm
    | some addr => exact Option.some.inj (heap'.symm.trans heap)
  have registries : w₂.registry = w₁.registry := by
    by_cases empty : ref = none
    · rw [took.nothing empty] at registry
      rw [nothing empty] at registry'
      exact registry'.trans registry.symm
    · exact (used empty).trans (took.used empty).symm
  obtain ⟨⟩ := w₂
  obtain ⟨⟩ := w₁
  rw [World.mk.injEq]
  exact ⟨heaps, registries, words'.trans words.symm, slots'.trans slots.symm, handles'.trans handles.symm⟩

theorem Segment.sole (segment : Segment level below w call choices w₁ call₁)
    (staged : Staged level below w call) (used : w.registry = Registry.sole)
    (idle : w₁.registry.Idle) : w₁.registry = Registry.sole := by
  refine idle.resolve_left fun fresh => ?_
  have nodes : w.registry.nodes.length ≤ w₁.registry.nodes.length := (run_lasts staged.sound segment.ran).nodes
  rw [used, fresh] at nodes
  exact absurd nodes (by decide)

/-- The strong exchange does what the weak one has done if what was read is still in the slot when the
value that was passed is gone. -/
theorem mirrored (staged : Staged level below w call) (acts : call.slot = some slot)
    (head : call.code = .read .weak :: rest) (differs : w.word slot ≠ call.registers.expected)
    (lost : Staged level below w { call with
      code := call.registers.desired.toList.map .drop ++ .revisit (w.word slot) :: rest
      registers := { call.registers with desired := none } })
    (gave : Gave call.registers.desired level below w { call with
      code := .revisit (w.word slot) :: rest
      registers := { call.registers with desired := none } } w₁ call₁)
    (lives : ∀ id, w.objectId (w.word slot) = some id → w₁.heap.Lives id)
    (took : w₁.Took unused (w.word slot) w₂)
    (again : Staged level below w₂ { call₁ with
      code := call₁.registers.expected.toList.map .drop ++ rest
      registers := { call₁.registers with observed := none, expected := w.word slot } })
    (gave' : Gave call₁.registers.expected level below w₂ { call₁ with
      code := rest
      registers := { call₁.registers with observed := none, expected := w.word slot } } w' call') :
    ∃ choices events, Segment level below w { call with code := .read .strong :: rest } choices w'
      { call' with events } := by
  have begun := staged.strong head
  obtain ⟨choices, w₀, call₀, first, -, ⟨unused₀, took₀⟩, rfl⟩ :=
    (keeps_comes begun acts rfl differs).reach begun
  -- The destructor of what was passed.
  obtain ⟨unused', w₂', events, still, gave₀, spare⟩ := gave.twin lost rfl first.staged rfl rfl took₀.spare
    (staged.sound.counted.counts_word slot) lives
  obtain ⟨choices', second⟩ := gave₀.segment first.staged rfl
  obtain rfl : w₂' = w₂ := took.unique spare (fun empty => still (took₀.nothing empty)) fun some =>
    second.sole first.staged (took₀.used some) (second.staged.meets rfl)
  obtain ⟨told, rfl⟩ := gave.told
  obtain ⟨choices'', _, _, third, -, -, rfl, rfl⟩ := (replaces_comes second.staged rfl).reach second.staged
  -- The destructor of what was expected.
  obtain ⟨unused'', w₃, events', still', gave₁, spare'⟩ :=
    gave'.twin again rfl third.staged rfl rfl (.refl _) nofun nofun
  rw [still' rfl] at spare'
  obtain rfl := spare'.eq
  obtain ⟨choices₃, fourth⟩ := gave₁.segment third.staged rfl
  obtain ⟨told', rfl⟩ := gave'.told
  exact ⟨_, events', first.trans (second.trans (third.trans fourth))⟩

/-- What a weak exchange finds: nothing if the slot was empty at the try, and else what the slot holds
when the value that was passed is gone. -/
def World.sighted (w : World) (slot : SlotId) (w₁ : World) : Ref := (w.word slot).bind fun _ => w₁.word slot

/-- A weak compare-exchange that has not taken place. In the world `w₁` the value that was passed is
gone. A reference to what is found is counted and takes the place of the expected one, unless the
expected object itself is found. -/
structure Missed (slot : SlotId) (w : World) (passed : Registers) (w₁ : World)
    (dealings : List Dealing) (w' : World) (call' : Call) : Prop where
  exchanged : call'.exchanged = false
  desired : call'.registers.desired = none
  expected : call'.registers.expected = w.sighted slot w₁
  names : w'.objectId (w.sighted slot w₁) = w₁.objectId (w.sighted slot w₁)
  dealt : ∃ looks ≤ 2, dealings = releases (w.objectId passed.desired) ++ (List.replicate looks .looked ++
    if w₁.objectId (w.sighted slot w₁) = w.objectId passed.expected then []
    else loads (w₁.objectId (w.sighted slot w₁)) ++ releases (w.objectId passed.expected))

theorem Lapsed.missed {dealings : List Dealing}
    (lapsed : Lapsed slot (w.word slot) rest w₁ call₁ dealings w' call')
    (staged₁ : Staged level below w₁ call₁) (untried : call₁.exchanged = false)
    (registers : call₁.registers = { call.registers with desired := none })
    (names : w₁.objectId call.registers.expected = w.objectId call.registers.expected)
    (differs : w.word slot ≠ call.registers.expected) :
    Missed slot w call.registers w₁ (releases (w.objectId call.registers.desired) ++ dealings) w' call' := by
  have expected : call₁.registers.expected = call.registers.expected := by rw [registers]
  have desired : call₁.registers.desired = none := by rw [registers]
  have counts : w₁.Counts call.registers.expected := expected ▸ staged₁.counts .expected
  have word : w₁.Counts (w₁.word slot) := staged₁.sound.counted.counts_word slot
  cases lapsed with
  | same looks two nothing again kept =>
    -- The slot has differed before, so a destructor has put the expected object there.
    have again : w₁.word slot = call.registers.expected := by
      rw [← expected]
      exact again.resolve_left (expected ▸ differs)
    obtain ⟨addr, seen⟩ : ∃ addr, w.word slot = some addr :=
      Option.ne_none_iff_exists'.mp fun empty => differs (empty.trans (expected ▸ (nothing empty).symm))
    have finds : w.sighted slot w₁ = call.registers.expected := by
      rw [World.sighted, seen, Option.bind_some, again]
    refine ⟨untried, desired, expected.trans finds.symm, ?_, looks, two, ?_⟩
    · rw [finds, ← expected]
      exact kept .expected
    · rw [finds, if_pos names, List.append_nil]
  | emptied nothing some kept =>
    have finds : w.sighted slot w₁ = none := by
      rw [World.sighted, nothing, Option.bind_none]
    refine ⟨untried, desired, finds.symm, by rw [finds]; rfl, 1, by omega, ?_⟩
    have differ : w₁.objectId none ≠ w.objectId call.registers.expected := fun same =>
      some (expected.trans (Scene.ref_eq_none counts (names.trans same.symm)))
    rw [finds, if_neg differ, expected, names]
    rfl
  | found looks two some differ kept =>
    have finds : w.sighted slot w₁ = w₁.word slot := by
      obtain ⟨addr, seen⟩ := Option.ne_none_iff_exists'.mp some
      rw [World.sighted, seen, Option.bind_some]
    have differ : w₁.objectId (w₁.word slot) ≠ w.objectId call.registers.expected := fun same =>
      differ ((World.objectId_inj staged₁.sound.numbered word counts (same.trans names.symm)).trans
        expected.symm)
    refine ⟨untried, desired, finds.symm, ?_, looks, two, ?_⟩
    · rw [finds]
      exact kept .expected
    · rw [finds, if_neg differ, expected, names, List.append_assoc]

end Mirror

/-- How a weak exchange has failed. The way to the moment at which the value that was passed is gone is
told first: no reference has been counted on it. If the slot then holds what it held at the try, the
strong exchange comes to the same world and to the same call, but for what is noted about the commands
of destructors. -/
def Strays (level : Level) (below : Thread) (slot : SlotId) (w : World) (call : Call)
    (strong rest : List Instruction) (done : List Choice) (dealings : List Dealing) (w' : World)
    (call' : Call) : Prop :=
  ∃ freed looking w₁ call₁, done = freed ++ looking ∧ Segment level below w call freed w₁ call₁ ∧
    (stage level below w call).dealings (solo freed) 0 below.length =
      releases (w.objectId call.registers.desired) ∧
    call₁.code = .revisit (w.word slot) :: rest ∧
    Missed slot w call.registers w₁ dealings w' call' ∧
    (w₁.objectId (w₁.word slot) = w.objectId (w.word slot) → ∃ choices events,
      Segment level below w { call with code := strong } choices w' { call' with events })

theorem weak_comes (staged : Staged level below w call) (acts : call.slot = some slot)
    (head : call.code = .read .weak :: rest) (differs : w.word slot ≠ call.registers.expected) :
    Comes level below 21 False later (fun done dealings w' call' => call'.code = rest ∧
      Strays level below slot w call (.read .strong :: rest) rest done dealings w' call') w call := by
  have untried : call.exchanged = false := staged.tidy.untried head rfl
  refine Comes.within (?_ : Comes level below (17 + 4) False _ _ _ _) (by omega)
  refine Comes.bind (falls_comes staged acts head differs).record fun freed _ _ w₁ call₁ _ segment there => ?_
  obtain ⟨⟨dealt, lost, gave⟩, -, told⟩ := there
  have dealt' := told.symm.trans dealt
  have names (register : Register) := gave.names lost.sound.counted.bounded lost.counts register
  obtain ⟨events, same⟩ := gave.told
  have staged₁ := segment.staged
  -- The destructor of the desired object can have put another object into the slot.
  by_cases held : w₁.objectId (w₁.word slot) = w.objectId (w.word slot)
  · obtain ⟨word, lives⟩ := segment.holds staged held
    subst same
    refine Comes.within (?_ : Comes level below (1 + 9) False _ _ _ _) (by omega)
    refine Comes.bind (again_comes staged₁ acts rfl word differs) fun _ _ _ w₂ _ _ again there => ?_
    obtain ⟨dealt₂, ⟨unused, took⟩, rfl⟩ := there
    refine (gives_comes again.staged rfl False.elim).imp ?_
    rintro _ _ w' call' ⟨dealt₃, gave', -⟩
    have mirror := mirrored staged acts head differs lost gave lives took again.staged gave'
    have names' := gave'.names again.staged.sound.counted.bounded again.staged.counts
    obtain ⟨events', rfl⟩ := gave'.told
    have finds : w.sighted slot w₁ = w.word slot := by
      rw [World.sighted, word]
      cases w.word slot <;> rfl
    have differ : w₁.objectId (w.word slot) ≠ w.objectId call.registers.expected := fun same =>
      differs (World.objectId_inj staged.sound.numbered (staged.sound.counted.counts_word slot)
        (staged.counts .expected) ((word ▸ held).symm.trans same))
    have expected : w₂.objectId call.registers.expected = w.objectId call.registers.expected :=
      (took.spare.objectId _).trans (names .expected)
    refine ⟨rfl, freed, _, w₁, _, rfl, segment, dealt', rfl, ⟨untried, rfl, finds.symm, ?_, 1, by omega, ?_⟩,
      fun _ => mirror⟩
    · rw [finds]
      exact (names' .expected).trans (took.spare.objectId _)
    · rw [finds, if_neg differ, dealt, dealt₂, dealt₃, ← expected]
      rfl
  · subst same
    refine (revisit_comes staged₁ acts rfl).imp ?_
    rintro looking _ w' call' lapsed
    have missed := lapsed.missed staged₁ untried rfl (names .expected) differs
    rw [← dealt] at missed
    refine ⟨?_, freed, looking, w₁, _, rfl, segment, dealt', rfl, missed, fun same => absurd same held⟩
    cases lapsed <;> rfl

/-- A weak compare-exchange in a single thread whose orders are admitted, from its beginning to its
return, when its slot does not hold the expected object, whatever the destruction of objects does
meanwhile. It returns false after a bounded number of its own steps and what the destructions take.
No reference is counted to an address unless the slot holds it at that moment. -/
theorem failed_weak_exchange_reports_slot {program : List Command} {before later : List Choice}
    {success : Order} {failure : Option LoadOrder} {order : LoadOrder} {noted : Note}
    {after refused : List Instruction} (solitary : ∀ command ∈ program, command.Solitary)
    (reached : (ofPrograms [program]).run (solo before) = .ok (stage level below w call))
    (acts : call.slot = some slot)
    (code : call.code = exchangeCode .weak success failure (.note noted :: after) refused)
    (admitted : Order.failureOrder success failure = .ok order)
    (differs : w.objectId (w.word slot) ≠ w.objectId call.registers.expected) :
    Comes level below 21 False later (fun done dealings w' call' => call'.code = .note noted :: after ∧
      Strays level below slot w call (exchangeCode .strong success failure (.note noted :: after) refused)
        (.note noted :: after) done dealings w' call' ∧
      ∀ moment ∈ (stage level below w call).moments (solo done), ∀ last purpose debt code,
        moment.call? 0 below.length = some last → last.code = .increment purpose debt :: code →
        last.slot.bind moment.before.world.word = some debt.addr) w call := by
  have admits (strength : Strength) : exchangeCode strength success failure (.note noted :: after) refused =
      .read (purposeOf strength) :: .note noted :: after := by
    rw [exchangeCode, admitted]
  have staged := staged_of_run solitary reached
  rw [admits]
  refine (weak_comes staged acts (code.trans (admits .weak)) fun same =>
    differs (congrArg w.objectId same)).record.imp ?_
  rintro done dealings w' call' ⟨⟨ends, strays⟩, -, dealt⟩
  refine ⟨ends, strays, fun moment member last purpose debt code own head => ?_⟩
  refine holds_of_dealings staged.sound (fun id told => ?_) member own head
  obtain ⟨_, _, _, _, -, -, -, -, missed, -⟩ := strays
  obtain ⟨looks, -, dealt'⟩ := missed.dealt
  rw [← dealt, dealt'] at told
  split at told <;> simp [loads, releases] at told

/-- The slot holds an object, nothing is expected, and the destruction of the value that is passed
destroys that object and puts another in its place. -/
theorem failed_weak_exchange_reports_slot_refilled :
    ∃ level below w call, (ofPrograms
        [[.mk (.create "s" (.fresh []) false) none,
          .mk (.compareAndExchange .weak "s" .nothing (.fresh [.mk (.store "s" (.fresh [])) none]) .seqCst
            none none) none]]).run (solo (List.replicate 9 {})) = .ok (stage level below w call) ∧
      ∃ done rest w' call', List.replicate 30 {} = done ++ rest ∧
        Segment level below w call done w' call' ∧
        Strays level below 0 w call
          (exchangeCode .strong .seqCst none [.note (.object .expected), .release .expected]
            [.release .expected])
          [.note (.object .expected), .release .expected] done
          ((stage level below w call).dealings (solo done) 0 below.length) w' call' := by
  have solitary : ∀ command ∈ [Command.mk (.create "s" (.fresh []) false) none,
      .mk (.compareAndExchange .weak "s" .nothing (.fresh [.mk (.store "s" (.fresh [])) none]) .seqCst none
        none) none], command.Solitary := by
    have stores : (Command.mk (.store "s" (.fresh [])) none).Solitary := .mk nofun
    refine List.forall_mem_cons.mpr ⟨.mk nofun, List.forall_mem_singleton.mpr (.mk ?_)⟩
    exact List.forall_mem_singleton.mpr stores
  obtain ⟨level, below, w, call, m', reached, code, acts, differs, ends, call', top, returns⟩ :
      ∃ level below w call m', (ofPrograms
          [[.mk (.create "s" (.fresh []) false) none,
            .mk (.compareAndExchange .weak "s" .nothing (.fresh [.mk (.store "s" (.fresh [])) none]) .seqCst
              none none) none]]).run (solo (List.replicate 9 {})) = .ok (stage level below w call) ∧
        call.code = exchangeCode .weak .seqCst none
          (.note (.object .expected) :: [.release .expected]) [.release .expected] ∧
        call.slot = some 0 ∧ w.objectId (w.word 0) ≠ w.objectId call.registers.expected ∧
        (stage level below w call).run (solo (List.replicate 30 {})) = .ok m' ∧
        ∃ call', m'.threads[0]?.bind (·.innermost below.length) = some call' ∧ call'.Returns :=
    ⟨{ role := .main, todo := [], records := _ }, [], _, _, _, rfl, rfl, rfl, by decide, rfl, _, rfl,
      _, _, rfl⟩
  refine ⟨level, below, w, call, reached, ?_⟩
  rcases failed_weak_exchange_reports_slot solitary reached acts code rfl differs with
    ⟨done, rest, w', call', same, segment, -, -, -, strays, -⟩ | ⟨-, -, -, last⟩
  · exact ⟨done, rest, w', call', same, segment, strays⟩
  · obtain ⟨thread, only, never⟩ := last m' ends
    rw [only] at top
    exact absurd returns (never call' top)

end SharedCells.Slot
