import SharedCells.Proofs.Slot.Lapses

/-! An update goes round until its exchange takes place.

In each lap the updating function is called with the current value, and may run
any commands before it returns the next one. A lap whose exchange fails gives up
what the function has returned, and goes on with what the slot holds then. -/

set_option autoImplicit false

namespace SharedCells.Slot

open Machine Dealing

/-- A lap of an update whose exchange has failed. -/
structure Lap where
  /-- The argument of the call. -/
  current : Option Nat
  /-- What the call has returned. -/
  value : Option Nat
  /-- How often the slot was looked at again. -/
  looks : Nat
  /-- The argument of the next call. -/
  next : Option Nat
  deriving DecidableEq, Repr

/-- What an update does in a lap. It keeps a second reference to the current value until the end of the
lap; the first one gives way to what the slot holds after the try, unless that is the current value. -/
def Lap.dealings (lap : Lap) : List Dealing :=
  [called lap.current, received lap.value] ++ retains lap.current ++ releases lap.value ++
    List.replicate lap.looks looked ++
    (if lap.next = lap.current then [] else loads lap.next ++ releases lap.current) ++
    releases lap.current

theorem Lap.countP_dealings (lap : Lap) : lap.dealings.countP Dealing.isExchange = 0 := by
  have looks : (List.replicate lap.looks looked).countP Dealing.isExchange = 0 := by
    rw [List.countP_replicate]
    rfl
  unfold dealings
  split <;> simp [List.countP_append, looks, Dealing.isExchange]

/-- Each lap goes on with what the last one has found. -/
inductive Laps : Option Nat → List Lap → Option Nat → Prop where
  | nil (current : Option Nat) : Laps current [] current
  | cons (lap : Lap) {laps : List Lap} {last : Option Nat} :
      lap.looks ≤ 2 → Laps lap.next laps last → Laps lap.current (lap :: laps) last

variable {level : Level} {below : Thread} {w : World} {call : Call} {rest : List Instruction}
  {later : List Choice} {slot : SlotId} {seen : Ref}

section Value

variable {t turn : Turn} {choice : Choice} {inUse : SlotId → Bool} {register : Register} {ref : Ref}

theorem Turn.assign_call (empty : t.get register = none) : (t.assign register ref).call =
    { t.call with registers := t.call.registers.set register ref } := by
  rw [assign, empty]
  rfl

theorem Turn.retainInto_of_empty (empty : t.get register = none)
    (ran : t.retainInto register ref = .ok turn) :
    turn.call = { t.call with registers := t.call.registers.set register ref } ∧
      turn.above = t.above ∧ ∀ other, turn.world.objectId other = t.world.objectId other := by
  rcases retainInto_cases ran with ⟨rfl, rfl⟩ | ⟨addr, heap, rfl, retained, rfl⟩
  · exact ⟨assign_call empty, rfl, fun _ => rfl⟩
  · exact ⟨assign_call empty, rfl, fun other => objectId_of_retained retained other⟩

theorem Turn.run_evaluate {v : Value} (empty : t.get .desired = none)
    (ran : t.run choice inUse (.evaluate v .desired) = .ok turn) :
    ∃ ref, turn.call = { t.call with registers := t.call.registers.set .desired ref } ∧
      turn.above = t.above ∧ turn.world.objectId ref = v.object t.world := by
  cases goes_of_run ran with
  | gives_way gives => cases gives
  | nothing => exact ⟨none, assign_call empty, rfl, rfl⟩
  | handle_copy ran =>
    obtain ⟨call, above, same⟩ := Turn.retainInto_of_empty empty ran
    exact ⟨_, call, above, same _⟩
  | handle_take handle => exact ⟨t.world.handles.get? handle, assign_call empty, rfl, rfl⟩
  | fresh onDrop =>
    refine ⟨some (t.world.heap.create choice.addr onDrop).1, assign_call empty, rfl, ?_⟩
    have there := (t.world.heap.find?_create (t.world.heap.create choice.addr onDrop).1 choice.addr
      onDrop).trans (if_pos rfl)
    exact congrArg (Option.map (·.id)) there

end Value

theorem Instruction.offer_gives_way (u : Updating) (n : Nat) : ∃ returned,
    (returned = .copy .expected .desired ∨ ∃ v, returned = .evaluate v .desired) ∧
    ∀ (t : Turn) (choice : Choice) (inUse : SlotId → Bool), t.GivesWay choice inUse (.offer u n)
      [returned, .copy .expected .kept, .read .weak, .verdict u n] := by
  cases answer : u.answer n with
  | same => exact ⟨_, .inl rfl, fun _ _ _ => .offer_same answer⟩
  | value v => exact ⟨_, .inr ⟨v, rfl⟩, fun _ _ _ => .offer_value answer⟩

theorem received_comes {i : Instruction} (staged : Staged level below w call)
    (head : call.code = i :: rest) (empty : call.registers.desired = none)
    (returned : i = .copy .expected .desired ∨ ∃ v, i = .evaluate v .desired) :
    Comes level below 1 False later (fun _ dealings w' call' => ∃ ref,
      dealings = [received (w'.objectId ref)] ∧
      call' = { call with code := rest, registers := { call.registers with desired := ref } } ∧
      w'.objectId call.registers.expected = w.objectId call.registers.expected) w call := by
  have empty : Turn.get { world := w, call := { call with code := rest } } .desired = none := empty
  rcases returned with rfl | ⟨v, rfl⟩
  · refine .goes staged head id (fun choice inUse turn ran => ?_)
      fun choice inUse turn rest _ ran segment => ?_
    · exact (Turn.retainInto_of_empty empty ran).2.1
    · obtain ⟨same, -, names⟩ := Turn.retainInto_of_empty empty ran
      refine .here segment.staged ⟨call.registers.expected, ?_, same, names _⟩
      exact congrArg (fun object => [received object]) (names _).symm
  · refine .goes staged head id (fun choice inUse turn ran => ?_)
      fun choice inUse turn rest _ ran segment => ?_
    · obtain ⟨_, -, above, -⟩ := Turn.run_evaluate empty ran
      exact above
    · obtain ⟨ref, same, -, names⟩ := Turn.run_evaluate empty ran
      refine .here segment.staged ⟨ref, ?_, same, segment.objectId staged (staged.counts .expected)⟩
      exact congrArg (fun object => [received object]) names.symm

theorem copied_comes (staged : Staged level below w call)
    (head : call.code = .copy .expected .kept :: rest) (empty : call.registers.kept = none) :
    Comes level below 1 False later (fun _ dealings w' call' =>
      dealings = retains (w.objectId call.registers.expected) ∧
      call' = { call with
        code := rest
        registers := { call.registers with kept := call.registers.expected } } ∧
      ∀ ref, w'.objectId ref = w.objectId ref) w call := by
  have empty : Turn.get { world := w, call := { call with code := rest } } .kept = none := empty
  refine .goes staged head id (fun choice inUse turn ran => ?_)
    fun choice inUse turn rest _ ran segment => ?_
  · exact (Turn.retainInto_of_empty empty ran).2.1
  · obtain ⟨same, -, names⟩ := Turn.retainInto_of_empty empty ran
    exact .here segment.staged ⟨List.append_nil _, same, names⟩

theorem Lapsed.next {dealings : List Dealing} {w' : World} {call' : Call}
    (lapsed : Lapsed slot seen rest w call dealings w' call') (staged : Staged level below w call) :
    ∃ ref looks events, looks ≤ 2 ∧
      call' = { call with code := rest, registers := { call.registers with expected := ref }, events } ∧
      (∀ register, w'.objectId ({ call.registers with expected := ref }.get register) =
        w.objectId ({ call.registers with expected := ref }.get register)) ∧
      dealings = List.replicate looks .looked ++
        if w.objectId ref = w.objectId call.registers.expected then []
        else loads (w.objectId ref) ++ releases (w.objectId call.registers.expected) := by
  have names {ref : Ref} (counts : w.Counts ref)
      (differs : ref ≠ call.registers.expected) : w.objectId ref ≠ w.objectId call.registers.expected :=
    fun same => differs (World.objectId_inj staged.sound.numbered counts (staged.counts .expected) same)
  cases lapsed with
  | @same w' events looks le _ _ kept =>
    refine ⟨call.registers.expected, looks, events, le, rfl, kept, ?_⟩
    rw [if_pos rfl, List.append_nil]
  | @emptied w' events _ some kept =>
    refine ⟨none, 1, events, by omega, rfl, kept, ?_⟩
    rw [if_neg (names (fun _ holds => by contradiction) some.symm)]
    rfl
  | @found w' events looks le _ differs kept =>
    refine ⟨w.word slot, looks, events, le, rfl, kept, ?_⟩
    have differ : w.objectId (w.word slot) ≠ w.objectId call.registers.expected :=
      names (staged.sound.counted.counts_word slot) differs
    rw [if_neg differ, List.append_assoc]

/-- After some first steps of the schedule, the call on a level of thread `i` takes one object out of the
slot and puts another in its place. -/
structure Machine.Exchanges (m : Machine) (schedule : List (Nat × Choice)) (i depth : Nat)
    (slot : SlotId) (old new : Option Nat) (first : List (Nat × Choice)) (moment : Moment) : Prop where
  splits : ∃ second, schedule = first ++ (moment.thread, moment.choice) :: second
  ran : m.run first = .ok moment.before
  stepped : moment.before.step moment.thread moment.choice = .ok moment.after
  stores : moment.stores i depth = some slot
  held : moment.before.world.objectId (moment.before.world.word slot) = old
  given : moment.after.world.objectId (moment.after.world.word slot) = new

namespace Machine.Exchanges

variable {m m' : Machine} {first schedule more : List (Nat × Choice)} {i depth : Nat}
  {old new : Option Nat} {moment : Moment}

theorem append (exchanges : m.Exchanges schedule i depth slot old new first moment)
    (more : List (Nat × Choice)) :
    m.Exchanges (schedule ++ more) i depth slot old new first moment := by
  obtain ⟨second, rfl⟩ := exchanges.splits
  exact { exchanges with splits := ⟨second ++ more, List.append_assoc _ _ _⟩ }

theorem prepend (exchanges : m'.Exchanges more i depth slot old new first moment)
    (ran : m.run schedule = .ok m') :
    m.Exchanges (schedule ++ more) i depth slot old new (schedule ++ first) moment := by
  obtain ⟨second, rfl⟩ := exchanges.splits
  refine { exchanges with splits := ⟨second, (List.append_assoc _ _ _).symm⟩, ran := ?_ }
  rw [run_append ran, exchanges.ran]

theorem writes (exchanges : m.Exchanges schedule i depth slot old new first moment)
    (told : (m.dealings schedule i depth).countP Dealing.isExchange = 1) :
    m.writes schedule i depth = [moment] := by
  obtain ⟨second, rfl⟩ := exchanges.splits
  obtain ⟨only, single⟩ := List.length_eq_one_iff.mp (length_writes.trans told)
  have member : moment ∈ m.writes (first ++ (moment.thread, moment.choice) :: second) i depth := by
    refine List.mem_filter.mpr ⟨?_, by rw [exchanges.stores]; rfl⟩
    rw [moments_append exchanges.ran, moments_cons exchanges.stepped]
    exact List.mem_append_right _ List.mem_cons_self
  rw [single] at member ⊢
  rw [List.mem_singleton.mp member]

theorem last (exchanges : m.Exchanges schedule i depth slot old new first moment) (sound : m.Sound) :
    (((m.publications first slot).getLast?).map Publication.object).getD
      (m.world.objectId (m.world.word slot)) = old :=
  (objectId_word_of_run sound exchanges.ran slot).symm.trans exchanges.held

end Machine.Exchanges

/-- A try that takes place. -/
structure Won (slot : SlotId) (rest : List Instruction) (level : Level) (below : Thread) (w : World)
    (call : Call) (done : List Choice) (dealings : List Dealing) (w' : World) (call' : Call) : Prop where
  exchanges : ∃ first moment, (stage level below w call).Exchanges (solo done) 0 below.length slot
    (w.objectId call.registers.expected) (w.objectId call.registers.desired) first moment
  dealt : dealings = .exchanged (w.objectId call.registers.expected)
    (w.objectId call.registers.desired) :: releases (w.objectId call.registers.expected)
  ends : call' = { call with
    code := rest
    exchanged := true
    registers := { call.registers with desired := none } }
  names : ∀ ref, w'.objectId ref = w.objectId ref

/-- A try that fails. What was passed is given up, and the expected object gives way to what is found. -/
structure Lost (rest : List Instruction) (w : World) (call : Call) (dealings : List Dealing) (w' : World)
    (call' : Call) (looks : Nat) : Prop where
  few : looks ≤ 2
  ends : ∃ ref events, call' = { call with
    code := rest
    registers := { call.registers with desired := none, expected := ref }
    events }
  kept : w'.objectId call.registers.kept = w.objectId call.registers.kept
  dealt : dealings = releases (w.objectId call.registers.desired) ++ List.replicate looks .looked ++
    if w'.objectId call'.registers.expected = w.objectId call.registers.expected then []
    else loads (w'.objectId call'.registers.expected) ++ releases (w.objectId call.registers.expected)

theorem won_comes (staged : Staged level below w call) (acts : call.slot = some slot)
    {w₁ : World} {call₁ : Call} {choice : Choice}
    (segment : Segment level below w call [choice] w₁ call₁)
    (stores : Moment.stores ⟨stage level below w call, 0, choice, stage level below w₁ call₁⟩ 0
      below.length = some slot)
    (same : w.word slot = call.registers.expected)
    (world : w₁ = w.setWord slot call.registers.desired)
    (next : call₁ = { call with
      code := call.registers.expected.toList.map (.pay · .start) ++ .release .observed :: rest
      exchanged := true
      registers := { call.registers with desired := none, observed := call.registers.expected } })
    (empty : call.registers.observed = none) :
    Comes level below 12 False later (fun done dealings => Won slot rest level below w call
      (choice :: done) (.exchanged (w.objectId call.registers.expected)
        (w.objectId call.registers.desired) :: dealings)) w₁ call₁ := by
  subst next
  refine (displaced_comes segment.staged rfl rfl rfl).mono (Nat.le_refl _) False.elim ?_
  rintro done _ w' _ ⟨rfl, rfl, heap, rfl, given⟩
  have named (ref : Ref) : w₁.objectId ref = w.objectId ref := by rw [world]; rfl
  have word : w₁.word slot = call.registers.desired := by
    rw [world, World.word_setWord (staged.bound acts), if_pos rfl]
  refine ⟨⟨[], _, ⟨⟨solo done, rfl⟩, rfl, segment.stepped staged, stores, congrArg _ same, ?_⟩⟩, ?_, ?_,
    fun ref => given.objectId.trans (named ref)⟩
  · exact (named _).trans (congrArg _ word)
  · rw [named]
  · rw [← empty]

theorem lost_comes (staged : Staged level below w call) (acts : call.slot = some slot)
    (head : call.code = .release .desired :: .revisit seen :: rest) :
    Comes level below 19 False later (fun _ dealings w' call' => ∃ looks,
      Lost rest w call dealings w' call' looks) w call := by
  refine Comes.bind (release_comes staged head False.elim) fun _ _ _ w₁ _ _ released there => ?_
  obtain ⟨rfl, ⟨events, rfl⟩, names, -⟩ := there
  refine (revisit_comes released.staged acts rfl).imp ?_
  intro _ dealings w' call' lapsed
  obtain ⟨ref, looks, events, few, rfl, still, rfl⟩ := lapsed.next released.staged
  have expected : w₁.objectId call.registers.expected = w.objectId call.registers.expected :=
    names .expected
  refine ⟨looks, few, ⟨ref, events, rfl⟩, (still .kept).trans (names .kept), ?_⟩
  have found : w'.objectId ref = w₁.objectId ref := still .expected
  dsimp only
  rw [List.append_assoc, found, ← expected]
  rfl

theorem Turn.once_fails {t : Turn} {choice : Choice} {inUse : SlotId → Bool}
    (acts : t.call.slot = some slot)
    (fails : ¬ (t.world.word slot = t.get .expected ∧ choice.spurious = false)) :
    GivesWay choice inUse t (.once (t.world.word slot))
      [.release .desired, .revisit (t.world.word slot)] := by
  by_cases same : t.world.word slot = t.get .expected
  · exact .once_lost acts same fails
  · exact .once_differs acts same

/-- The one try of a weak exchange. It may fail for no reason. -/
theorem try_comes (staged : Staged level below w call) (acts : call.slot = some slot)
    (head : call.code = .once (w.word slot) :: rest) :
    Comes level below 20 False later (fun done dealings w' call' =>
      Won slot rest level below w call done dealings w' call' ∨
        ∃ looks, Lost rest w call dealings w' call' looks) w call := by
  have empty : call.registers.observed = none := staged.tidy.reads head trivial
  let t : Turn := { world := w, call := { call with code := rest } }
  refine Comes.goes staged head id (fun choice inUse turn ran => ?_)
    fun choice inUse turn more _ ran segment => ?_
  · by_cases wins : w.word slot = call.registers.expected ∧ choice.spurious = false
    · obtain rfl := Turn.eq_of_goes ran (.once_won acts wins.1 wins.1 wins.2)
      rfl
    · obtain rfl := Turn.eq_of_givesWay ran (Turn.once_fails acts wins)
      rfl
  by_cases wins : w.word slot = call.registers.expected ∧ choice.spurious = false
  · have stores : (Instruction.once (w.word slot)).stores choice t = some slot :=
      stores_once_of_eq acts wins.1 wins.1 wins.2
    rw [Instruction.dealings_of_stores stores]
    obtain rfl := Turn.eq_of_goes ran (.once_won acts wins.1 wins.1 wins.2)
    rw [Turn.publish_expected (t := t) empty] at segment ⊢
    refine (won_comes staged acts segment
      ((Moment.stores_of_acts stage_acts head).trans stores) wins.1 rfl rfl empty).mono (by omega) id ?_
    intro done dealings w' call' won
    exact .inl (wins.1 ▸ won)
  · rw [dealings_once_of_fails (t := t) acts fun won => wins ⟨won.1, won.2.2⟩]
    obtain rfl := Turn.eq_of_givesWay ran (Turn.once_fails acts wins)
    have head : (t.before [.release .desired, .revisit (w.word slot)]).call.code =
      .release .desired :: .revisit (w.word slot) :: rest := rfl
    refine (lost_comes segment.staged acts head).imp ?_
    rintro _ _ _ _ ⟨looks, lost⟩
    exact .inr ⟨looks, lost.few, lost.ends, lost.kept, lost.dealt⟩

/-- An update that is about to call its function for the n-th time. -/
structure Call.Laps (u : Updating) (n : Nat) (slot : SlotId) (call : Call) : Prop where
  code : call.code = [.consult u n]
  acts : call.slot = some slot
  exchanged : call.exchanged = false
  registers : call.registers = { expected := call.registers.expected }

/-- How an update ends. The slot's reference to the old object is given up, and so is the one by which
the call has known it; the one that was counted besides is left. -/
structure Ended (slot : SlotId) (u : Updating) (old new : Option Nat) (level : Level) (below : Thread)
    (w : World) (call : Call) (done : List Choice) (dealings : List Dealing) (w' : World) (call' : Call) :
    Prop where
  exchanges : ∃ first moment, (stage level below w call).Exchanges (solo done) 0 below.length slot old
    new first moment
  dealt : dealings = [called old, received new] ++ retains old ++ [.exchanged old new] ++
    releases old ++ releases old
  code : call'.code = .note .updated :: deliver u.into .kept
  registers : call'.registers = { kept := call'.registers.kept }
  kept : w'.objectId call'.registers.kept = old

variable {u : Updating} {n : Nat}

theorem called_comes (staged : Staged level below w call) (laps : call.Laps u n slot) :
    Comes level below 1 False later (fun _ dealings w' call' => ∃ seen events,
      dealings = [called (w.objectId call.registers.expected)] ∧
      call' = { call with code := [.offer u n], seen, events } ∧
      w'.objectId call.registers.expected = w.objectId call.registers.expected) w call := by
  refine Comes.step staged laps.code id (fun _ _ _ _ _ => False.elim)
    fun choice inUse turn more _ w₁ call₁ _ ran _ waited segment => ?_
  obtain rfl := Turn.eq_of_goes ran (.consult u n)
  obtain ⟨events, rfl⟩ := waited.told
  exact .here segment.staged ⟨_, events, List.append_nil _, rfl, waited.names .expected⟩

/-- The function returns a value, and the slot is read. -/
theorem offered_comes (staged : Staged level below w call) (acts : call.slot = some slot)
    (head : call.code = [.offer u n]) (desired : call.registers.desired = none)
    (kept : call.registers.kept = none) :
    Comes level below 4 False later (fun _ dealings w' call' => ∃ ref,
      dealings = received (w'.objectId ref) :: retains (w.objectId call.registers.expected) ∧
      call' = { call with
        code := [.once (w'.word slot), .verdict u n]
        registers := { call.registers with desired := ref, kept := call.registers.expected } } ∧
      w'.objectId call.registers.expected = w.objectId call.registers.expected) w call := by
  obtain ⟨returned, evaluates, gives⟩ := Instruction.offer_gives_way u n
  refine .gives_way staged head id [returned, .copy .expected .kept, .read .weak, .verdict u n] []
    (gives _) (fun _ => rfl) fun _ _ _ answers => ?_
  refine Comes.bind (received_comes answers.staged rfl desired evaluates)
    fun _ _ _ w₁ _ _ copies there => ?_
  obtain ⟨ref, rfl, rfl, named⟩ := there
  refine Comes.bind (copied_comes copies.staged rfl kept) fun _ _ _ w₂ _ _ reads there => ?_
  obtain ⟨rfl, rfl, same⟩ := there
  have word : call.slot.bind w₂.word = w₂.word slot := by rw [acts, Option.bind_some]
  refine .gives_way reads.staged rfl id [.once (w₂.word slot)] [] (fun _ _ => word ▸ .read_weak)
    (fun _ => rfl) fun _ _ _ tries => ?_
  refine .here tries.staged ⟨ref, ?_, rfl, (same _).trans named⟩
  rw [same ref, ← named]
  exact congrArg (received (w₁.objectId ref) :: ·) (List.append_nil _)

theorem accepted_comes (staged : Staged level below w call) (head : call.code = [.verdict u n])
    (won : call.exchanged = true) :
    Comes level below 3 False later (fun _ dealings w' call' =>
      dealings = releases (w.objectId call.registers.expected) ∧
      (∃ events, call' = { call with
        code := .note .updated :: deliver u.into .kept
        registers := { call.registers with expected := none }
        events }) ∧
      w'.objectId call.registers.kept = w.objectId call.registers.kept) w call := by
  refine .gives_way staged head id (.release .expected :: .note .updated :: deliver u.into .kept) []
    (fun _ _ => .verdict_won u n won) (fun _ => rfl) fun _ _ _ releases => ?_
  rw [List.append_nil] at releases ⊢
  refine (release_comes releases.staged rfl False.elim).imp ?_
  rintro _ _ w' _ ⟨rfl, ⟨events, rfl⟩, names, -⟩
  exact ⟨rfl, ⟨events, rfl⟩, names .kept⟩

/-- After a try that has failed the update gives up the second reference to the value that was current,
and begins another lap. -/
theorem refused_lap_comes (staged : Staged level below w call) (head : call.code = [.verdict u n])
    (lost : call.exchanged = false) :
    Comes level below 3 False later (fun _ dealings w' call' =>
      dealings = releases (w.objectId call.registers.kept) ∧
      (∃ events, call' = { call with
        code := [.consult u (n + 1)]
        registers := { call.registers with kept := none }
        events }) ∧
      w'.objectId call.registers.expected = w.objectId call.registers.expected) w call := by
  refine .gives_way staged head id [.release .kept, .consult u (n + 1)] []
    (fun _ _ => .verdict_lost u n lost) (fun _ => rfl) fun _ _ _ releases => ?_
  refine (release_comes releases.staged rfl False.elim).imp ?_
  rintro _ _ w' _ ⟨rfl, ⟨events, rfl⟩, names, -⟩
  exact ⟨rfl, ⟨events, rfl⟩, names .expected⟩

/-- The update ends with this lap, or goes on with another. -/
theorem lap_comes (staged : Staged level below w call) (laps : call.Laps u n slot) :
    Comes level below 28 False later (fun done dealings w' call' =>
      (∃ lap : Lap, lap.current = w.objectId call.registers.expected ∧ lap.looks ≤ 2 ∧
        lap.next = w'.objectId call'.registers.expected ∧ dealings = lap.dealings ∧
        call'.Laps u (n + 1) slot) ∨
      ∃ new, Ended slot u (w.objectId call.registers.expected) new level below w call done dealings w'
        call') w call := by
  obtain ⟨-, acts, exchanged, registers⟩ := id laps
  have desired : call.registers.desired = none := by rw [registers]
  have observed : call.registers.observed = none := by rw [registers]
  have kept : call.registers.kept = none := by rw [registers]
  -- A lap calls the closure, takes its offer and tries to exchange it.
  refine Comes.bind (called_comes staged laps) fun first _ _ w₁ _ _ called there => ?_
  obtain ⟨seen, events, rfl, rfl, named₁⟩ := there
  refine Comes.bind (offered_comes called.staged acts rfl desired kept)
    fun second _ _ w₂ _ _ offered there => ?_
  obtain ⟨ref, rfl, rfl, named₂⟩ := there
  dsimp only at named₂
  have current : w₂.objectId call.registers.expected = w.objectId call.registers.expected :=
    named₂.trans named₁
  refine Comes.bind (try_comes offered.staged acts rfl) fun third _ _ w₃ call₃ _ tried there => ?_
  rcases there with won | ⟨looks, lost⟩
  · obtain ⟨⟨before, moment, exchanges⟩, dealt, ends, names⟩ := won
    dsimp only at exchanges dealt ends
    rw [current] at exchanges dealt
    subst dealt ends
    refine (accepted_comes tried.staged rfl rfl).imp ?_
    rintro fourth _ w' _ ⟨rfl, ⟨events, rfl⟩, kept⟩
    dsimp only at kept ⊢
    have old : w₃.objectId call.registers.expected = w.objectId call.registers.expected :=
      (names _).trans current
    refine .inr ⟨w₂.objectId ref, ?_, ?_, rfl, ?_, kept.trans old⟩
    · simp only [solo_append]
      exact ⟨_, moment, ((exchanges.append (solo fourth)).prepend offered.ran).prepend called.ran⟩
    · rw [old, named₁]
      simp
    · rw [observed]
  · obtain ⟨few, ⟨next, events, rfl⟩, same, dealt⟩ := lost
    dsimp only at same dealt
    subst dealt
    refine (refused_lap_comes tried.staged rfl exchanged).imp ?_
    rintro fourth _ w' _ ⟨rfl, ⟨events, rfl⟩, found⟩
    dsimp only at found ⊢
    refine .inl ⟨⟨w.objectId call.registers.expected, w₂.objectId ref, looks, w'.objectId next⟩, rfl, few,
      rfl, ?_, rfl, acts, exchanged, ?_⟩
    · rw [Lap.dealings, same, found, current, named₁]
      simp
    · rw [observed]

/-- An update that returns has gone through some laps and ended in another. The induction is on how many
choices are left; a lap takes at least the call of the function. -/
theorem ended_of_returns {done : List Choice} {w' : World} {call' : Call}
    (staged : Staged level below w call) (laps : call.Laps u n slot)
    (segment : Segment level below w call done w' call') (returns : call'.Returns) :
    ∃ past last w₁ call₁ failed old new, done = past ++ last ∧ Segment level below w call past w₁ call₁ ∧
      Laps (w.objectId call.registers.expected) failed old ∧
      (stage level below w call).dealings (solo past) 0 below.length = failed.flatMap Lap.dealings ∧
      Ended slot u old new level below w₁ call₁ last
        ((stage level below w₁ call₁).dealings (solo last) 0 below.length) w' call' := by
  induction size : done.length using Nat.strongRecOn generalizing w call done n with
  | ind count ih =>
    obtain ⟨first, rest, w₁, call₁, rfl, goes, there, onward⟩ :=
      (lap_comes staged laps).of_returns segment returns
    rcases there with ⟨lap, current, few, next, dealt, again⟩ | ⟨new, ended⟩
    · have steps : first ≠ [] := by
        rintro rfl
        contradiction
      have shorter : rest.length < count := by
        rw [← size, List.length_append]
        exact Nat.lt_add_of_pos_left (List.length_pos_of_ne_nil steps)
      obtain ⟨past, last, w₂, call₂, failed, old, new, rfl, segment₂, chain, dealt₂, ended⟩ :=
        ih rest.length shorter goes.staged again onward rfl
      refine ⟨first ++ past, last, w₂, call₂, lap :: failed, old, new, (List.append_assoc _ _ _).symm,
        goes.trans segment₂, ?_, ?_, ended⟩
      · rw [← current]
        exact .cons lap few (next ▸ chain)
      · rw [solo_append, dealings_append goes.ran, dealt, dealt₂]
        rfl
    · obtain ⟨rfl, rfl, rfl⟩ := onward.of_returns goes.staged ⟨_, _, ended.code⟩
      refine ⟨[], first, w, call, [], _, new, List.append_nil _, .refl staged, .nil _, rfl, ended⟩

theorem opened_comes (staged : Staged level below w call) (acts : call.slot = some slot)
    (head : call.code = [.read .load, .move .observed .expected, .consult u 0])
    (registers : call.registers = {}) (exchanged : call.exchanged = false) :
    Comes level below 10 False later (fun _ dealings w' call' =>
      dealings = loads (w.objectId (w.word slot)) ∧ call'.Laps u 0 slot ∧
      w'.objectId call'.registers.expected = w.objectId (w.word slot)) w call := by
  have word : call.slot.bind w.word = w.word slot := by rw [acts, Option.bind_some]
  refine .gives_way staged head id [.retain .load (w.word slot)] [] (fun _ _ => word ▸ .read_load)
    (fun _ => rfl) fun _ _ _ retains => ?_
  refine Comes.bind (found_comes retains.staged rfl word) fun _ _ _ w₁ _ _ found there => ?_
  obtain ⟨rfl, -, names, rfl⟩ := there
  refine (move_comes found.staged rfl).imp ?_
  rintro _ _ w' _ ⟨rfl, ⟨events, rfl⟩, names'⟩
  refine ⟨?_, ⟨rfl, acts, exchanged, ?_⟩, (names' .expected).trans (names _)⟩
  · rw [registers]
    exact List.append_nil _
  · rw [registers]
    rfl

/-- What an update has returned is handed over. The handle that is to have it owns the one reference that
the call has owned, and what it held before is about to be given up. If there is no such handle, the
reference itself is. -/
structure Delivered (into : Option String) (old : Option Nat) (w : World) (call : Call) (w' : World)
    (call' : Call) : Prop where
  outcome : call'.outcome = .updated old call.seen.reverse
  registers : call'.registers = {}
  world : w' = { w with
    handles := into.elim w.handles fun handle => w.handles.assign handle call.registers.kept }
  names : ∀ handle, into = some handle → w'.objectId (w'.handles.get? handle) = old
  code : call'.code = (into.elim call.registers.kept w.handles.get?).toList.map .drop

theorem Staged.goes {i : Instruction} {w' : World} {call' : Call}
    (staged : Staged level below w call) (head : call.code = i :: rest) (choice : Choice)
    (goes : ∀ inUse, Turn.Goes choice inUse { world := w, call := { call with code := rest } } i
      (.ok { world := w', call := call' })) :
    (stage level below w call).step 0 choice = .ok (stage level below w' call') ∧
      Staged level below w' call' := by
  obtain ⟨inUse, turn, ran, stepped, sound, lone⟩ := staged.step head choice
  obtain rfl := Turn.eq_of_goes ran (goes inUse)
  exact ⟨stepped, sound, lone⟩

theorem Staged.hands {into : Option String} (staged : Staged level below w call)
    (head : call.code = deliver into .kept) (handed : Choice) :
    (stage level below w call).step 0 handed = .ok (stage level below
      { w with
        handles := into.elim w.handles fun handle => w.handles.assign handle call.registers.kept }
      { call with
        code := (into.elim call.registers.kept w.handles.get?).toList.map .drop
        registers := call.registers.set .kept none }) := by
  cases into with
  | none =>
    have head : call.code = [.release .kept] := head
    refine (staged.goes head handed fun _ => .of_eq (.release .kept) ?_).1
    simp [Turn.before, Turn.setRegister, Turn.get, Registers.get]
  | some handle =>
    have head : call.code = [.putHandle handle .kept] := head
    refine (staged.goes head handed fun _ => .of_eq (.putHandle handle .kept) ?_).1
    simp [Turn.before, Turn.setRegister, Turn.get, Registers.get]

/-- The value that an update has returned is noted, and then delivered. -/
theorem Staged.delivers {into : Option String} {old : Option Nat} (staged : Staged level below w call)
    (head : call.code = .note .updated :: deliver into .kept)
    (registers : call.registers = { kept := call.registers.kept })
    (kept : w.objectId call.registers.kept = old) (told handed : Choice) :
    ∃ w' call', (stage level below w call).run (solo [told, handed]) = .ok (stage level below w' call') ∧
      Delivered into old w call w' call' := by
  subst kept
  obtain ⟨tells, listening⟩ := staged.goes head told fun _ => .note .updated
  have emptied : call.registers.set .kept none = {} := by
    rw [registers]
    rfl
  refine ⟨_, _, (run_cons tells).trans (run_cons (listening.hands rfl handed)), rfl, emptied, rfl, ?_, rfl⟩
  rintro handle rfl
  have there : (w.handles.assign handle call.registers.kept).get? handle = call.registers.kept :=
    (Table.get?_assign _ _ _ _).trans (if_pos rfl)
  exact congrArg w.objectId there

/-- An update in a single thread that has returned, whatever its function and the destruction of objects
have done meanwhile, over the same slot too. Its only write has put what the last call of the function has
returned in the place of the very object that this call was given, which is what was put into the slot
last before. The values of the other calls are given up. So are the slot's reference to the old object and
the call's own one; the one that was counted besides is returned, and the handle that is to have it owns
it. -/
theorem update_accounts_for_every_reference {program : List Command} {before done : List Choice}
    {name : String} {offers : List Offer} {meanwhile : List (Option (List Command))}
    {into : Option String} {w' : World} {call' : Call}
    (solitary : ∀ command ∈ program, command.Solitary)
    (reached : (ofPrograms [program]).run (solo before) = .ok (stage level below w call))
    (begins : call = {
      code := (Operation.update name offers meanwhile into).code
      named := some slot
      slot := some slot })
    (segment : Segment level below w call done w' call') (returns : call'.Returns) :
    ∃ failed old new first moment,
      Laps (w.objectId (w.word slot)) failed old ∧
      (stage level below w call).dealings (solo done) 0 below.length =
        loads (w.objectId (w.word slot)) ++ failed.flatMap Lap.dealings ++
          ([called old, received new] ++ retains old ++ [.exchanged old new] ++ releases old ++
            releases old) ∧
      (stage level below w call).Exchanges (solo done) 0 below.length slot old new first moment ∧
      (stage level below w call).writes (solo done) 0 below.length = [moment] ∧
      ((((stage level below w call).publications first slot).getLast?).map Publication.object).getD
        (w.objectId (w.word slot)) = old ∧
      call'.code = .note .updated :: deliver into .kept ∧
      call'.registers = { kept := call'.registers.kept } ∧
      w'.objectId call'.registers.kept = old ∧
      ∀ told handed, ∃ w'' call'',
        (stage level below w' call').run (solo [told, handed]) = .ok (stage level below w'' call'') ∧
        Delivered into old w' call' w'' call'' := by
  have staged := staged_of_run solitary reached
  have acts : call.slot = some slot := by rw [begins]
  have opens : Comes level below 10 False done _ w call :=
    opened_comes (u := ⟨offers, meanwhile, into⟩) staged acts (by rw [begins]; rfl) (by rw [begins])
      (by rw [begins])
  -- First the load, then the laps that failed, and at last the one in which the call ends.
  obtain ⟨opening, rest, w₁, call₁, rfl, opened, ⟨loaded, laps, current⟩, onward⟩ :=
    opens.of_returns segment returns
  obtain ⟨past, last, w₂, call₂, failed, old, new, rfl, lapped, chain, dealt, ended⟩ :=
    ended_of_returns opened.staged laps onward returns
  obtain ⟨first, moment, exchanges₂⟩ := ended.exchanges
  have exchanges : (stage level below w call).Exchanges (solo (opening ++ (past ++ last))) 0 below.length
      slot old new (solo opening ++ (solo past ++ first)) moment := by
    rw [solo_append, solo_append]
    exact (exchanges₂.prepend lapped.ran).prepend opened.ran
  have told : (stage level below w call).dealings (solo (opening ++ (past ++ last))) 0 below.length =
      loads (w.objectId (w.word slot)) ++ failed.flatMap Lap.dealings ++
        ([called old, received new] ++ retains old ++ [.exchanged old new] ++ releases old ++
          releases old) := by
    rw [solo_append, solo_append, dealings_append opened.ran, dealings_append lapped.ran, loaded, dealt,
      ended.dealt]
    exact (List.append_assoc _ _ _).symm
  refine ⟨failed, old, new, _, moment, current ▸ chain, told, exchanges, exchanges.writes ?_,
    exchanges.last staged.sound, ended.code, ended.registers, ended.kept,
    segment.staged.delivers ended.code ended.registers ended.kept⟩
  -- The failed laps have exchanged nothing, so that the last one has made the only write.
  have others : (failed.flatMap Lap.dealings).countP Dealing.isExchange = 0 :=
    List.countP_eq_zero.mpr fun dealing member => by
      obtain ⟨lap, -, inside⟩ := List.mem_flatMap.mp member
      exact List.countP_eq_zero.mp lap.countP_dealings dealing inside
  rw [told]
  simp [List.countP_append, List.countP_cons, others, Dealing.isExchange]

/-- The slot is empty, and the first call of the function puts an object into it before it returns. A
handle keeps what the update returns. -/
def interfered : List Command :=
  [.mk (.create "s" .nothing false) none,
    .mk (.update "s" [.value .nothing] [some [.mk (.store "s" (.fresh [])) none]] (some "h")) none]

theorem update_accounts_for_every_reference_interfered :
    ∃ level below w call done w' call' new first moment w'' call'',
      (ofPrograms [interfered]).run (solo (List.replicate 7 {})) = .ok (stage level below w call) ∧
      Segment level below w call done w' call' ∧ call'.Returns ∧
      (stage level below w call).Exchanges (solo done) 0 below.length 0 (some 1) new first moment ∧
      (stage level below w call).writes (solo done) 0 below.length = [moment] ∧
      (stage level below w' call').run (solo [{}, {}]) = .ok (stage level below w'' call'') ∧
      call''.registers = {} ∧ w''.objectId (w''.handles.get? "h") = some 1 := by
  have solitary : ∀ command ∈ interfered, command.Solitary := by
    have stores : (Command.mk (.store "s" (.fresh [])) none).Solitary := .mk nofun
    refine List.forall_mem_cons.mpr ⟨.mk nofun, List.forall_mem_singleton.mpr (.mk ?_)⟩
    exact List.forall_mem_singleton.mpr stores
  obtain ⟨level, below, w, call, w', call', reached, begins, ran, quiet, returns, kept⟩ :
      ∃ level below w call w' call',
        (ofPrograms [interfered]).run (solo (List.replicate 7 {})) = .ok (stage level below w call) ∧
        call = {
          code := (Operation.update "s" [.value .nothing] [some [.mk (.store "s" (.fresh [])) none]]
            (some "h")).code
          named := some 0
          slot := some 0 } ∧
        (stage level below w call).run (solo (List.replicate 48 {})) =
          .ok (stage level below w' call') ∧
        (((stage level below w call).moments (solo (List.replicate 48 {}))).all fun moment =>
          (moment.call? 0 below.length).all fun call => !call.returns) ∧
        call'.Returns ∧ w'.objectId call'.registers.kept = some 1 :=
    ⟨{ role := .main, todo := [], records := _ }, [], _, _, _, _, rfl, rfl, rfl, rfl, ⟨_, _, rfl⟩, rfl⟩
  have segment := segment_of_run solitary reached ran (unreturned_of_all quiet)
  obtain ⟨failed, old, new, first, moment, -, -, exchanges, writes, -, -, -, same, delivers⟩ :=
    update_accounts_for_every_reference solitary reached begins segment returns
  obtain rfl := same.symm.trans kept
  obtain ⟨w'', call'', hands, delivered⟩ := delivers {} {}
  exact ⟨level, below, w, call, _, w', call', new, first, moment, w'', call'', reached, segment, returns,
    exchanges, writes, hands, delivered.registers, delivered.names "h" rfl⟩

end SharedCells.Slot
