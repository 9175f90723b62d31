import SharedCells.Proofs.Slot.Displacing
import SharedCells.Proofs.Slot.Passages

/-! A strong compare-exchange settles who owns what.

The thread runs alone, and what is destroyed in the course of the call may run
commands of its own, over the same slot too. -/

set_option autoImplicit false

namespace SharedCells.Slot

open Machine Dealing

/-- A compare-exchange that has taken place. The slot owns the reference that was passed, and its
reference to what it held is released. -/
structure Exchanged (slot : SlotId) (w : World) (passed : Registers) (dealings : List Dealing)
    (w' : World) (call' : Call) : Prop where
  exchanged : call'.exchanged = true
  word : w'.word slot = passed.desired
  elsewhere : ∀ other, other ≠ slot → w'.word other = w.word other
  desired : call'.registers.desired = none
  expected : call'.registers.expected = passed.expected
  dealt : dealings =
    .exchanged (w.objectId (w.word slot)) (w.objectId passed.desired) ::
      releases (w.objectId (w.word slot))
  given : GivenUp (w.word slot) w.heap w'.heap

/-- A strong compare-exchange that has not taken place. A reference to what the slot held is counted
and takes the place of the expected one, which is released after the reference that was passed. -/
structure Refused (slot : SlotId) (w : World) (passed : Registers) (dealings : List Dealing)
    (w' : World) (call' : Call) : Prop where
  exchanged : call'.exchanged = false
  desired : call'.registers.desired = none
  expected : call'.registers.expected = w.word slot
  found : w'.objectId call'.registers.expected = w.objectId (w.word slot)
  dealt : dealings = loads (w.objectId (w.word slot)) ++ releases (w.objectId passed.desired) ++
    releases (w.objectId passed.expected)

variable {level : Level} {below : Thread} {w : World} {call : Call} {later : List Choice}
  {slot : SlotId} {accepted : List Instruction}

theorem reads_comes {alone : Prop} (staged : Staged level below w call) (acts : call.slot = some slot)
    (head : call.code = .read .strong :: accepted) :
    Comes level below 1 alone later (fun _ dealings w' call' => dealings = [] ∧ w' = w ∧
      call' = { call with code := .attempt (w.word slot) :: accepted }) w call := by
  have word : call.slot.bind w.word = w.word slot := by rw [acts, Option.bind_some]
  exact .gives_way staged head id [.attempt (w.word slot)] [] (fun _ _ => word ▸ .read_strong)
    (fun _ => rfl) fun _ _ _ tries => .here tries.staged ⟨rfl, rfl, rfl⟩

theorem fails_comes {alone : Prop} (staged : Staged level below w call) (acts : call.slot = some slot)
    (head : call.code = .attempt (w.word slot) :: accepted)
    (differs : w.word slot ≠ call.registers.expected) :
    Comes level below 1 alone later (fun _ dealings w' call' => dealings = [] ∧ w' = w ∧
      call' = { call with code := .retain .strong (w.word slot) :: accepted }) w call := by
  exact .gives_way staged head id [.retain .strong (w.word slot)] []
    (fun _ _ => .attempt_differs acts differs) (fun _ => dealings_attempt_of_ne acts differs)
    fun _ _ _ retains => .here retains.staged ⟨rfl, rfl, rfl⟩

theorem exchanged_comes (staged : Staged level below w call) (acts : call.slot = some slot)
    (head : call.code = .attempt (w.word slot) :: accepted)
    (same : w.word slot = call.registers.expected) :
    Comes level below 13 True later (fun _ dealings w' call' =>
      call'.code = accepted ∧ Exchanged slot w call.registers dealings w' call') w call := by
  have empty : call.registers.observed = none := staged.tidy.reads head trivial
  have there := staged.bound acts
  refine .next staged head id (w.setWord slot call.registers.desired) { call with
      code := call.registers.expected.toList.map (.pay · .start) ++ .release .observed :: accepted
      exchanged := true
      registers := { call.registers with desired := none, observed := call.registers.expected } }
    [.exchanged (w.objectId (w.word slot)) (w.objectId call.registers.desired)] ?_
    (fun _ => Instruction.dealings_of_stores (stores_attempt_of_eq acts same same)) fun _ _ _ published => ?_
  · intro choice inUse
    exact .of_eq (.attempt_won acts same same)
      (Turn.publish_expected (t := { world := w, call := { call with code := accepted } }) empty)
  refine (displaced_comes published.staged rfl rfl rfl).imp ?_
  rintro _ _ w' call' ⟨rfl, rfl, heap, rfl, given⟩
  refine ⟨rfl, rfl, ?_, fun other differs => ?_, rfl, rfl, ?_, ?_⟩
  · exact (World.word_setWord there _ _).trans (if_pos rfl)
  · exact (World.word_setWord there _ _).trans (if_neg differs)
  · rw [same]
    rfl
  · rw [same]
    exact given

theorem refused_comes (staged : Staged level below w call) (acts : call.slot = some slot)
    (head : call.code = .attempt (w.word slot) :: accepted)
    (differs : w.word slot ≠ call.registers.expected) :
    Comes level below 12 False later (fun _ dealings w' call' =>
      call'.code = accepted ∧ Refused slot w call.registers dealings w' call') w call := by
  have untried : call.exchanged = false := staged.tidy.untried head rfl
  have word : call.slot.bind w.word = w.word slot := by rw [acts, Option.bind_some]
  refine Comes.bind (fails_comes staged acts head differs) fun _ _ _ w _ _ retains there => ?_
  obtain ⟨rfl, rfl, rfl⟩ := there
  refine Comes.bind (found_comes retains.staged rfl word) fun _ _ _ w₁ _ _ found there => ?_
  obtain ⟨rfl, words₁, same₁, rfl⟩ := there
  refine Comes.bind (release_comes found.staged rfl False.elim) fun _ _ _ w₂ _ _ released there => ?_
  obtain ⟨rfl, ⟨events, rfl⟩, names₂, -⟩ := there
  refine (move_comes released.staged rfl).imp ?_
  rintro _ _ w₃ _ ⟨rfl, ⟨events', rfl⟩, names₃⟩
  refine ⟨rfl, untried, rfl, rfl, ?_, ?_⟩
  · exact (names₃ .expected).trans ((names₂ .observed).trans (same₁ (w.word slot)))
  · have desired : w₁.objectId call.registers.desired = w.objectId call.registers.desired := same₁ _
    have expected : w₂.objectId call.registers.expected = w.objectId call.registers.expected :=
      (names₂ .expected).trans (same₁ _)
    rw [List.nil_append, List.append_assoc, ← desired, ← expected]
    rfl

/-- The call reads its slot, in which nothing changes before the one try. -/
theorem strong_comes (staged : Staged level below w call) (acts : call.slot = some slot)
    (head : call.code = .read .strong :: accepted) :
    Comes level below 14 (w.objectId (w.word slot) = w.objectId call.registers.expected) later
      (fun _ dealings w' call' => call'.code = accepted ∧
        (w.objectId (w.word slot) = w.objectId call.registers.expected →
          Exchanged slot w call.registers dealings w' call') ∧
        (w.objectId (w.word slot) ≠ w.objectId call.registers.expected →
          Refused slot w call.registers dealings w' call')) w call := by
  have word : call.slot.bind w.word = w.word slot := by rw [acts, Option.bind_some]
  -- Object numbers tell references apart, since the slot and the call keep their objects alive.
  have names (same : w.objectId (w.word slot) = w.objectId call.registers.expected) :
      w.word slot = call.registers.expected :=
    World.objectId_inj staged.sound.numbered (staged.sound.counted.counts_word slot)
      (staged.counts .expected) same
  refine Comes.bind (reads_comes staged acts head) fun _ _ _ w _ _ tries there => ?_
  obtain ⟨rfl, rfl, rfl⟩ := there
  by_cases same : w.word slot = call.registers.expected
  · refine (exchanged_comes tries.staged acts rfl same).mono (Nat.le_refl _) (fun _ => trivial) ?_
    rintro _ _ w' call' ⟨ends, exchanged⟩
    exact ⟨ends, fun _ => exchanged, fun differs => absurd (congrArg w.objectId same) differs⟩
  · refine (refused_comes tries.staged acts rfl same).mono (by omega) (same ∘ names) ?_
    rintro _ _ w' call' ⟨ends, refused⟩
    exact ⟨ends, fun equal => absurd (names equal) same, fun _ => refused⟩

/-- A strong compare-exchange in a single thread whose orders are admitted, from its beginning to its
return, whatever the destruction of objects does meanwhile. If the slot holds the expected object, the
call returns true after a bounded number of steps, all of which are its own. If not, it returns false
after a bounded number of its own steps and what the destructions take; it has then written no slot,
so that what these have written is left as it is. -/
theorem strong_exchange_settles_ownership {program : List Command} {before later : List Choice}
    {success : Order} {failure : Option LoadOrder} {order : LoadOrder} {noted : Note}
    {after refused : List Instruction} (solitary : ∀ command ∈ program, command.Solitary)
    (reached : (ofPrograms [program]).run (solo before) = .ok (stage level below w call))
    (acts : call.slot = some slot)
    (code : call.code = exchangeCode .strong success failure (.note noted :: after) refused)
    (admitted : Order.failureOrder success failure = .ok order) :
    Comes level below 14 (w.objectId (w.word slot) = w.objectId call.registers.expected) later
      (fun done dealings w' call' => call'.code = .note noted :: after ∧
        (w.objectId (w.word slot) = w.objectId call.registers.expected →
          Exchanged slot w call.registers dealings w' call') ∧
        (w.objectId (w.word slot) ≠ w.objectId call.registers.expected →
          Refused slot w call.registers dealings w' call' ∧
          ∀ moment ∈ (stage level below w call).moments (solo done),
            (moment.call? 0 below.length).isSome → ∀ other < moment.before.world.words.length,
              moment.after.world.word other = moment.before.world.word other)) w call := by
  have admits : call.code = .read .strong :: .note noted :: after := by
    rw [code, exchangeCode, admitted]
    rfl
  have staged := staged_of_run solitary reached
  refine (strong_comes staged acts admits).record.imp ?_
  rintro done dealings w' call' ⟨⟨ends, exchanged, refused⟩, -, dealt⟩
  refine ⟨ends, exchanged, fun differs => ⟨refused differs, fun moment member own other bound => ?_⟩⟩
  refine words_of_dealings staged.sound (fun old new told => ?_) member own bound
  rw [← dealt, (refused differs).dealt] at told
  simp [loads, releases] at told

/-- The slot holds an object, nothing is expected, and the destruction of the value that is passed
empties the slot. -/
theorem strong_exchange_settles_ownership_emptied :
    ∃ level below w call, (ofPrograms
        [[.mk (.create "s" (.fresh []) false) none,
          .mk (.compareAndExchange .strong "s" .nothing (.fresh [.mk (.clear "s") none]) .seqCst none
            none) none]]).run (solo (List.replicate 9 {})) = .ok (stage level below w call) ∧
      ∃ done rest w' call', List.replicate 28 {} = done ++ rest ∧
        Segment level below w call done w' call' ∧ Refused 0 w call.registers
          ((stage level below w call).dealings (solo done) 0 below.length) w' call' := by
  have solitary : ∀ command ∈ [Command.mk (.create "s" (.fresh []) false) none,
      .mk (.compareAndExchange .strong "s" .nothing (.fresh [.mk (.clear "s") none]) .seqCst none none)
        none], command.Solitary := by
    have clears : (Command.mk (.clear "s") none).Solitary := .mk nofun
    refine List.forall_mem_cons.mpr ⟨.mk nofun, List.forall_mem_singleton.mpr (.mk ?_)⟩
    exact List.forall_mem_singleton.mpr clears
  obtain ⟨level, below, w, call, m', reached, code, acts, differs, ends, call', top, returns⟩ :
      ∃ level below w call m', (ofPrograms
          [[.mk (.create "s" (.fresh []) false) none,
            .mk (.compareAndExchange .strong "s" .nothing (.fresh [.mk (.clear "s") none]) .seqCst none
              none) none]]).run (solo (List.replicate 9 {})) = .ok (stage level below w call) ∧
        call.code = exchangeCode .strong .seqCst none
          (.note (.object .expected) :: [.release .expected]) [.release .expected] ∧
        call.slot = some 0 ∧ w.objectId (w.word 0) ≠ w.objectId call.registers.expected ∧
        (stage level below w call).run (solo (List.replicate 28 {})) = .ok m' ∧
        ∃ call', m'.threads[0]?.bind (·.innermost below.length) = some call' ∧ call'.Returns :=
    ⟨{ role := .main, todo := [], records := _ }, [], _, _, _, rfl, rfl, rfl, by decide, rfl, _, rfl,
      _, _, rfl⟩
  refine ⟨level, below, w, call, reached, ?_⟩
  rcases strong_exchange_settles_ownership solitary reached acts code rfl with
    ⟨done, rest, w', call', same, segment, -, -, -, -, refused⟩ | ⟨-, -, -, last⟩
  · exact ⟨done, rest, w', call', same, segment, (refused differs).1⟩
  · obtain ⟨thread, only, never⟩ := last m' ends
    rw [only] at top
    exact absurd returns (never call' top)

end SharedCells.Slot
