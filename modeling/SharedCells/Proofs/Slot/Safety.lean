import SharedCells.Proofs.Slot.Debtors
import SharedCells.Proofs.Slot.Moves

/-! Threads in any interleaving count their references exactly.

Whatever the threads do and in whatever order they take their steps, nothing is
counted, given up or handed out that has been destroyed, and the count of every
object is the number of its owners. -/

set_option autoImplicit false

namespace SharedCells.Slot

namespace Sound

variable {w : World} {call : Call} {calls rest : List Call} {graves loose : List Addr}

theorem map {f : Call → Call} (sound : Sound w (calls ++ rest) graves loose)
    (code : ∀ call, (f call).code = call.code)
    (registers : ∀ call, (f call).registers = call.registers)
    (slot : ∀ call, (f call).slot = call.slot) : Sound w (calls.map f ++ rest) graves loose := by
  induction calls generalizing rest with
  | nil => exact sound
  | cons call calls ih =>
    have sane := sound.sane call List.mem_cons_self
    have head : Sound w (f call :: (calls ++ rest)) graves loose :=
      Sound.of_call sound (code call) (registers call) fun s acts => sane.slot s (slot call ▸ acts)
    have behind : Sound w (calls ++ (f call :: rest)) graves loose :=
      head.perm List.perm_middle.symm (.refl _)
    exact (ih behind).perm List.perm_middle (.refl _)

theorem scope (sound : Sound w (call :: rest) graves []) (ended : call.code = []) :
    Sound w ({ call with code := call.registers.owned.map .release } :: rest) graves [] := by
  have steady : Turn.Steady { world := w, call } rest graves [] :=
    ⟨sound, fun i member => by rw [ended] at member; exact absurd member List.not_mem_nil⟩
  have light : ∀ i ∈ call.registers.owned.map Instruction.release, i.Light := fun i member => by
    obtain ⟨register, -, rfl⟩ := List.mem_map.mp member
    trivial
  have released := (steady.light light).sound
  rw [Turn.before, ended, List.append_nil] at released
  exact released

theorem finish (sound : Sound w (call :: rest) graves []) (ended : call.code = [])
    (owned : call.registers.owned = []) : Sound w rest graves [] where
  agreed := by
    have agreed := sound.agreed
    rw [poolOf_cons, ended] at agreed
    exact agreed
  ledger addr := by
    have ledger := sound.ledger addr
    have none : call.registers.count addr = 0 := Registers.count_eq_zero fun register holds => by
      have member : register ∈ call.registers.owned :=
        List.mem_filter.mpr ⟨by cases register <;> simp, by rw [holds]; rfl⟩
      rw [owned] at member
      exact absurd member List.not_mem_nil
    rw [paidCount, transitCount_cons, poolOf_cons, ended, none] at ledger
    rw [paidCount]
    simpa using ledger
  buried := sound.buried
  bounded := sound.bounded
  handles := sound.handles
  slots := sound.slots
  sane other member := sound.sane other (List.mem_cons_of_mem _ member)

theorem enter (sound : Sound w rest graves loose) (plain : ∀ i ∈ call.code, i.Plain)
    (unowned : ∀ i ∈ call.code, i.owned? = none) (empty : call.registers = {})
    (slot : ∀ s, call.slot = some s → s < w.words.length) : Sound w (call :: rest) graves loose where
  agreed := by
    rw [poolOf_cons]
    exact sound.agreed.append plain
  ledger addr := by
    have ledger := sound.ledger addr
    have code : call.code.countP (fun i => decide (i.owned? = some addr)) = 0 := by
      rw [List.countP_eq_zero]
      intro i member
      simp [unowned i member]
    have registers : call.registers.count addr = 0 := by rw [empty]; rfl
    rw [paidCount] at ledger
    rw [transitCount_cons, paidCount, poolOf_cons, debts_append, debts_of_plain plain, code, registers]
    simpa using ledger
  buried := sound.buried
  bounded := sound.bounded
  handles := sound.handles
  slots := sound.slots
  sane other member := by
    rcases List.mem_cons.mp member with rfl | member
    · exact ⟨List.pairwise_of_forall_mem_list fun i inI j inJ =>
        ⟨.inl (plain j inJ), fun _ => unowned j inJ⟩,
        fun addr payment pays => (plain _ pays).elim, slot⟩
    · exact sound.sane other member

end Sound

theorem Operation.code_plain (operation : Operation) :
    ∀ i ∈ operation.code, i.Plain ∧ i.owned? = none := by
  have deliver (into : Option String) (source : Register) :
      ∀ i ∈ deliver into source, i.Plain ∧ i.owned? = none := fun i member =>
    ⟨(Turn.deliver_light into source i member).plain, (Turn.deliver_light into source i member).owned?⟩
  unfold Operation.code
  cases operation with
  | create slot v required =>
    cases required <;> simp [Instruction.Plain, Instruction.owned?]
  | intoInner slot into | take slot into | load slot into | exchange slot v into =>
    dsimp only
    simp only [List.forall_mem_cons]
    simpa [Instruction.Plain, Instruction.owned?] using deliver into _
  | compareExchange strength slot expected desired success failure =>
    dsimp only
    rcases exchangeCode_cases strength success failure _ _ with same | ⟨bad, same⟩ <;> rw [same] <;>
      simp [Instruction.Plain, Instruction.owned?]
  | compareAndExchange strength slot expected desired success failure into =>
    dsimp only
    rcases exchangeCode_cases strength success failure _ _ with same | ⟨bad, same⟩ <;> rw [same]
    · simp only [List.forall_mem_cons]
      simpa [Instruction.Plain, Instruction.owned?] using deliver into _
    · simp [Instruction.Plain, Instruction.owned?]
  | peek slot into => cases into <;> simp [Instruction.Plain, Instruction.owned?]
  | _ => simp [Instruction.Plain, Instruction.owned?]

namespace Sound

variable {w : World} {call : Call} {calls rest : List Call} {graves : List Addr}

theorem start (sound : Sound w calls graves []) (command : Command) (inUse : SlotId → Bool) :
    Sound (command.start w inUse).1 ((command.start w inUse).2 :: calls) graves [] := by
  obtain ⟨operation, during⟩ := command
  have refused (outcome : Outcome) : Sound w ({ code := [], outcome } :: calls) graves [] :=
    sound.enter (by simp) (by simp) rfl nofun
  have bound (s : SlotId) (named : operation.slot?.bind w.slots.get? = some s) :
      s < w.words.length := by
    obtain ⟨name, -, found⟩ := Option.bind_eq_some_iff.mp named
    exact sound.slots _ (Table.mem_of_get? _ _ _ found)
  have plain : ∀ i ∈ operation.code, i.Plain := fun i member => (operation.code_plain i member).1
  have unowned : ∀ i ∈ operation.code, i.owned? = none :=
    fun i member => (operation.code_plain i member).2
  unfold Command.start
  dsimp only
  split
  · exact refused _
  · split
    · exact refused _
    · split
      · exact (sound.eraseSlot _).enter plain unowned rfl bound
      · exact sound.enter plain unowned rfl bound

/-- Nothing refers to an object whose destruction is in progress. -/
theorem dead_of_grave {addr : Addr} {loose : List Addr} (sound : Sound w calls (addr :: graves) loose) :
    w.heap.count addr = 0 := Heap.count_of_remains (by
  rw [← sound.buried addr]
  exact List.count_pos_iff.mpr List.mem_cons_self)

/-- The address of a destroyed object becomes vacant when its destruction ends. -/
theorem close {level : Level} (sound : Sound w (call :: rest) (level.grave?.toList ++ graves) []) :
    Sound (level.close w call).1 ((level.close w call).2 :: rest) graves [] := by
  have slot := (sound.sane call List.mem_cons_self).slot
  unfold Level.close
  unfold Level.grave? at sound
  cases role : level.role with
  | main | during | meanwhile =>
    rw [role] at sound
    exact Sound.of_call sound rfl rfl slot
  | destruction addr =>
    rw [role] at sound
    have dead : w.heap.count addr = 0 := Sound.dead_of_grave sound
    have vacated : Sound { w with heap := w.heap.free addr } (call :: rest) graves [] :=
      { sound with
        agreed := sound.agreed.of_words rfl fun _ => id
        ledger := fun other => by
          rw [Heap.count_free dead]
          exact sound.ledger other
        buried := fun other => by
          have buried : (addr :: graves).count other = w.heap.remains other := sound.buried other
          have most : w.heap.remains other ≤ 1 := Heap.remains_le_one
          -- An address is in one grave at most, so this one is empty now.
          rw [List.count_cons] at buried
          rw [Heap.remains_free]
          split
          · next same =>
            subst same
            rw [beq_self_eq_true, if_pos rfl] at buried
            omega
          · next differ =>
            rw [if_neg (by simpa using Ne.symm differ)] at buried
            exact buried
        bounded := sound.bounded.free addr }
    exact Sound.of_call vacated rfl rfl slot

end Sound

namespace Thread

variable {choice : Choice} {inUse others : SlotId → Bool} {w w' : World} {thread thread' : Thread}
  {rest : List Call} {dead : List Addr}

/-- A step keeps the ledger of all calls, whatever other calls are in progress. -/
theorem Move.sound (move : Move choice inUse w thread w' thread')
    (sound : Sound w (thread.calls ++ rest) (thread.graves ++ dead) []) :
    Sound w' (thread'.calls ++ rest) (thread'.graves ++ dead) [] := by
  cases move with
  | rest => exact sound
  | @instruction level below call i code turn busy head ran =>
    rw [calls_cons_of_some busy, graves_cons, List.append_assoc] at sound
    obtain ⟨turn', ran', next⟩ := Sound.runs sound head choice inUse
    obtain rfl := Except.ok.inj (ran.symm.trans ran')
    have graves' : graves (turn.above.toList ++ { level with call := some turn.call } :: below) =
        (turn.above.bind Level.grave?).toList ++ (level.grave?.toList ++ graves below) := by
      cases turn.above with
      | none => exact graves_cons _ _
      | some new => rw [Option.toList_some, List.singleton_append, graves_cons, graves_cons]; rfl
    rw [calls_of_run ran rfl, graves', List.append_assoc, List.append_assoc]
    exact next
  | @block level below call i code turn todo busy head ran recorded =>
    rw [calls_cons_of_some busy, graves_cons, List.append_assoc] at sound
    obtain ⟨turn', ran', next⟩ := Sound.runs sound head choice inUse
    obtain rfl := Except.ok.inj (ran.symm.trans ran')
    -- What records a debt opens no level.
    have above : turn.above = none := (Turn.run_effect ran rfl).above_of_recorded rfl recorded
    rw [Turn.Sound, above] at next
    rw [calls_cons_of_none rfl, graves_cons, calls_unwait, graves_unwait, graves_cons]
    have inside : Slot.Sound turn.world
        (calls ({ level with call := some turn.call } :: below) ++ rest)
        (level.grave?.toList ++ (graves below ++ dead)) [] := next
    rw [← List.append_assoc] at inside
    exact inside.map (fun _ => rfl) (fun _ => rfl) fun _ => rfl
  | @scope level below call busy ended owns =>
    rw [calls_cons_of_some busy, graves_cons] at sound
    rw [calls_cons_of_some rfl, graves_cons]
    exact Sound.scope sound ended
  | @finish level below call record busy ended owned =>
    rw [calls_cons_of_some busy, graves_cons] at sound
    rw [calls_cons_of_none rfl, graves_cons]
    exact Sound.finish sound ended owned
  | @start level below command todo idle more =>
    rw [calls_cons_of_none idle, graves_cons] at sound
    rw [calls_cons_of_some rfl, graves_cons]
    exact Sound.start sound command inUse
  | @close level caller below call idle ended waits =>
    rw [calls_cons_of_none idle, calls_cons_of_some waits, graves_cons, graves_cons,
      List.append_assoc, List.append_assoc] at sound
    rw [calls_cons_of_some rfl, graves_cons, List.append_assoc]
    exact Sound.close sound

theorem Move.change (move : Move choice inUse w thread w' thread')
    (sound : Sound w (thread.calls ++ rest) (thread.graves ++ dead) []) :
    w.heap.Change w'.heap := by
  cases move with
  | instruction _ _ ran | block _ _ ran => exact (Turn.run_effect ran rfl).change
  | rest | scope | finish => exact .none
  | @start level below command => exact command.start_heap w inUse ▸ .none
  | @close level caller below call idle ended waits =>
    unfold Level.close
    cases role : level.role with
    | main | during | meanwhile => exact .none
    | destruction addr =>
      have grave : level.grave? = some addr := by rw [Level.grave?, role]
      rw [graves_cons, grave] at sound
      exact .freed (Sound.dead_of_grave sound)

theorem step_ok (sound : Sound w (thread.calls ++ rest) dead []) :
    ∃ w' thread', thread.step choice others w = .ok (w', thread') := by
  unfold step
  dsimp only
  split
  · exact ⟨_, _, rfl⟩
  · next level below =>
    split
    · next todo call busy =>
      rw [calls_cons_of_some busy] at sound
      split
      · next _ owned i code head =>
        obtain ⟨turn, ran, -⟩ := Sound.runs sound head choice
          fun slot => others slot || uses (level :: below) slot
        rw [ran]
        dsimp only [bind, Except.bind]
        split <;> exact ⟨_, _, rfl⟩
      · exact ⟨_, _, rfl⟩
      · exact ⟨_, _, rfl⟩
    · exact ⟨_, _, rfl⟩
    · split
      · exact ⟨_, _, rfl⟩
      · split <;> exact ⟨_, _, rfl⟩

end Thread

namespace Machine

/-- What every step preserves. -/
structure Sound (m : Machine) : Prop where
  counted : Slot.Sound m.world m.calls m.graves []
  stacked : ∀ thread ∈ m.threads, thread.Stacked
  numbered : m.world.heap.Numbered

variable {m m' : Machine} {i : Nat} {choice : Choice}

theorem ofPrograms_calls (programs : List (List Command)) : (ofPrograms programs).calls = [] := by
  simp [Machine.calls, ofPrograms, Thread.ofCommands, Thread.calls]

theorem ofPrograms_sound (programs : List (List Command)) : (ofPrograms programs).Sound where
  counted := by
    have graves : (ofPrograms programs).graves = [] := by
      simp [Machine.graves, ofPrograms, Thread.ofCommands, Thread.graves, Level.grave?]
    rw [ofPrograms_calls, graves]
    exact
      { agreed := ⟨.empty, .empty, fun i member => absurd member List.not_mem_nil,
          fun purpose debt member => absurd member List.not_mem_nil⟩
        ledger := fun addr => rfl
        buried := fun addr => rfl
        bounded := .empty
        handles := .nil
        slots := fun entry member => absurd member List.not_mem_nil
        sane := fun call member => absurd member List.not_mem_nil }
  stacked thread member := by
    obtain ⟨program, -, rfl⟩ := List.mem_map.mp member
    exact rfl
  numbered := .empty

theorem step_cases (sound : m.Sound) (ran : m.step i choice = .ok m') :
    m.threads[i]? = none ∧ m' = m ∨ ∃ thread w' thread', m.threads[i]? = some thread ∧
      Thread.Move choice (fun slot => m.uses slot || thread.uses slot) m.world thread w' thread' ∧
      m' = ⟨w', m.threads.set i thread'⟩ := by
  unfold step at ran
  split at ran
  · next none => exact .inl ⟨none, (Except.ok.inj ran).symm⟩
  · next thread found =>
    cases moved : thread.step choice (fun slot => m.threads.any (·.uses slot)) m.world with
    | error fault =>
      dsimp only at ran
      rw [moved] at ran
      contradiction
    | ok next =>
      obtain ⟨w', thread'⟩ := next
      dsimp only at ran
      rw [moved] at ran
      have stacked := sound.stacked thread (List.mem_of_getElem? found)
      exact .inr ⟨thread, w', thread', found, Thread.step_cases stacked moved,
        (Except.ok.inj ran).symm⟩

theorem step_ok (sound : m.Sound) (i : Nat) (choice : Choice) : ∃ m', m.step i choice = .ok m' := by
  unfold step
  split
  · exact ⟨_, rfl⟩
  · next thread found =>
    have counted := sound.counted.perm (perm_flatMap found Thread.calls) (.refl _)
    obtain ⟨w', thread', moved⟩ : ∃ w' thread', thread.step choice
        (fun slot => m.threads.any (·.uses slot)) m.world = .ok (w', thread') :=
      Thread.step_ok counted
    dsimp only
    rw [moved]
    exact ⟨_, rfl⟩

theorem step_change (sound : m.Sound) (ran : m.step i choice = .ok m') :
    m.world.heap.Change m'.world.heap := by
  rcases step_cases sound ran with ⟨-, rfl⟩ | ⟨thread, w', thread', found, move, rfl⟩
  · exact .none
  · exact move.change (sound.counted.perm (perm_flatMap found Thread.calls)
      (perm_flatMap found Thread.graves))

theorem step_sound (sound : m.Sound) (ran : m.step i choice = .ok m') : m'.Sound := by
  have numbered := (step_change sound ran).numbered sound.numbered
  rcases step_cases sound ran with ⟨-, rfl⟩ | ⟨thread, w', thread', found, move, rfl⟩
  · exact sound
  · have bound : i < m.threads.length := (List.getElem?_eq_some_iff.mp found).1
    refine ⟨?_, fun other member => ?_, numbered⟩
    · have before := sound.counted.perm (perm_flatMap found Thread.calls)
        (perm_flatMap found Thread.graves)
      exact (move.sound before).perm (perm_flatMap_set bound thread' Thread.calls).symm
        (perm_flatMap_set bound thread' Thread.graves).symm
    · rcases List.mem_or_eq_of_mem_set member with old | rfl
      · exact sound.stacked other old
      · exact move.stacked (sound.stacked thread (List.mem_of_getElem? found))

theorem run_cons {rest : List (Nat × Choice)} (stepped : m.step i choice = .ok m') :
    m.run ((i, choice) :: rest) = m'.run rest := by
  unfold run
  rw [List.foldlM_cons]
  dsimp only
  rw [stepped]
  rfl

theorem run_sound (sound : m.Sound) (schedule : List (Nat × Choice)) :
    ∃ m', m.run schedule = .ok m' ∧ m'.Sound := by
  induction schedule generalizing m with
  | nil => exact ⟨m, rfl, sound⟩
  | cons turn rest ih =>
    obtain ⟨i, choice⟩ := turn
    obtain ⟨next, stepped⟩ := step_ok sound i choice
    rw [run_cons stepped]
    exact ih (step_sound sound stepped)

theorem sound_of_run {schedule : List (Nat × Choice)} (sound : m.Sound)
    (ran : m.run schedule = .ok m') : m'.Sound := by
  obtain ⟨other, ran', sound'⟩ := run_sound sound schedule
  rwa [Except.ok.inj (ran.symm.trans ran')]

/-- No schedule brings any threads to count, give up or hand out a reference to a destroyed object,
since a step that did so would fail; and at every moment the count of a live object is the number of
slots and handles that hold it, of paid debts on it, and of references to it that calls in progress
own. What is not live has no such owner. -/
theorem run_counts_owners (programs : List (List Command)) (schedule : List (Nat × Choice)) :
    ∃ m, (ofPrograms programs).run schedule = .ok m ∧
      (∀ addr object, m.world.heap.live? addr = some object →
        object.count = m.world.slotCount addr + m.world.handleCount addr +
          paidCount m.world m.calls addr + transitCount m.calls addr) ∧
      ∀ addr, m.world.heap.live? addr = none →
        m.world.slotCount addr = 0 ∧ m.world.handleCount addr = 0 ∧
          paidCount m.world m.calls addr = 0 ∧ transitCount m.calls addr = 0 := by
  obtain ⟨m, ran, sound⟩ := run_sound (ofPrograms_sound programs) schedule
  refine ⟨m, ran, fun addr object live => ?_, fun addr dead => ?_⟩
  · have ledger := sound.counted.ledger addr
    rw [Heap.count_of_find? (Heap.live?_eq_some_iff.mp live).1] at ledger
    exact ledger
  · have ledger := sound.counted.ledger addr
    rw [Heap.live?_eq_none_iff.mp dead] at ledger
    omega

end Machine

end SharedCells.Slot
