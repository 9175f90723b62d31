import SharedCells.Proofs.Slot.Frames
import SharedCells.Proofs.Slot.Rounds

/-! A strong compare-exchange tells the truth about the slot.

It reports an exchange if it made one, which it does in a single step while the
slot holds the expected object. Otherwise the slot held another object, or
nothing, at some moment of the call, and the expected object gives way to what
was found. -/

set_option autoImplicit false

namespace SharedCells.Slot

section Alike

variable {call call' : Call} {slot : SlotId} {expected desired : Ref} {accepted : List Instruction}
  {past past' : Prop} {exchanged : Bool}

theorem Call.Seeks.alike (seeks : call.Seeks slot expected desired accepted past)
    (alike : call.Alike call') : call'.Seeks slot expected desired accepted past :=
  ⟨alike.slot.trans seeks.slot, alike.registers ▸ seeks.expects,
    alike.exchanged.trans seeks.exchanged, by rw [alike.code, alike.registers]; exact seeks.code⟩

theorem Call.Trails.alike (trails : call.Trails accepted exchanged expected)
    (alike : call.Alike call') : call'.Trails accepted exchanged expected :=
  ⟨alike.registers ▸ trails.expects, alike.exchanged.trans trails.exchanged,
    by rw [alike.code]; exact trails.code⟩

end Alike

namespace Machine

/-- The steps in which the call on a level of thread `i` exchanges the word of its slot. -/
def writes (m : Machine) (schedule : List (Nat × Choice)) (i depth : Nat) : List Moment :=
  (m.moments schedule).filter fun moment => (moment.stores i depth).isSome

/-- The schedule brings the call on a level of thread `i` to this code for the first time. -/
structure Brings (m : Machine) (schedule : List (Nat × Choice)) (i depth : Nat)
    (code : List Instruction) (m' : Machine) (call' : Call) : Prop where
  ran : m.run schedule = .ok m'
  there : m'.callAt i depth = some call'
  reached : call'.code = code
  first : ∀ moment ∈ m.moments schedule, ∀ call, moment.call? i depth = some call →
    call.code ≠ code

variable {m m' next : Machine} {i j depth : Nat} {choice : Choice} {call call' : Call}
  {schedule rest : List (Nat × Choice)} {slot : SlotId} {expected desired : Ref}
  {accepted : List Instruction} {past : Prop} {exchanged : Bool}

theorem Brings.tail (brings : m.Brings ((j, choice) :: rest) i depth accepted m' call')
    (stepped : m.step j choice = .ok next) : next.Brings rest i depth accepted m' call' where
  ran := run_cons stepped ▸ brings.ran
  there := brings.there
  reached := brings.reached
  first moment member :=
    brings.first moment (moments_cons stepped ▸ List.mem_cons_of_mem _ member)

theorem writes_cons_of_none (stepped : m.step j choice = .ok next)
    (quiet : Moment.stores ⟨m, j, choice, next⟩ i depth = none) :
    m.writes ((j, choice) :: rest) i depth = next.writes rest i depth := by
  rw [writes, moments_cons stepped, List.filter_cons_of_neg (by rw [quiet]; nofun)]
  rfl

theorem writes_cons_of_some (stepped : m.step j choice = .ok next)
    (writes : Moment.stores ⟨m, j, choice, next⟩ i depth = some slot) :
    m.writes ((j, choice) :: rest) i depth =
      ⟨m, j, choice, next⟩ :: next.writes rest i depth := by
  rw [Machine.writes, moments_cons stepped, List.filter_cons_of_pos (by rw [writes]; rfl)]
  rfl

/-- A call whose rounds are over writes no more and keeps what it has found. -/
theorem Brings.of_trails (brings : m.Brings schedule i depth accepted m' call') (sound : m.Sound)
    (there : m.callAt i depth = some call) (trails : call.Trails accepted exchanged expected) :
    m.writes schedule i depth = [] ∧ call'.exchanged = exchanged ∧
      call'.registers.expected = expected ∧
      m'.world.objectId expected = m.world.objectId expected := by
  induction schedule generalizing m call with
  | nil =>
    obtain rfl := Except.ok.inj brings.ran
    obtain rfl := Option.some.inj (there.symm.trans brings.there)
    exact ⟨rfl, trails.exchanged, trails.expects, rfl⟩
  | cons turn rest ih =>
    obtain ⟨j, choice⟩ := turn
    obtain ⟨next, stepped⟩ := step_ok sound j choice
    have counts : m.world.Counts expected :=
      trails.expects ▸ sound.counted.counts_register (mem_calls_of_callAt there) .expected
    -- The call has had its verdict, so that it stores nothing any more.
    obtain ⟨call₁, there₁, trails₁, quiet⟩ : ∃ call₁, next.callAt i depth = some call₁ ∧
        call₁.Trails accepted exchanged expected ∧
        Moment.stores ⟨m, j, choice, next⟩ i depth = none := by
      rcases step_callAt sound stepped there with ⟨acts, -, goes⟩ | ⟨waits, call₁, there₁, alike⟩
      · obtain ⟨code, same, each⟩ := trails.code
        cases code with
        | nil => exact absurd same (brings.first _ (moments_cons stepped ▸ List.mem_cons_self) call acts)
        | cons instruction code =>
          obtain ⟨inUse, turn, call₁, ran, -, there₁, alike⟩ := goes instruction (code ++ accepted) same
          obtain ⟨trail, others⟩ := List.forall_mem_cons.mp each
          obtain ⟨quiet, exchanged', expected', new, code', trail'⟩ := Turn.run_trails trail ran
          have trails' : turn.call.Trails accepted exchanged expected :=
            ⟨expected'.trans trails.expects, exchanged'.trans trails.exchanged, new ++ code,
              code'.trans (List.append_assoc new code accepted).symm,
              fun j member => (List.mem_append.mp member).elim (trail' j) (others j)⟩
          exact ⟨call₁, there₁, trails'.alike alike, (Moment.stores_of_acts acts same).trans quiet⟩
      · exact ⟨call₁, there₁, trails.alike alike, Moment.stores_of_waits waits⟩
    obtain ⟨writes, ends⟩ := ih (brings.tail stepped) (step_sound sound stepped) there₁ trails₁
    refine ⟨(writes_cons_of_none stepped quiet).trans writes, ends.1, ends.2.1, ?_⟩
    exact ends.2.2.trans (step_objectId sound stepped counts)

/-- How a strong exchange on a slot has ended. `past` tells that the slot had held something else
than the expected object before. -/
inductive Verdict (m : Machine) (schedule : List (Nat × Choice)) (i depth : Nat) (slot : SlotId)
    (expected desired : Ref) (past : Prop) (m' : Machine) (call' : Call) : Prop where
  | exchanged (moment : Moment) : call'.exchanged = true → call'.registers.expected = expected →
      m'.world.objectId expected = m.world.objectId expected →
      m.writes schedule i depth = [moment] → moment.before.world.word slot = expected →
      moment.before.world.objectId expected = m.world.objectId expected →
      moment.after.world.word slot = desired →
      Verdict m schedule i depth slot expected desired past m' call'
  | refused : call'.exchanged = false →
      m'.world.objectId call'.registers.expected ≠ m.world.objectId expected →
      m.writes schedule i depth = [] →
      (past ∨ ∃ moment ∈ m.moments schedule,
        moment.before.world.objectId (moment.before.world.word slot) ≠
          m.world.objectId expected) →
      Verdict m schedule i depth slot expected desired past m' call'

theorem Verdict.cons {past' : Prop} (stepped : m.step j choice = .ok next)
    (quiet : Moment.stores ⟨m, j, choice, next⟩ i depth = none)
    (same : next.world.objectId expected = m.world.objectId expected)
    (earlier : past' → past ∨ m.world.objectId (m.world.word slot) ≠ m.world.objectId expected)
    (verdict : next.Verdict rest i depth slot expected desired past' m' call') :
    m.Verdict ((j, choice) :: rest) i depth slot expected desired past m' call' := by
  cases verdict with
  | exchanged moment won kept still writes word held after =>
    exact .exchanged moment won kept (still.trans same)
      ((writes_cons_of_none stepped quiet).trans writes) word (held.trans same) after
  | refused lost left writes seen =>
    refine .refused lost (same ▸ left) ((writes_cons_of_none stepped quiet).trans writes) ?_
    rw [moments_cons stepped]
    rcases seen with before | ⟨moment, member, differs⟩
    · exact (earlier before).imp_right fun differs => ⟨_, List.mem_cons_self, differs⟩
    · exact .inr ⟨moment, List.mem_cons_of_mem _ member, same ▸ differs⟩

-- By induction on the schedule. The rounds carry what they know of the past from one step to the
-- next, and the register that holds the expected reference keeps its object alive meanwhile.
theorem Brings.of_seeks (brings : m.Brings schedule i depth accepted m' call') (sound : m.Sound)
    (there : m.callAt i depth = some call)
    (seeks : call.Seeks slot expected desired accepted past) :
    m.Verdict schedule i depth slot expected desired past m' call' := by
  induction schedule generalizing m call past with
  | nil =>
    obtain rfl := Except.ok.inj brings.ran
    obtain rfl := Option.some.inj (there.symm.trans brings.there)
    obtain ⟨code, same, round⟩ := seeks.code
    rw [brings.reached, List.self_eq_append_left] at same
    rw [same] at round
    cases round
  | cons turn rest ih =>
    obtain ⟨j, choice⟩ := turn
    obtain ⟨next, stepped⟩ := step_ok sound j choice
    have sound' := step_sound sound stepped
    have member := mem_calls_of_callAt there
    have counts : m.world.Counts expected :=
      seeks.expects ▸ sound.counted.counts_register member .expected
    have same := step_objectId sound stepped counts
    -- A step of its own takes the call further; while another thread acts, the call stays as it is.
    rcases step_callAt sound stepped there with ⟨acts, -, goes⟩ | ⟨waits, call₁, there₁, alike⟩
    · obtain ⟨code, head, round⟩ := seeks.code
      cases code with
      | nil => cases round
      | cons instruction code =>
        obtain ⟨inUse, turn, call₁, ran, world, there₁, alike⟩ := goes instruction (code ++ accepted) head
        have stores := Moment.stores_of_acts acts head
        have advance : Turn.Advance choice slot expected desired accepted past instruction
            { world := m.world, call := { call with code := code ++ accepted } } turn :=
          Turn.run_round round seeks.slot seeks.expects seeks.exchanged rfl ran
        cases advance with
        | seeks quiet seeks' =>
          refine (ih (brings.tail stepped) sound' there₁ (seeks'.alike alike)).cons stepped
            (stores.trans quiet) same ?_
          refine Or.imp_right fun differs equal => differs ?_
          exact World.objectId_inj sound.numbered (sound.counted.counts_word slot) counts equal
        | won writes word holds trails =>
          obtain ⟨others, won, kept, still⟩ :=
            (brings.tail stepped).of_trails sound' there₁ (trails.alike alike)
          refine .exchanged ⟨m, j, choice, next⟩ won kept (still.trans same) ?_ word rfl ?_
          · rw [writes_cons_of_some stepped (stores.trans writes), others]
          · have bound := (sound.counted.sane call member).slot slot seeks.slot
            have words := Turn.run_words ran bound
            rw [if_pos writes] at words
            exact (world ▸ words).trans holds
        | lost quiet before differs trails =>
          obtain ⟨others, lost, kept, still⟩ :=
            (brings.tail stepped).of_trails sound' there₁ (trails.alike alike)
          have observed : m.world.Counts call.registers.observed :=
            sound.counted.counts_register member .observed
          refine .refused lost ?_ ((writes_cons_of_none stepped (stores.trans quiet)).trans others)
            (.inl before)
          intro equal
          rw [kept] at equal
          have found := still.trans (step_objectId sound stepped observed)
          exact differs (World.objectId_inj sound.numbered observed counts (found.symm.trans equal))
    · exact (ih (brings.tail stepped) sound' there₁ (seeks.alike alike)).cons stepped
        (Moment.stores_of_waits waits) same .inl

theorem untried_of_run {programs : List (List Command)}
    (reached : (ofPrograms programs).run schedule = .ok m) : ∀ call ∈ m.calls, call.Untried := by
  refine run_forall_calls (P := Call.Untried) (fun command w inUse => command.start_untried w)
    (fun choice inUse w call i code turn untried head ran => untried.run head ran)
    (fun call _ => .inl (by simp)) (fun call call' alike untried => ?_) (ofPrograms_sound programs)
    (fun call member => ?_) reached
  · rwa [Call.Untried, alike.code, alike.exchanged, alike.slot]
  · rw [ofPrograms_calls] at member
    exact absurd member List.not_mem_nil

/-- The verdict of a strong compare-exchange whose orders are admitted, from the moment it begins to
the moment it returns, whatever the threads do meanwhile. It is true if and only if the call wrote
its slot in exactly one step, and in that step the slot held the object that was expected. It is
false only if the slot held something else at some moment of the call; the call has then written
nothing. What it leaves in the place of the expected object is that object if and only if the
verdict is true. -/
theorem strong_exchange_verdict {programs : List (List Command)}
    {before schedule : List (Nat × Choice)} {m m' : Machine} {i depth : Nat} {call call' : Call}
    {success : Order} {failure : Option LoadOrder} {order : LoadOrder}
    {accepted refused : List Instruction}
    (reached : (ofPrograms programs).run before = .ok m) (there : m.callAt i depth = some call)
    (code : call.code = exchangeCode .strong success failure accepted refused)
    (admitted : Order.failureOrder success failure = .ok order)
    (brings : m.Brings schedule i depth accepted m' call') :
    ∃ slot, call.slot = some slot ∧
      (call'.exchanged = true ↔ ∃ moment, m.writes schedule i depth = [moment] ∧
        moment.before.world.word slot = call.registers.expected ∧
        moment.before.world.objectId call.registers.expected =
          m.world.objectId call.registers.expected ∧
        moment.after.world.word slot = call.registers.desired) ∧
      (call'.exchanged = false → m.writes schedule i depth = [] ∧
        ∃ moment ∈ m.moments schedule,
          moment.before.world.objectId (moment.before.world.word slot) ≠
            m.world.objectId call.registers.expected) ∧
      (m'.world.objectId call'.registers.expected = m.world.objectId call.registers.expected ↔
        call'.exchanged = true) ∧
      ∀ moment ∈ m.moments schedule, (moment.call? i depth).isSome →
        moment ∉ m.writes schedule i depth → ∀ other < moment.before.world.words.length,
          moment.after.world.word other = moment.before.world.word other := by
  -- The call is at the beginning of its rounds, and it has not seen anything yet.
  have admits : call.code = .read .strong :: accepted := by
    rw [code, exchangeCode, admitted]
    rfl
  have sound : m.Sound := sound_of_run (ofPrograms_sound programs) reached
  obtain ⟨exchanged, slot, acts⟩ : call.exchanged = false ∧ ∃ slot, call.slot = some slot := by
    rcases untried_of_run reached call (mem_calls_of_callAt there) with never | ⟨exchanged, slot, -⟩
    · rw [admits] at never
      exact absurd List.mem_cons_self never
    · exact ⟨exchanged, Option.isSome_iff_exists.mp slot⟩
  have seeks : call.Seeks slot call.registers.expected call.registers.desired accepted False :=
    ⟨acts, rfl, exchanged, [.read .strong], admits, .read rfl⟩
  refine ⟨slot, acts, ?_⟩
  rw [← and_assoc, ← and_assoc]
  refine ⟨?_, fun moment member own outside other bound => ?_⟩
  · cases brings.of_seeks sound there seeks with
    | exchanged moment won kept still writes word held after =>
      refine ⟨⟨⟨fun _ => ⟨moment, writes, word, held, after⟩, fun _ => won⟩, fun lost => ?_⟩,
        fun _ => won, fun _ => ?_⟩
      · exact absurd (won.symm.trans lost) nofun
      · rw [kept, still]
    | refused lost left writes seen =>
      refine ⟨⟨⟨fun won => absurd (won.symm.trans lost) nofun, ?_⟩, fun _ => ⟨writes, ?_⟩⟩, ?_⟩
      · rintro ⟨moment, wrote, -⟩
        rw [writes] at wrote
        contradiction
      · exact seen.resolve_left id
      · exact ⟨fun same => absurd same left, fun won => absurd (won.symm.trans lost) nofun⟩
  · obtain ⟨sound, stepped⟩ := mem_moments sound member
    obtain ⟨c, own⟩ := Option.isSome_iff_exists.mp own
    -- An own step that is not among the writes stores nothing.
    refine step_words sound stepped own ?_ bound
    have quiet : ¬ (moment.stores i depth).isSome := fun stores =>
      outside (List.mem_filter.mpr ⟨member, stores⟩)
    simpa using quiet

theorem first_of_lengths {code : List Instruction}
    (differ : (m.moments schedule).all fun moment =>
      (moment.call? i depth).all fun call => call.code.length != code.length) :
    ∀ moment ∈ m.moments schedule, ∀ call, moment.call? i depth = some call → call.code ≠ code := by
  intro moment member call acts same
  have length := List.all_eq_true.mp differ moment member
  rw [acts, Option.all_some, same] at length
  simp at length

/-- The first thread expects the slot to be empty, and the second puts an object into it between the
read and the try. -/
theorem strong_exchange_verdict_overtaken :
    ∃ m call m' call', (ofPrograms
        [[.mk (.create "s" .nothing false) none,
          .mk (.compareAndExchange .strong "s" .nothing (.fresh []) .seqCst none none) none],
        [.mk (.store "s" (.fresh [])) none]]).run (List.replicate 9 (0, {})) = .ok m ∧
      m.callAt 0 0 = some call ∧
      call.code = exchangeCode .strong .seqCst none
        [.note (.object .expected), .release .expected] [.release .expected] ∧
      m.Brings ((0, {}) :: (1, {}) :: (1, {}) :: (1, {}) :: List.replicate 13 (0, {})) 0 0
        [.note (.object .expected), .release .expected] m' call' ∧
      call'.exchanged = false ∧
      m'.world.objectId call'.registers.expected ≠ m.world.objectId call.registers.expected := by
  obtain ⟨m, call, m', call', reached, there, code, brings, refused⟩ :
      ∃ m call m' call', (ofPrograms
          [[.mk (.create "s" .nothing false) none,
            .mk (.compareAndExchange .strong "s" .nothing (.fresh []) .seqCst none none) none],
          [.mk (.store "s" (.fresh [])) none]]).run (List.replicate 9 (0, {})) = .ok m ∧
        m.callAt 0 0 = some call ∧
        call.code = exchangeCode .strong .seqCst none
          [.note (.object .expected), .release .expected] [.release .expected] ∧
        m.Brings ((0, {}) :: (1, {}) :: (1, {}) :: (1, {}) :: List.replicate 13 (0, {})) 0 0
          [.note (.object .expected), .release .expected] m' call' ∧
        call'.exchanged = false :=
    ⟨_, _, _, _, rfl, rfl, rfl, ⟨rfl, rfl, rfl, first_of_lengths rfl⟩, rfl⟩
  obtain ⟨slot, -, -, -, left, -⟩ := strong_exchange_verdict reached there code rfl brings
  refine ⟨m, call, m', call', reached, there, code, brings, refused, fun same => ?_⟩
  exact absurd ((left.mp same).symm.trans refused) nofun

end Machine

end SharedCells.Slot
