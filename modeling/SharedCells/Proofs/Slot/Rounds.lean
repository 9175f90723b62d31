import SharedCells.Proofs.Slot.Stores

/-! The rounds of a strong compare-exchange.

A round looks for the expected reference in the slot. It ends with the exchange
if the slot holds that reference, and else with a reference to what the slot was
seen to hold. Once the slot has held something else, a round may end without an
exchange; before that, the call goes on. -/

set_option autoImplicit false

namespace SharedCells.Slot

/-- An instruction on the way to a reference to something other than the expected object. -/
def Instruction.Pursues (expected : Ref) : Instruction → Prop
  | .retain .strong seen => seen ≠ expected
  | .claim .strong addr _ => some addr ≠ expected
  | .recheck .strong debt | .increment .strong debt | .stale .strong debt _ _ =>
    some debt.addr ≠ expected
  | _ => False

section Pursues

variable {purpose : Purpose} {seen expected : Ref} {addr : Addr} {debt : Registry.Debt}

theorem pursues_retain :
    (Instruction.retain purpose seen).Pursues expected ↔ purpose = .strong ∧ seen ≠ expected := by
  cases purpose <;> simp [Instruction.Pursues]

theorem pursues_claim {progress : Registry.Claim} :
    (Instruction.claim purpose addr progress).Pursues expected ↔
      purpose = .strong ∧ some addr ≠ expected := by
  cases purpose <;> simp [Instruction.Pursues]

theorem pursues_recheck : (Instruction.recheck purpose debt).Pursues expected ↔
    purpose = .strong ∧ some debt.addr ≠ expected := by
  cases purpose <;> simp [Instruction.Pursues]

theorem pursues_increment : (Instruction.increment purpose debt).Pursues expected ↔
    purpose = .strong ∧ some debt.addr ≠ expected := by
  cases purpose <;> simp [Instruction.Pursues]

theorem pursues_stale {progress : Registry.Settle} :
    (Instruction.stale purpose debt seen progress).Pursues expected ↔
      purpose = .strong ∧ some debt.addr ≠ expected := by
  cases purpose <;> simp [Instruction.Pursues]

end Pursues

/-- What is left of the rounds of an exchange. `past` tells that the slot has held something else
than the expected reference. -/
inductive Round (expected desired : Ref) (past : Prop) (r : Registers) : List Instruction → Prop where
  | read : r.desired = desired → Round expected desired past r [.read .strong]
  | attempt {seen : Ref} : r.desired = desired → (seen ≠ expected → past) →
      Round expected desired past r [.attempt seen]
  | pursue {i : Instruction} : r.desired = desired → i.Pursues expected → past →
      Round expected desired past r [i]
  | settle {debt : Registry.Debt} {progress : Registry.Settle} : r.observed ≠ expected → past →
      Round expected desired past r [.settle .strong debt progress]
  | release : r.observed ≠ expected → past →
      Round expected desired past r [.release .desired, .move .observed .expected]
  | move : r.observed ≠ expected → past → Round expected desired past r [.move .observed .expected]
  | drop (addr : Addr) {code : List Instruction} : Round expected desired past r code →
      Round expected desired past r (.drop addr :: code)

/-- Instructions that come after the last round. -/
def Instruction.Trails : Instruction → Prop
  | .pay _ _ | .drop _ | .release .observed => True
  | _ => False

namespace Call

/-- A call in the middle of its rounds; what follows them is `accepted`. -/
structure Seeks (slot : SlotId) (expected desired : Ref) (accepted : List Instruction) (past : Prop)
    (call : Call) : Prop where
  slot : call.slot = some slot
  expects : call.registers.expected = expected
  exchanged : call.exchanged = false
  code : ∃ code, call.code = code ++ accepted ∧ Round expected desired past call.registers code

/-- A call whose rounds are over. -/
structure Trails (accepted : List Instruction) (exchanged : Bool) (expected : Ref) (call : Call) :
    Prop where
  expects : call.registers.expected = expected
  exchanged : call.exchanged = exchanged
  code : ∃ code, call.code = code ++ accepted ∧ ∀ i ∈ code, i.Trails

end Call

section Rounds

variable {expected desired : Ref} {past past' : Prop} {r : Registers} {code : List Instruction}

theorem Round.mono (round : Round expected desired past r code) (later : past → past') :
    Round expected desired past' r code := by
  induction round with
  | read holds => exact .read holds
  | attempt holds differs => exact .attempt holds (later ∘ differs)
  | pursue holds pursues differed => exact .pursue holds pursues (later differed)
  | settle differs differed => exact .settle differs (later differed)
  | release differs differed => exact .release differs (later differed)
  | move differs differed => exact .move differs (later differed)
  | drop addr _ ih => exact .drop addr ih

theorem Round.drops (round : Round expected desired past r code) (ref : Ref) :
    Round expected desired past r (ref.toList.map .drop ++ code) := by
  cases ref with
  | none => exact round
  | some addr => exact .drop addr round

theorem trails_drops (ref : Ref) : ∀ i ∈ ref.toList.map Instruction.drop, i.Trails := by
  intro i member
  obtain ⟨addr, -, rfl⟩ := List.mem_map.mp member
  trivial

end Rounds

namespace Turn

variable {t t' : Turn} {choice : Choice} {inUse : SlotId → Bool} {i : Instruction} {slot : SlotId}
  {expected desired : Ref} {accepted rest : List Instruction} {past : Prop}

/-- What an instruction of a round leads to: more of the rounds, the exchange, or the end of the
last round without one. -/
inductive Advance (choice : Choice) (slot : SlotId) (expected desired : Ref)
    (accepted : List Instruction) (past : Prop) (i : Instruction) (t t' : Turn) : Prop where
  | seeks : i.stores choice t = none →
      t'.call.Seeks slot expected desired accepted (past ∨ t.world.word slot ≠ expected) →
      Advance choice slot expected desired accepted past i t t'
  | won : i.stores choice t = some slot → t.world.word slot = expected → t.get .desired = desired →
      t'.call.Trails accepted true expected →
      Advance choice slot expected desired accepted past i t t'
  | lost : i.stores choice t = none → past → t.get .observed ≠ expected →
      t'.call.Trails accepted false (t.get .observed) →
      Advance choice slot expected desired accepted past i t t'

/-- The reading thread ends up with a reference to something other than the expected object, or it
sees the slot again. -/
theorem run_pursue (pursues : i.Pursues expected) (holds : t.get .desired = desired) (differed : past)
    (acts : t.call.slot = some slot) (expects : t.get .expected = expected)
    (untried : t.call.exchanged = false) (code : t.call.code = accepted)
    (ran : t.run choice inUse i = .ok t') :
    t'.call.Seeks slot expected desired accepted past := by
  have next {w : World} {recorded : Bool} {j : Instruction} (pursues : j.Pursues expected) :
      Call.Seeks slot expected desired accepted past
        (Turn.before { t with world := w, recorded } [j]).call :=
    ⟨acts, expects, untried, [j], congrArg (List.cons j) code, .pursue holds pursues differed⟩
  -- The reader takes a reference over, and drops the one that it had.
  have takes {w : World} {ref : Ref} (differs : ref ≠ expected) (more : List Instruction)
      (round : ∀ r : Registers, r.observed = ref → Round expected desired past r more) :
      Call.Seeks slot expected desired accepted past
        ((Turn.before { t with world := w } more).assign .observed ref).call := by
    refine ⟨acts, expects, untried, _, ?_, (round _ rfl).drops (t.get .observed)⟩
    rw [List.append_assoc]
    exact congrArg (fun code => _ ++ (more ++ code)) code
  cases goes_of_run ran with
  | gives_way gives =>
    cases gives with
    | retain =>
      obtain ⟨rfl, differs⟩ := pursues_retain.mp pursues
      exact next (pursues_claim.mpr ⟨rfl, differs⟩)
    | recheck_same =>
      obtain ⟨rfl, differs⟩ := pursues_recheck.mp pursues
      exact next (pursues_increment.mpr ⟨rfl, differs⟩)
    | recheck_differs =>
      obtain ⟨rfl, differs⟩ := pursues_recheck.mp pursues
      exact next (pursues_stale.mpr ⟨rfl, differs⟩)
    | _ => exact pursues.elim
  | retain_nothing =>
    obtain ⟨rfl, differs⟩ := pursues_retain.mp pursues
    exact takes differs (settled .strong) fun r same => .release (same ▸ differs) differed
  | claim =>
    obtain ⟨rfl, differs⟩ := pursues_claim.mp pursues
    exact next (pursues_claim.mpr ⟨rfl, differs⟩)
  | recorded =>
    obtain ⟨rfl, differs⟩ := pursues_claim.mp pursues
    exact next (pursues_recheck.mpr ⟨rfl, differs⟩)
  | @increment _ debt _ ran =>
    obtain ⟨rfl, differs⟩ := pursues_increment.mp pursues
    obtain ⟨heap, rfl⟩ := retainInto_eq ran
    exact takes differs [.settle .strong debt .withdraw] fun r same => .settle (same ▸ differs) differed
  | stale =>
    obtain ⟨rfl, differs⟩ := pursues_stale.mp pursues
    exact next (pursues_stale.mpr ⟨rfl, differs⟩)
  | stale_owed _ seen =>
    obtain ⟨rfl, -⟩ := pursues_stale.mp pursues
    exact ⟨acts, expects, untried, [.attempt seen], congrArg (List.cons _) code,
      .attempt holds fun _ => differed⟩
  | stale_paid =>
    obtain ⟨rfl, differs⟩ := pursues_stale.mp pursues
    exact takes differs (settled .strong) fun r same => .release (same ▸ differs) differed
  | _ => exact pursues.elim

-- The cases are those of `Round`. Only a try can win, and it does so while the slot holds the
-- expected reference; only the last move can lose, and by then `past` is known.
theorem run_round (round : Round expected desired past t.call.registers (i :: rest))
    (acts : t.call.slot = some slot) (expects : t.get .expected = expected)
    (untried : t.call.exchanged = false) (code : t.call.code = rest ++ accepted)
    (ran : t.run choice inUse i = .ok t') :
    Advance choice slot expected desired accepted past i t t' := by
  have word : t.word = t.world.word slot := by rw [Turn.word, acts, Option.bind_some]
  cases round with
  | read holds =>
    obtain rfl := eq_of_givesWay ran .read_strong
    exact .seeks rfl ⟨acts, expects, untried, [.attempt t.word], congrArg (List.cons _) code,
      .attempt holds fun differs => .inr (word ▸ differs)⟩
  | @attempt seen holds differed =>
    cases goes_of_run ran with
    | gives_way gives =>
      have stores := gives.stores
      cases gives with
      | attempt_idle _ idle =>
        rw [idle] at acts
        contradiction
      | attempt_lost acts' same lost =>
        obtain rfl := Option.some.inj (acts.symm.trans acts')
        exact .seeks stores
          ⟨acts, expects, untried, [.attempt (t.world.word slot)], congrArg (List.cons _) code,
            .attempt holds fun _ => .inr (expects ▸ lost)⟩
      | attempt_differs _ differs =>
        have apart : seen ≠ expected := fun equal => differs (equal.trans expects.symm)
        exact .seeks stores
          ⟨acts, expects, untried, [.retain .strong seen], congrArg (List.cons _) code,
            .pursue holds apart (.inl (differed apart))⟩
    | attempt_won acts' same won =>
      obtain rfl := Option.some.inj (acts.symm.trans acts')
      have stores : (Instruction.attempt seen).stores choice t = some slot := by
        simp [Instruction.stores, acts, same, won]
      -- What follows the write pays the debts on the old object and gives up what the call has held.
      refine .won stores (won.trans expects) holds ⟨expects, rfl,
        (t.get .expected).toList.map (.pay · .start) ++
          ((t.get .observed).toList.map .drop ++ [.release .observed]), ?_, ?_⟩
      · rw [List.append_assoc, List.append_assoc]
        exact congrArg (fun code => _ ++ (_ ++ ([Instruction.release .observed] ++ code))) code
      · intro j member
        rcases List.mem_append.mp member with pays | member
        · obtain ⟨addr, -, rfl⟩ := List.mem_map.mp pays
          trivial
        · rcases List.mem_append.mp member with drops | last
          · exact trails_drops _ j drops
          · rw [List.mem_singleton.mp last]
            trivial
  | pursue holds pursues differed =>
    have stores : i.stores choice t = none := by
      cases i <;> first | rfl | exact pursues.elim
    have seeks : t'.call.Seeks slot expected desired accepted (past ∨ t.world.word slot ≠ expected) :=
      run_pursue pursues holds (.inl differed) acts expects untried code ran
    exact .seeks stores seeks
  | @settle debt progress differs differed =>
    cases goes_of_run ran with
    | gives_way gives => cases gives
    | settle_owed =>
      exact .seeks rfl ⟨acts, expects, untried, _, congrArg (settled .strong ++ ·) code,
        .release differs (.inl differed)⟩
    | settle_paid =>
      exact .seeks rfl ⟨acts, expects, untried, .drop debt.addr :: settled .strong,
        congrArg (.drop debt.addr :: settled .strong ++ ·) code,
        .drop _ (.release differs (.inl differed))⟩
    | settle =>
      exact .seeks rfl ⟨acts, expects, untried, [.settle .strong debt _],
        congrArg (List.cons _) code, .settle differs (.inl differed)⟩
  | release differs differed =>
    obtain rfl := eq_of_goes ran (.release .desired)
    have moves : Round expected desired (past ∨ t.world.word slot ≠ expected)
        (t.call.registers.set .desired none) [.move .observed .expected] :=
      .move differs (.inl differed)
    refine .seeks rfl ⟨acts, expects, untried, _, ?_, moves.drops (t.get .desired)⟩
    rw [List.append_assoc]
    exact congrArg (_ ++ ·) code
  | move differs differed =>
    obtain rfl := eq_of_goes ran (.move .observed .expected)
    exact .lost rfl differed differs ⟨rfl, untried, _, congrArg (_ ++ ·) code, trails_drops _⟩
  | drop addr round =>
    cases goes_of_run ran with
    | gives_way gives => cases gives
    | drop => exact .seeks rfl ⟨acts, expects, untried, rest, code, round.mono Or.inl⟩

theorem run_trails (trails : i.Trails) (ran : t.run choice inUse i = .ok t') :
    i.stores choice t = none ∧ t'.call.exchanged = t.call.exchanged ∧
      t'.get .expected = t.get .expected ∧
      ∃ code, t'.call.code = code ++ t.call.code ∧ ∀ i ∈ code, i.Trails := by
  have single {j : Instruction} (trails : j.Trails) : ∀ i ∈ [j], i.Trails :=
    List.forall_mem_singleton.mpr trails
  cases goes_of_run ran with
  | gives_way gives =>
    cases gives with
    | pay_finished => exact ⟨rfl, rfl, rfl, [], rfl, nofun⟩
    | pay_release =>
      exact ⟨rfl, rfl, rfl, _, rfl, List.forall_mem_cons.mpr ⟨trivial, single trivial⟩⟩
    | _ => exact trails.elim
  | pay_start | pay_test | pay_retain | pay_mark => exact ⟨rfl, rfl, rfl, _, rfl, single trivial⟩
  | drop => exact ⟨rfl, rfl, rfl, [], rfl, nofun⟩
  | release register =>
    cases register with
    | observed => exact ⟨rfl, rfl, rfl, _, rfl, trails_drops _⟩
    | expected | desired | kept => exact trails.elim
  | _ => exact trails.elim

end Turn

/-- Instructions that evaluate arguments. -/
def Instruction.Evaluates : Instruction → Prop
  | .evaluate _ _ | .drop _ => True
  | _ => False

/-- A call that has not begun its strong exchange, if it is to make one: only its arguments come
before that. -/
def Call.Untried (call : Call) : Prop :=
  .read .strong ∉ call.code ∨ call.exchanged = false ∧ call.slot.isSome ∧
    ∃ arguments rest, call.code = arguments ++ .read .strong :: rest ∧
      (∀ i ∈ arguments, i.Evaluates) ∧ .read .strong ∉ rest

section Untried

variable {t t' : Turn} {choice : Choice} {inUse : SlotId → Bool} {i : Instruction}

/-- No instruction leads to one with which a command begins, but for the sweep that goes on. -/
theorem Turn.run_given {j : Instruction} (ran : t.run choice inUse i = .ok t') (given : j.Given)
    (rests : ¬ j.Sweeps) (member : j ∈ t'.call.code) : j ∈ t.call.code := by
  cases Turn.run_course ran with
  | passed new passes =>
    rw [passes.code] at member
    rcases List.mem_append.mp member with fresh | old
    · obtain ⟨same, drops⟩ := passes.follows.given _ fresh given
      exact absurd (same.trans drops ▸ trivial) rests
    · exact old
  | ended _ _ _ _ _ ended =>
    rw [ended] at member
    exact absurd member List.not_mem_nil
  | created name _ _ _ _ _ _ code => exact code ▸ member
  | unbound name slot _ _ _ _ _ _ _ code =>
    rw [code] at member
    rcases List.mem_append.mp member with sweeps | old
    · refine absurd ?_ rests
      simp only [List.mem_cons, List.not_mem_nil, or_false] at sweeps
      rcases sweeps with rfl | rfl | rfl <;> trivial
    · exact old

theorem Turn.run_evaluates (evaluates : i.Evaluates) (ran : t.run choice inUse i = .ok t') :
    t'.call.exchanged = t.call.exchanged ∧ t'.call.slot = t.call.slot ∧
      ∃ ref : Ref, t'.call.code = ref.toList.map .drop ++ t.call.code := by
  cases goes_of_run ran with
  | nothing | handle_take | fresh => exact ⟨rfl, rfl, _, rfl⟩
  | handle_copy ran =>
    obtain ⟨heap, rfl⟩ := retainInto_eq ran
    exact ⟨rfl, rfl, _, rfl⟩
  | drop => exact ⟨rfl, rfl, none, rfl⟩
  | gives_way gives => cases gives <;> exact evaluates.elim
  | _ => exact evaluates.elim

theorem Call.Untried.run {w : World} {call : Call} {code : List Instruction} (untried : call.Untried)
    (head : call.code = i :: code)
    (ran : Turn.run choice inUse { world := w, call := { call with code } } i = .ok t') :
    t'.call.Untried := by
  rcases untried with never | ⟨exchanged, slot, arguments, rest, same, evaluates, last⟩
  · exact .inl fun reads => never (head ▸ List.mem_cons_of_mem _ (Turn.run_given ran trivial id reads))
  · rw [head] at same
    cases arguments with
    | nil =>
      obtain ⟨rfl, rfl⟩ := List.cons.inj same
      exact .inl fun reads => last (Turn.run_given ran trivial id reads)
    | cons first arguments =>
      obtain ⟨rfl, rfl⟩ := List.cons.inj same
      obtain ⟨evaluates, more⟩ := List.forall_mem_cons.mp evaluates
      obtain ⟨exchanged', slot', ref, code'⟩ := Turn.run_evaluates evaluates ran
      refine .inr ⟨exchanged'.trans exchanged, slot' ▸ slot, ref.toList.map .drop ++ arguments, rest,
        code'.trans (List.append_assoc _ _ _).symm, fun j member => ?_, last⟩
      rcases List.mem_append.mp member with drops | old
      · obtain ⟨addr, -, rfl⟩ := List.mem_map.mp drops
        trivial
      · exact more j old

theorem Operation.code_untried (operation : Operation) :
    .read .strong ∉ operation.code ∨ operation.slot?.isSome ∧
      ∃ arguments rest, operation.code = arguments ++ .read .strong :: rest ∧
        (∀ i ∈ arguments, i.Evaluates) ∧ .read .strong ∉ rest := by
  cases operation with
  | compareExchange strength slot expected desired success failure =>
    unfold Operation.code
    dsimp only
    rcases exchangeCode_cases strength success failure _ _ with same | ⟨bad, same⟩ <;> rw [same]
    · cases strength with
      | strong =>
        refine .inr ⟨rfl, [_, _], _, rfl, ?_, ?_⟩
        · simp [Instruction.Evaluates]
        · simp
      | weak => simp [purposeOf]
    · simp
  | compareAndExchange strength slot expected desired success failure into =>
    unfold Operation.code
    dsimp only
    rcases exchangeCode_cases strength success failure _ _ with same | ⟨bad, same⟩ <;> rw [same]
    · cases strength with
      | strong =>
        refine .inr ⟨rfl, [_, _], _, rfl, ?_, ?_⟩
        · simp [Instruction.Evaluates]
        · cases into <;> simp [deliver]
      | weak => cases into <;> simp [purposeOf, deliver]
    · simp
  | create slot v required => cases required <;> simp [Operation.code]
  | intoInner slot into | take slot into | load slot into | exchange slot v into =>
    cases into <;> simp [Operation.code, deliver]
  | peek slot into => cases into <;> simp [Operation.code]
  | _ => simp [Operation.code]

theorem Command.start_untried (command : Command) (w : World) :
    (command.start w inUse).2.Untried := by
  obtain ⟨operation, during⟩ := command
  unfold Command.start
  dsimp only
  split
  · exact .inl List.not_mem_nil
  · next found =>
    split
    · exact .inl List.not_mem_nil
    · have untried (call : Call) (code : call.code = operation.code)
          (slot : call.slot = operation.slot?.bind w.slots.get?) (exchanged : call.exchanged = false) :
          call.Untried := by
        rw [Call.Untried, code, slot]
        refine operation.code_untried.imp_right fun ⟨names, more⟩ => ⟨exchanged, ?_, more⟩
        rwa [names, Bool.true_and, Bool.not_eq_true, Option.isNone_eq_false_iff] at found
      split <;> exact untried _ rfl rfl rfl

end Untried

end SharedCells.Slot
