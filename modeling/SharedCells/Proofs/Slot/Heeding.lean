import SharedCells.Proofs.Slot.Laps

/-! An update knows what its slot holds.

In a thread that runs alone, and as long as no destruction writes the slot, nothing
but the updating function changes what the slot holds. An update that tries its
exchange in vain then ends with a reference to what the slot holds: the next call of
the function is given just that. It may try in vain only if the last call has left
something else in the slot than it was given. -/

set_option autoImplicit false

namespace SharedCells.Slot

/-- An instruction of a read that has seen what the slot holds. It brings a reference to that object into
the observed register. -/
def Instruction.Fetches (word : Ref) (r : Registers) (purpose : Purpose) : Instruction → Prop
  | .retain p seen => p = purpose ∧ seen = word
  | .claim p addr _ => p = purpose ∧ some addr = word
  | .recheck p debt | .increment p debt => p = purpose ∧ some debt.addr = word
  | .settle p _ _ => p = purpose ∧ r.observed = word
  | _ => False

/-- An instruction that leaves the expected and the observed reference alone. -/
def Instruction.Yields : Instruction → Prop
  | .evaluate _ .desired | .copy _ .desired | .copy _ .kept | .release .desired | .release .kept
  | .drop _ => True
  | _ => False

/-- An instruction that comes after the exchange. -/
def Instruction.Concludes : Instruction → Prop
  | .pay _ _ | .release _ | .drop _ => True
  | _ => False

/-- How an update goes on once its current value is what the slot holds. -/
inductive Onward (u : Updating) (calls : Nat) : List Instruction → Prop where
  | consult : Onward u calls [.consult u calls]
  | verdict {n : Nat} : calls = n + 1 → Onward u calls [.verdict u n]

/-- What is left of an update that has called its function so often, up to the next call. The slot holds
`word`, and `past` tells that each call has left something else in the slot than it was given. -/
inductive Heeds (u : Updating) (calls : Nat) (past : Prop) (word : Ref) (r : Registers) :
    List Instruction → Prop where
  | reads {code : List Instruction} : past → Onward u calls code →
      Heeds u calls past word r (.read .load :: .move .observed .expected :: code)
  -- Nobody takes the object away meanwhile, so that the slot is not read again.
  | fetches {purpose : Purpose} {i : Instruction} {rest code : List Instruction} : past →
      Onward u calls code → i.Fetches word r purpose →
      Turn.settled purpose ++ rest = .move .observed .expected :: code →
      Heeds u calls past word r (i :: rest)
  | moves {code : List Instruction} : past → Onward u calls code → r.observed = word →
      Heeds u calls past word r (.move .observed .expected :: code)
  | current {code : List Instruction} : past → Onward u calls code → r.expected = word →
      Heeds u calls past word r code
  -- The function has returned. Whether it has left its argument in the slot shows at the try.
  | answered {n : Nat} : calls = n + 1 → (r.expected ≠ word → past) →
      Heeds u calls past word r [.read .weak, .verdict u n]
  | tries {n : Nat} : calls = n + 1 → (r.expected ≠ word → past) →
      Heeds u calls past word r [.once word, .verdict u n]
  | looks {code : List Instruction} : past → Onward u calls code → r.expected ≠ word →
      Heeds u calls past word r (.revisit word :: code)
  | yields {i : Instruction} {code : List Instruction} : i.Yields → Heeds u calls past word r code →
      Heeds u calls past word r (i :: code)

/-- What is left of an update whose exchange has taken place. -/
inductive Concludes (u : Updating) : List Instruction → Prop where
  | verdict (n : Nat) : Concludes u [.verdict u n]
  | notes : Concludes u (.note .updated :: deliver u.into .kept)
  | cons {i : Instruction} {code : List Instruction} : i.Concludes → Concludes u code →
      Concludes u (i :: code)

variable {u : Updating} {calls : Nat} {past past' : Prop} {word : Ref} {r r' : Registers}
  {code : List Instruction}

namespace Heeds

theorem mono (heeds : Heeds u calls past word r code) (later : past → past')
    (expected : r'.expected = r.expected) (observed : r'.observed = r.observed) :
    Heeds u calls past' word r' code := by
  induction heeds with
  | reads before onward => exact .reads (later before) onward
  | @fetches purpose i rest code before onward fetches ends =>
    refine .fetches (later before) onward (?_ : i.Fetches word r' purpose) ends
    cases i with
    | settle => exact ⟨fetches.1, observed.trans fetches.2⟩
    | _ => exact fetches
  | moves before onward same => exact .moves (later before) onward (observed.trans same)
  | current before onward same => exact .current (later before) onward (expected.trans same)
  | answered counted before => exact .answered counted fun differs => later (before (expected ▸ differs))
  | tries counted before => exact .tries counted fun differs => later (before (expected ▸ differs))
  | looks before onward differs => exact .looks (later before) onward (expected ▸ differs)
  | yields yields _ ih => exact .yields yields ih

theorem drops (heeds : Heeds u calls past word r code) (ref : Ref) :
    Heeds u calls past word r (ref.toList.map .drop ++ code) := by
  cases ref with
  | none => exact heeds
  | some addr => exact .yields trivial heeds

end Heeds

namespace Concludes

theorem append (concludes : Concludes u code) {more : List Instruction}
    (each : ∀ i ∈ more, i.Concludes) : Concludes u (more ++ code) := by
  induction more with
  | nil => exact concludes
  | cons i more ih =>
    obtain ⟨first, others⟩ := List.forall_mem_cons.mp each
    exact .cons first (ih others)

end Concludes

/-- The instruction calls the updating function. -/
def Instruction.consults : Instruction → Bool
  | .consult _ _ => true
  | _ => false

namespace Turn

variable {t t' : Turn} {choice : Choice} {inUse : SlotId → Bool} {i : Instruction} {slot : SlotId}
  {rest : List Instruction} {register : Register} {ref : Ref}

/-- A step by which an update changes no slot and puts no level on the stack but a destruction. -/
structure Stays (t t' : Turn) : Prop where
  slot : t'.call.slot = t.call.slot
  exchanged : t'.call.exchanged = t.call.exchanged
  words : t'.world.words = t.world.words
  above : ∀ level, t'.above = some level → level.grave?.isSome

/-- A step that puts nothing on the stack, and only changes the counts, the registry, the handles, the code
and the registers. -/
theorem Stays.flat {heap : Heap (List Command)} {registry : Registry} {handles : Table Addr}
    {code : List Instruction} {registers : Registers} {recorded : Bool} (alone : t.above = none) :
    Stays t { t with
      world := { t.world with heap, registry, handles }
      call := { t.call with code, registers }
      recorded } :=
  ⟨rfl, rfl, rfl, fun level new => by
    rw [alone] at new
    contradiction⟩

theorem Stays.holds (stays : Stays t t') (slot : SlotId) : t'.world.word slot = t.world.word slot := by
  rw [World.word, stays.words, World.word]

theorem Stays.drop {heap : Heap (List Command)} {left : Object (List Command)} {addr : Addr} :
    Stays t { t with
      world.heap := heap
      above := if left.count = 0 then some { role := .destruction addr, todo := left.onDrop } else none } :=
  ⟨rfl, rfl, rfl, fun level new => by
    dsimp only at new
    split at new
    · rw [← Option.some.inj new]
      rfl
    · contradiction⟩

/-- What an instruction leads to that leaves the expected and the observed reference alone. -/
theorem run_yields (yields : i.Yields) (alone : t.above = none) (ran : t.run choice inUse i = .ok t') :
    Stays t t' ∧ t'.get .expected = t.get .expected ∧ t'.get .observed = t.get .observed ∧
      ∃ ref : Ref, t'.call.code = ref.toList.map .drop ++ t.call.code := by
  cases goes_of_run ran with
  | gives_way gives => cases gives <;> exact yields.elim
  | @handle_copy _ register _ ran | @copy _ register _ ran =>
    obtain ⟨heap, rfl⟩ := retainInto_eq ran
    cases register <;> first | exact yields.elim | exact ⟨.flat alone, rfl, rfl, _, rfl⟩
  | nothing register | handle_take _ register | fresh _ register | release register =>
    cases register <;> first | exact yields.elim | exact ⟨.flat alone, rfl, rfl, _, rfl⟩
  | drop => exact ⟨.drop, rfl, rfl, none, rfl⟩
  | _ => exact yields.elim

/-- A step of an update up to the next call of its function. -/
inductive Heeded (u : Updating) (calls : Nat) (past : Prop) (word : Ref) (i : Instruction) (t t' : Turn) :
    Prop where
  | consults : past → i = .consult u calls → t.call.code = [] → t.get .expected = word →
      Heeded u calls past word i t t'
  | heeds : i.consults = false → Stays t t' → Heeds u calls past word t'.call.registers t'.call.code →
      Heeded u calls past word i t t'
  | wins : i.consults = false → t'.call.exchanged = true → t'.above = none →
      Concludes u t'.call.code → Heeded u calls past word i t t'

theorem run_fetches {purpose : Purpose} {code : List Instruction} (before : past)
    (onward : Onward u calls code) (fetches : i.Fetches word t.call.registers purpose)
    (ends : settled purpose ++ t.call.code = .move .observed .expected :: code)
    (acts : t.call.slot = some slot) (holds : t.world.word slot = word) (alone : t.above = none)
    (ran : t.run choice inUse i = .ok t') : Heeded u calls past word i t t' := by
  have seen : t.word = word := by rw [Turn.word, acts, Option.bind_some, holds]
  have moves {r : Registers} (same : r.observed = word) :
      Heeds u calls past word r (settled purpose ++ t.call.code) := ends ▸ .moves before onward same
  cases goes_of_run ran with
  | gives_way gives =>
    cases gives with
    | retain => exact .heeds rfl (.flat alone) (.fetches before onward fetches ends)
    | recheck_same => exact .heeds rfl (.flat alone) (.fetches before onward fetches ends)
    | recheck_differs _ differs => exact absurd (seen.trans fetches.2.symm) differs
    | _ => exact fetches.elim
  | retain_nothing =>
    obtain ⟨rfl, rfl⟩ := fetches
    have moves : Heeds u calls past none (t.call.registers.set .observed none) _ := moves rfl
    exact .heeds rfl (.flat alone) (moves.drops _)
  | claim | recorded => exact .heeds rfl (.flat alone) (.fetches before onward fetches ends)
  | @increment p debt _ ran =>
    obtain ⟨rfl, rfl⟩ := fetches
    obtain ⟨heap, rfl⟩ := retainInto_eq ran
    have settles := Heeds.fetches (r := t.call.registers.set .observed (some debt.addr)) before onward
      (i := .settle p debt .withdraw) ⟨rfl, rfl⟩ ends
    exact .heeds rfl (.flat alone) (settles.drops _)
  | settle => exact .heeds rfl (.flat alone) (.fetches before onward fetches ends)
  | settle_owed =>
    obtain ⟨rfl, same⟩ := fetches
    exact .heeds rfl (.flat alone) (moves same)
  | @settle_paid _ debt =>
    obtain ⟨rfl, same⟩ := fetches
    exact .heeds rfl (.flat alone) (.yields (i := .drop debt.addr) trivial (moves same))
  | _ => exact fetches.elim

-- The cases are those of `Heeds`. Only a call of the function lets others at the slot, and only a try can
-- win; it does if the slot still holds what the function was given.
theorem run_heeds (heeds : Heeds u calls past word t.call.registers (i :: rest))
    (code : t.call.code = rest) (acts : t.call.slot = some slot) (holds : t.world.word slot = word)
    (untried : t.call.exchanged = false) (alone : t.above = none) (steady : choice.spurious = false)
    (ran : t.run choice inUse i = .ok t') : Heeded u calls past word i t t' := by
  have seen : t.word = word := by rw [Turn.word, acts, Option.bind_some, holds]
  cases heeds with
  | reads before onward =>
    obtain rfl := eq_of_givesWay ran .read_load
    refine .heeds rfl (.flat alone) ?_
    exact .fetches (i := .retain .load t.word) before onward ⟨rfl, seen⟩ code
  | fetches before onward fetches ends =>
    exact run_fetches before onward fetches (code ▸ ends) acts holds alone ran
  | moves before onward same =>
    obtain rfl := eq_of_goes ran (.move .observed .expected)
    refine .heeds rfl (.flat alone) ?_
    exact (Heeds.current (r := (t.call.registers.set .observed none).set .expected (t.get .observed))
      before (code ▸ onward) same).drops _
  | current before onward same =>
    cases onward with
    | consult => exact .consults before rfl code same
    | @verdict n counted =>
      obtain rfl := eq_of_givesWay ran (.verdict_lost u n untried)
      refine .heeds rfl (.flat alone) ?_
      have again : Onward u calls (.consult u (n + 1) :: t.call.code) := by
        rw [code, ← counted]
        exact .consult
      exact .yields (i := .release .kept) trivial (.current before again same)
  | @answered n counted before =>
    obtain rfl := eq_of_givesWay ran .read_weak
    have once : (t.before [.once t.word]).call.code = [.once word, .verdict u n] := by
      rw [seen]
      exact congrArg (List.cons _) code
    exact .heeds rfl (.flat alone) (once ▸ .tries counted before)
  | @tries n counted before =>
    by_cases same : word = t.get .expected
    · -- The payments come first, then what was left in the observed register, then the old object.
      obtain rfl := eq_of_goes ran (.once_won acts same (holds.trans same) steady)
      refine .wins rfl rfl alone ((Concludes.append ?_ fun j member => ?_ :
        Concludes u ((t.get .observed).toList.map .drop ++ .release .observed :: t.call.code)).append
          fun j member => ?_)
      · exact .cons trivial (code ▸ .verdict n)
      · obtain ⟨addr, -, rfl⟩ := List.mem_map.mp member
        trivial
      · obtain ⟨addr, -, rfl⟩ := List.mem_map.mp member
        trivial
    · obtain rfl := eq_of_givesWay ran (.once_differs acts same)
      have onward : Onward u calls t.call.code := code ▸ .verdict counted
      exact .heeds rfl (.flat alone)
        (.yields (i := .release .desired) trivial (.looks (before (Ne.symm same)) onward (Ne.symm same)))
  | looks before onward differs =>
    obtain rfl := eq_of_givesWay ran (.revisit_differs differs.symm)
    refine .heeds rfl (.flat alone) ?_
    exact .fetches (i := .retain .weak word) before onward ⟨rfl, rfl⟩ (congrArg _ code)
  | yields yields heeds =>
    obtain ⟨stays, expected, observed, ref, code'⟩ := run_yields yields alone ran
    have silent : i.consults = false := by cases i <;> first | rfl | exact yields.elim
    rw [code] at code'
    exact .heeds silent stays (code' ▸ (heeds.mono id expected observed).drops ref)

/-- The function returns a value. It has left in the slot what it was given, or else that is known. -/
theorem run_offer_heeds {n : Nat} (counted : calls = n + 1) (left : t.get .expected ≠ word → past)
    (code : t.call.code = []) (alone : t.above = none) (ran : t.run choice inUse (.offer u n) = .ok t') :
    Stays t t' ∧ Heeds u calls past word t'.call.registers t'.call.code := by
  obtain ⟨returned, evaluates, gives⟩ := Instruction.offer_gives_way u n
  have takes : returned.Yields := by
    rcases evaluates with rfl | ⟨v, rfl⟩ <;> trivial
  obtain rfl := eq_of_givesWay ran (gives t choice inUse)
  refine ⟨.flat alone, .yields takes (.yields (i := .copy .expected .kept) trivial ?_)⟩
  rw [code]
  exact .answered counted left

theorem run_concludes (concludes : Concludes u (i :: rest)) (quiet : ¬ i.Notes)
    (code : t.call.code = rest) (won : t.call.exchanged = true) (alone : t.above = none)
    (ran : t.run choice inUse i = .ok t') : i.consults = false ∧ t'.call.exchanged = true ∧
      Concludes u t'.call.code ∧ ∀ level, t'.above = some level → level.grave?.isSome := by
  have flat (above : t'.above = t.above) : ∀ level, t'.above = some level → level.grave?.isSome :=
    fun level new => by
      rw [above, alone] at new
      contradiction
  cases concludes with
  | verdict n =>
    obtain rfl := eq_of_givesWay ran (.verdict_won u n won)
    have ends : Concludes u ((.note .updated :: deliver u.into .kept) ++ t.call.code) := by
      rw [code, List.append_nil]
      exact .notes
    exact ⟨rfl, won, .cons (i := .release .expected) trivial ends, flat rfl⟩
  | notes => exact absurd trivial quiet
  | cons concludes onward =>
    subst code
    cases goes_of_run ran with
    | gives_way gives =>
      cases gives with
      | pay_finished => exact ⟨rfl, won, onward, flat rfl⟩
      | pay_release => exact ⟨rfl, won, .cons trivial (.cons trivial onward), flat rfl⟩
      | _ => exact concludes.elim
    | pay_start | pay_test | pay_retain | pay_mark => exact ⟨rfl, won, .cons trivial onward, flat rfl⟩
    | release register =>
      refine ⟨rfl, won, onward.append fun j member => ?_, flat rfl⟩
      obtain ⟨addr, -, rfl⟩ := List.mem_map.mp member
      trivial
    | drop => exact ⟨rfl, won, onward, Stays.drop.above⟩
    | _ => exact concludes.elim

end Turn

end SharedCells.Slot
