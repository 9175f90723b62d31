import SharedCells.Proofs.Cell.Chain

/-! A cell is a variable of the type that it encodes.

Whatever is put into a cell is the image of a value, so under a lawful encoding
every content that is read decodes, and two contents are equal exactly when the
values are. A variable knows nothing of contents and compares its values: the
two give the same answers, whichever weak exchanges fail for no reason. -/

set_option autoImplicit false

namespace SharedCells

variable {ρ α : Type}

/-- An action, and which of its tries at a weak exchange fail although the expected value is there,
by the number of tries before. -/
structure Trial (α : Type) where
  action : Action α
  spurious : Nat → Bool

/-- An action none of whose tries fails for no reason. -/
def Trial.steady (action : Action α) : Trial α := ⟨action, fun _ => false⟩

namespace Update

variable [DecidableEq ρ] {E : Encoding ρ α} {closure : Closure α} {spurious : Nat → Bool}

/-- How many tries have failed. -/
def tries : Update α → Nat
  | call earlier _ | attempt earlier _ _ => earlier.length
  | _ => 0

/-- So many accesses, with the tries that fail for no reason. -/
def runTrying (E : Encoding ρ α) (closure : Closure α) (spurious : Nat → Bool) :
    Nat → Update α → ρ → Update α × ρ
  | 0, update, content => (update, content)
  | n + 1, update, content =>
    let (update, content) := update.step E closure (spurious update.tries) content
    runTrying E closure spurious n update content

/-- What the caller of an update is told. -/
def answer : Update α → Except CellError (Answer α)
  | .returned seen old => .ok (.updated old seen)
  | .failed error => .error error
  | _ => .ok .unfinished

theorem runTrying_steady (n : Nat) (update : Update α) (content : ρ) :
    runTrying E closure (fun _ => false) n update content = run E closure n update content := by
  induction n generalizing update content with
  | zero => rfl
  | succ n ih => exact ih ..

theorem runTrying_returned (n : Nat) (seen : List α) (old : α) (content : ρ) :
    runTrying E closure spurious n (.returned seen old) content = (.returned seen old, content) := by
  induction n with
  | zero => rfl
  | succ n ih => exact ih

end Update

namespace Trial

variable [DecidableEq ρ]

/-- The answer of an action, and what its tries leave in the cell. -/
def run (E : Encoding ρ α) (content : ρ) (trial : Trial α) : Except CellError (Answer α) × ρ :=
  match trial.action with
  | .compareExchange strength expected desired success failure =>
    let (attempt, content) := Cell.compareExchange E strength (trial.spurious 0) expected desired
      success failure content
    (attempt.verdict.map (.compared · attempt.expected), content)
  | .compareAndExchange strength expected desired success failure =>
    let (attempt, content) := Cell.compareExchange E strength (trial.spurious 0) expected desired
      success failure content
    (attempt.observed.map .value, content)
  | .update closure rounds =>
    let (outcome, content) :=
      Update.runTrying E closure trial.spurious (2 * rounds + 1) .start content
    (outcome.answer, content)
  | action => action.run E content

def runAll (E : Encoding ρ α) (content : ρ) : List (Trial α) → List (Action.Line α) × ρ
  | [] => ([], content)
  | trial :: trials =>
    let (answer, content) := trial.run E content
    let (lines, final) := runAll E content trials
    (⟨answer, Cell.load E content⟩ :: lines, final)

variable {E : Encoding ρ α}

theorem run_steady (action : Action α) (content : ρ) :
    (steady action).run E content = action.run E content := by
  cases action with
  | update closure rounds =>
    simp only [run, steady, Action.run, Update.ofRounds, Update.runTrying_steady]
    cases (Update.run E closure (2 * rounds + 1) .start content).1 <;> rfl
  | _ => rfl

theorem runAll_steady (actions : List (Action α)) (content : ρ) :
    runAll E content (actions.map steady) = Action.runAll E content actions := by
  induction actions generalizing content with
  | nil => rfl
  | cons action rest ih => simp only [List.map_cons, runAll, Action.runAll, run_steady, ih]

end Trial

/-! A variable of type `α`, which compares its values by equality. -/

namespace Variable

variable [DecidableEq α]

/-- Whether the exchange took place, what is left in `expected`, and the value then held. -/
def compareExchange (strength : Strength) (spurious : Bool) (expected desired : α)
    (success : Order) (failure : Option LoadOrder) (v : α) :
    Except Order.Misorder (Bool × α) × α :=
  match Order.failureOrder success failure with
  | .error bad => (.error bad, v)
  | .ok _ =>
    if v = expected ∧ ¬(strength = .weak ∧ spurious = true) then (.ok (true, expected), desired)
    else (.ok (false, v), v)

/-- At most so many calls of the function, each on the value then held. A call's result replaces
that value if it is still held, or again held, after what the call itself has stored. -/
def update (closure : Closure α) (spurious : Nat → Bool) :
    Nat → List α → α → Answer α × α
  | 0, _, v => (.unfinished, v)
  | rounds + 1, earlier, v =>
    let (stored, desired) := closure earlier v
    let now := stored.getD v
    if now = v ∧ spurious earlier.length = false then (.updated v (earlier ++ [v]), desired)
    else update closure spurious rounds (earlier ++ [v]) now

/-- An order that does not fit is the only way to fail. -/
def act (v : α) (trial : Trial α) : Except Order.Misorder (Answer α) × α :=
  match trial.action with
  | .load => (.ok (.value v), v)
  | .store w => (.ok .done, w)
  | .exchange w => (.ok (.value v), w)
  | .compareExchange strength expected desired success failure =>
    let (outcome, now) :=
      compareExchange strength (trial.spurious 0) expected desired success failure v
    (outcome.map fun (exchanged, left) => .compared exchanged left, now)
  | .compareAndExchange strength expected desired success failure =>
    let (outcome, now) :=
      compareExchange strength (trial.spurious 0) expected desired success failure v
    (outcome.map fun (_, left) => .value left, now)
  | .modify f => (.ok (.value v), f v)
  | .update closure rounds =>
    let (answer, now) := update closure trial.spurious rounds [] v
    (.ok answer, now)
  | .describe render => (.ok (.text (render v)), v)

/-- The answers, each with the value that the action leaves, and the last value. -/
def acts (v : α) : List (Trial α) → List (Except Order.Misorder (Answer α) × α) × α
  | [] => ([], v)
  | trial :: trials =>
    let (answer, now) := act v trial
    let (lines, final) := acts now trials
    ((answer, now) :: lines, final)

end Variable

/-- What the user of a cell sees where a variable would have given this answer and kept this
value. -/
def Action.Line.ofVariable (line : Except Order.Misorder (Answer α) × α) : Action.Line α :=
  ⟨line.1.mapError .misordered, .ok line.2⟩

theorem Action.Line.ofVariable_decodes (line : Except Order.Misorder (Answer α) × α) :
    (ofVariable line).answer ≠ .error .undecodable ∧
      (ofVariable line).value ≠ .error .undecodable := by
  obtain ⟨answer | bad, v⟩ := line <;> simp [ofVariable, Except.mapError]

section Lawful

variable [DecidableEq ρ] [DecidableEq α] {E : Encoding ρ α} {closure : Closure α}
  {spurious : Nat → Bool}

theorem Cell.compareExchange_encode (lawful : E.Lawful) (strength : Strength) (spurious : Bool)
    (expected desired v : α) (success : Order) (failure : Option LoadOrder) :
    Cell.compareExchange E strength spurious expected desired success failure (E.encode v) =
      let outcome := Variable.compareExchange strength spurious expected desired success failure v
      (⟨(outcome.1.map Prod.fst).mapError .misordered, (outcome.1.map Prod.snd).toOption.getD expected⟩,
        E.encode outcome.2) := by
  have same : E.encode v = E.encode expected ↔ v = expected :=
    ⟨lawful.encode_inj, congrArg E.encode⟩
  unfold Cell.compareExchange Variable.compareExchange
  cases Order.failureOrder success failure with
  | error bad => rfl
  | ok order =>
    simp only [same, Cell.load_encode lawful]
    split <;> rfl

theorem Update.step_attempt (lawful : E.Lawful) (spurious : Bool) (earlier : List α)
    (current desired v : α) :
    (Update.attempt earlier current desired).step E closure spurious (E.encode v) =
      if v = current ∧ spurious = false then
        (.returned (earlier ++ [current]) current, E.encode desired)
      else (.call (earlier ++ [current]) v, E.encode v) := by
  simp only [step, Cell.compareExchange_encode lawful, Variable.compareExchange,
    Order.failureOrder_none, true_and, Bool.not_eq_true]
  by_cases won : v = current ∧ spurious = false
  · simp only [if_pos won]
    rfl
  · simp only [if_neg won]
    rfl

/-- Whenever the function is called, the cell holds the value that it is called on. -/
theorem Update.runTrying_call (lawful : E.Lawful) (rounds : Nat) (earlier : List α) (v : α) :
    let outcome := Update.runTrying E closure spurious (2 * rounds) (.call earlier v) (E.encode v)
    let wanted := Variable.update closure spurious rounds earlier v
    (outcome.1.answer, outcome.2) = (.ok wanted.1, E.encode wanted.2) := by
  induction rounds generalizing earlier v with
  | zero => rfl
  | succ rounds ih =>
    have called : (Update.call earlier v).step E closure (spurious earlier.length) (E.encode v) =
        (.attempt earlier v (closure earlier v).2, E.encode ((closure earlier v).1.getD v)) := by
      rw [step]
      rcases closure earlier v with ⟨_ | _, desired⟩ <;> rfl
    rw [Nat.mul_succ]
    dsimp only [runTrying, tries, Variable.update]
    rw [called]
    dsimp only
    rw [step_attempt lawful]
    split
    · rw [runTrying_returned]
      rfl
    · exact ih ..

namespace Trial

theorem run_encode (lawful : E.Lawful) (v : α) (trial : Trial α) :
    trial.run E (E.encode v) =
      ((Variable.act v trial).1.mapError .misordered, E.encode (Variable.act v trial).2) := by
  obtain ⟨action, spurious⟩ := trial
  cases action with
  | load | exchange | modify | describe =>
    simp only [run, Action.run, Cell.modify, Cell.load_encode lawful, Variable.act]
    rfl
  | store => rfl
  | compareExchange strength expected desired success failure =>
    simp only [run, Cell.compareExchange_encode lawful, Variable.act]
    cases (Variable.compareExchange strength (spurious 0) expected desired success failure v).1 <;> rfl
  | compareAndExchange strength expected desired success failure =>
    simp only [run, Cell.compareExchange_encode lawful, Attempt.observed, Variable.act]
    cases (Variable.compareExchange strength (spurious 0) expected desired success failure v).1 <;> rfl
  | update closure rounds =>
    simp only [run, Update.runTrying, Update.step, Cell.load_encode lawful]
    exact Update.runTrying_call lawful rounds [] v

theorem runAll_encode (lawful : E.Lawful) (v : α) (trials : List (Trial α)) :
    runAll E (E.encode v) trials =
      ((Variable.acts v trials).1.map .ofVariable, E.encode (Variable.acts v trials).2) := by
  induction trials generalizing v with
  | nil => rfl
  | cons trial rest ih =>
    simp only [runAll, run_encode lawful, ih, Cell.load_encode lawful, Variable.acts,
      List.map_cons, Action.Line.ofVariable]

/-- A cell with a lawful encoding answers whatever is done with it as a variable of the encoded type
does, closures that store into the cell included, and then holds what the variable holds. No content
that is read fails to decode. A compare-exchange succeeds exactly when the values are equal, unless
its orders do not fit or it fails for no reason. -/
theorem runAll_as_variable (lawful : E.Lawful) (v : α) :
    (∀ trials : List (Trial α),
      runAll E (E.encode v) trials =
          ((Variable.acts v trials).1.map .ofVariable, E.encode (Variable.acts v trials).2) ∧
        ∀ line ∈ (runAll E (E.encode v) trials).1,
          line.answer ≠ .error .undecodable ∧ line.value ≠ .error .undecodable) ∧
      (∀ actions : List (Action α),
        Action.runAll E (E.encode v) actions =
          ((Variable.acts v (actions.map steady)).1.map .ofVariable,
            E.encode (Variable.acts v (actions.map steady)).2)) ∧
      ∀ (strength : Strength) (spurious : Bool) (expected desired : α) (success : Order)
        (failure : Option LoadOrder),
        (Cell.compareExchange E strength spurious expected desired success failure
            (E.encode v)).1.verdict = .ok true ↔
          (∃ order, Order.failureOrder success failure = .ok order) ∧ v = expected ∧
            ¬(strength = .weak ∧ spurious = true) := by
  refine ⟨fun trials => ⟨runAll_encode lawful v trials, fun line member => ?_⟩, fun actions => ?_,
    fun strength spurious expected desired success failure => ?_⟩
  · rw [runAll_encode lawful] at member
    obtain ⟨kept, -, rfl⟩ := List.mem_map.mp member
    exact Action.Line.ofVariable_decodes kept
  · rw [← runAll_steady, runAll_encode lawful]
  · rw [Cell.compareExchange_encode lawful, Variable.compareExchange]
    cases Order.failureOrder success failure with
    | error bad => simp [Except.map, Except.mapError]
    | ok order =>
      dsimp only
      split
      · next won => simp [won, Except.map, Except.mapError]
      · next lost => simpa [Except.map, Except.mapError] using lost

/-- The first call stores another variant, so that the second is made on that one; its try fails once
for no reason, and the third is made on the same variant again. -/
theorem runAll_as_variable_interfered :
    let E := Variant.encoding [⟨"A", 7, false⟩, ⟨"B", 3, false⟩, ⟨"C", (5 : Int), false⟩]
    let update : Trial (Fin 3) :=
      ⟨.update (.interfering (· + 1) [1]) 3, fun tries => tries == 1⟩
    let compare : Trial (Fin 3) := .steady (.compareExchange .strong 0 1 .seqCst none)
    E.Lawful ∧ runAll E (E.encode 0) [update, compare] =
      ([⟨.ok (.updated 1 [0, 1, 1]), .ok 2⟩, ⟨.ok (.compared false 2), .ok 2⟩], E.encode 2) := by
  intro E update compare
  have lawful : E.Lawful := by
    unfold Encoding.Lawful
    decide
  exact ⟨lawful, ((runAll_as_variable lawful 0).1 [update, compare]).1⟩

end Trial

end Lawful

end SharedCells
