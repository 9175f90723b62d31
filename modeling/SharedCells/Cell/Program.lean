import SharedCells.Cell.Update

/-! Programs over one cell, run by a single thread. -/

set_option autoImplicit false

namespace SharedCells

inductive Action (α : Type) where
  | load
  | store (v : α)
  | exchange (v : α)
  /-- Answers whether the exchange took place and what is left in `expected`. -/
  | compareExchange (strength : Strength) (expected desired : α) (success : Order)
      (failure : Option LoadOrder)
  /-- Answers what is left in `expected`. -/
  | compareAndExchange (strength : Strength) (expected desired : α) (success : Order)
      (failure : Option LoadOrder)
  | modify (f : α → α)
  | update (closure : Closure α) (rounds : Nat)
  | describe (render : α → String)

/-- An update that meets one store per call; it needs one call more than there are stores. -/
def Action.interferedUpdate {α : Type} (f : α → α) (stores : List α) : Action α :=
  .update (.interfering f stores) (stores.length + 1)

inductive Answer (α : Type) where
  | done
  | value (v : α)
  | compared (exchanged : Bool) (expected : α)
  | updated (old : α) (seen : List α)
  | unfinished
  | text (s : String)

namespace Action

variable {ρ α : Type} [DecidableEq ρ]

def run (E : Encoding ρ α) (content : ρ) : Action α → Except CellError (Answer α) × ρ
  | load => ((Cell.load E content).map .value, content)
  | store v => (.ok .done, E.encode v)
  | exchange v => ((Cell.load E content).map .value, E.encode v)
  | compareExchange strength expected desired success failure =>
    let (attempt, content) :=
      Cell.compareExchange E strength false expected desired success failure content
    (attempt.verdict.map (.compared · attempt.expected), content)
  | compareAndExchange strength expected desired success failure =>
    let (attempt, content) :=
      Cell.compareExchange E strength false expected desired success failure content
    (attempt.observed.map .value, content)
  | modify f =>
    let (old, content) := Cell.modify E f content
    (old.map .value, content)
  | update closure rounds =>
    let (outcome, content) := Update.ofRounds E closure rounds content
    match outcome with
    | .returned seen old => (.ok (.updated old seen), content)
    | .failed error => (.error error, content)
    | _ => (.ok .unfinished, content)
  | describe render => ((Cell.load E content).map (.text ∘ render), content)

/-- The answer of an action, and the value that the cell then holds. -/
structure Line (α : Type) where
  answer : Except CellError (Answer α)
  value : Except CellError α

def runAll (E : Encoding ρ α) (content : ρ) : List (Action α) → List (Line α) × ρ
  | [] => ([], content)
  | action :: actions =>
    let (answer, content) := action.run E content
    let (lines, final) := runAll E content actions
    (⟨answer, Cell.load E content⟩ :: lines, final)

end Action

end SharedCells
