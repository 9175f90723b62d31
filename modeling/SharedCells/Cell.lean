import SharedCells.Order.Name

/-! Cells of values: one raw content that threads read and replace.

The values of a cell are encoded in its content. A plain cell holds the value
itself; the content of any other cell may decode to no value, which a reader
reports and a writer ignores. Each operation here is one indivisible access. -/

set_option autoImplicit false

namespace SharedCells

/-- How the values `α` are kept in contents `ρ`. -/
structure Encoding (ρ α : Type) where
  encode : α → ρ
  decode : ρ → Option α

namespace Encoding

def plain (α : Type) : Encoding α α := ⟨id, some⟩

/-- What is written is read back. -/
def Lawful {ρ α : Type} (E : Encoding ρ α) : Prop := ∀ v, E.decode (E.encode v) = some v

theorem plain_lawful (α : Type) : (plain α).Lawful := fun _ => rfl

end Encoding

inductive CellError where
  | misordered (bad : Order.Misorder)
  | undecodable
  deriving DecidableEq, Repr

def CellError.message : CellError → String
  | misordered bad => bad.message
  | undecodable =>
    "internal error: entered unreachable code: " ++
      "atomic enum cell holds a raw value that no variant maps to"

/-- A weak compare-exchange may fail although the cell holds the expected value. -/
inductive Strength where
  | strong | weak
  deriving DecidableEq, Repr

/-- What a compare-exchange decided, and the expected value it leaves with its caller. -/
structure Attempt (α : Type) where
  verdict : Except CellError Bool
  expected : α

/-- The value left with the caller, for callers that ask for nothing else. -/
def Attempt.observed {α : Type} (attempt : Attempt α) : Except CellError α :=
  attempt.verdict.map fun _ => attempt.expected

namespace Cell

variable {ρ α : Type}

def load (E : Encoding ρ α) (content : ρ) : Except CellError α :=
  match E.decode content with
  | some v => .ok v
  | none => .error .undecodable

/-- Contents are compared, not values. A failed exchange leaves what it saw with its caller, and
an error leaves the caller's value alone. -/
def compareExchange [DecidableEq ρ] (E : Encoding ρ α) (strength : Strength) (spurious : Bool)
    (expected desired : α) (success : Order) (failure : Option LoadOrder) (content : ρ) :
    Attempt α × ρ :=
  match Order.failureOrder success failure with
  | .error bad => (⟨.error (.misordered bad), expected⟩, content)
  | .ok _ =>
    if content = E.encode expected ∧ ¬(strength = .weak ∧ spurious = true) then
      (⟨.ok true, expected⟩, E.encode desired)
    else
      match load E content with
      | .ok actual => (⟨.ok false, actual⟩, content)
      | .error error => (⟨.error error, expected⟩, content)

/-- Replaces the value by its image and answers the value replaced. -/
def modify (E : Encoding ρ α) (f : α → α) (content : ρ) : Except CellError α × ρ :=
  match load E content with
  | .ok old => (.ok old, E.encode (f old))
  | .error error => (.error error, content)

end Cell

end SharedCells
