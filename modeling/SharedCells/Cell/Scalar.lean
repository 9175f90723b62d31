import SharedCells.Cell.Program
import SharedCells.Layout

/-! Cells of integers and of truth values: their read-modify-writes and update functions. -/

set_option autoImplicit false

namespace SharedCells

inductive IntOperation where
  | add | sub | and | or | xor
  deriving DecidableEq, Repr

def IntOperation.apply (t : IntType) : IntOperation → Int → Int → Int
  | add => t.add
  | sub => t.sub
  | and => t.and
  | or => t.or
  | xor => t.xor

/-- What an update computes from the current integer. -/
inductive IntUpdate where
  | add (k : Int)
  | mul (k : Int)
  | set (k : Int)
  | complement
  | same
  deriving DecidableEq, Repr

def IntUpdate.apply (t : IntType) : IntUpdate → Int → Int
  | add k, x => t.add x k
  | mul k, x => t.mul x k
  | set k, _ => k
  | complement, x => t.complement x
  | same, x => x

inductive IntAction where
  | load
  | store (v : Int)
  | exchange (v : Int)
  | compareExchange (strength : Strength) (expected desired : Int) (success : Order)
      (failure : Option LoadOrder)
  | compareAndExchange (strength : Strength) (expected desired : Int) (success : Order)
      (failure : Option LoadOrder)
  | fetch (operation : IntOperation) (operand : Int)
  | update (f : IntUpdate) (stores : List Int)
  | describe (layout : Layout)
  deriving DecidableEq, Repr

def IntAction.toAction (t : IntType) : IntAction → Action Int
  | load => .load
  | store v => .store v
  | exchange v => .exchange v
  | compareExchange strength expected desired success failure =>
    .compareExchange strength expected desired success failure
  | compareAndExchange strength expected desired success failure =>
    .compareAndExchange strength expected desired success failure
  | fetch operation operand => .modify fun old => operation.apply t old operand
  | update f stores => .interferedUpdate (f.apply t) stores
  | describe layout => .describe (t.render layout)

inductive BoolOperation where
  | and | or | xor
  deriving DecidableEq, Repr

def BoolOperation.apply : BoolOperation → Bool → Bool → Bool
  | and => Bool.and
  | or => Bool.or
  | xor => Bool.xor

/-- What an update computes from the current truth value. -/
inductive BoolUpdate where
  | set (k : Bool)
  | not
  | same
  deriving DecidableEq, Repr

def BoolUpdate.apply : BoolUpdate → Bool → Bool
  | set k, _ => k
  | not, b => !b
  | same, b => b

end SharedCells
