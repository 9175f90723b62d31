import SharedCells.Cell

/-! Updating a cell by a function, with retries.

An update loads the value, calls its function on it, and tries to put the
result in place of that very value by a weak compare-exchange; when the cell
has changed, it starts over from the value found. The function may itself
store into the cell while it is being called. `step` makes one access. -/

set_option autoImplicit false

namespace SharedCells

/-- What a call does, given the arguments of the earlier calls and its own: the value it stores
in the cell meanwhile, if any, and the value it returns. -/
abbrev Closure (α : Type) := List α → α → Option α × α

namespace Closure

variable {α : Type}

def ofFunction (f : α → α) : Closure α := fun _ current => (none, f current)

/-- Call number `n`, counted from 0, stores `stores[n]` before it returns. -/
def interfering (f : α → α) (stores : List α) : Closure α :=
  fun earlier current => (stores[earlier.length]?, f current)

end Closure

inductive Update (α : Type) where
  | start
  /-- About to call the function on `current`. -/
  | call (earlier : List α) (current : α)
  /-- About to exchange `current` for `desired`. -/
  | attempt (earlier : List α) (current desired : α)
  | returned (seen : List α) (old : α)
  | failed (error : CellError)

namespace Update

variable {ρ α : Type}

def step [DecidableEq ρ] (E : Encoding ρ α) (closure : Closure α) (spurious : Bool) :
    Update α → ρ → Update α × ρ
  | start, content =>
    match Cell.load E content with
    | .ok current => (call [] current, content)
    | .error error => (failed error, content)
  | call earlier current, content =>
    let (stored, desired) := closure earlier current
    (attempt earlier current desired, (stored.map E.encode).getD content)
  | attempt earlier current desired, content =>
    let (outcome, content) :=
      Cell.compareExchange E .weak spurious current desired .acqRel none content
    match outcome.verdict with
    | .ok true => (returned (earlier ++ [current]) current, content)
    | .ok false => (call (earlier ++ [current]) outcome.expected, content)
    | .error error => (failed error, content)
  | returned seen old, content => (returned seen old, content)
  | failed error, content => (failed error, content)

/-- `n` accesses without a spurious failure. -/
def run [DecidableEq ρ] (E : Encoding ρ α) (closure : Closure α) :
    Nat → Update α → ρ → Update α × ρ
  | 0, update, content => (update, content)
  | n + 1, update, content =>
    let (update, content) := update.step E closure false content
    run E closure n update content

/-- An update that gives up after so many calls of its function. -/
def ofRounds [DecidableEq ρ] (E : Encoding ρ α) (closure : Closure α) (rounds : Nat)
    (content : ρ) : Update α × ρ :=
  run E closure (2 * rounds + 1) start content

end Update

end SharedCells
