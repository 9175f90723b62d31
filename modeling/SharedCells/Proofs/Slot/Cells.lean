import SharedCells.Slot.Machine

/-! Slots as ordinary variables.

Here a slot is a variable that holds an object or nothing, and so is a handle.
There are no addresses, counts or debts: objects are numbers, and are compared as
such. It is what a program sees of reference slots, whoever has stalled in the
middle of a read. -/

set_option autoImplicit false

namespace SharedCells.Slot

structure Cells where
  slots : Table (Option Nat) := []
  /-- The handles that hold something. -/
  handles : Table Nat := []
  created : Nat := 0

/-- What a command reports: its outcome, and the reports of the blocks that it ran. -/
inductive Report where
  | mk (outcome : Outcome) (blocks : List (List Report))

/-- What a command does; `displaced` are the objects that it took out of slots. -/
structure Answer where
  cells : Cells
  outcome : Outcome := .done
  blocks : List (List Report) := []
  displaced : List Nat := []

/-- What commands do one after another. -/
structure Answers where
  cells : Cells
  reports : List Report := []
  displaced : List Nat := []

namespace Cells

def content (p : Cells) (slot : String) : Option Nat := (p.slots.get? slot).join

def put (p : Cells) (slot : String) (object : Option Nat) : Cells :=
  { p with slots := p.slots.put slot object }

def remove (p : Cells) (slot : String) : Cells := { p with slots := p.slots.erase slot }

def keep (p : Cells) (handle : String) (object : Option Nat) : Cells :=
  { p with handles := p.handles.assign handle object }

def deliver (p : Cells) (into : Option String) (object : Option Nat) : Cells :=
  match into with
  | some handle => p.keep handle object
  | none => p

def evaluate (p : Cells) : Value → Cells × Option Nat
  | .nothing => (p, none)
  | .copy handle => (p, p.handles.get? handle)
  | .take handle => ({ p with handles := p.handles.erase handle }, p.handles.get? handle)
  | .fresh _ => ({ p with created := p.created + 1 }, some (p.created + 1))

/-- What an updating function returns for the current object. -/
def offer (p : Cells) (current : Option Nat) : Offer → Cells × Option Nat
  | .same => (p, current)
  | .value v => p.evaluate v

/-- Why an operation is refused while the slots in `busy` are in use, if it is. -/
def refusal (p : Cells) (busy : List String) (operation : Operation) : Option Outcome :=
  if operation.slot?.any fun slot => (p.slots.get? slot).isNone then some .noSlot
  else if operation.removes?.any fun slot => (p.slots.get? slot).isSome &&
      (busy.contains slot || (!operation.unbinds && operation.slot? == some slot)) then
    some .slotBusy
  else none

/-- Puts the desired object into the slot if that holds the expected one; answers whether it did. -/
def exchange (p : Cells) (slot : String) (expected desired : Option Nat) : Cells × Bool :=
  if p.content slot = expected then (p.put slot desired, true) else (p, false)

/-- What an operation does that runs no blocks. -/
def carryOut (p : Cells) (busy : List String) : Operation → Answer
  | .set handle v =>
    let given := p.evaluate v
    { cells := given.1.keep handle given.2, outcome := .object given.2 }
  | .create slot v required =>
    let given := p.evaluate v
    if required && given.2.isNone then { cells := given.1, outcome := .noValue }
    else { cells := given.1.put slot given.2, displaced := (p.content slot).toList }
  | .drop slot => { cells := p.remove slot, displaced := (p.content slot).toList }
  | .intoInner slot into =>
    { cells := (p.remove slot).deliver into (p.content slot)
      outcome := .object (p.content slot)
      displaced := (p.content slot).toList }
  | .load slot into =>
    { cells := p.deliver into (p.content slot), outcome := .object (p.content slot) }
  | .store slot v =>
    let given := p.evaluate v
    { cells := given.1.put slot given.2, displaced := (p.content slot).toList }
  | .exchange slot v into =>
    let given := p.evaluate v
    { cells := (given.1.put slot given.2).deliver into (p.content slot)
      outcome := .object (p.content slot)
      displaced := (p.content slot).toList }
  | .take slot into =>
    { cells := (p.put slot none).deliver into (p.content slot)
      outcome := .object (p.content slot)
      displaced := (p.content slot).toList }
  | .clear slot => { cells := p.put slot none, displaced := (p.content slot).toList }
  | .isEmpty slot => { cells := p, outcome := .emptiness (p.content slot).isNone }
  | .compareExchange _ slot handle desired success failure =>
    let taken := p.evaluate (.take handle)
    let given := taken.1.evaluate desired
    match Order.failureOrder success failure with
    | .error bad => { cells := given.1.keep handle taken.2, outcome := .misordered bad }
    | .ok _ =>
      let tried := given.1.exchange slot taken.2 given.2
      { cells := tried.1.keep handle (p.content slot)
        outcome := .compared tried.2 (p.content slot)
        displaced := if tried.2 then (p.content slot).toList else [] }
  | .compareAndExchange _ slot expected desired success failure into =>
    let sought := p.evaluate expected
    let given := sought.1.evaluate desired
    match Order.failureOrder success failure with
    | .error bad => { cells := given.1, outcome := .misordered bad }
    | .ok _ =>
      let tried := given.1.exchange slot sought.2 given.2
      { cells := tried.1.deliver into (p.content slot)
        outcome := .object (p.content slot)
        displaced := if tried.2 then (p.content slot).toList else [] }
  | .update _ _ _ _ => { cells := p }
  | .clone slot target =>
    { cells := p.put target (p.content slot), displaced := (p.content target).toList }
  | .describe slot spread =>
    { cells := p, outcome := .text (Turn.describeSlot spread (p.content slot)) }
  | .peek slot into =>
    { cells := p.deliver into (p.content slot), outcome := .object (p.content slot) }
  | .dropAll =>
    { cells := { p with slots := p.slots.filter fun entry => busy.contains entry.1, handles := [] }
      displaced := (p.slots.filter fun entry => !busy.contains entry.1).filterMap Prod.snd }

/-- Evaluating a value changes no slot. -/
theorem slots_evaluate (p : Cells) (v : Value) : (p.evaluate v).1.slots = p.slots := by
  cases v <;> rfl

theorem content_evaluate (p : Cells) (v : Value) (slot : String) :
    (p.evaluate v).1.content slot = p.content slot := by
  rw [content, slots_evaluate]
  rfl

theorem content_offer (p : Cells) (current : Option Nat) (offer : Offer) (slot : String) :
    (p.offer current offer).1.content slot = p.content slot := by
  cases offer with
  | same => rfl
  | value v => exact content_evaluate p v slot

end Cells

mutual

/-- What a command does while the slots in `busy` are in use. -/
def Command.act (busy : List String) (p : Cells) : Command → Answer
  | .mk (.update slot offers meanwhile into) _ =>
    match p.refusal busy (.update slot offers meanwhile into) with
    | some outcome => { cells := p, outcome }
    | none => Command.rounds busy slot ⟨offers, meanwhile, into⟩ p 0 [] meanwhile
  | .mk operation _ =>
    match p.refusal busy operation with
    | some outcome => { cells := p, outcome }
    | none => p.carryOut busy operation

/-- The rounds of an update from the `n`-th call of its function on, which has seen `seen` before and
gets what the slot holds. The list holds the blocks of this call and of the next ones; without a
block the slot holds what it held. -/
def Command.rounds (busy : List String) (slot : String) (u : Updating) (p : Cells) (n : Nat)
    (seen : List (Option Nat)) : List (Option (List Command)) → Answer
  | [] | none :: _ =>
    let given := p.offer (p.content slot) (u.answer n)
    { cells := (given.1.put slot given.2).deliver u.into (p.content slot)
      outcome := .updated (p.content slot) (p.content slot :: seen).reverse
      displaced := (p.content slot).toList }
  | some block :: later =>
    -- What the function returns may depend on what its block has done to the handles.
    let current := p.content slot
    let ran := Command.acts (slot :: busy) p block
    let given := ran.cells.offer current (u.answer n)
    if ran.cells.content slot = current then
      { cells := (given.1.put slot given.2).deliver u.into current
        outcome := .updated current (current :: seen).reverse
        blocks := [ran.reports]
        displaced := current.toList ++ ran.displaced }
    else
      let rest := Command.rounds busy slot u given.1 (n + 1) (current :: seen) later
      { rest with
        blocks := ran.reports :: rest.blocks
        displaced := rest.displaced ++ ran.displaced }

/-- What commands do one after another. -/
def Command.acts (busy : List String) (p : Cells) : List Command → Answers
  | [] => { cells := p }
  | command :: commands =>
    let first := Command.act busy p command
    let rest := Command.acts busy first.cells commands
    { cells := rest.cells
      reports := .mk first.outcome first.blocks :: rest.reports
      displaced := rest.displaced ++ first.displaced }

end

/-- An outcome without the count of references, which is that of the object and not of the slot. -/
def Outcome.uncounted : Outcome → Outcome
  | .viewed id _ => .object (some id)
  | outcome => outcome

mutual

/-- What a command that has ended reports. -/
def Record.report : Record → Report
  | .mk outcome events _ => .mk outcome.uncounted (Event.blocks events)

/-- What the blocks report that were run. -/
def Event.blocks : List Event → List (List Report)
  | [] => []
  | .dropped _ _ :: events => Event.blocks events
  | .during records :: events | .meanwhile records :: events =>
    Record.reports records :: Event.blocks events

def Record.reports : List Record → List Report
  | [] => []
  | record :: records => record.report :: Record.reports records

end

theorem Event.blocks_append (events later : List Event) :
    Event.blocks (events ++ later) = Event.blocks events ++ Event.blocks later := by
  induction events with
  | nil => rfl
  | cons event events ih => cases event <;> simp only [List.cons_append, Event.blocks, ih]

theorem Event.blocks_reverse (events : List Event) :
    Event.blocks events.reverse = (Event.blocks events).reverse := by
  induction events with
  | nil => rfl
  | cons event events ih =>
    rw [List.reverse_cons, Event.blocks_append, ih]
    cases event <;> simp [Event.blocks]

end SharedCells.Slot
