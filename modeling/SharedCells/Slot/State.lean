import SharedCells.Heap
import SharedCells.Slot.Command
import SharedCells.Table

/-! The state of a machine that runs commands over reference slots.

What threads share is the `World`. A thread is a stack of levels: its own
commands, and above them the commands of a destruction, of a block in the
middle of a read, or of a block that an updating function runs. The command in
progress on a level is a `Call`: the instructions left to it, and the
references that it owns, one per register. -/

set_option autoImplicit false

namespace SharedCells.Slot

/-- What a slot, a handle or a register holds: the address of an object, or nothing. -/
abbrev Ref := Option Addr

/-- Slots are numbered as they are created. -/
abbrev SlotId := Nat

structure World where
  heap : Heap (List Command) := .empty
  registry : Registry := .empty
  /-- What the slots hold, by number. -/
  words : List Ref := []
  slots : Table SlotId := []
  /-- The handles that hold something. -/
  handles : Table Addr := []

namespace World

def word (w : World) (slot : SlotId) : Ref := w.words[slot]?.join

def setWord (w : World) (slot : SlotId) (ref : Ref) : World :=
  { w with words := w.words.set slot ref }

/-- The number of the object that a reference names. -/
def objectId (w : World) (ref : Ref) : Option Nat :=
  ref.bind fun addr => (w.heap.find? addr).map (·.id)

end World

inductive Register where
  /-- The expected value of an exchange, and the current value of an update. -/
  | expected
  /-- A value on its way into a slot, a handle or a new slot. -/
  | desired
  /-- A value that was read or taken out. -/
  | observed
  /-- The value that an update returns if it succeeds. -/
  | kept
  deriving DecidableEq, Repr

structure Registers where
  expected : Ref := none
  desired : Ref := none
  observed : Ref := none
  kept : Ref := none
  deriving DecidableEq, Repr

namespace Registers

def get (r : Registers) : Register → Ref
  | .expected => r.expected
  | .desired => r.desired
  | .observed => r.observed
  | .kept => r.kept

def set (r : Registers) (register : Register) (ref : Ref) : Registers :=
  match register with
  | .expected => { r with expected := ref }
  | .desired => { r with desired := ref }
  | .observed => { r with observed := ref }
  | .kept => { r with kept := ref }

theorem get_set (r : Registers) (a b : Register) (ref : Ref) :
    (r.set a ref).get b = if b = a then ref else r.get b := by
  cases a <;> cases b <;> rfl

/-- The registers that hold a reference. -/
def owned (r : Registers) : List Register :=
  [.expected, .desired, .observed, .kept].filter fun register => (r.get register).isSome

end Registers

/-- What a read is for. -/
inductive Purpose where
  | load
  /-- A strong compare-exchange reports what it found instead of the expected object. -/
  | strong
  /-- So does a weak one, which has tried once. -/
  | weak
  deriving DecidableEq, Repr

/-- An updating function, as in `Operation.update`. -/
structure Updating where
  offers : List Offer
  meanwhile : List (Option (List Command))
  into : Option String

/-- What the n-th call returns. -/
def Updating.answer (u : Updating) (n : Nat) : Offer :=
  (u.offers[n]?.or u.offers.getLast?).getD (.value .nothing)

/-- Which outcome is noted. -/
inductive Note where
  | object (register : Register)
  | compared
  | updated
  | described (spread : Bool)
  | misordered (bad : Order.Misorder)

/-- The parts of commands. Each makes at most one access to what the threads share, and puts the
parts that follow from it before the rest. -/
inductive Instruction where
  | evaluate (v : Value) (into : Register)
  | copy (source target : Register)
  /-- Gives a register's reference to another, whose own is dropped. -/
  | move (source target : Register)
  | release (register : Register)
  /-- Gives up one reference. -/
  | drop (addr : Addr)
  | putHandle (handle : String) (source : Register)
  | note (note : Note)
  /-- Refuses to create a slot from nothing. -/
  | require
  /-- Creates a slot that holds the desired value; the slot it displaces becomes the current one. -/
  | createSlot (name : String)
  /-- Exchanges the word of the current slot for the desired value. -/
  | swap
  | pay (addr : Addr) (progress : Registry.Payment)
  /-- Reads the word of the current slot. -/
  | read (purpose : Purpose)
  /-- Retains the object that was read in the slot. -/
  | retain (purpose : Purpose) (seen : Ref)
  | claim (purpose : Purpose) (addr : Addr) (progress : Registry.Claim)
  /-- Reads the slot again once the debt is recorded. -/
  | recheck (purpose : Purpose) (debt : Registry.Debt)
  | increment (purpose : Purpose) (debt : Registry.Debt)
  /-- Settles the debt after the increment. -/
  | settle (purpose : Purpose) (debt : Registry.Debt) (progress : Registry.Settle)
  /-- Settles the debt after the slot was seen to hold something else. -/
  | stale (purpose : Purpose) (debt : Registry.Debt) (seen : Ref) (progress : Registry.Settle)
  /-- A round of a strong compare-exchange. -/
  | attempt (seen : Ref)
  /-- The one try of a weak compare-exchange. -/
  | once (seen : Ref)
  /-- A further look of a weak compare-exchange that has failed. -/
  | revisit (seen : Ref)
  /-- Calls the updating function for the n-th time, counted from 0. -/
  | consult (u : Updating) (n : Nat)
  /-- Takes what the n-th call returns and tries to exchange it for the current value. -/
  | offer (u : Updating) (n : Nat)
  /-- Ends the update if the exchange took place, and else calls the function again. -/
  | verdict (u : Updating) (n : Nat)
  | inspect
  /-- Looks at the object in the slot, and takes a reference to it only to keep it. No debt guards
  the look: it is made in one step, while the slot is sure to keep its reference. -/
  | peek (keep : Bool)
  /-- Drops the first slot that is not in use or, if there is none, the first handle, until nothing
  is left. -/
  | dropNext

inductive Outcome where
  | done
  | noSlot
  | slotBusy
  | noValue
  | misordered (bad : Order.Misorder)
  | object (id : Option Nat)
  | emptiness (isEmpty : Bool)
  | compared (exchanged : Bool) (expected : Option Nat)
  | updated (old : Option Nat) (seen : List (Option Nat))
  | viewed (id count : Nat)
  | text (s : String)
  deriving DecidableEq, Repr

/-- The object that an outcome reports. -/
def Outcome.object? : Outcome → Option Nat
  | object id => id
  | _ => none

mutual

inductive Event where
  /-- An object was destroyed; its commands ran first. -/
  | dropped (id : Nat) (records : List Record)
  | during (records : List Record)
  | meanwhile (records : List Record)

/-- A command that has ended: its outcome, what happened in it, and the live objects with their
counts at its end. -/
structure Record where
  outcome : Outcome
  events : List Event
  live : List (Nat × Nat)

end

/-- A command in progress. -/
structure Call where
  code : List Instruction
  /-- The slot that the command named. It is in use until the command ends. -/
  named : Option SlotId := none
  /-- The slot that the instructions act on. -/
  slot : Option SlotId := none
  registers : Registers := {}
  exchanged : Bool := false
  /-- The arguments of an updating function, newest first. -/
  seen : List (Option Nat) := []
  /-- A block that waits for the first debt. -/
  during : Option (List Command) := none
  outcome : Outcome := .done
  /-- Newest first. -/
  events : List Event := []

/-- Why a level was put on the stack. -/
inductive Role where
  | main
  | destruction (addr : Addr)
  | during
  | meanwhile
  deriving DecidableEq, Repr

structure Level where
  role : Role
  todo : List Command
  call : Option Call := none
  /-- Newest first. -/
  records : List Record := []

/-- The innermost level comes first. -/
abbrev Thread := List Level

end SharedCells.Slot
