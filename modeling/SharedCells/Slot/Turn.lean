import SharedCells.Layout
import SharedCells.Slot.Code

/-! One instruction.

A reading thread records a debt on the address it saw, looks at the slot again,
and counts its reference only if the slot still holds that address. A thread
that takes an address out of a slot pays the debts on it before it gives up the
slot's reference. So a reader either counts an object that the slot still
refers to, or is given the reference that a payer counted for it. -/

set_option autoImplicit false

namespace SharedCells.Slot

inductive Fault where
  /-- A reference to an object without references was counted, given up or handed out. -/
  | dangling (addr : Addr)
  /-- A settled mark was neither owed nor paid. -/
  | corrupted (place : Registry.Place)
  deriving DecidableEq, Repr

/-- What the program does not decide: whether a weak exchange fails this time although it could
succeed, and which vacant address, if any, a new object reuses. -/
structure Choice where
  spurious : Bool := false
  addr : Option Addr := none
  deriving DecidableEq, Repr

/-- The world and a call while an instruction is carried out, a level to be put on the stack, and
whether a debt was just recorded. -/
structure Turn where
  world : World
  call : Call
  above : Option Level := none
  recorded : Bool := false

namespace Turn

def get (t : Turn) (register : Register) : Ref := t.call.registers.get register

/-- Puts instructions before the rest of the code. -/
def before (t : Turn) (code : List Instruction) : Turn :=
  { t with call.code := code ++ t.call.code }

def setRegister (t : Turn) (register : Register) (ref : Ref) : Turn :=
  { t with call.registers := t.call.registers.set register ref }

/-- Gives a reference to a register; the reference that it had is dropped. -/
def assign (t : Turn) (register : Register) (ref : Ref) : Turn :=
  (t.setRegister register ref).before ((t.get register).toList.map .drop)

/-- The word of the current slot. -/
def word (t : Turn) : Ref := t.call.slot.bind t.world.word

/-- Counts a reference and gives it to a register. -/
def retainInto (t : Turn) (register : Register) : Ref → Except Fault Turn
  | none => .ok (t.assign register none)
  | some addr =>
    match t.world.heap.retain? addr with
    | some heap => .ok ({ t with world.heap := heap }.assign register (some addr))
    | none => .error (.dangling addr)

/-- Gives up a reference; the destruction of the object goes on a level of its own. -/
def dropReference (t : Turn) (addr : Addr) : Except Fault Turn :=
  match t.world.heap.release? addr with
  | none => .error (.dangling addr)
  | some (left, heap) =>
    .ok { t with
      world.heap := heap
      above := if left.count = 0 then some { role := .destruction addr, todo := left.onDrop }
        else none }

/-- The desired value takes the place of `old` in the slot, and `old`, once no reader is owed it,
is in the observed register. -/
def publish (t : Turn) (slot : SlotId) (old : Ref) : Turn :=
  let t := { t with world := t.world.setWord slot (t.get .desired) }
  ((t.setRegister .desired none).assign .observed old).before
    (old.toList.map (.pay · .start))

/-- What a read does once it has its object, or nothing, in the observed register. -/
def settled : Purpose → List Instruction
  | .load => []
  | .strong => [.release .desired, .move .observed .expected]
  | .weak => [.move .observed .expected]

/-- What a read does with a word that it saw in the slot. -/
def look : Purpose → Ref → Instruction
  | .load, seen => .retain .load seen
  | .strong, seen => .attempt seen
  | .weak, seen => .revisit seen

def describeObject (id : Nat) : String := "#" ++ toString id

def describeSlot (spread : Bool) (id : Option Nat) : String :=
  Layout.cell spread "AtomicRef" <|
    match id with
    | some id => Layout.present spread (describeObject id)
    | none => "None"

def outcome (t : Turn) : Note → Outcome
  | .object register => .object (t.world.objectId (t.get register))
  | .compared => .compared t.call.exchanged (t.world.objectId (t.get .expected))
  | .updated => .updated (t.world.objectId (t.get .kept)) t.call.seen.reverse
  | .described spread => .text (describeSlot spread (t.world.objectId (t.get .observed)))
  | .misordered bad => .misordered bad

def note (t : Turn) (outcome : Outcome) : Turn := { t with call.outcome := outcome }

def evaluate (t : Turn) (choice : Choice) (into : Register) : Value → Except Fault Turn
  | .nothing => .ok (t.assign into none)
  | .copy handle => t.retainInto into (t.world.handles.get? handle)
  | .take handle =>
    let ref := t.world.handles.get? handle
    .ok ({ t with world.handles := t.world.handles.erase handle }.assign into ref)
  | .fresh onDrop =>
    let (addr, heap) := t.world.heap.create choice.addr onDrop
    .ok ({ t with world.heap := heap }.assign into (some addr))

/-- One try to exchange the desired value for the expected one; a word of the slot that differs
from the expected one goes to `failed`. -/
def exchange (t : Turn) (slot : SlotId) (spurious : Bool) (failed : Ref → List Instruction) :
    Turn :=
  let expected := t.get .expected
  if t.world.word slot = expected ∧ spurious = false then
    let t := { t with call.exchanged := true }
    (t.before [.release .observed]).publish slot expected
  else t.before (failed (t.world.word slot))

/-- Carries out one instruction. A slot that is in use is not displaced: its place may have been
taken by another thread since the command was started. -/
def run (choice : Choice) (inUse : SlotId → Bool) (t : Turn) : Instruction → Except Fault Turn
  | .evaluate v into => t.evaluate choice into v
  | .copy source target => t.retainInto target (t.get source)
  | .move source target => .ok ((t.setRegister source none).assign target (t.get source))
  | .release register =>
    .ok ((t.setRegister register none).before ((t.get register).toList.map .drop))
  | .drop addr => t.dropReference addr
  | .putHandle handle source =>
    let displaced := t.world.handles.get? handle
    let handles := t.world.handles.assign handle (t.get source)
    .ok (({ t with world.handles := handles }.setRegister source none).before
      (displaced.toList.map .drop))
  | .note note => .ok (t.note (t.outcome note))
  | .require =>
    if (t.get .desired).isSome then .ok t
    else .ok { t with call.code := [], call.outcome := .noValue }
  | .createSlot name =>
    let displaced := t.world.slots.get? name
    if displaced.any inUse then
      .ok { t with call.code := [], call.outcome := .slotBusy }
    else
      let world := { t.world with
        words := t.world.words ++ [t.get .desired]
        slots := t.world.slots.put name t.world.words.length }
      .ok ({ t with world, call.slot := displaced }.setRegister .desired none)
  | .swap =>
    match t.call.slot with
    | none => .ok t
    | some slot => .ok (t.publish slot (t.world.word slot))
  | .pay addr progress =>
    match progress with
    | .finished => .ok t
    | .retain _ =>
      match t.world.heap.retain? addr with
      | none => .error (.dangling addr)
      | some heap =>
        .ok ({ t with world.heap := heap }.before [.pay addr (progress.resume t.world.registry)])
    | .release _ =>
      .ok (t.before [.drop addr, .pay addr (progress.resume t.world.registry)])
    | progress =>
      let (progress, registry) := progress.step addr t.world.registry
      .ok ({ t with world.registry := registry }.before [.pay addr progress])
  | .read purpose =>
    let first := if purpose = .weak then Instruction.once t.word else look purpose t.word
    .ok (t.before [first])
  | .retain purpose none => .ok ((t.before (settled purpose)).assign .observed none)
  | .retain purpose (some addr) => .ok (t.before [.claim purpose addr .start])
  | .claim purpose addr progress =>
    match progress.step addr choice.spurious t.world.registry with
    | (.recorded place _, registry) =>
      .ok { t.before [.recheck purpose ⟨place, addr⟩] with
        world.registry := registry
        recorded := true }
    | (progress, registry) =>
      .ok ({ t with world.registry := registry }.before [.claim purpose addr progress])
  | .recheck purpose debt =>
    if t.word = some debt.addr then .ok (t.before [.increment purpose debt])
    else .ok (t.before [.stale purpose debt t.word .withdraw])
  | .increment purpose debt =>
    (t.before [.settle purpose debt .withdraw]).retainInto .observed (some debt.addr)
  | .settle purpose debt progress =>
    let (progress, registry) := progress.step debt t.world.registry
    let t := { t with world.registry := registry }
    match progress with
    | .settled true => .ok (t.before (settled purpose))
    -- The slot was taken over in between, and its payer counted a reference as well.
    | .settled false => .ok (t.before (.drop debt.addr :: settled purpose))
    | .corrupted => .error (.corrupted debt.place)
    | progress => .ok (t.before [.settle purpose debt progress])
  | .stale purpose debt seen progress =>
    let (progress, registry) := progress.step debt t.world.registry
    let t := { t with world.registry := registry }
    match progress with
    | .settled true => .ok (t.before [look purpose seen])
    | .settled false =>
      if (t.world.heap.live? debt.addr).isSome then
        .ok ((t.before (settled purpose)).assign .observed (some debt.addr))
      else .error (.dangling debt.addr)
    | .corrupted => .error (.corrupted debt.place)
    | progress => .ok (t.before [.stale purpose debt seen progress])
  | .attempt seen =>
    match t.call.slot with
    | none => .ok t
    | some slot =>
      if seen = t.get .expected then
        .ok (t.exchange slot false fun word => [.attempt word])
      else .ok (t.before [.retain .strong seen])
  | .once seen =>
    match t.call.slot with
    | none => .ok t
    | some slot =>
      if seen = t.get .expected then
        .ok (t.exchange slot choice.spurious fun word => [.release .desired, .revisit word])
      else .ok (t.before [.release .desired, .revisit seen])
  | .revisit seen =>
    if seen = t.get .expected then .ok t else .ok (t.before [.retain .weak seen])
  | .consult u n =>
    let seen := t.world.objectId (t.get .expected) :: t.call.seen
    let above := (u.meanwhile[n]?.join).map fun todo => { role := .meanwhile, todo : Level }
    .ok { t.before [.offer u n] with call.seen := seen, above }
  | .offer u n =>
    let returned := match u.answer n with
      | .same => Instruction.copy .expected .desired
      | .value v => .evaluate v .desired
    .ok (t.before [returned, .copy .expected .kept, .read .weak, .verdict u n])
  | .verdict u n =>
    if t.call.exchanged then
      .ok (t.before (.release .expected :: .note .updated :: deliver u.into .kept))
    else .ok (t.before [.release .kept, .consult u (n + 1)])
  | .inspect => .ok (t.note (.emptiness t.word.isNone))
  | .peek keep =>
    match t.word with
    | none => .ok (t.note (.object none))
    | some addr =>
      match t.world.heap.live? addr with
      | none => .error (.dangling addr)
      | some object =>
        let t := t.note (.viewed object.id object.count)
        if keep then t.retainInto .observed (some addr) else .ok t
  | .dropNext =>
    match t.world.slots.find? fun entry => !inUse entry.2, t.world.handles with
    | some (name, slot), _ =>
      .ok ({ t with world.slots := t.world.slots.erase name, call.slot := some slot }.before
        [.swap, .release .observed, .dropNext])
    | none, (_, addr) :: handles =>
      .ok ({ t with world.handles := handles }.before [.drop addr, .dropNext])
    | none, [] => .ok t

end Turn

end SharedCells.Slot
