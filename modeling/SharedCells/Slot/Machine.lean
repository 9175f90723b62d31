import SharedCells.Slot.Turn

/-! Threads that run commands over reference slots, in any interleaving.

A step of a thread begins a command, carries out one instruction, ends a
command or closes a level. A command that ends still owning a reference drops
it first, as a scope does, so that no reference is forgotten. -/

set_option autoImplicit false

namespace SharedCells.Slot

namespace Thread

def ofCommands (commands : List Command) : Thread := [{ role := .main, todo := commands }]

/-- A command in progress on some level uses the slot. -/
def uses (thread : Thread) (slot : SlotId) : Bool :=
  thread.any fun level => level.call.any fun call => call.named == some slot

/-- Nothing is left to do. -/
def isIdle : Thread → Bool
  | [] => true
  | [level] => level.call.isNone && level.todo.isEmpty
  | _ :: _ :: _ => false

def records (thread : Thread) : List Record :=
  (thread.getLast?.map fun level => level.records.reverse).getD []

/-- The block of the innermost command that waits for its first debt. What is recorded now is the
first debt of every command in progress, so none of them waits any longer. -/
def fire (thread : Thread) : Option (List Command × Thread) :=
  let fired (call : Call) : Call := { call with during := none }
  (thread.findSome? fun level => level.call.bind (·.during)).map fun block =>
    (block, thread.map fun level => { level with call := level.call.map fired })

end Thread

/-- Starts a command: finds its slot, and refuses to remove one that is in use. -/
def Command.start (world : World) (inUse : SlotId → Bool) : Command → World × Call
  | .mk operation during =>
    let named := operation.slot?.bind world.slots.get?
    let refused (outcome : Outcome) : Call := { code := [], outcome }
    if operation.slot?.isSome && named.isNone then (world, refused .noSlot)
    else
      -- A slot that the operation itself names and does not unbind counts as in use.
      let busy (slot : SlotId) : Bool :=
        inUse slot || (!operation.unbinds && named == some slot)
      if (operation.removes?.bind world.slots.get?).any busy then (world, refused .slotBusy)
      else
        let call : Call := { code := operation.code, named, slot := named, during }
        match operation.unbinds, operation.slot? with
        | true, some name =>
          ({ world with slots := world.slots.erase name }, { call with named := none })
        | _, _ => (world, call)

/-- Ends a level and tells the command below it. -/
def Level.close (world : World) (level : Level) (caller : Call) : World × Call :=
  let records := level.records.reverse
  let tell (event : Event) : Call := { caller with events := event :: caller.events }
  match level.role with
  | .main => (world, caller)
  | .destruction addr =>
    let id := (world.objectId (some addr)).getD 0
    ({ world with heap := world.heap.free addr }, tell (.dropped id records))
  | .during => (world, tell (.during records))
  | .meanwhile => (world, tell (.meanwhile records))

namespace Thread

/-- `others` tells which slots other threads use. -/
def step (choice : Choice) (others : SlotId → Bool) (world : World) (thread : Thread) :
    Except Fault (World × Thread) :=
  let inUse (slot : SlotId) : Bool := others slot || uses thread slot
  match thread with
  | [] => .ok (world, [])
  | level :: below =>
    match level.call, level.todo with
    | some call, _ =>
      match call.code, call.registers.owned with
      | instruction :: code, _ => do
        let turn ← Turn.run choice inUse { world, call := { call with code } } instruction
        let thread := { level with call := some turn.call } :: below
        match if turn.recorded then fire thread else none with
        | some (block, thread) => return (turn.world, { role := .during, todo := block } :: thread)
        | none => return (turn.world, turn.above.toList ++ thread)
      | [], register :: registers =>
        let call := { call with code := (register :: registers).map .release }
        .ok (world, { level with call := some call } :: below)
      | [], [] =>
        let record : Record := ⟨call.outcome, call.events.reverse, world.heap.census⟩
        .ok (world, { level with call := none, records := record :: level.records } :: below)
    | none, command :: todo =>
      let (world, call) := command.start world inUse
      .ok (world, { level with todo, call := some call } :: below)
    | none, [] =>
      match below with
      | [] => .ok (world, thread)
      | caller :: rest =>
        match caller.call with
        | none => .ok (world, below)
        | some call =>
          let (world, call) := level.close world call
          .ok (world, { caller with call := some call } :: rest)

/-- Runs a thread alone until it is idle, for so many steps at most. -/
def run : Nat → World → Thread → Except Fault (World × Thread)
  | 0, world, thread => .ok (world, thread)
  | fuel + 1, world, thread =>
    if thread.isIdle then .ok (world, thread)
    else
      match thread.step {} (fun _ => false) world with
      | .ok (world, thread) => run fuel world thread
      | .error fault => .error fault

end Thread

/-- Threads in any interleaving. -/
structure Machine where
  world : World := {}
  threads : List Thread

namespace Machine

/-- Threads that have not begun their programs yet. -/
def ofPrograms (programs : List (List Command)) : Machine :=
  { threads := programs.map Thread.ofCommands }

/-- A step of thread `i`. -/
def step (i : Nat) (choice : Choice) (m : Machine) : Except Fault Machine :=
  match m.threads[i]? with
  | none => .ok m
  | some thread => do
    let others (slot : SlotId) : Bool := m.threads.any (·.uses slot)
    let (world, thread) ← thread.step choice others m.world
    return ⟨world, m.threads.set i thread⟩

/-- Takes steps in the order that the schedule tells, which says whose turn it is. -/
def run (schedule : List (Nat × Choice)) (m : Machine) : Except Fault Machine :=
  schedule.foldlM (fun m (i, choice) => m.step i choice) m

/-- Lets the threads run one after another, each for so many steps at most. -/
def runInTurn (fuel : Nat) (m : Machine) : Except Fault Machine := do
  let (world, threads) ← m.threads.foldlM
    (fun (world, done) thread => do
      let (world, thread) ← thread.run fuel world
      return (world, thread :: done))
    (m.world, [])
  return ⟨world, threads.reverse⟩

end Machine

end SharedCells.Slot
