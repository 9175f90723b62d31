import SharedCells.Backoff
import SharedCells.Cell.Crew
import SharedCells.Cell.Scalar
import SharedCells.Slot.Machine

/-! Workloads of many threads on one shared cell or slot.

The threads are run one after another: a compare-exchange then succeeds at its
first try, and objects are numbered in the order in which the threads make them. -/

set_option autoImplicit false

namespace SharedCells.Workload

/-- What a worker repeats on a cell of integers. -/
inductive IntJob where
  | fetch (operation : IntOperation)
  /-- An update that adds. -/
  | update
  deriving DecidableEq, Repr

def IntJob.toJob (t : IntType) (k : Int) : IntJob → Job Int
  | fetch operation => .modify fun old => operation.apply t old k
  | update => .update fun old => t.add old k

/-- Worker `i` does the job `rounds` times with operand `i` of the operands, which are used in
turn; answers the final content. -/
def fetch (t : IntType) (job : IntJob) (initial : Int) (operands : List Int)
    (threads rounds : Nat) : Int :=
  let worker (i : Nat) : Worker Int :=
    { jobs := List.replicate rounds (job.toJob t (operands[i % operands.length]?.getD 0)) }
  (Crew.finish (.plain Int) ⟨initial, (List.range threads).map worker⟩).content

/-- All threads try to raise one flag; answers how often one succeeded, and the flag. -/
def winner (threads rounds : Nat) : Nat × Bool :=
  let attempt : Action Bool := .compareExchange .strong false true .standard none
  let (lines, flag) := Action.runAll (.plain Bool) false (List.replicate (threads * rounds) attempt)
  let won (line : Action.Line Bool) : Bool :=
    match line.answer with
    | .ok (.compared exchanged _) => exchanged
    | _ => false
  (lines.countP won, flag)

/-- A lock and the counter that it guards. -/
structure Guarded where
  locked : Bool
  counter : Nat

/-- Takes the lock, counts and unlocks. A try that fails backs off and is made again, so many
times at most. -/
def Guarded.count : Nat → Backoff → Guarded → Guarded
  | 0, _, g => g
  | tries + 1, backoff, g =>
    let (attempt, locked) :=
      Cell.compareExchange (.plain Bool) .weak false false true .acquire none g.locked
    match attempt.verdict with
    | .ok true => ⟨false, g.counter + 1⟩
    | _ =>
      match backoff.snooze with
      | .ok (backoff, _) => count tries backoff ⟨locked, g.counter⟩
      | .error _ => ⟨locked, g.counter⟩

def spinlock (threads rounds : Nat) : Guarded :=
  (List.range (threads * rounds)).foldl (fun g _ => g.count 1 .standard) ⟨false, 0⟩

section Slots

open Slot

/-- Runs the threads in turn; answers what they recorded, thread after thread. -/
def recordsOf (fuel : Nat) (threads : List (List Operation)) : Except Fault (List Record) := do
  let commands := threads.map fun operations => operations.map fun operation => .mk operation none
  let m ← Machine.runInTurn fuel { threads := commands.map Thread.ofCommands }
  return (m.threads.map Thread.records).flatten

/-- The objects stand for the values from 0 on, in the order in which they are made. -/
def valueOf (id : Nat) : Nat := id - 1

def fresh : Value := .fresh []

/-- The value in the slot after a workload, the count of its object while one handle has it too,
and how often something went wrong. -/
structure Final where
  value : Nat
  count : Nat
  failures : Nat
  deriving DecidableEq, Repr

/-- Lets the workers run on a slot that holds the value 0 at first, as the handle `first` does. -/
def finalOf (fuel : Nat) (workers : List (List Operation)) (failures : List Record → Nat) :
    Except Fault Final := do
  let prepare := [.set "first" fresh, .create "slot" (.copy "first") false]
  let finish := [.set "first" .nothing, .load "slot" (some "final")]
  let records ← recordsOf fuel (prepare :: workers ++ [finish])
  let last := records.getLast?
  let id := (last.bind fun record => record.outcome.object?).getD 0
  let count := (last.bind fun record => record.live.lookup id).getD 0
  return ⟨valueOf id, count, failures (records.drop prepare.length)⟩

/-- Every update replaces the object by one for the next value. -/
def updateChain (fuel threads rounds : Nat) : Except Fault Final :=
  let worker := List.replicate rounds (.update "slot" [.value fresh] [] none)
  finalOf fuel (List.replicate threads worker) fun _ => 0

/-- A failed exchange that left the expected object as it was. -/
def isUnreported (loaded exchanged : Record) : Bool :=
  match exchanged.outcome with
  | .compared false expected => expected == loaded.outcome.object?
  | _ => false

/-- The same by loads and strong exchanges. -/
def exchangeChain (fuel threads rounds : Nat) : Except Fault Final :=
  let round := [.load "slot" (some "seen"),
    .compareExchange .strong "slot" "seen" fresh .standard none]
  let worker := (List.replicate rounds round).flatten ++ [.set "seen" .nothing]
  finalOf fuel (List.replicate threads worker) fun records =>
    (records.zip records.tail).countP fun (loaded, exchanged) => isUnreported loaded exchanged

def isFailedExchange (record : Record) : Bool :=
  match record.outcome with
  | .compared exchanged _ => !exchanged
  | _ => false

/-- The first thread publishes the values in order by exchanges that expect its last object, and
the others read; a failed exchange and a read that goes backwards are wrong. -/
def orderedReads (fuel threads rounds : Nat) : Except Fault Final :=
  let round := [.set "next" fresh,
    .compareExchange .strong "slot" "first" (.copy "next") .standard none,
    .set "first" (.take "next")]
  let publisher := (List.replicate rounds round).flatten
  let worker (i : Nat) : List Operation := if i = 0 then publisher else [.load "slot" none]
  finalOf fuel ((List.range threads).map worker) fun records =>
    let reads := (records.drop publisher.length).filterMap (·.outcome.object?)
    let backwards := (reads.zip reads.tail).countP fun (before, after) => decide (after < before)
    records.countP isFailedExchange + backwards

/-- Exchanges objects in; answers the sum of the values that came out, and whether the slot is
empty once the last one is taken. -/
def swapAll (fuel threads rounds : Nat) : Except Fault (Nat × Bool) := do
  let worker := List.replicate rounds (.exchange "slot" fresh none)
  let prepare := [.create "slot" .nothing false]
  let finish := [.take "slot" none, .isEmpty "slot"]
  let records ← recordsOf fuel (prepare :: List.replicate threads worker ++ [finish])
  let values := records.filterMap fun record => record.outcome.object?.map valueOf
  let isEmpty := records.getLast?.any fun record => record.outcome == .emptiness true
  return (values.foldl (· + ·) 0, isEmpty)

/-- Offers objects by stores, exchanges and compare-exchanges between loads and then clears the
slot; answers how many reads gave an object never made, and how many objects were destroyed. -/
def stress (fuel threads rounds : Nat) : Except Fault (Nat × Nat) := do
  let offer (i : Nat) : Operation :=
    match i % 3 with
    | 0 => .store "slot" fresh
    | 1 => .exchange "slot" fresh none
    | _ => .compareAndExchange .strong "slot" (.take "seen") fresh .standard none none
  let round (i : Nat) := [.load "slot" (some "seen"), offer i]
  let worker := ((List.range rounds).map round).flatten ++ [.set "seen" .nothing]
  let prepare := [.create "slot" .nothing false]
  let finish := [.clear "slot"]
  let records ← recordsOf fuel (prepare :: List.replicate threads worker ++ [finish])
  let isBad (record : Record) : Bool :=
    record.outcome.object?.any fun id => valueOf id ≥ threads * rounds
  let dropped (event : Event) : Bool := match event with
    | .dropped _ _ => true
    | _ => false
  return (records.countP isBad, (records.flatMap Record.events).countP dropped)

end Slots

end SharedCells.Workload
