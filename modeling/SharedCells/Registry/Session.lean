import SharedCells.Registry

/-! Threads that call the registry.

A thread is a stack of levels. The lowest runs the thread's own requests; a
payment that calls back runs the requests of that callback on a level above,
so that a callback may use the registry while the payment is in progress. One
step of a thread makes at most one access. -/

set_option autoImplicit false

namespace SharedCells.Registry

inductive Request where
  | claim (name : String) (addr : Addr)
  | settle (name : String)
  /-- The lists hold the requests of the first, the second, … retain and release. -/
  | pay (addr : Addr) (onRetain onRelease : List (List Request))

inductive Callback where
  | retain | release
  deriving DecidableEq, Repr

inductive Reply where
  /-- The address is reserved. -/
  | refused
  | claimed (grown : Bool)
  | settled (outstanding : Bool)
  /-- How often the object was retained less how often it was released, and what the callbacks'
  requests were answered. -/
  | paid (retained : Int) (calls : List (Callback × List Reply))
  /-- No debt has the name. -/
  | unnamed
  /-- A settled mark was found neither owed nor paid. -/
  | corrupted

def refusal : String := "assertion failed: addr != NO_DEBT && addr != PAID"

def growth : String := "TRACE: debt list grown by " ++ toString breadth ++ " slots"

/-- A payment in progress; its finished callbacks are kept newest first. -/
structure Paying where
  addr : Addr
  progress : Payment
  onRetain : List (List Request)
  onRelease : List (List Request)
  calls : List (Callback × List Reply) := []

namespace Paying

def count (p : Paying) (kind : Callback) : Nat :=
  (p.calls.filter fun call => call.1 = kind).length

def retained (p : Paying) : Int := (p.count .retain : Int) - p.count .release

/-- The requests of the callback that is now due. -/
def script (p : Paying) : Callback → List Request
  | .retain => p.onRetain[p.count .retain]?.getD []
  | .release => p.onRelease[p.count .release]?.getD []

/-- The callback that the payment waits for. -/
def due (p : Paying) : Option Callback :=
  match p.progress with
  | .retain _ => some .retain
  | .release _ => some .release
  | _ => none

end Paying

inductive Activity where
  | claiming (name : String) (addr : Addr) (progress : Claim)
  | settling (debt : Debt) (progress : Settle)
  | paying (payment : Paying)

/-- Requests to do, the one in progress, and the replies so far, newest first. -/
structure Level where
  todo : List Request
  activity : Option Activity := none
  replies : List Reply := []

/-- The innermost level comes first. -/
abbrev Thread := List Level

/-- What the threads share: the registry, and the recorded debts by name, newest first. -/
structure Ledger where
  registry : Registry := .empty
  debts : List (String × Debt) := []

namespace Level

def answer (level : Level) (reply : Reply) : Level :=
  { level with activity := none, replies := reply :: level.replies }

def start (ledger : Ledger) (level : Level) : Request → Ledger × Level
  | .claim name addr =>
    if addr.reserved then (ledger, level.answer .refused)
    else (ledger, { level with activity := some (.claiming name addr .start) })
  | .settle name =>
    match ledger.debts.lookup name with
    | none => (ledger, level.answer .unnamed)
    | some debt =>
      ({ ledger with debts := ledger.debts.erase (name, debt) },
        { level with activity := some (.settling debt .withdraw) })
  | .pay addr onRetain onRelease =>
    (ledger, { level with activity := some (.paying ⟨addr, .start, onRetain, onRelease, []⟩) })

/-- One step of the activity; the second part is a level to put above. -/
def advance (spurious : Bool) (ledger : Ledger) (level : Level) :
    Activity → Ledger × Level × Option Level
  | .claiming name addr progress =>
    match progress.step addr spurious ledger.registry with
    | (.recorded place grown, registry) =>
      (⟨registry, (name, ⟨place, addr⟩) :: ledger.debts⟩, level.answer (.claimed grown), none)
    | (progress, registry) =>
      ({ ledger with registry },
        { level with activity := some (.claiming name addr progress) }, none)
  | .settling debt progress =>
    match progress.step debt ledger.registry with
    | (.settled outstanding, registry) =>
      ({ ledger with registry }, level.answer (.settled outstanding), none)
    | (.corrupted, registry) => ({ ledger with registry }, level.answer .corrupted, none)
    | (progress, registry) =>
      ({ ledger with registry }, { level with activity := some (.settling debt progress) }, none)
  | .paying payment =>
    match payment.due, payment.progress with
    | some kind, _ => (ledger, level, some { todo := payment.script kind })
    | none, .finished =>
      (ledger, level.answer (.paid payment.retained payment.calls.reverse), none)
    | none, progress =>
      let (progress, registry) := progress.step payment.addr ledger.registry
      ({ ledger with registry },
        { level with activity := some (.paying { payment with progress }) }, none)

/-- Takes note of a finished callback and lets the payment go on. -/
def resume (r : Registry) (replies : List Reply) (level : Level) : Level :=
  match level.activity with
  | some (.paying payment) =>
    match payment.due with
    | some kind =>
      { level with activity := some (.paying { payment with
          progress := payment.progress.resume r
          calls := (kind, replies.reverse) :: payment.calls }) }
    | none => level
  | _ => level

end Level

namespace Thread

def ofRequests (requests : List Request) : Thread := [{ todo := requests }]

/-- Nothing is left to do. -/
def isIdle : Thread → Bool
  | [⟨[], none, _⟩] => true
  | [] => true
  | _ => false

def replies (thread : Thread) : List Reply :=
  (thread.getLast?.map fun level => level.replies.reverse).getD []

def step (spurious : Bool) (ledger : Ledger) : Thread → Ledger × Thread
  | [] => (ledger, [])
  | level :: below =>
    match level.activity, level.todo with
    | some activity, _ =>
      let (ledger, level, above) := level.advance spurious ledger activity
      (ledger, above.toList ++ level :: below)
    | none, request :: todo =>
      let (ledger, level) := { level with todo }.start ledger request
      (ledger, level :: below)
    | none, [] =>
      match below with
      | [] => (ledger, [level])
      | caller :: rest => (ledger, caller.resume ledger.registry level.replies :: rest)

/-- Runs a thread alone until it is idle, for so many steps at most. -/
def run : Nat → Ledger → Thread → Ledger × Thread
  | 0, ledger, thread => (ledger, thread)
  | fuel + 1, ledger, thread =>
    if thread.isIdle then (ledger, thread)
    else
      let (ledger, thread) := thread.step false ledger
      run fuel ledger thread

end Thread

/-- Threads in any interleaving. -/
structure Session where
  ledger : Ledger := {}
  threads : List Thread

namespace Session

/-- Threads that have not begun their requests yet, and no debts. -/
def ofPrograms (programs : List (List Request)) : Session :=
  { threads := programs.map Thread.ofRequests }

/-- A step of thread `i`; `spurious` says that a weak exchange fails in it. -/
def step (i : Nat) (spurious : Bool) (session : Session) : Session :=
  match session.threads[i]? with
  | none => session
  | some thread =>
    let (ledger, thread) := thread.step spurious session.ledger
    ⟨ledger, session.threads.set i thread⟩

/-- Takes steps in the order that the schedule tells, which says whose turn it is and whether a weak
exchange fails in it. -/
def run (schedule : List (Nat × Bool)) (session : Session) : Session :=
  schedule.foldl (fun session (i, spurious) => session.step i spurious) session

end Session

/-- Settles all recorded debts in the order of their names: each name, with whether its debt was
outstanding. -/
def Ledger.settleAll (fuel : Nat) (ledger : Ledger) : List (String × Reply) :=
  let names := (ledger.debts.map Prod.fst).mergeSort (fun a b => decide (a ≤ b))
  let (_, thread) := Thread.run fuel ledger (Thread.ofRequests (names.map .settle))
  names.zip thread.replies

end SharedCells.Registry
