/-! Backing off in a loop that waits.

A backoff counts steps. `spin` repeats bursts of pauses that double up to the
spin limit. `snooze` does the same and then hands the processor over, up to the
yield limit; one step beyond that limit the backoff is completed. All counts
are 32-bit words, and an addition or a shift that would not fit is an error. -/

set_option autoImplicit false

namespace SharedCells

structure Backoff where
  step : UInt32
  spinLimit : UInt32
  yieldLimit : UInt32
  deriving DecidableEq, Repr

namespace Backoff

/-- A burst has at most two to this power pauses. -/
def maxSpinLimit : UInt32 := 16

/-- The spin limit is cut to `maxSpinLimit`, and the yield limit is at least the spin limit. -/
def withLimits (spinLimit yieldLimit : UInt32) : Backoff :=
  let spinLimit := min spinLimit maxSpinLimit
  ⟨0, spinLimit, max yieldLimit spinLimit⟩

def standard : Backoff := withLimits 6 10

inductive Overflow where
  | addition
  | shift
  deriving DecidableEq, Repr

def Overflow.message : Overflow → String
  | addition => "attempt to add with overflow"
  | shift => "attempt to shift left with overflow"

def successor (n : UInt32) : Except Overflow UInt32 :=
  if n.toNat + 1 < UInt32.size then .ok (n + 1) else .error .addition

/-- The number of pauses at a step. -/
def burst (step : UInt32) : Except Overflow UInt32 :=
  if step.toNat < 32 then .ok (1 <<< step) else .error .shift

def reset (b : Backoff) : Backoff := { b with step := 0 }

/-- Pauses without ever handing the processor over; the step never passes the spin limit. -/
def spin (b : Backoff) : Except Overflow Backoff := do
  let step := min b.step b.spinLimit
  let _pauses ← burst step
  if step < b.spinLimit then
    return { b with step := ← successor step }
  else
    return b

/-- What a backoff reports once the spin limit is behind it. -/
structure Exhausted where
  spinLimit : UInt32
  deriving DecidableEq, Repr

def Exhausted.message (report : Exhausted) : String :=
  "TRACE: backoff exhausted " ++ toString report.spinLimit.toNat ++ " spin steps, yielding"

/-- Pauses up to the spin limit and hands the processor over beyond it. Handing over exactly one
step beyond the limit is reported. -/
def snooze (b : Backoff) : Except Overflow (Backoff × Option Exhausted) := do
  let report ←
    if b.step ≤ b.spinLimit then do
      let _pauses ← burst b.step
      pure none
    else do
      let first ← successor b.spinLimit
      pure (if b.step = first then some ⟨b.spinLimit⟩ else none)
  if b.step ≤ b.yieldLimit then
    return ({ b with step := ← successor b.step }, report)
  else
    return (b, report)

def isCompleted (b : Backoff) : Bool := b.step > b.yieldLimit

def describe (b : Backoff) : String :=
  "Backoff \x7b step: Cell \x7b value: " ++ toString b.step.toNat ++ " \x7d, spin_limit: " ++
    toString b.spinLimit.toNat ++ ", yield_limit: " ++ toString b.yieldLimit.toNat ++ " \x7d"

inductive Call where
  | spin | snooze | reset
  deriving DecidableEq, Repr

def Call.run (b : Backoff) : Call → Except Overflow (Backoff × Option Exhausted)
  | spin => return (← b.spin, none)
  | snooze => b.snooze
  | reset => return (b.reset, none)

/-- Makes calls in order, and puts what they report before `reports`, newest first; an overflow
ends the run. -/
def runAll (reports : List Exhausted) (b : Backoff) :
    List Call → Except Overflow (Backoff × List Exhausted)
  | [] => .ok (b, reports)
  | call :: calls =>
    match call.run b with
    | .ok (b, report) => runAll (report.toList ++ reports) b calls
    | .error overflow => .error overflow

end Backoff

end SharedCells
