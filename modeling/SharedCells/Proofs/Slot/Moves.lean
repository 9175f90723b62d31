import Mathlib.Data.List.Perm.Basic
import SharedCells.Proofs.Slot.Effects

/-! What a step of a thread may do. -/

set_option autoImplicit false

namespace SharedCells.Slot

theorem Command.start_heap (command : Command) (w : World) (inUse : SlotId → Bool) :
    (command.start w inUse).1.heap = w.heap := by
  obtain ⟨operation, during⟩ := command
  unfold Command.start
  dsimp only
  split
  · rfl
  · split
    · rfl
    · split <;> rfl

theorem Command.start_registry (command : Command) (w : World) (inUse : SlotId → Bool) :
    (command.start w inUse).1.registry = w.registry := by
  obtain ⟨operation, during⟩ := command
  unfold Command.start
  dsimp only
  split
  · rfl
  · split
    · rfl
    · split <;> rfl

theorem Level.close_registry (level : Level) (w : World) (call : Call) :
    (level.close w call).1.registry = w.registry := by
  unfold Level.close
  cases level.role <;> rfl

namespace Thread

def calls (thread : Thread) : List Call := thread.filterMap Level.call

/-- The objects whose destruction is in progress. -/
def graves (thread : Thread) : List Addr := thread.filterMap Level.grave?

theorem calls_cons_of_some {level : Level} {below : Thread} {call : Call}
    (busy : level.call = some call) : calls (level :: below) = call :: calls below :=
  List.filterMap_cons_some busy

theorem calls_cons_of_none {level : Level} {below : Thread} (idle : level.call = none) :
    calls (level :: below) = calls below :=
  List.filterMap_cons_none idle

theorem graves_cons (level : Level) (below : Thread) :
    graves (level :: below) = level.grave?.toList ++ graves below := by
  unfold graves
  rw [List.filterMap_cons]
  cases level.grave? <;> rfl

/-- Every level but the innermost one is in the middle of a command, and the outermost one runs the
thread's own commands. -/
def Stacked : Thread → Prop
  | [] => True
  | [level] => level.role = .main
  | _ :: caller :: rest => caller.call.isSome ∧ Stacked (caller :: rest)

/-- No command in progress waits for its first debt any longer. -/
def unwait (thread : Thread) : Thread :=
  thread.map fun level =>
    { level with call := level.call.map fun call => { call with during := none } }

section Stacked

variable {level level' new caller : Level} {below rest thread : Thread}

theorem Stacked.head (stacked : Stacked (level :: below)) (role : level'.role = level.role) :
    Stacked (level' :: below) := by
  cases below with
  | nil => exact role.trans stacked
  | cons caller rest => exact stacked

theorem Stacked.push (stacked : Stacked (level :: below)) (call : level.call.isSome) :
    Stacked (new :: level :: below) := ⟨call, stacked⟩

theorem Stacked.pop (stacked : Stacked (level :: caller :: rest)) : Stacked (caller :: rest) :=
  stacked.2

theorem Stacked.unwait (stacked : Stacked thread) : Stacked (unwait thread) := by
  induction thread with
  | nil => exact stacked
  | cons level below ih =>
    cases below with
    | nil => exact stacked
    | cons caller rest => exact ⟨by simpa using stacked.1, ih stacked.2⟩

end Stacked

theorem calls_unwait (thread : Thread) :
    (unwait thread).calls = thread.calls.map fun call => { call with during := none } := by
  simp only [calls, unwait, List.filterMap_map, List.map_filterMap]
  rfl

theorem graves_unwait (thread : Thread) : (unwait thread).graves = thread.graves := by
  simp only [graves, unwait, List.filterMap_map]
  rfl

theorem calls_of_idle {thread : Thread} (idle : thread.isIdle = true) : thread.calls = [] := by
  match thread with
  | [] => rfl
  | [level] =>
    have none : level.call = none := by
      simp only [isIdle, Bool.and_eq_true, Option.isNone_iff_eq_none] at idle
      exact idle.1
    rw [calls_cons_of_none none]
    rfl
  | _ :: _ :: _ => exact absurd idle nofun

theorem graves_of_idle {thread : Thread} (stacked : thread.Stacked) (idle : thread.isIdle = true) :
    thread.graves = [] := by
  match thread with
  | [] => rfl
  | [level] =>
    have main : level.role = .main := stacked
    rw [graves_cons, Level.grave?, main]
    rfl
  | _ :: _ :: _ => exact absurd idle nofun

/-- The steps of a thread. -/
inductive Move (choice : Choice) (inUse : SlotId → Bool) (w : World) :
    Thread → World → Thread → Prop where
  | rest {thread : Thread} : (∀ level below, thread = level :: below → level.call = none) →
      Move choice inUse w thread w thread
  | instruction {level : Level} {below : Thread} {call : Call} {i : Instruction}
      {code : List Instruction} {turn : Turn} :
      level.call = some call → call.code = i :: code →
      Turn.run choice inUse { world := w, call := { call with code } } i = .ok turn →
      Move choice inUse w (level :: below) turn.world
        (turn.above.toList ++ { level with call := some turn.call } :: below)
  /-- An instruction after which a waiting block is run. -/
  | block {level : Level} {below : Thread} {call : Call} {i : Instruction}
      {code : List Instruction} {turn : Turn} {todo : List Command} :
      level.call = some call → call.code = i :: code →
      Turn.run choice inUse { world := w, call := { call with code } } i = .ok turn →
      turn.recorded = true →
      Move choice inUse w (level :: below) turn.world
        ({ role := .during, todo } :: unwait ({ level with call := some turn.call } :: below))
  /-- A command that is over drops what it still owns. -/
  | scope {level : Level} {below : Thread} {call : Call} :
      level.call = some call → call.code = [] → call.registers.owned ≠ [] →
      Move choice inUse w (level :: below) w
        ({ level with call := some { call with code := call.registers.owned.map .release } } :: below)
  | finish {level : Level} {below : Thread} {call : Call} (record : Record) :
      level.call = some call → call.code = [] → call.registers.owned = [] →
      Move choice inUse w (level :: below) w
        ({ level with call := none, records := record :: level.records } :: below)
  | start {level : Level} {below : Thread} {command : Command} {todo : List Command} :
      level.call = none → level.todo = command :: todo →
      Move choice inUse w (level :: below) (command.start w inUse).1
        ({ level with todo, call := some (command.start w inUse).2 } :: below)
  | close {level caller : Level} {rest : Thread} {call : Call} :
      level.call = none → level.todo = [] → caller.call = some call →
      Move choice inUse w (level :: caller :: rest) (level.close w call).1
        ({ caller with call := some (level.close w call).2 } :: rest)

variable {choice : Choice} {others : SlotId → Bool} {w w' : World} {thread thread' : Thread}

theorem fire_eq {block : List Command} (fired : fire thread = some (block, thread')) :
    thread' = unwait thread := by
  obtain ⟨_, -, same⟩ := Option.map_eq_some_iff.mp fired
  exact (Prod.mk.inj same).2.symm

theorem step_cases (stacked : thread.Stacked) (ran : thread.step choice others w = .ok (w', thread')) :
    Move choice (fun slot => others slot || uses thread slot) w thread w' thread' := by
  unfold step at ran
  dsimp only at ran
  split at ran
  · obtain ⟨rfl, rfl⟩ := Prod.mk.inj (Except.ok.inj ran)
    exact .rest fun level below same => absurd same.symm (List.cons_ne_nil level below)
  · next level below =>
    split at ran
    · next todo call busy =>
      split at ran
      · next _ owned i code head =>
        cases run : Turn.run choice (fun slot => others slot || uses (level :: below) slot)
            { world := w, call := { call with code } } i with
        | error fault =>
          rw [run] at ran
          contradiction
        | ok turn =>
          rw [run] at ran
          dsimp only [bind, Except.bind] at ran
          split at ran
          · next block fired same =>
            obtain ⟨rfl, rfl⟩ := Prod.mk.inj (Except.ok.inj ran)
            split at same
            · next recorded =>
              rw [fire_eq same]
              exact .block busy head run recorded
            · contradiction
          · obtain ⟨rfl, rfl⟩ := Prod.mk.inj (Except.ok.inj ran)
            exact .instruction busy head run
      · next register registers code owned =>
        obtain ⟨rfl, rfl⟩ := Prod.mk.inj (Except.ok.inj ran)
        rw [← owned]
        exact .scope busy code (by rw [owned]; nofun)
      · next code owned =>
        obtain ⟨rfl, rfl⟩ := Prod.mk.inj (Except.ok.inj ran)
        exact .finish _ busy code owned
    · next command todo idle more =>
      obtain ⟨rfl, rfl⟩ := Prod.mk.inj (Except.ok.inj ran)
      exact .start idle more
    · next idle done =>
      split at ran
      · obtain ⟨rfl, rfl⟩ := Prod.mk.inj (Except.ok.inj ran)
        refine .rest fun top below same => ?_
        rw [← (List.cons.inj same).1]
        exact idle
      · next caller rest =>
        split at ran
        · next none =>
          have waits := stacked.1
          rw [none] at waits
          contradiction
        · next call waits =>
          obtain ⟨rfl, rfl⟩ := Prod.mk.inj (Except.ok.inj ran)
          exact .close idle done waits

/-- A level that an instruction puts on the stack begins with no call. -/
theorem calls_of_run {inUse : SlotId → Bool} {t turn : Turn} {i : Instruction}
    (ran : t.run choice inUse i = .ok turn) (above : t.above = none) (level : Level) (below : Thread) :
    calls (turn.above.toList ++ { level with call := some turn.call } :: below) =
      turn.call :: calls below := by
  cases new : turn.above with
  | none => rfl
  | some level => exact calls_cons_of_none ((Turn.run_effect ran above).above_call new)

theorem Move.stacked {inUse : SlotId → Bool} (move : Move choice inUse w thread w' thread')
    (stacked : thread.Stacked) : thread'.Stacked := by
  cases move with
  | rest => exact stacked
  | @instruction level below call i code turn =>
    have running : Stacked ({ level with call := some turn.call } :: below) := stacked.head rfl
    cases turn.above with
    | none => exact running
    | some new => exact running.push rfl
  | @block level below call i code turn =>
    have running : Stacked ({ level with call := some turn.call } :: below) := stacked.head rfl
    exact running.unwait.push rfl
  | scope | finish | start => exact stacked.head rfl
  | close => exact stacked.pop.head rfl

end Thread

namespace Machine

def calls (m : Machine) : List Call := m.threads.flatMap Thread.calls

/-- The objects whose destruction is in progress. -/
def graves (m : Machine) : List Addr := m.threads.flatMap Thread.graves

/-- A command in progress uses the slot. -/
def uses (m : Machine) (slot : SlotId) : Bool := m.threads.any (·.uses slot)

/-- What the other threads have adds up with what one of them has. -/
theorem perm_flatMap {β : Type} {threads : List Thread} {i : Nat} {thread : Thread}
    (found : threads[i]? = some thread) (f : Thread → List β) :
    (threads.flatMap f).Perm (f thread ++ (threads.eraseIdx i).flatMap f) := by
  obtain ⟨bound, rfl⟩ := List.getElem?_eq_some_iff.mp found
  exact ((List.getElem_cons_eraseIdx_perm bound).symm.flatMap_right f)

theorem perm_flatMap_set {β : Type} {threads : List Thread} {i : Nat} (bound : i < threads.length)
    (thread : Thread) (f : Thread → List β) :
    ((threads.set i thread).flatMap f).Perm (f thread ++ (threads.eraseIdx i).flatMap f) :=
  (List.set_perm_cons_eraseIdx bound thread).flatMap_right f

end Machine

end SharedCells.Slot
