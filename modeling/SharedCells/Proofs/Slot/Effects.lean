import SharedCells.Proofs.Heap
import SharedCells.Proofs.Slot.Ways
import SharedCells.Slot.Machine

/-! What an instruction may do to the heap and to the stack of levels.

Most instructions leave both alone. One that gives up the last reference to an
object, and no other, puts the destruction of that object on the stack. -/

set_option autoImplicit false

namespace SharedCells.Slot

/-- The object whose destruction a level runs. -/
def Level.grave? (level : Level) : Option Addr :=
  match level.role with
  | .destruction addr => some addr
  | _ => none

namespace Turn

/-- What has happened to the heap and the stack in the course of a turn. -/
inductive Effect (t t' : Turn) : Prop where
  | quiet : t'.world.heap = t.world.heap → t'.above = none → Effect t t'
  | block (todo : List Command) : t'.world.heap = t.world.heap →
      t'.above = some { role := .meanwhile, todo } → t'.recorded = t.recorded → Effect t t'
  | retained (addr : Addr) : t.world.heap.retain? addr = some t'.world.heap → t'.above = none →
      Effect t t'
  | created (wish : Option Addr) (onDrop : List Command) :
      t'.world.heap = (t.world.heap.create wish onDrop).2 → t'.above = none → Effect t t'
  | released (addr : Addr) (left : Object (List Command)) :
      t.world.heap.release? addr = some (left, t'.world.heap) →
      t'.above = (if left.count = 0 then some { role := .destruction addr, todo := left.onDrop }
        else none) → t'.recorded = t.recorded → Effect t t'

variable {t t' : Turn} {choice : Choice} {inUse : SlotId → Bool} {i : Instruction} {ref : Ref}
  {register : Register}

theorem retainInto_effect {s : Turn} (ran : s.retainInto register ref = .ok t')
    (same : s.world.heap = t.world.heap) (above : s.above = none) : Effect t t' := by
  rcases retainInto_cases ran with ⟨rfl, rfl⟩ | ⟨addr, heap, rfl, retained, rfl⟩
  · exact .quiet same above
  · rw [same] at retained
    exact .retained addr retained above

/-- No instruction touches the heap twice: what else it has to count or give up is left to the
instructions that it puts before the rest. -/
theorem run_effect (ran : t.run choice inUse i = .ok t') (above : t.above = none) : Effect t t' := by
  cases goes_of_run ran with
  | peek_kept _ _ ran | handle_copy ran | copy ran => exact retainInto_effect ran rfl above
  | increment ran => exact retainInto_effect ran rfl above
  | fresh onDrop => exact .created choice.addr onDrop rfl above
  | @drop addr left _ released => exact .released addr left released rfl rfl
  | pay_retain _ retained => exact .retained _ retained above
  | consult u n =>
    cases block : u.meanwhile[n]?.join with
    | none => exact .quiet rfl rfl
    | some todo => exact .block todo rfl rfl rfl
  | _ => exact .quiet rfl above

theorem Effect.change (effect : Effect t t') : t.world.heap.Change t'.world.heap := by
  cases effect with
  | quiet same | block _ same =>
    rw [same]
    exact .none
  | retained addr retained => exact .retained retained
  | created wish onDrop same =>
    rw [same]
    exact .created wish onDrop
  | released addr left released => exact .released released

theorem Effect.above_call (effect : Effect t t') {level : Level} (above : t'.above = some level) :
    level.call = none := by
  cases effect with
  | quiet _ none | retained _ _ none | created _ _ _ none =>
    rw [none] at above
    contradiction
  | block todo _ block =>
    rw [block, Option.some.injEq] at above
    rw [← above]
  | released addr left _ destruction =>
    rw [destruction] at above
    split at above
    · rw [← Option.some.inj above]
    · contradiction

theorem Effect.above_of_recorded (effect : Effect t t') (before : t.recorded = false)
    (recorded : t'.recorded = true) : t'.above = none := by
  cases effect with
  | quiet _ none | retained _ _ none | created _ _ _ none => exact none
  | block _ _ _ same | released _ _ _ _ same =>
    rw [same, before] at recorded
    contradiction

end Turn

end SharedCells.Slot
