import SharedCells.Proofs.Slot.Frames
import SharedCells.Proofs.Slot.Moorings

/-! A thread that runs alone beside stalled readers.

A stalled reader has recorded a debt and takes no further step. To the ledger it
is a call that is about to look at its slot again; if it has counted a reference,
that is owned by another call. What the program does not decide is the address that
a new object gets; all choices lead to the same. -/

set_option autoImplicit false

namespace SharedCells.Slot

open Registry (Debt)

/-- A reader that has recorded a debt and takes no further step. -/
def stall (d : Debt) : Call := { code := [.recheck .load d] }

/-- A reader that owns a reference and takes no further step. -/
def hold (addr : Addr) : Call := { code := [], registers := { observed := some addr } }

/-- What stalled readers have left behind: debts, and references that they own. A reader that has
counted its reference and has not settled its debt yet has left both. -/
structure Stalled where
  debts : List Debt
  held : List Addr := []

namespace Stalled

variable (stalled : Stalled)

def calls : List Call := stalled.debts.map stall ++ stalled.held.map hold

theorem poolOf_calls : poolOf stalled.calls = stalled.debts.map (.recheck .load) := by
  have idle : (stalled.held.map hold).flatMap Call.code = [] := by
    rw [List.flatMap_eq_nil_iff]
    intro call member
    obtain ⟨addr, -, rfl⟩ := List.mem_map.mp member
    rfl
  rw [poolOf, calls, List.flatMap_append, idle, List.append_nil, List.flatMap_map, List.map_eq_flatMap]
  rfl

theorem debts_calls : Slot.debts (poolOf stalled.calls) = stalled.debts := by
  simp [poolOf_calls, Slot.debts, List.filterMap_map, Function.comp_def, Instruction.debt?]

/-- To the ledger a stalled reader owns what it has counted; a paid debt has its own account. -/
theorem transitCount_calls (addr : Addr) : transitCount stalled.calls addr = stalled.held.count addr := by
  have owned : (poolOf stalled.calls).countP (·.owned? = some addr) = 0 := by
    simp [poolOf_calls, Instruction.owned?]
  have debts : ∀ debts : List Debt,
      ((debts.map stall).map fun call => call.registers.count addr).sum = 0 := by
    intro debts
    induction debts with
    | nil => rfl
    | cons d rest ih => simpa [stall, Registers.count] using ih
  have held : ∀ held : List Addr,
      ((held.map hold).map fun call => call.registers.count addr).sum = held.count addr := by
    intro held
    induction held with
    | nil => rfl
    | cons other rest ih =>
      rw [List.map_cons, List.map_cons, List.sum_cons, ih, List.count_cons, Nat.add_comm]
      simp [hold, Registers.count]
  rw [transitCount, owned, calls, List.map_append, List.sum_append, debts, held]
  omega

end Stalled

/-- What every step of a thread beside stalled readers keeps. -/
structure Alone (stalled : Stalled) (w : World) (thread : Thread) : Prop where
  sound : Sound w (thread.calls ++ stalled.calls) thread.graves []
  moored : Moored w thread.calls
  stacked : thread.Stacked
  numbered : w.heap.Numbered

/-- The thread comes to the goal, whatever addresses new objects get. -/
inductive Reaches (goal : World → Thread → Prop) : World → Thread → Prop where
  | here {w : World} {thread : Thread} : goal w thread → Reaches goal w thread
  | step {w : World} {thread : Thread} (next : Option Addr → World × Thread) :
      (∀ wish, thread.step { addr := wish } (fun _ => false) w = .ok (next wish)) →
      (∀ wish, Reaches goal (next wish).1 (next wish).2) → Reaches goal w thread

theorem Reaches.mono {goal goal' : World → Thread → Prop} {w : World} {thread : Thread}
    (reaches : Reaches goal w thread) (follows : ∀ w thread, goal w thread → goal' w thread) :
    Reaches goal' w thread := by
  induction reaches with
  | here there => exact .here (follows _ _ there)
  | step next steps _ ih => exact .step next steps ih

/-- Like `Reaches`, but it need not be shown that the steps can be taken, nor what all steps keep. -/
inductive Leads (stalled : Stalled) (goal : World → Thread → Prop) : World → Thread → Prop where
  | here {w : World} {thread : Thread} : goal w thread → Leads stalled goal w thread
  | step {w : World} {thread : Thread} :
      (∀ wish w' thread', thread.step { addr := wish } (fun _ => false) w = .ok (w', thread') →
        Alone stalled w' thread' → w.heap.Change w'.heap → Leads stalled goal w' thread') →
      Leads stalled goal w thread

theorem Thread.uses_of_named {thread : Thread} {call : Call} {slot : SlotId}
    (member : call ∈ thread.calls) (named : call.named = some slot) : thread.uses slot = true := by
  obtain ⟨level, there, busy⟩ := List.mem_filterMap.mp member
  refine List.any_eq_true.mpr ⟨level, there, ?_⟩
  rw [busy, Option.any_some, named, beq_self_eq_true]

namespace Turn

variable {t t' : Turn} {register : Register} {ref : Ref} {choice : Choice} {inUse : SlotId → Bool}
  {i : Instruction}

theorem retainInto_tells (ran : t.retainInto register ref = .ok t') :
    t'.call.during = t.call.during ∧ t'.call.outcome = t.call.outcome := by
  obtain ⟨heap, rfl⟩ := retainInto_eq ran
  exact ⟨rfl, rfl⟩

theorem run_tells (ran : t.run choice inUse i = .ok t') :
    t'.call.during = t.call.during ∧ ∀ bad, t'.call.outcome = .misordered bad →
      t.call.outcome = .misordered bad ∨ i = .note (.misordered bad) := by
  have keeps {during outcome} (same : during = t.call.during ∧ outcome = t.call.outcome) :
      during = t.call.during ∧ ∀ bad, outcome = .misordered bad →
        t.call.outcome = .misordered bad ∨ i = .note (.misordered bad) :=
    ⟨same.1, fun _ refused => .inl (same.2.symm.trans refused)⟩
  cases goes_of_run ran with
  | handle_copy ran | copy ran | increment ran =>
    have told := retainInto_tells ran
    exact keeps told
  | refused | busy | inspect | peek_empty | peek => exact ⟨rfl, nofun⟩
  | peek_kept _ _ ran =>
    obtain ⟨during, outcome⟩ := retainInto_tells ran
    exact ⟨during, fun bad refused => absurd (outcome.symm.trans refused) nofun⟩
  | note n =>
    refine ⟨rfl, fun bad refused => ?_⟩
    cases n with
    | misordered other => exact .inr (congrArg _ (congrArg _ (Outcome.misordered.inj refused)))
    | _ => contradiction
  | _ => exact keeps ⟨rfl, rfl⟩

theorem run_during (ran : t.run choice inUse i = .ok t') : t'.call.during = t.call.during :=
  (run_tells ran).1

end Turn

theorem Thread.fire_eq_none {thread : Thread} (quiet : ∀ call ∈ thread.calls, call.during = none) :
    thread.fire = none := by
  have none : (thread.findSome? fun level => level.call.bind (·.during)) = none := by
    rw [List.findSome?_eq_none_iff]
    intro level member
    cases busy : level.call with
    | none => rfl
    | some call => exact quiet call (List.mem_filterMap.mpr ⟨level, member, busy⟩)
  unfold fire
  dsimp only
  rw [none]
  rfl

namespace Alone

variable {stalled : Stalled} {w w' : World} {thread thread' : Thread} {choice : Choice}

theorem step_ok (alone : Alone stalled w thread) (choice : Choice) :
    ∃ w' thread', thread.step choice (fun _ => false) w = .ok (w', thread') :=
  Thread.step_ok alone.sound

theorem step (alone : Alone stalled w thread)
    (ran : thread.step choice (fun _ => false) w = .ok (w', thread')) :
    Alone stalled w' thread' ∧ w.heap.Change w'.heap := by
  have move := Thread.step_cases alone.stacked ran
  have sound := alone.sound
  have moored := alone.moored
  rw [← List.append_nil thread.graves] at sound
  rw [← List.append_nil thread.calls] at moored
  have change := move.change sound
  refine ⟨⟨?_, ?_, move.stacked alone.stacked, change.numbered alone.numbered⟩, change⟩
  · have next := move.sound sound
    rw [List.append_nil] at next
    exact next
  · have next := move.moored moored fun call member slot named => by
      rw [List.append_nil] at member
      exact thread.uses_of_named member named
    rw [List.append_nil] at next
    exact next

end Alone

namespace Leads

variable {stalled : Stalled} {goal : World → Thread → Prop} {w : World} {thread : Thread}

/-- A thread that is alone comes to its goal, and is alone there. -/
theorem reaches (leads : Leads stalled goal w thread) (alone : Alone stalled w thread) :
    Reaches (fun w thread => Alone stalled w thread ∧ goal w thread) w thread := by
  -- No step gets stuck, because what all steps keep is enough for the next one.
  induction leads with
  | here there => exact .here ⟨alone, there⟩
  | @step w thread _ ih =>
    have steps (wish : Option Addr) : ∃ next : World × Thread,
        thread.step { addr := wish } (fun _ => false) w = .ok next := by
      obtain ⟨w', thread', ran⟩ := alone.step_ok { addr := wish }
      exact ⟨(w', thread'), ran⟩
    choose next ran using steps
    apply Reaches.step next ran
    intro wish
    obtain ⟨alone', change⟩ := alone.step (ran wish)
    exact ih wish _ _ (ran wish) alone' change alone'

/-- One instruction after another. The rest of the code follows at once unless a level is put on the
stack. -/
theorem instruction {level : Level} {below : Thread} {call : Call} {i : Instruction}
    {code : List Instruction} (during : ∀ call' ∈ call :: below.calls, call'.during = none)
    (next : ∀ wish turn, Turn.run { addr := wish }
        (fun slot => Thread.uses ({ level with call := some { call with code := i :: code } } :: below) slot)
        { world := w, call := { call with code } } i = .ok turn →
      w.heap.Change turn.world.heap →
      Alone stalled turn.world (turn.above.toList ++ { level with call := some turn.call } :: below) →
      Leads stalled goal turn.world
        (turn.above.toList ++ { level with call := some turn.call } :: below)) :
    Leads stalled goal w ({ level with call := some { call with code := i :: code } } :: below) := by
  apply step
  intro wish w' thread' ran alone change
  unfold Thread.step at ran
  dsimp only at ran
  cases run : Turn.run { addr := wish } (fun slot => Thread.uses
      ({ level with call := some { call with code := i :: code } } :: below) slot)
      { world := w, call := { call with code } } i with
  | error fault =>
    simp only [Bool.false_or] at ran
    rw [run] at ran
    contradiction
  | ok turn =>
    simp only [Bool.false_or] at ran
    rw [run] at ran
    have quiet : Thread.fire ({ level with call := some turn.call } :: below) = none := by
      apply Thread.fire_eq_none
      rw [Thread.calls_cons_of_some rfl]
      intro call' member
      rcases List.mem_cons.mp member with rfl | member
      · exact (Turn.run_during run).trans (during call List.mem_cons_self)
      · exact during call' (List.mem_cons_of_mem _ member)
    dsimp only [bind, Except.bind] at ran
    rw [quiet, ite_self] at ran
    obtain ⟨rfl, rfl⟩ := Prod.mk.inj (Except.ok.inj ran)
    exact next wish turn run change alone

end Leads

end SharedCells.Slot
