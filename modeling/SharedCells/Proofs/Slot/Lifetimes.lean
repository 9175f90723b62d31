import SharedCells.Proofs.Slot.Moorings
import SharedCells.Proofs.Slot.Safety

/-! Every object is destroyed once, when its last owner gives it up.

A run keeps a log of the objects whose destruction has begun. The objects in the
log are those that have been created and that nothing refers to any more. When
all threads are done and no slot and no handle is left, every object is in it. -/

set_option autoImplicit false

namespace SharedCells

/-- What a step may do to the objects that something refers to; an object that it is the end of is
named. -/
inductive Heap.Turnover {σ : Type} (h h' : Heap σ) : Option Nat → Prop where
  | still : h'.created = h.created → (∀ id, h'.Lives id ↔ h.Lives id) → Turnover h h' none
  | born : h'.created = h.created + 1 → (∀ id, h'.Lives id ↔ id = h.created + 1 ∨ h.Lives id) →
      Turnover h h' none
  | died (id : Nat) : h'.created = h.created → h.Lives id →
      (∀ other, h'.Lives other ↔ h.Lives other ∧ other ≠ id) → Turnover h h' (some id)

theorem Heap.Turnover.log {σ : Type} {h h' : Heap σ} {ended : Option Nat} {dead : List Nat}
    (turnover : h.Turnover h' ended) (numbered : h.Numbered) (once : dead.Nodup)
    (exact : ∀ id, id ∈ dead ↔ (0 < id ∧ id ≤ h.created) ∧ ¬ h.Lives id) :
    (dead ++ ended.toList).Nodup ∧
      ∀ id, id ∈ dead ++ ended.toList ↔ (0 < id ∧ id ≤ h'.created) ∧ ¬ h'.Lives id := by
  cases turnover with
  | still created lives =>
    rw [Option.toList_none, List.append_nil]
    exact ⟨once, fun id => by rw [exact, created, lives]⟩
  | born created lives =>
    rw [Option.toList_none, List.append_nil]
    refine ⟨once, fun id => ?_⟩
    rw [exact, created, lives]
    by_cases new : id = h.created + 1
    · subst new
      simp
    · simp only [new, false_or]
      refine and_congr_left fun _ => ?_
      omega
  | died ended created lived lives =>
    obtain ⟨addr, object, live, rfl⟩ := lived
    have found := (Heap.live?_eq_some_iff.mp live).1
    have range := And.intro (numbered.pos addr object found) (numbered.le addr object found)
    rw [Option.toList_some]
    refine ⟨?_, fun id => ?_⟩
    · -- What dies now has been alive, so it is not in the log yet.
      have fresh : object.id ∉ dead := fun member =>
        ((exact object.id).mp member).2 (.of_live? live)
      exact List.nodup_append.mpr ⟨once, List.nodup_singleton _, fun a inside b last same => by
        rw [List.mem_singleton.mp last] at same
        exact fresh (same ▸ inside)⟩
    · rw [List.mem_append, List.mem_singleton, exact, created, lives]
      by_cases same : id = object.id
      · subst same
        simp [range]
      · simp [same]

namespace Slot

/-- The object whose destruction a step has put on the stack. -/
def Thread.begun (thread thread' : Thread) : Option Addr :=
  if thread.length < thread'.length then thread'.head?.bind Level.grave? else none

section Turnover

variable {t t' : Turn} {choice : Choice} {inUse : SlotId → Bool} {w w' : World}
  {thread thread' : Thread} {rest : List Call} {dead : List Addr}

/-- The destruction of an object begins in the turn that takes its last reference away. -/
theorem Turn.Effect.turnover (effect : Turn.Effect t t') (bounded : t.world.heap.Bounded)
    (numbered : t.world.heap.Numbered) :
    t.world.heap.Turnover t'.world.heap
      ((t'.above.bind Level.grave?).bind fun addr => t'.world.objectId (some addr)) := by
  cases effect with
  | quiet same above =>
    rw [above, same]
    exact .still rfl fun _ => .rfl
  | block todo same above =>
    rw [above, same]
    exact .still rfl fun _ => .rfl
  | retained addr retained above =>
    rw [above]
    obtain ⟨object, -, same⟩ := Heap.retain?_eq_some_iff.mp retained
    exact .still (by rw [same]; rfl) fun _ => Heap.lives_retain numbered retained
  | created wish onDrop same above =>
    rw [above, same]
    exact .born rfl fun _ => Heap.lives_create bounded wish onDrop
  | released addr left released above =>
    have created : t'.world.heap.created = t.world.heap.created := by
      obtain ⟨object, -, -, same⟩ := Heap.release?_eq_some_iff.mp released
      rw [same]
      rfl
    rw [above]
    by_cases last : left.count = 0
    · have named : t'.world.objectId (some addr) = some left.id := by
        rw [World.objectId, Option.bind_some, Heap.find?_release released]
        rfl
      rw [if_pos last]
      simp only [Option.bind_some, Level.grave?, named]
      refine .died left.id created (Heap.lives_of_release released) fun id => ?_
      rw [Heap.lives_release numbered released]
      simp [last]
    · rw [if_neg last]
      refine .still created fun id => ?_
      rw [Heap.lives_release numbered released]
      simp [last]

theorem Thread.Move.turnover (move : Thread.Move choice inUse w thread w' thread')
    (sound : Slot.Sound w (thread.calls ++ rest) (thread.graves ++ dead) [])
    (numbered : w.heap.Numbered) :
    w.heap.Turnover w'.heap ((thread.begun thread').bind fun addr => w'.objectId (some addr)) := by
  have still : w.heap.Turnover w.heap none := .still rfl fun _ => .rfl
  cases move with
  | rest =>
    rw [Thread.begun, if_neg (Nat.lt_irrefl _)]
    exact still
  | @instruction level below call i code turn busy head ran =>
    have effect := (Turn.run_effect ran rfl).turnover sound.bounded numbered
    cases above : turn.above with
    | none =>
      rw [above] at effect
      rw [Thread.begun, if_neg (by simp)]
      exact effect
    | some new =>
      rw [above] at effect
      rw [Thread.begun, if_pos (by simp)]
      exact effect
  | @block level below call i code turn todo busy head ran recorded =>
    have effect := Turn.run_effect ran rfl
    have turnover := effect.turnover sound.bounded numbered
    rw [effect.above_of_recorded rfl recorded] at turnover
    rw [Thread.begun, if_pos (by simp [Thread.unwait])]
    exact turnover
  | scope | finish =>
    rw [Thread.begun, if_neg (by simp)]
    exact still
  | @start level below command todo =>
    rw [Thread.begun, if_neg (by simp), command.start_heap]
    exact still
  | @close level caller below call idle ended waits =>
    rw [Thread.begun, if_neg (by simp)]
    unfold Level.close
    cases role : level.role with
    | main | during | meanwhile => exact still
    | destruction addr =>
      have grave : level.grave? = some addr := by rw [Level.grave?, role]
      rw [graves_cons, grave] at sound
      -- The place of a destroyed object is given back.
      have gone : w.heap.count addr = 0 := Sound.dead_of_grave sound
      exact .still rfl fun _ => Heap.lives_free gone

end Turnover

namespace Machine

variable {m m' : Machine} {i : Nat} {choice : Choice} {dead : List Nat}

/-- The object whose destruction a step of thread `i` has begun. -/
def begun (i : Nat) (m m' : Machine) : Option Nat := do
  let thread ← m.threads[i]?
  let thread' ← m'.threads[i]?
  let addr ← thread.begun thread'
  m'.world.objectId (some addr)

/-- The objects whose destruction begins in the course of a schedule, in that order. -/
def destroyed (m : Machine) : List (Nat × Choice) → List Nat
  | [] => []
  | (i, choice) :: rest =>
    match m.step i choice with
    | .ok m' => (begun i m m').toList ++ destroyed m' rest
    | .error _ => []

/-- What every step preserves of a run in which the objects in the log have been destroyed. -/
structure Logged (m : Machine) (dead : List Nat) : Prop where
  sound : m.Sound
  moored : Moored m.world m.calls
  once : dead.Nodup
  exact : ∀ id, id ∈ dead ↔ (0 < id ∧ id ≤ m.world.heap.created) ∧ ¬ m.world.heap.Lives id

theorem covers (m : Machine) : Moored.Covers m.uses m.calls := by
  intro call member slot named
  obtain ⟨thread, inside, member⟩ := List.mem_flatMap.mp member
  obtain ⟨level, there, busy⟩ := List.mem_filterMap.mp member
  refine List.any_eq_true.mpr ⟨thread, inside, List.any_eq_true.mpr ⟨level, there, ?_⟩⟩
  rw [busy, Option.any_some, named, beq_self_eq_true]

theorem ofPrograms_logged (programs : List (List Command)) : (ofPrograms programs).Logged [] where
  sound := ofPrograms_sound programs
  moored := by
    rw [ofPrograms_calls]
    exact
      { names := .nil
        named := fun call member => absurd member List.not_mem_nil
        held := fun slot addr word => by simp [World.word, ofPrograms] at word
        calls := fun call member => absurd member List.not_mem_nil }
  once := .nil
  exact id := by
    have created : (ofPrograms programs).world.heap.created = 0 := rfl
    rw [created]
    simp only [List.not_mem_nil, false_iff]
    omega

theorem step_logged (logged : m.Logged dead) (ran : m.step i choice = .ok m') :
    m'.Logged (dead ++ (begun i m m').toList) := by
  have sound' := step_sound logged.sound ran
  rcases step_cases logged.sound ran with ⟨none, rfl⟩ | ⟨thread, w', thread', found, move, rfl⟩
  · have begun : begun i m' m' = Option.none := by
      rw [Machine.begun, none]
      rfl
    rw [begun, Option.toList_none, List.append_nil]
    exact logged
  · have bound : i < m.threads.length := (List.getElem?_eq_some_iff.mp found).1
    have perm := perm_flatMap found Thread.calls
    have before := logged.sound.counted.perm perm (perm_flatMap found Thread.graves)
    have turnover := move.turnover before logged.sound.numbered
    have begun : begun i m ⟨w', m.threads.set i thread'⟩ =
        (thread.begun thread').bind fun addr => w'.objectId (some addr) := by
      rw [Machine.begun, found, List.getElem?_set_self bound]
      rfl
    rw [begun]
    have covers : Moored.Covers (fun slot => m.uses slot || thread.uses slot)
        (thread.calls ++ (m.threads.eraseIdx i).flatMap Thread.calls) := fun call member slot named => by
      dsimp only
      rw [m.covers call (perm.mem_iff.mpr member) slot named, Bool.true_or]
    obtain ⟨once, exact⟩ := turnover.log logged.sound.numbered logged.once logged.exact
    refine ⟨sound', ?_, once, exact⟩
    exact (move.moored (logged.moored.perm perm) covers).perm
      (perm_flatMap_set bound thread' Thread.calls).symm

theorem run_logged (logged : m.Logged dead) (schedule : List (Nat × Choice)) :
    ∃ m', m.run schedule = .ok m' ∧ m'.Logged (dead ++ m.destroyed schedule) := by
  induction schedule generalizing m dead with
  | nil => exact ⟨m, rfl, by simpa [destroyed] using logged⟩
  | cons turn rest ih =>
    obtain ⟨i, choice⟩ := turn
    obtain ⟨next, stepped⟩ := step_ok logged.sound i choice
    obtain ⟨m', ran, logged'⟩ := ih (step_logged logged stepped)
    refine ⟨m', (run_cons stepped).trans ran, ?_⟩
    rw [destroyed, stepped]
    dsimp only
    rw [← List.append_assoc]
    exact logged'

theorem Logged.emptied (logged : m.Logged dead) (idle : ∀ thread ∈ m.threads, thread.isIdle = true)
    (slots : m.world.slots = []) (handles : m.world.handles = []) : m.world.heap.objects = [] := by
  have calls : m.calls = [] :=
    List.flatMap_eq_nil_iff.mpr fun thread member => Thread.calls_of_idle (idle thread member)
  have graves : m.graves = [] := List.flatMap_eq_nil_iff.mpr fun thread member =>
    Thread.graves_of_idle (logged.sound.stacked thread member) (idle thread member)
  -- A slot that holds something has a name, or a call is about to clear it; there is neither.
  have words (addr : Addr) : m.world.slotCount addr = 0 := by
    refine List.count_eq_zero.mpr fun member => ?_
    obtain ⟨slot, there⟩ := List.mem_iff_getElem?.mp member
    rcases logged.moored.held slot addr (by rw [World.word, there]; rfl) with
      ⟨name, named⟩ | ⟨call, inside, -⟩
    · rw [slots] at named
      exact absurd named List.not_mem_nil
    · rw [calls] at inside
      exact absurd inside List.not_mem_nil
  refine Heap.objects_eq_nil fun addr => Heap.find?_eq_none ?_ ?_
  · rw [logged.sound.counted.ledger addr, words addr, World.handleCount, handles, calls]
    rfl
  · rw [← logged.sound.counted.buried addr, graves]
    rfl

/-- The ledger of a single thread, whose destructions, blocks and updating functions run further
commands in the middle of its own. After every step, nested ones included, the count of an object is
the number of slots and handles that hold it and of references that commands in progress own; its
destruction has begun, once, if and only if there is none of these. When the program is over and no
slot and no handle is left, no object is left either. -/
theorem single_thread_ledger (program : List Command) (choices : List Choice) :
    ∃ m, (ofPrograms [program]).run (choices.map fun choice => (0, choice)) = .ok m ∧
      (∀ addr object, m.world.heap.find? addr = some object →
        object.count = m.world.slotCount addr + m.world.handleCount addr +
          (paidCount m.world m.calls addr + transitCount m.calls addr)) ∧
      ((ofPrograms [program]).destroyed (choices.map fun choice => (0, choice))).Nodup ∧
      (∀ id, id ∈ (ofPrograms [program]).destroyed (choices.map fun choice => (0, choice)) ↔
        (0 < id ∧ id ≤ m.world.heap.created) ∧
          ¬ ∃ addr object, m.world.heap.find? addr = some object ∧ object.id = id ∧
            0 < m.world.slotCount addr + m.world.handleCount addr +
              (paidCount m.world m.calls addr + transitCount m.calls addr)) ∧
      ((∀ thread ∈ m.threads, thread.isIdle = true) → m.world.slots = [] → m.world.handles = [] →
        m.world.heap.objects = []) := by
  obtain ⟨m, ran, logged⟩ := run_logged (ofPrograms_logged [program])
    (choices.map fun choice => (0, choice))
  have ledger (addr : Addr) (object : Object (List Command))
      (found : m.world.heap.find? addr = some object) :
      object.count = m.world.slotCount addr + m.world.handleCount addr +
        (paidCount m.world m.calls addr + transitCount m.calls addr) := by
    have ledger := logged.sound.counted.ledger addr
    rw [Heap.count_of_find? found, List.count_nil] at ledger
    omega
  refine ⟨m, ran, ledger, by simpa using logged.once, fun id => ?_, logged.emptied⟩
  have exact := logged.exact id
  rw [List.nil_append] at exact
  rw [exact]
  refine and_congr_right fun _ => not_congr ⟨?_, ?_⟩
  · rintro ⟨addr, object, live, same⟩
    obtain ⟨found, positive⟩ := Heap.live?_eq_some_iff.mp live
    exact ⟨addr, object, found, same, ledger addr object found ▸ positive⟩
  · rintro ⟨addr, object, found, same, positive⟩
    rw [← ledger addr object found] at positive
    exact ⟨addr, object, Heap.live?_eq_some_iff.mpr ⟨found, positive⟩, same⟩

end Machine

end Slot

end SharedCells
