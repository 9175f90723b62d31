import SharedCells.Proofs.Slot.Ways
import SharedCells.Slot.Machine

/-! What an instruction may do to the slots.

The words of slots are exchanged by `publish` only. Beside that, slots are
created, and names are taken away from slots; the call that takes a name away
exchanges the word of the slot next. -/

set_option autoImplicit false

namespace SharedCells.Slot

theorem World.word_append {w w' : World} {ref : Ref} (words : w'.words = w.words ++ [ref])
    (slot : SlotId) : w'.word slot = if slot = w.words.length then ref else w.word slot := by
  unfold word
  rw [words]
  split
  · next same => rw [same, List.getElem?_concat_length, Option.join_some]
  · next other =>
    rcases Nat.lt_or_gt_of_ne other with lower | higher
    · rw [List.getElem?_append_left lower]
    · rw [List.getElem?_eq_none (List.length_append ▸ higher), List.getElem?_eq_none (Nat.le_of_lt higher)]

namespace Instruction

/-- The slot whose word the instruction exchanges. -/
def stores (choice : Choice) (t : Turn) : Instruction → Option SlotId
  | .swap => t.call.slot
  | .attempt seen =>
    t.call.slot.filter fun slot => seen = t.get .expected ∧ t.world.word slot = t.get .expected
  | .once seen =>
    t.call.slot.filter fun slot => seen = t.get .expected ∧ t.world.word slot = t.get .expected ∧
      choice.spurious = false
  | _ => none

/-- Instructions that exchange the word of the current slot, or lead to one that does. -/
def Writes : Instruction → Prop
  | .swap | .attempt _ | .once _ | .revisit _ | .consult _ _ | .offer _ _ | .verdict _ _ => True
  | .read purpose | .retain purpose _ | .claim purpose _ _ | .recheck purpose _
  | .increment purpose _ | .settle purpose _ _ | .stale purpose _ _ _ => purpose ≠ .load
  | _ => False

theorem stores_eq_some {choice : Choice} {t : Turn} {i : Instruction} {slot : SlotId}
    (stores : i.stores choice t = some slot) : t.call.slot = some slot ∧ i.Writes := by
  cases i with
  | swap => exact ⟨stores, trivial⟩
  | attempt seen | once seen => exact ⟨(Option.filter_eq_some_iff.mp stores).1, trivial⟩
  | _ => exact absurd stores nofun

/-- Instructions of a call that drops all slots and handles. -/
def Sweeps : Instruction → Prop
  | .swap | .release _ | .drop _ | .pay _ _ | .dropNext => True
  | _ => False

/-- Instructions that are only found in the code of a command as it begins: those that take a slot's
name away, the start of a strong exchange, and the report that its orders are refused. -/
def Given : Instruction → Prop
  | .createSlot _ | .read .strong | .note (.misordered _) | .dropNext => True
  | _ => False

/-- What may come in the place of an instruction. -/
structure Follows (i : Instruction) (new : List Instruction) : Prop where
  writes : ∀ j ∈ new, j.Writes → i.Writes ∧ ¬ i.Sweeps
  given : ∀ j ∈ new, j.Given → j = i ∧ i = .dropNext
  sweeps : i.Sweeps → ∀ j ∈ new, j.Sweeps

namespace Follows

variable {i : Instruction} {new more : List Instruction}

theorem append (follows : i.Follows new) (follows' : i.Follows more) : i.Follows (new ++ more) where
  writes j member := (List.mem_append.mp member).elim (follows.writes j) (follows'.writes j)
  given j member := (List.mem_append.mp member).elim (follows.given j) (follows'.given j)
  sweeps sweeps j member :=
    (List.mem_append.mp member).elim (follows.sweeps sweeps j) (follows'.sweeps sweeps j)

theorem of_rests (rests : ¬ i.Sweeps)
    (each : ∀ j ∈ new, (j.Writes → i.Writes) ∧ ¬ j.Given) : i.Follows new where
  writes j member writes := ⟨(each j member).1 writes, rests⟩
  given j member given := absurd given (each j member).2
  sweeps sweeps := absurd sweeps rests

theorem single {j : Instruction} (rests : ¬ i.Sweeps) (writes : j.Writes → i.Writes)
    (stays : ¬ j.Given) : i.Follows [j] := of_rests rests fun k member => by
  rw [List.mem_singleton.mp member]
  exact ⟨writes, stays⟩

theorem of_sweeps (each : ∀ j ∈ new, j.Sweeps ∧ ¬ j.Writes ∧ ¬ j.Given) : i.Follows new where
  writes j member writes := absurd writes (each j member).2.1
  given j member given := absurd given (each j member).2.2
  sweeps _ j member := (each j member).1

theorem nil : i.Follows [] := ⟨nofun, nofun, fun _ => nofun⟩

theorem drops (ref : Ref) : i.Follows (ref.toList.map .drop) := of_sweeps fun j member => by
  obtain ⟨addr, -, rfl⟩ := List.mem_map.mp member
  exact ⟨trivial, id, id⟩

theorem pays (ref : Ref) : i.Follows (ref.toList.map (.pay · .start)) := of_sweeps fun j member => by
  obtain ⟨addr, -, rfl⟩ := List.mem_map.mp member
  exact ⟨trivial, id, id⟩

end Follows

end Instruction

namespace Turn

/-- What has happened to the slots in the course of an instruction that displaces none. -/
structure Passes (choice : Choice) (i : Instruction) (t t' : Turn) (new : List Instruction) :
    Prop where
  words : t'.world.words = match i.stores choice t with
    | some slot => t.world.words.set slot (t.get .desired)
    | none => t.world.words
  slots : t'.world.slots = t.world.slots
  slot : t'.call.slot = t.call.slot
  named : t'.call.named = t.call.named
  code : t'.call.code = new ++ t.call.code
  follows : i.Follows new
  desired : i.Sweeps → t.get .desired = none → t'.get .desired = none

/-- What has happened to the slots in the course of a turn. -/
inductive Course (choice : Choice) (inUse : SlotId → Bool) (i : Instruction) (t t' : Turn) :
    Prop where
  | passed (new : List Instruction) : Passes choice i t t' new → Course choice inUse i t t'
  | ended : i ≠ .swap → i.stores choice t = none → t'.world = t.world →
      t'.call.slot = t.call.slot → t'.call.named = t.call.named → t'.call.code = [] →
      Course choice inUse i t t'
  | created (name : String) : i = .createSlot name →
      (t.world.slots.get? name).any inUse = false →
      t'.world.words = t.world.words ++ [t.get .desired] →
      t'.world.slots = t.world.slots.put name t.world.words.length →
      t'.call.slot = t.world.slots.get? name → t'.call.named = t.call.named →
      t'.call.code = t.call.code → t'.get .desired = none → Course choice inUse i t t'
  | unbound (name : String) (slot : SlotId) : i = .dropNext → (name, slot) ∈ t.world.slots →
      inUse slot = false → t'.world.words = t.world.words →
      t'.world.slots = t.world.slots.erase name → t'.call.slot = some slot →
      t'.call.named = t.call.named →
      t'.call.code = [.swap, .release .observed, .dropNext] ++ t.call.code →
      t'.get .desired = t.get .desired → Course choice inUse i t t'

variable {t s t' : Turn} {choice : Choice} {inUse : SlotId → Bool} {i : Instruction} {ref : Ref}
  {register : Register} {new more : List Instruction} {slot : SlotId}

theorem run_increment_eq {purpose : Purpose} {debt : Registry.Debt}
    (ran : t.run choice inUse (.increment purpose debt) = .ok t') :
    ∃ heap, t' = { t.before [.settle purpose debt .withdraw] with world.heap := heap }.assign .observed
      (some debt.addr) := retainInto_eq ran

namespace Passes

theorem refl (stores : i.stores choice t = none) : Passes choice i t t [] where
  words := by rw [stores]
  slots := rfl
  slot := rfl
  named := rfl
  code := rfl
  follows := .nil
  desired _ none := none

theorem of_world (passes : Passes choice i t s new) (w : World) (words : w.words = s.world.words)
    (slots : w.slots = s.world.slots) : Passes choice i t { s with world := w } new :=
  { passes with words := words.trans passes.words, slots := slots.trans passes.slots }

theorem registered {r : Registry} (passes : Passes choice i t s new) :
    Passes choice i t { s with world.registry := r } new := passes.of_world _ rfl rfl

theorem before (passes : Passes choice i t s new) (follows : i.Follows more) :
    Passes choice i t (s.before more) (more ++ new) :=
  { passes with
    code := by
      rw [List.append_assoc, ← passes.code]
      rfl
    follows := follows.append passes.follows }

theorem setRegister (passes : Passes choice i t s new) (register : Register) (ref : Ref)
    (sweeps : i.Sweeps → register = .desired → ref = none) :
    Passes choice i t (s.setRegister register ref) new :=
  { passes with
    desired := fun sweep none => by
      have still := passes.desired sweep none
      unfold Turn.get Turn.setRegister at *
      rw [Registers.get_set]
      split
      · next same => exact sweeps sweep same.symm
      · exact still }

theorem assign (passes : Passes choice i t s new) (register : Register) (ref : Ref)
    (sweeps : i.Sweeps → register = .desired → ref = none) :
    ∃ new, Passes choice i t (s.assign register ref) new :=
  ⟨_, (passes.setRegister register ref sweeps).before (.drops _)⟩

theorem retainInto (passes : Passes choice i t s new) (rests : ¬ i.Sweeps)
    (ran : s.retainInto register ref = .ok t') : ∃ new, Passes choice i t t' new := by
  obtain ⟨heap, rfl⟩ := retainInto_eq ran
  have counted : Passes choice i t { s with world.heap := heap } new := passes.of_world _ rfl rfl
  exact counted.assign register ref fun sweeps => absurd sweeps rests

theorem publish (stores : i.stores choice t = some slot) (world : s.world = t.world)
    (desired : s.get .desired = t.get .desired) (acts : s.call.slot = t.call.slot)
    (named : s.call.named = t.call.named) (follows : i.Follows new)
    (code : s.call.code = new ++ t.call.code) (old : Ref) : ∃ new, Passes choice i t (s.publish slot old) new := by
  have stored : Passes choice i t { s with world := s.world.setWord slot (s.get .desired) } new :=
    ⟨by rw [stores, world, desired]; rfl, by rw [world]; rfl, acts, named, code, follows,
      fun _ none => desired.trans none⟩
  have vacated := stored.setRegister .desired none fun _ _ => rfl
  obtain ⟨new', assigned⟩ := vacated.assign .observed old nofun
  exact ⟨_, assigned.before (.pays old)⟩

end Passes

theorem settled_rests (purpose : Purpose) (i : Instruction) :
    ∀ j ∈ settled purpose, (j.Writes → i.Writes) ∧ ¬ j.Given := by
  cases purpose <;> simp [settled, Instruction.Writes, Instruction.Given]

theorem look_follows (purpose : Purpose) (seen : Ref) (rests : ¬ i.Sweeps)
    (writes : purpose ≠ .load → i.Writes) : i.Follows [look purpose seen] := by
  cases purpose with
  | load => exact .single rests (fun loads => absurd rfl loads) id
  | strong | weak => exact .single rests (fun _ => writes nofun) id

theorem GivesWay.follows (gives : GivesWay choice inUse t i new) : i.Follows new := by
  cases gives with
  | required | swap_idle | pay_finished | attempt_idle | once_idle | revisit_same | swept => exact .nil
  | pay_release addr place =>
    exact .of_sweeps (by simp [Instruction.Sweeps, Instruction.Writes, Instruction.Given])
  | read_load | retain | recheck_same | recheck_differs | attempt_lost => exact .single id id id
  | read_strong | read_weak => exact .single id (fun _ => nofun) id
  | attempt_differs | revisit_differs => exact .single id (fun _ => trivial) id
  | verdict_won u n =>
    refine .of_rests id ?_
    cases u.into <;> simp [Instruction.Writes, Instruction.Given, deliver]
  | once_lost | once_differs | offer_same | offer_value | verdict_lost =>
    exact .of_rests id (by simp [Instruction.Writes, Instruction.Given])

/-- An instruction that gives way to others exchanges no word. -/
theorem GivesWay.stores (gives : GivesWay choice inUse t i new) : i.stores choice t = none := by
  cases gives with
  | swap_idle idle => exact idle
  | attempt_idle _ idle | once_idle _ idle => simp [Instruction.stores, idle]
  | attempt_lost acts _ lost => simp [Instruction.stores, acts, lost, Option.filter]
  | once_lost acts same lost => simp [Instruction.stores, acts, same, Option.filter, lost]
  | attempt_differs acts differs | once_differs acts differs =>
    simp [Instruction.stores, acts, differs, Option.filter]
  | _ => rfl

theorem Course.of_passes (passes : ∃ new, Passes choice i t t' new) : Course choice inUse i t t' := by
  obtain ⟨new, passes⟩ := passes
  exact .passed new passes

/-- The expected object is exchanged; what it was compared with is given up then. -/
theorem publish_course (rests : ¬ i.Sweeps) (stores : i.stores choice t = some slot) (old : Ref) :
    Course choice inUse i t
      (({ t with call.exchanged := true }.before [.release .observed]).publish slot old) := by
  have released : i.Follows [.release .observed] :=
    .of_rests rests (by simp [Instruction.Writes, Instruction.Given])
  exact .of_passes (Passes.publish (s := { t with call.exchanged := true }.before [.release .observed])
    stores rfl rfl rfl rfl released rfl old)

/-- A slot that is in use is not displaced. -/
theorem run_course (ran : t.run choice inUse i = .ok t') : Course choice inUse i t t' := by
  have start (quiet : i.stores choice t = none) : Passes choice i t t [] := .refl quiet
  -- The heap, the registry and the handles have changed, and the instruction gives way to others.
  have goes {w : World} {new : List Instruction} (quiet : i.stores choice t = none)
      (words : w.words = t.world.words) (slots : w.slots = t.world.slots) (follows : i.Follows new) :
      Course choice inUse i t ({ t with world := w }.before new) :=
    .passed _ (((start quiet).of_world w words slots).before follows)
  have gets {w : World} {register : Register} {ref : Ref} (quiet : i.stores choice t = none)
      (words : w.words = t.world.words) (slots : w.slots = t.world.slots) (rests : ¬ i.Sweeps) :
      Course choice inUse i t ({ t with world := w }.assign register ref) :=
    .of_passes (((start quiet).of_world w words slots).assign register ref
      fun sweeps => absurd sweeps rests)
  cases goes_of_run ran with
  | gives_way gives => exact goes gives.stores rfl rfl gives.follows
  -- What ends the call, creates a slot or displaces one does not pass.
  | refused | busy => exact .ended nofun rfl rfl rfl rfl rfl
  | createSlot unused => exact .created _ rfl unused rfl rfl rfl rfl rfl rfl
  | unbind found =>
    exact .unbound _ _ rfl (List.mem_of_find?_eq_some found)
      (by simpa using List.find?_some found) rfl rfl rfl rfl rfl rfl
  | note | inspect | peek_empty | peek | drop => exact .passed [] { start rfl with }
  | peek_kept _ _ ran =>
    have noted (outcome : Outcome) : Passes choice (.peek true) t (t.note outcome) [] :=
      { start rfl with }
    exact .of_passes ((noted _).retainInto id ran)
  | nothing | handle_take | fresh => exact gets rfl rfl rfl id
  | handle_copy ran | copy ran => exact .of_passes ((start rfl).retainInto id ran)
  | @increment purpose debt _ ran =>
    have settles : (Instruction.increment purpose debt).Follows [.settle purpose debt .withdraw] :=
      .single id id id
    exact .of_passes (((start rfl).before settles).retainInto id ran)
  | move source target =>
    exact .of_passes (((start rfl).setRegister source none nofun).assign target _ nofun)
  | release register =>
    exact .passed _ (((start rfl).setRegister register none fun _ _ => rfl).before (.drops _))
  | putHandle handle source =>
    have put : Passes choice (.putHandle handle source) t
      { t with world.handles := t.world.handles.assign handle (t.get source) } [] :=
      (start rfl).of_world _ rfl rfl
    exact .passed _ ((put.setRegister source none fun _ _ => rfl).before (.drops _))
  | @swap slot acts =>
    have stores : Instruction.swap.stores choice t = some slot := acts
    exact .of_passes (Passes.publish stores rfl rfl rfl rfl .nil rfl _)
  | attempt_won acts same won =>
    exact publish_course id (by simp [Instruction.stores, acts, same, won]) _
  | once_won acts same won steady =>
    exact publish_course id (by simp [Instruction.stores, acts, same, won, steady]) _
  | pay_start | pay_test | pay_retain | pay_mark =>
    exact goes rfl rfl rfl
      (.of_sweeps (by simp [Instruction.Sweeps, Instruction.Writes, Instruction.Given]))
  | claim | settle | stale => exact goes rfl rfl rfl (.single id id id)
  | @recorded purpose addr progress place =>
    have rechecks : (Instruction.claim purpose addr progress).Follows
      [.recheck purpose ⟨place, addr⟩] := .single id id id
    exact .passed _ { (start rfl).registered.before rechecks with }
  | settle_owed purpose => exact goes rfl rfl rfl (.of_rests id (settled_rests purpose _))
  | @settle_paid purpose debt progress =>
    have drops : (Instruction.settle purpose debt progress).Follows [.drop debt.addr] :=
      .drops (some debt.addr)
    exact goes rfl rfl rfl (drops.append (.of_rests id (settled_rests purpose _)))
  | stale_owed purpose seen => exact goes rfl rfl rfl (look_follows purpose seen id id)
  | retain_nothing purpose =>
    have ends := (start rfl).before (.of_rests id (settled_rests purpose _))
    exact .of_passes (ends.assign .observed none nofun)
  | @stale_paid purpose debt _ _ registry =>
    have ends := ((start rfl).registered (r := registry)).before (.of_rests id (settled_rests purpose _))
    exact .of_passes (ends.assign .observed (some debt.addr) nofun)
  | consult u n =>
    have offers : (Instruction.consult u n).Follows [.offer u n] := .single id id id
    exact .passed _ { (start rfl).before offers with }
  | dropHandle =>
    exact goes rfl rfl rfl
      ⟨by simp [Instruction.Writes], by simp [Instruction.Given], by simp [Instruction.Sweeps]⟩

/-- An instruction leaves the words of slots alone but for the one that it exchanges. -/
theorem run_words (ran : t.run choice inUse i = .ok t') (there : slot < t.world.words.length) :
    t'.world.word slot =
      if i.stores choice t = some slot then t.get .desired else t.world.word slot := by
  cases run_course ran with
  | passed new passes =>
    unfold World.word
    rw [passes.words]
    cases stores : i.stores choice t with
    | none => rfl
    | some target =>
      dsimp only
      by_cases same : target = slot
      · rw [same, if_pos rfl, List.getElem?_set_self there]
        rfl
      · rw [if_neg (by simpa using same), List.getElem?_set_ne same]
  | ended _ quiet world => rw [quiet, world, if_neg nofun]
  | created name same _ words =>
    subst same
    exact (World.word_append words slot).trans (if_neg (Nat.ne_of_lt there))
  | unbound name target same _ _ words =>
    subst same
    unfold World.word
    rw [words]
    rfl

end Turn

end SharedCells.Slot
