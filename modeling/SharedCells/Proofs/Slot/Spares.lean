import SharedCells.Proofs.Slot.Solitude

/-! One reference more.

As long as an object is alive, a run does not depend on how many references to it
are counted, nor on whether a node has been put into the registry before: with one
reference more, every instruction does the same. -/

set_option autoImplicit false

namespace SharedCells

namespace Heap

variable {σ : Type} {h h' h₁ : Heap σ} {ref : Option Addr} {addr other : Addr}
  {object object' left : Object σ}

theorem set_set : (h.set addr object).set addr object' = h.set addr object' := by
  simp only [set, List.map_map, Heap.mk.injEq, and_true]
  refine List.map_congr_left fun entry _ => ?_
  simp only [Function.comp_apply]
  split <;> simp_all

theorem set_comm (differ : addr ≠ other) :
    (h.set addr object).set other object' = (h.set other object').set addr object := by
  simp only [set, List.map_map, Heap.mk.injEq, and_true]
  refine List.map_congr_left fun entry _ => ?_
  simp only [Function.comp_apply]
  by_cases here : entry.1 = addr
  · simp [here, differ]
  · by_cases there : entry.1 = other <;> simp [here, there, Ne.symm differ]

/-- One reference more is counted to the object, if there is one. -/
def Spare (ref : Option Addr) (h h' : Heap σ) : Prop :=
  match ref with
  | none => h' = h
  | some addr => h.retain? addr = some h'

namespace Spare

theorem find?_of_ne (spare : h.Spare (some addr) h') (differ : other ≠ addr) :
    h'.find? other = h.find? other := by
  obtain ⟨object, -, rfl⟩ := retain?_eq_some_iff.mp spare
  rw [find?_set, if_neg differ]

theorem live?_of_ne (spare : h.Spare (some addr) h') (differ : other ≠ addr) :
    h'.live? other = h.live? other := by
  rw [live?, live?, spare.find?_of_ne differ]

theorem live?_self (spare : h.Spare (some addr) h') : ∃ object, h.live? addr = some object ∧
    h'.live? addr = some { object with count := object.count + 1 } := by
  obtain ⟨object, live, rfl⟩ := retain?_eq_some_iff.mp spare
  refine ⟨object, live, live?_eq_some_iff.mpr ⟨?_, Nat.succ_pos _⟩⟩
  rw [find?_set, if_pos rfl, (live?_eq_some_iff.mp live).1, Option.map_some]

/-- Objects are where they have been. -/
theorem ids (spare : h.Spare ref h') (other : Addr) :
    (h'.find? other).map (·.id) = (h.find? other).map (·.id) := by
  cases ref with
  | none =>
    obtain rfl : h' = h := spare
    rfl
  | some addr =>
    by_cases same : other = addr
    · subst same
      obtain ⟨object, live, live'⟩ := spare.live?_self
      rw [(live?_eq_some_iff.mp live).1, (live?_eq_some_iff.mp live').1]
      rfl
    · rw [spare.find?_of_ne same]

theorem isSome_live? (spare : h.Spare ref h') (other : Addr) :
    (h'.live? other).isSome = (h.live? other).isSome := by
  cases ref with
  | none =>
    obtain rfl : h' = h := spare
    rfl
  | some addr =>
    by_cases same : other = addr
    · subst same
      obtain ⟨object, live, live'⟩ := spare.live?_self
      rw [live, live']
      rfl
    · rw [spare.live?_of_ne same]

theorem retain (spare : h.Spare ref h') (retained : h.retain? other = some h₁) :
    ∃ h₁', h'.retain? other = some h₁' ∧ h₁.Spare ref h₁' := by
  cases ref with
  | none =>
    obtain rfl : h' = h := spare
    exact ⟨h₁, retained, rfl⟩
  | some addr =>
    by_cases same : other = addr
    · -- The two references are counted to one object.
      subst same
      obtain rfl := Option.some.inj (retained.symm.trans spare)
      obtain ⟨object, live⟩ := count_pos_iff.mp (count_retain retained ▸ by simp : 0 < h₁.count other)
      exact ⟨_, retain?_eq_some_iff.mpr ⟨object, live, rfl⟩, retain?_eq_some_iff.mpr ⟨object, live, rfl⟩⟩
    · obtain ⟨object, live, rfl⟩ := retain?_eq_some_iff.mp retained
      have there := (spare.live?_of_ne same).trans live
      refine ⟨_, retain?_eq_some_iff.mpr ⟨object, there, rfl⟩, ?_⟩
      obtain ⟨spared, live', rfl⟩ := retain?_eq_some_iff.mp spare
      refine retain?_eq_some_iff.mpr ⟨spared, ?_, set_comm (Ne.symm same)⟩
      rw [live?, find?_set, if_neg (Ne.symm same)]
      exact live'

/-- An object meets its end if it did before, unless it is the one that is kept alive. -/
theorem release (spare : h.Spare ref h') (released : h.release? other = some (left, h₁))
    (kept : ∀ addr, ref = some addr → 0 < h₁.count addr) :
    ∃ left' h₁', h'.release? other = some (left', h₁') ∧ h₁.Spare ref h₁' ∧
      (left'.count = 0 ↔ left.count = 0) ∧ left'.onDrop = left.onDrop := by
  cases ref with
  | none =>
    obtain rfl : h' = h := spare
    exact ⟨left, h₁, released, rfl, Iff.rfl, rfl⟩
  | some addr =>
    obtain ⟨object, live, rfl, rfl⟩ := release?_eq_some_iff.mp released
    by_cases same : other = addr
    · subst same
      have positive : 0 < object.count - 1 := by
        have kept := kept other rfl
        rwa [count_of_find? (find?_release released)] at kept
      obtain ⟨spared, live', there⟩ := spare.live?_self
      obtain rfl := Option.some.inj (live.symm.trans live')
      refine ⟨_, _, release?_eq_some_iff.mpr ⟨_, there, rfl, rfl⟩, ?_, ?_, rfl⟩
      · refine retain?_eq_some_iff.mpr ⟨_, live?_eq_some_iff.mpr ⟨find?_release released, positive⟩, ?_⟩
        obtain ⟨_, again, rfl⟩ := retain?_eq_some_iff.mp spare
        obtain rfl := Option.some.inj (live.symm.trans again)
        rw [set_set, set_set]
        have counts : object.count + 1 - 1 = object.count - 1 + 1 := by omega
        rw [counts]
      · dsimp only
        omega
    · have there := (spare.live?_of_ne same).trans live
      refine ⟨_, _, release?_eq_some_iff.mpr ⟨object, there, rfl, rfl⟩, ?_, Iff.rfl, rfl⟩
      obtain ⟨spared, live', rfl⟩ := retain?_eq_some_iff.mp spare
      refine retain?_eq_some_iff.mpr ⟨spared, ?_, set_comm (Ne.symm same)⟩
      rw [live?, find?_set, if_neg (Ne.symm same)]
      exact live'

theorem create (spare : h.Spare ref h') (bounded : h.Bounded) (wish : Option Addr) (onDrop : σ) :
    (h'.create wish onDrop).1 = (h.create wish onDrop).1 ∧
      (h.create wish onDrop).2.Spare ref (h'.create wish onDrop).2 := by
  cases ref with
  | none =>
    obtain rfl : h' = h := spare
    exact ⟨rfl, rfl⟩
  | some addr =>
    obtain ⟨object, live, same⟩ := retain?_eq_some_iff.mp spare
    have found := (live?_eq_some_iff.mp live).1
    have created : h'.created = h.created := by rw [same]; rfl
    have vacant : h'.isVacant = h.isVacant := by
      funext place
      have there := congrArg Option.isNone (spare.ids place)
      rw [Option.isNone_map, Option.isNone_map] at there
      rw [isVacant, isVacant, there, created]
    have place : (h'.create wish onDrop).1 = (h.create wish onDrop).1 := by
      unfold Heap.create
      rw [vacant, created]
    have elsewhere : (h.create wish onDrop).1 ≠ addr := by
      rintro rfl
      rw [find?_create_address h bounded] at found
      contradiction
    refine ⟨place, retain?_eq_some_iff.mpr ⟨object, live?_eq_some_iff.mpr ⟨?_, ?_⟩, ?_⟩⟩
    · rw [find?_create, if_neg (Ne.symm elsewhere), found]
    · exact (live?_eq_some_iff.mp live).2
    · unfold Heap.create at place elsewhere ⊢
      dsimp only at place elsewhere ⊢
      rw [place, created, same]
      simp only [set, List.map_cons, if_neg elsewhere]

theorem free (spare : h.Spare ref h') (elsewhere : ref ≠ some other) :
    (h.free other).Spare ref (h'.free other) := by
  cases ref with
  | none =>
    obtain rfl : h' = h := spare
    rfl
  | some addr =>
    have differ : addr ≠ other := fun same => elsewhere (congrArg some same)
    obtain ⟨object, live, rfl⟩ := retain?_eq_some_iff.mp spare
    obtain ⟨found, positive⟩ := live?_eq_some_iff.mp live
    refine retain?_eq_some_iff.mpr ⟨object, live?_eq_some_iff.mpr ⟨?_, positive⟩, ?_⟩
    · rw [find?_free, if_neg differ, found]
    · simp only [Heap.free, set, List.filter_map, Heap.mk.injEq, and_true]
      refine congrArg _ (List.filter_congr fun entry _ => ?_)
      rw [Function.comp_apply]
      split
      · next here => rw [here]
      · rfl

end Spare

end Heap

namespace Registry

/-- The registries are the same, or a node has been put into the one and none into the other. -/
def Ahead (unused : Bool) (r r' : Registry) : Prop :=
  match unused with
  | false => r' = r
  | true => r = empty ∧ r' = sole

theorem after_sole (p : Place) : sole.after p = empty.after p := by
  unfold after
  split
  · rfl
  · obtain ⟨node, index⟩ := p
    cases node <;> rfl

section Ahead

variable {unused : Bool} {r r' : Registry}

theorem Ahead.after (ahead : Ahead unused r r') (p : Place) : r'.after p = r.after p := by
  cases unused with
  | false =>
    obtain rfl : r' = r := ahead
    rfl
  | true =>
    obtain ⟨rfl, rfl⟩ := ahead
    exact after_sole p

/-- A payment that has begun finds no debt in either. -/
theorem Ahead.pay (ahead : Ahead unused r r') (payment : Payment) (addr : Addr)
    (begun : unused = true → payment ≠ .start) :
    (payment.step addr r').1 = (payment.step addr r).1 ∧
      Ahead unused (payment.step addr r).2 (payment.step addr r').2 := by
  cases unused with
  | false =>
    obtain rfl : r' = r := ahead
    exact ⟨rfl, rfl⟩
  | true =>
    obtain ⟨rfl, rfl⟩ := ahead
    have unowed {r : Registry} (idle : r.Idle) (p : Place) : r.read p ≠ some (.owed addr) :=
      fun owed => by
        have free := idle.read owed
        contradiction
    rw [Idle.pay (.inl rfl), Idle.pay (.inr rfl)]
    refine ⟨?_, rfl, rfl⟩
    cases payment with
    | start => exact absurd rfl (begun rfl)
    | test p =>
      rw [Payment.step, Payment.step, if_neg (unowed (.inl rfl) p), if_neg (unowed (.inr rfl) p),
        after_sole]
    | mark p =>
      rw [Payment.step_mark_of_not_owed (unowed (.inl rfl) p),
        Payment.step_mark_of_not_owed (unowed (.inr rfl) p)]
    | _ => rfl

end Ahead

end Registry

namespace Slot

/-- The calls differ in nothing but what is noted about them. -/
def Call.Noted (call call' : Call) : Prop :=
  ∃ seen outcome events, call' = { call with seen, outcome, events }

/-- The second world has one reference more to an object, and may have used its registry before the
first one has. -/
structure World.Spare (unused : Bool) (ref : Ref) (w w' : World) : Prop where
  heap : w.heap.Spare ref w'.heap
  registry : w.registry.Ahead unused w'.registry
  words : w'.words = w.words
  slots : w'.slots = w.slots
  handles : w'.handles = w.handles

namespace World.Spare

variable {unused : Bool} {ref : Ref} {w w' : World}

theorem refl (w : World) : w.Spare false none w := ⟨rfl, rfl, rfl, rfl, rfl⟩

theorem eq (spare : w.Spare false none w') : w' = w := by
  obtain ⟨heap, registry, words, slots, handles⟩ := spare
  obtain ⟨⟩ := w
  obtain ⟨⟩ := w'
  rw [World.mk.injEq]
  exact ⟨heap, registry, words, slots, handles⟩

theorem objectId (spare : w.Spare unused ref w') (other : Ref) : w'.objectId other = w.objectId other := by
  cases other with
  | none => rfl
  | some addr => exact spare.heap.ids addr

theorem word (spare : w.Spare unused ref w') (slot : SlotId) : w'.word slot = w.word slot := by
  rw [World.word, World.word, spare.words]

theorem live {addr : Addr} {object : Object (List Command)} (spare : w.Spare unused ref w')
    (live : w.heap.live? addr = some object) : ∃ object', w'.heap.live? addr = some object' :=
  Option.isSome_iff_exists.mp ((spare.heap.isSome_live? addr).trans (live ▸ rfl))

theorem withHeap {heap heap' : Heap (List Command)} (spare : w.Spare unused ref w')
    (heaps : heap.Spare ref heap') : World.Spare unused ref { w with heap } { w' with heap := heap' } :=
  { spare with heap := heaps }

theorem withRegistry {registry registry' : Registry} (spare : w.Spare unused ref w')
    (ahead : registry.Ahead unused registry') :
    World.Spare unused ref { w with registry } { w' with registry := registry' } :=
  { spare with registry := ahead }

theorem withWords (spare : w.Spare unused ref w') (words : List Ref) :
    World.Spare unused ref { w with words } { w' with words } :=
  { spare with words := rfl }

theorem withSlots (spare : w.Spare unused ref w') (slots : Table SlotId) :
    World.Spare unused ref { w with slots } { w' with slots } :=
  { spare with slots := rfl }

theorem withHandles (spare : w.Spare unused ref w') (handles : Table Addr) :
    World.Spare unused ref { w with handles } { w' with handles } :=
  { spare with handles := rfl }

end World.Spare

namespace Turn

structure Spare (unused : Bool) (ref : Ref) (t t' : Turn) : Prop where
  world : t.world.Spare unused ref t'.world
  call : t.call.Noted t'.call
  above : t'.above = t.above

variable {unused : Bool} {ref : Ref} {t t' : Turn}

namespace Spare

theorem get (spare : t.Spare unused ref t') (register : Register) : t'.get register = t.get register := by
  obtain ⟨seen, outcome, events, same⟩ := spare.call
  rw [Turn.get, Turn.get, same]

theorem slot (spare : t.Spare unused ref t') : t'.call.slot = t.call.slot := by
  obtain ⟨seen, outcome, events, same⟩ := spare.call
  rw [same]

theorem look (spare : t.Spare unused ref t') : t'.word = t.word := by
  have words : t'.world.word = t.world.word := funext spare.world.word
  rw [Turn.word, Turn.word, spare.slot, words]

theorem inWorld {w w' : World} (spare : t.Spare unused ref t') (world : w.Spare unused ref w') :
    Spare unused ref { t with world := w } { t' with world := w' } :=
  ⟨world, spare.call, spare.above⟩

theorem inSlot (spare : t.Spare unused ref t') (slot : Option SlotId) :
    Spare unused ref { t with call.slot := slot } { t' with call.slot := slot } := by
  obtain ⟨seen, outcome, events, same⟩ := spare.call
  refine ⟨spare.world, ⟨seen, outcome, events, ?_⟩, spare.above⟩
  rw [same]

theorem exchanged (spare : t.Spare unused ref t') : t'.call.exchanged = t.call.exchanged := by
  obtain ⟨seen, outcome, events, same⟩ := spare.call
  rw [same]

theorem before (spare : t.Spare unused ref t') (code : List Instruction) :
    (t.before code).Spare unused ref (t'.before code) := by
  obtain ⟨seen, outcome, events, same⟩ := spare.call
  refine ⟨spare.world, ⟨seen, outcome, events, ?_⟩, spare.above⟩
  rw [Turn.before, same]
  rfl

theorem setRegister (spare : t.Spare unused ref t') (register : Register) (held : Ref) :
    (t.setRegister register held).Spare unused ref (t'.setRegister register held) := by
  obtain ⟨seen, outcome, events, same⟩ := spare.call
  refine ⟨spare.world, ⟨seen, outcome, events, ?_⟩, spare.above⟩
  rw [Turn.setRegister, same]
  rfl

theorem assign (spare : t.Spare unused ref t') (register : Register) (held : Ref) :
    (t.assign register held).Spare unused ref (t'.assign register held) := by
  unfold Turn.assign
  rw [spare.get]
  exact (spare.setRegister register held).before _

theorem note (spare : t.Spare unused ref t') (o o' : Outcome) :
    (t.note o).Spare unused ref (t'.note o') := by
  obtain ⟨seen, outcome, events, same⟩ := spare.call
  refine ⟨spare.world, ⟨seen, o', events, ?_⟩, spare.above⟩
  rw [Turn.note, same]
  rfl

/-- The call ends early. -/
theorem stop (spare : t.Spare unused ref t') (o : Outcome) :
    Spare unused ref { t with call.code := [], call.outcome := o }
      { t' with call.code := [], call.outcome := o } := by
  obtain ⟨seen, outcome, events, same⟩ := spare.call
  refine ⟨spare.world, ⟨seen, o, events, ?_⟩, spare.above⟩
  rw [same]

theorem publish (spare : t.Spare unused ref t') (slot : SlotId) (old : Ref) :
    (t.publish slot old).Spare unused ref (t'.publish slot old) := by
  unfold Turn.publish
  rw [spare.get]
  rw [World.setWord, World.setWord, spare.world.words]
  exact (((spare.inWorld (spare.world.withWords _)).setRegister _ _).assign _ _).before _

theorem exchange (spare : t.Spare unused ref t') (slot : SlotId) :
    Spare unused ref
      (({ t with call.exchanged := true }.before [.release .observed]).publish slot (t.get .expected))
      (({ t' with call.exchanged := true }.before [.release .observed]).publish slot
        (t'.get .expected)) := by
  rw [spare.get]
  obtain ⟨seen, outcome, events, same⟩ := spare.call
  have won : Spare unused ref { t with call.exchanged := true } { t' with call.exchanged := true } :=
    ⟨spare.world, ⟨seen, outcome, events, by rw [same]⟩, spare.above⟩
  exact (won.before [.release .observed]).publish slot _

variable {choice : Choice} {inUse : SlotId → Bool} {i : Instruction} {new : List Instruction}

/-- The second turn puts the same in the place of the instruction. -/
theorem givesWay (spare : t.Spare unused ref t') (gives : GivesWay choice inUse t i new) :
    GivesWay choice inUse t' i new := by
  cases gives with
  | required there => exact .required (spare.get .desired ▸ there)
  | swap_idle idle => exact .swap_idle (spare.slot.trans idle)
  | pay_finished addr => exact .pay_finished addr
  | pay_release addr place =>
    rw [← spare.world.registry.after]
    exact .pay_release addr place
  | read_load | read_strong | read_weak =>
    rw [← spare.look]
    constructor
  | retain purpose addr => exact .retain purpose addr
  | recheck_same purpose same => exact .recheck_same purpose (spare.look.trans same)
  | recheck_differs purpose differs =>
    rw [← spare.look] at differs ⊢
    exact .recheck_differs purpose differs
  | attempt_idle seen idle => exact .attempt_idle seen (spare.slot.trans idle)
  | attempt_lost acts same lost =>
    rw [← spare.world.word] at lost ⊢
    rw [← spare.get] at same lost
    exact .attempt_lost (spare.slot.trans acts) same lost
  | attempt_differs acts differs =>
    exact .attempt_differs (spare.slot.trans acts) (spare.get .expected ▸ differs)
  | once_idle seen idle => exact .once_idle seen (spare.slot.trans idle)
  | once_lost acts same lost =>
    rw [← spare.world.word] at lost ⊢
    rw [← spare.get] at same lost
    exact .once_lost (spare.slot.trans acts) same lost
  | once_differs acts differs =>
    exact .once_differs (spare.slot.trans acts) (spare.get .expected ▸ differs)
  | revisit_same same => exact .revisit_same (same.trans (spare.get .expected).symm)
  | revisit_differs differs => exact .revisit_differs (spare.get .expected ▸ differs)
  | offer_same answer => exact .offer_same answer
  | offer_value answer => exact .offer_value answer
  | verdict_won u n won => exact .verdict_won u n (spare.exchanged.trans won)
  | verdict_lost u n lost => exact .verdict_lost u n (spare.exchanged.trans lost)
  | swept found first =>
    exact .swept (spare.world.slots ▸ found) (spare.world.handles.trans first)

theorem retainInto {turn : Turn} {register : Register} {held : Ref} (spare : t.Spare unused ref t')
    (ran : t.retainInto register held = .ok turn) :
    ∃ turn', t'.retainInto register held = .ok turn' ∧ turn.Spare unused ref turn' := by
  rcases retainInto_cases ran with ⟨rfl, rfl⟩ | ⟨addr, heap, rfl, retained, rfl⟩
  · exact ⟨_, rfl, spare.assign register none⟩
  · obtain ⟨heap', retained', spares⟩ := spare.world.heap.retain retained
    exact ⟨_, retainInto_of_retain? retained',
      (spare.inWorld (spare.world.withHeap spares)).assign register (some addr)⟩

/-- Only a turn of a read that has found a node depends on the registry. -/
theorem inRead (spare : t.Spare unused ref t')
    (begun : unused = true → ¬ i.Pending ∧ ∀ addr, i ≠ .pay addr .start) (pending : i.Pending) :
    t'.world.registry = t.world.registry ∧ ∀ registry : Registry,
      Spare unused ref { t with world.registry := registry } { t' with world.registry := registry } := by
  cases unused with
  | true => exact absurd pending (begun rfl).1
  | false => exact ⟨spare.world.registry, fun _ => spare.inWorld (spare.world.withRegistry rfl)⟩

/-- A turn of a read comes to the same where the registries are the same. -/
theorem reads (spare : t.Spare unused ref t') (same : t'.world.registry = t.world.registry)
    (moved : ∀ registry : Registry,
      Spare unused ref { t with world.registry := registry } { t' with world.registry := registry })
    (pending : i.Pending) {turn : Turn} (goes : Goes choice inUse t i (.ok turn)) :
    ∃ turn', Goes choice inUse t' i (.ok turn') ∧ turn.Spare unused ref turn' := by
  cases goes with
  | gives_way gives => exact ⟨_, .gives_way (spare.givesWay gives), spare.before _⟩
  | claim purpose step goes =>
    exact ⟨_, .claim purpose (same ▸ step) goes, (moved _).before _⟩
  | @recorded purpose addr _ place _ registry step =>
    have follows := (moved registry).before [.recheck purpose ⟨place, addr⟩]
    exact ⟨_, .recorded purpose (same ▸ step), follows.world, follows.call, follows.above⟩
  | @increment purpose debt _ ran =>
    obtain ⟨turn', ran', spares⟩ := (spare.before [.settle purpose debt .withdraw]).retainInto ran
    exact ⟨turn', .increment ran', spares⟩
  | settle purpose step goes sane =>
    exact ⟨_, .settle purpose (same ▸ step) goes sane, (moved _).before _⟩
  | settle_owed purpose step =>
    exact ⟨_, .settle_owed purpose (same ▸ step), (moved _).before _⟩
  | settle_paid purpose step =>
    exact ⟨_, .settle_paid purpose (same ▸ step), (moved _).before _⟩
  | stale purpose seen step goes sane =>
    exact ⟨_, .stale purpose seen (same ▸ step) goes sane, (moved _).before _⟩
  | stale_owed purpose seen step =>
    exact ⟨_, .stale_owed purpose seen (same ▸ step), (moved _).before _⟩
  | stale_paid purpose seen step live =>
    exact ⟨_, .stale_paid purpose seen (same ▸ step) ((spare.world.heap.isSome_live? _).trans live),
      ((moved _).before _).assign .observed _⟩
  | _ => exact pending.elim

/-- The second turn comes to the same as the first, if the object is alive then. -/
theorem goes (spare : t.Spare unused ref t') (bounded : t.world.heap.Bounded)
    (begun : unused = true → ¬ i.Pending ∧ ∀ addr, i ≠ .pay addr .start) {turn : Turn}
    (goes : Goes choice inUse t i (.ok turn)) (kept : turn.world.Counts ref) :
    ∃ turn', Goes choice inUse t' i (.ok turn') ∧ turn.Spare unused ref turn' := by
  -- Within a read both registries are the same.
  by_cases pending : i.Pending
  · obtain ⟨same, moved⟩ := spare.inRead begun pending
    exact spare.reads same moved pending goes
  cases goes with
  | gives_way gives => exact ⟨_, .gives_way (spare.givesWay gives), spare.before _⟩
  | refused gone => exact ⟨_, .refused ((spare.get _).trans gone), spare.stop .noValue⟩
  | busy used => exact ⟨_, .busy (spare.world.slots ▸ used), spare.stop .slotBusy⟩
  | note note => exact ⟨_, .note note, spare.note _ _⟩
  | inspect => exact ⟨_, .inspect, spare.note _ _⟩
  | peek_empty keep empty => exact ⟨_, .peek_empty keep (spare.look.trans empty), spare.note _ _⟩
  | peek word live =>
    obtain ⟨object', live'⟩ := spare.world.live live
    exact ⟨_, .peek (spare.look.trans word) live', spare.note _ _⟩
  | peek_kept word live ran =>
    obtain ⟨object', live'⟩ := spare.world.live live
    obtain ⟨turn', ran', spares⟩ :=
      (spare.note _ (.viewed object'.id object'.count)).retainInto ran
    exact ⟨turn', .peek_kept (spare.look.trans word) live' ran', spares⟩
  | nothing into => exact ⟨_, .nothing into, spare.assign into none⟩
  | handle_copy ran =>
    obtain ⟨turn', ran', spares⟩ := spare.retainInto ran
    exact ⟨turn', .handle_copy (spare.world.handles ▸ ran'), spares⟩
  | handle_take handle into =>
    refine ⟨_, .handle_take handle into, ?_⟩
    rw [spare.world.handles]
    exact (spare.inWorld (spare.world.withHandles _)).assign into _
  | fresh onDrop into =>
    obtain ⟨place, spares⟩ := spare.world.heap.create bounded choice.addr onDrop
    refine ⟨_, .fresh onDrop into, ?_⟩
    rw [place]
    exact (spare.inWorld (spare.world.withHeap spares)).assign into _
  | copy ran =>
    obtain ⟨turn', ran', spares⟩ := spare.retainInto ran
    exact ⟨turn', .copy (spare.get _ ▸ ran'), spares⟩
  | move source target =>
    refine ⟨_, .move source target, ?_⟩
    rw [spare.get]
    exact (spare.setRegister source none).assign target _
  | release register =>
    refine ⟨_, .release register, ?_⟩
    rw [spare.get]
    exact (spare.setRegister register none).before _
  | drop released =>
    obtain ⟨left', heap', released', spares, ends, onDrop⟩ := spare.world.heap.release released kept
    refine ⟨_, .drop released', spare.world.withHeap spares, spare.call, ?_⟩
    simp only [ends, onDrop]
  | putHandle handle source =>
    refine ⟨_, .putHandle handle source, ?_⟩
    rw [spare.get, spare.world.handles]
    exact ((spare.inWorld (spare.world.withHandles _)).setRegister source none).before _
  | @createSlot name unused =>
    refine ⟨_, .createSlot (spare.world.slots ▸ unused), ?_⟩
    rw [spare.get, spare.world.slots, spare.world.words]
    have world := (spare.world.withWords (t.world.words ++ [t.get .desired])).withSlots
      (t.world.slots.put name t.world.words.length)
    exact ((spare.inWorld world).inSlot _).setRegister .desired none
  | @swap slot acts =>
    refine ⟨_, .swap (spare.slot.trans acts), ?_⟩
    rw [spare.world.word]
    exact spare.publish slot _
  | @attempt_won _ slot acts same won =>
    rw [← spare.get] at same won
    exact ⟨_, .attempt_won (spare.slot.trans acts) same ((spare.world.word slot).trans won),
      spare.exchange slot⟩
  | @once_won _ slot acts same won steady =>
    rw [← spare.get] at same won
    exact ⟨_, .once_won (spare.slot.trans acts) same ((spare.world.word slot).trans won) steady,
      spare.exchange slot⟩
  | pay_start addr =>
    have begins (never : unused = true) : Registry.Payment.start ≠ .start :=
      absurd rfl ((begun never).2 addr)
    have scans : Registry.Payment.scan t'.world.registry.first = .scan t.world.registry.first :=
      (spare.world.registry.pay .start addr begins).1
    refine ⟨_, .pay_start addr, ?_⟩
    rw [scans]
    exact spare.before _
  | pay_test addr place =>
    obtain ⟨same, ahead⟩ := spare.world.registry.pay (.test place) addr nofun
    refine ⟨_, .pay_test addr place, ?_⟩
    rw [same]
    exact spare.before _
  | pay_retain place retained =>
    obtain ⟨heap', retained', spares⟩ := spare.world.heap.retain retained
    exact ⟨_, .pay_retain place retained',
      (spare.inWorld (spare.world.withHeap spares)).before _⟩
  | pay_mark addr place =>
    obtain ⟨same, ahead⟩ := spare.world.registry.pay (.mark place) addr nofun
    refine ⟨_, .pay_mark addr place, ?_⟩
    rw [same]
    exact (spare.inWorld (spare.world.withRegistry ahead)).before _
  | retain_nothing purpose =>
    exact ⟨_, .retain_nothing purpose, (spare.before _).assign .observed none⟩
  | consult u n =>
    obtain ⟨seen, outcome, events, same⟩ := spare.call
    refine ⟨_, .consult u n, spare.world,
      ⟨t'.world.objectId (t'.get .expected) :: t'.call.seen, outcome, events, ?_⟩, rfl⟩
    rw [Turn.before, same]
    rfl
  | @unbind name slot found =>
    have world := spare.world.withSlots (t.world.slots.erase name)
    refine ⟨_, .unbind (spare.world.slots ▸ found), ?_⟩
    rw [spare.world.slots]
    exact ((spare.inWorld world).inSlot (some slot)).before _
  | dropHandle found first =>
    exact ⟨_, .dropHandle (spare.world.slots ▸ found) (spare.world.handles.trans first),
      (spare.inWorld (spare.world.withHandles _)).before _⟩
  | _ => exact absurd trivial pending

theorem run (spare : t.Spare unused ref t') (bounded : t.world.heap.Bounded)
    (begun : unused = true → ¬ i.Pending ∧ ∀ addr, i ≠ .pay addr .start) {turn : Turn}
    (ran : t.run choice inUse i = .ok turn) (kept : turn.world.Counts ref) :
    ∃ turn', t'.run choice inUse i = .ok turn' ∧ turn.Spare unused ref turn' := by
  obtain ⟨turn', goes, spares⟩ := spare.goes bounded begun (goes_of_run ran) kept
  exact ⟨turn', run_eq_iff.mpr goes, spares⟩

end Spare

end Turn

end Slot

end SharedCells
