import SharedCells.Proofs.Slot.Cells
import SharedCells.Proofs.Slot.Solo

/-! What a world shows of the variables that its slots are.

A world shows some variables if each of its slots and handles holds the object,
by number, that the variable of that name holds. This is so before and after
every part of a command; what addresses there are, how references are counted and
where debts are recorded is out of sight. -/

set_option autoImplicit false

namespace SharedCells

namespace Heap

variable {σ : Type} {h h' : Heap (List σ)}

/-- No object has commands that its destruction runs. -/
def Bare (h : Heap (List σ)) : Prop := ∀ addr object, h.find? addr = some object → object.onDrop = []

/-- Only a new object might have commands. -/
theorem Bare.of_change (bare : h.Bare) (change : Change h h') (created : h'.created = h.created) :
    h'.Bare := by
  intro addr object found
  cases change with
  | none => exact bare addr object found
  | retained retained =>
    obtain ⟨old, live, rfl⟩ := retain?_eq_some_iff.mp retained
    rw [find?_set] at found
    split at found
    · obtain ⟨_, _, rfl⟩ := Option.map_eq_some_iff.mp found
      exact bare _ old (live?_eq_some_iff.mp live).1
    · exact bare addr object found
  | released released =>
    obtain ⟨old, live, rfl, rfl⟩ := release?_eq_some_iff.mp released
    rw [find?_set] at found
    split at found
    · obtain ⟨_, _, rfl⟩ := Option.map_eq_some_iff.mp found
      exact bare _ old (live?_eq_some_iff.mp live).1
    · exact bare addr object found
  | created wish onDrop => exact absurd created (Nat.succ_ne_self _)
  | freed =>
    rw [find?_free] at found
    split at found
    · contradiction
    · exact bare addr object found

theorem Bare.create (bare : h.Bare) (wish : Option Addr) : (h.create wish []).2.Bare := by
  intro addr object found
  rw [find?_create] at found
  split at found
  · rw [← Option.some.inj found]
  · exact bare addr object found

end Heap

namespace Slot

open Registry (Debt)

theorem World.word_congr {w w' : World} (words : w'.words = w.words) (slot : SlotId) :
    w'.word slot = w.word slot := by
  unfold word
  rw [words]

theorem World.objectId_of_older {w w' : World} (change : w.heap.Change w'.heap) {addr : Addr}
    {object : Nat} (older : object ≤ w.heap.created) (now : w'.objectId (some addr) = some object) :
    w.objectId (some addr) = some object := by
  rw [World.objectId, Option.bind_some, Option.map_eq_some_iff] at now ⊢
  obtain ⟨there, found, rfl⟩ := now
  rcases change.find?_id found with before | ⟨newest, -, -⟩
  · exact before
  · -- The newest object has a number above all that were given out before.
    omega

/-- What stays the same in the course of a command. -/
structure Scene where
  stalled : Stalled
  /-- The levels below that of the command. -/
  below : Thread
  /-- The slots that the commands on the levels below use. -/
  busy : List (String × SlotId)
  /-- The objects that those commands refer to. -/
  held : Ref → Option Nat
  /-- The world when nothing was displaced yet. -/
  start : World

/-- The slot that instructions act on. -/
inductive Target where
  | nothing
  | bound (slot : String)
  /-- A slot without a name, and what it holds. -/
  | loose (object : Option Nat)

/-- What a call and the world around it come down to. -/
structure Config where
  cells : Cells
  /-- The objects that were taken out of slots. -/
  displaced : List Nat := []
  named : Option String := none
  target : Target := .nothing
  /-- The objects in the registers. -/
  ids : Register → Option Nat := fun _ => none
  exchanged : Bool := false
  /-- Newest first. -/
  seen : List (Option Nat) := []
  outcome : Outcome := .done
  /-- Newest first. -/
  blocks : List (List Report) := []

/-- What the slot holds that instructions act on. -/
def Config.content (c : Config) : Option Nat :=
  match c.target with
  | .nothing => none
  | .bound slot => c.cells.content slot
  | .loose object => object

def Target.Is (w : World) : Target → Option SlotId → Prop
  | .nothing, slot => slot = none
  | .bound name, slot => slot.isSome ∧ w.slots.get? name = slot
  | .loose object, slot =>
    ∃ s, slot = some s ∧ s < w.words.length ∧ (∀ name, w.slots.get? name ≠ some s) ∧
      w.objectId (w.word s) = object

namespace Scene

/-- The thread in the middle of a call. -/
def thread (scene : Scene) (level : Level) (call : Call) : Thread :=
  { level with call := some call } :: scene.below

/-- What is said of the levels below is right. -/
structure Fit (scene : Scene) : Prop where
  quiet : ∀ call ∈ scene.below.calls, call.during = none
  uses : ∀ slot, scene.below.uses slot = true ↔ ∃ name, (name, slot) ∈ scene.busy

structure Mirrors (scene : Scene) (p : Cells) (displaced : List Nat) (w : World) : Prop where
  slots : ∀ name, p.slots.get? name = (w.slots.get? name).map fun s => w.objectId (w.word s)
  handles : ∀ name, p.handles.get? name = w.objectId (w.handles.get? name)
  created : p.created = w.heap.created
  slotNames : p.slots.names.Nodup
  handleNames : p.handles.names.Nodup
  apart : ∀ a b s, w.slots.get? a = some s → w.slots.get? b = some s → a = b
  bare : w.heap.Bare
  busy : ∀ entry ∈ scene.busy, w.slots.get? entry.1 = some entry.2
  held : ∀ call ∈ scene.below.calls, ∀ register,
    w.objectId (call.registers.get register) = scene.held (call.registers.get register)
  /-- Exactly the stalled debts on displaced objects have been paid. -/
  marks : ∀ d ∈ scene.stalled.debts, w.registry.read d.place =
    if ∃ object ∈ displaced, w.objectId (some d.addr) = some object then some .paid
    else scene.start.registry.read d.place
  past : ∀ object ∈ displaced, object ≤ w.heap.created
  /-- An object that was at the address of a stalled debt is at no other address, -/
  origin : ∀ d ∈ scene.stalled.debts, ∀ object, scene.start.objectId (some d.addr) = some object →
    object ≤ w.heap.created ∧ ∀ addr, w.objectId (some addr) = some object → addr = d.addr
  /-- and if it has been displaced it is still there. -/
  kept : ∀ d ∈ scene.stalled.debts, ∀ object ∈ displaced,
    scene.start.objectId (some d.addr) = some object → w.objectId (some d.addr) = some object

structure Shows (scene : Scene) (c : Config) (w : World) (call : Call) : Prop where
  mirrors : scene.Mirrors c.cells c.displaced w
  during : call.during = none
  named : call.named = c.named.bind w.slots.get?
  target : c.target.Is w call.slot
  registers : ∀ register, w.objectId (call.registers.get register) = c.ids register
  exchanged : call.exchanged = c.exchanged
  seen : call.seen = c.seen
  outcome : call.outcome.uncounted = c.outcome
  blocks : Event.blocks call.events = c.blocks

/-- What is known of the world when a call with these registers is on the innermost level. -/
structure Counted (scene : Scene) (w : World) (registers : Registers) : Prop where
  bounded : w.heap.Bounded
  numbered : w.heap.Numbered
  chained : w.registry.Chained
  /-- The thread's own debts stand beside the stalled ones. -/
  backed : ∃ own, w.registry.Backed (own ++ scene.stalled.debts)
  slotNames : w.slots.names.Nodup
  handleNames : w.handles.names.Nodup
  slots : ∀ entry ∈ w.slots, entry.2 < w.words.length
  word : ∀ slot, w.Counts (w.word slot)
  handle : ∀ name, w.Counts (w.handles.get? name)
  register : ∀ register, w.Counts (registers.get register)
  below : ∀ call ∈ scene.below.calls, ∀ register, w.Counts (call.registers.get register)
  paid : ∀ d ∈ scene.stalled.debts, w.registry.read d.place = some .paid → w.Counts (some d.addr)

/-- Wherever the world and a call show this, the goal is reached from there. -/
def Proceeds (scene : Scene) (level : Level) (goal : World → Thread → Prop)
    (code : List Instruction) (c : Config) : Prop :=
  ∀ w call, Alone scene.stalled w (scene.thread level { call with code }) → scene.Shows c w call →
    Leads scene.stalled goal w (scene.thread level { call with code })

/-- The goal is reached wherever the call has ended with this answer; `before` are the objects that
were taken out of slots before the call. -/
def Ends (scene : Scene) (level : Level) (goal : World → Thread → Prop) (answer : Answer)
    (before : List Nat) : Prop :=
  ∀ w record, record.report = .mk answer.outcome answer.blocks →
    scene.Mirrors answer.cells (answer.displaced ++ before) w →
    Alone scene.stalled w
      ({ level with call := none, records := record :: level.records } :: scene.below) →
    Leads scene.stalled goal w
      ({ level with call := none, records := record :: level.records } :: scene.below)

variable {scene : Scene} {level : Level} {goal : World → Thread → Prop} {w w' : World}
  {call call' : Call} {c c' : Config} {i : Instruction} {code : List Instruction} {p : Cells}
  {displaced : List Nat} {registers : Registers}

theorem debts_beside (calls : List Call) (stalled : Stalled) :
    debts (poolOf (calls ++ stalled.calls)) = debts (poolOf calls) ++ stalled.debts := by
  have recorded := stalled.debts_calls
  rw [poolOf] at recorded
  rw [poolOf, List.flatMap_append, debts_append, recorded]
  rfl

theorem counted {thread : Thread} (alone : Alone scene.stalled w thread)
    (calls : thread.calls = call :: scene.below.calls) : scene.Counted w call.registers where
  bounded := alone.sound.bounded
  numbered := alone.numbered
  chained := alone.sound.agreed.chained
  backed := by
    have backed := alone.sound.agreed.backed
    rw [debts_beside] at backed
    exact ⟨_, backed⟩
  slotNames := alone.moored.names
  handleNames := alone.sound.handles
  slots := alone.sound.slots
  word := alone.sound.counts_word
  handle name _ holds := alone.sound.counted_of_handle holds
  register := alone.sound.counts_register (List.mem_append_left _ (calls ▸ List.mem_cons_self))
  below call member := alone.sound.counts_register
    (List.mem_append_left _ (calls ▸ List.mem_cons_of_mem _ member))
  paid d member isPaid addr same := by
    obtain rfl := Option.some.inj same
    apply alone.sound.counted_of_paid _ isPaid
    rw [debts_beside]
    exact List.mem_append_right _ member

theorem Ends.assoc {answer : Answer} {later sooner before : List Nat}
    (ends : scene.Ends level goal answer before) (split : answer.displaced = later ++ sooner) :
    scene.Ends level goal { answer with displaced := later } (sooner ++ before) := by
  intro w record report mirrors
  rw [← List.append_assoc, ← split] at mirrors
  exact ends w record report mirrors

theorem isNone_objectId {ref : Ref} (counts : w.Counts ref) :
    (w.objectId ref).isNone = ref.isNone := by
  cases ref with
  | none => rfl
  | some addr =>
    obtain ⟨object, -, names⟩ := World.objectId_of_counts counts
    rw [names]
    rfl

theorem ref_eq_none {ref : Ref} (counts : w.Counts ref) (nothing : w.objectId ref = none) :
    ref = none := by
  rw [← Option.isNone_iff_eq_none] at nothing ⊢
  rw [← isNone_objectId counts, nothing]

theorem Counted.content (counted : scene.Counted w registers) (slot : Option SlotId) :
    w.Counts (slot.bind w.word) := by
  cases slot with
  | none => exact fun addr nothing => nomatch nothing
  | some slot => exact counted.word slot

/-- A displaced object stays at the address of a stalled debt, which has been paid. -/
theorem Mirrors.displaced_stays (mirrors : scene.Mirrors p displaced w)
    (counted : scene.Counted w registers) (change : w.heap.Change w'.heap) {d : Debt}
    (member : d ∈ scene.stalled.debts) {object : Nat} (inside : object ∈ displaced)
    (names : w.objectId (some d.addr) = some object) : w'.objectId (some d.addr) = some object := by
  have isPaid := mirrors.marks d member
  rw [if_pos ⟨object, inside, names⟩] at isPaid
  rw [World.objectId_of_change change counted.bounded (counted.paid d member isPaid)]
  exact names

theorem Mirrors.displaced_iff (mirrors : scene.Mirrors p displaced w)
    (counted : scene.Counted w registers) (change : w.heap.Change w'.heap) {d : Debt}
    (member : d ∈ scene.stalled.debts) :
    (∃ object ∈ displaced, w'.objectId (some d.addr) = some object) ↔
      ∃ object ∈ displaced, w.objectId (some d.addr) = some object := by
  constructor
  · rintro ⟨object, inside, now⟩
    exact ⟨object, inside, World.objectId_of_older change (mirrors.past object inside) now⟩
  · rintro ⟨object, inside, before⟩
    exact ⟨object, inside, mirrors.displaced_stays counted change member inside before⟩

theorem Mirrors.of_mem_iff (mirrors : scene.Mirrors p displaced w) {displaced' : List Nat}
    (same : ∀ object, object ∈ displaced ↔ object ∈ displaced') : scene.Mirrors p displaced' w :=
  { mirrors with
    marks := fun d member => by
      rw [mirrors.marks d member]
      simp only [same]
    past := fun object member => mirrors.past object ((same object).mpr member)
    kept := fun d member object inside => mirrors.kept d member object ((same object).mpr inside) }

/-- The worlds differ in counts, marks and new objects only. -/
structure Beside (w w' : World) : Prop where
  words : w'.words = w.words
  slots : w'.slots = w.slots
  handles : w'.handles = w.handles
  bare : w'.heap.Bare
  ids : ∀ ref, w.Counts ref → w'.objectId ref = w.objectId ref
  created : w.heap.created ≤ w'.heap.created
  older : ∀ addr object, object ≤ w.heap.created → w'.objectId (some addr) = some object →
    w.objectId (some addr) = some object

theorem Mirrors.of_beside (mirrors : scene.Mirrors p displaced w) (counted : scene.Counted w registers)
    (beside : Beside w w') {displaced' : List Nat}
    (marks : ∀ d ∈ scene.stalled.debts, w'.registry.read d.place =
      if ∃ object ∈ displaced', w'.objectId (some d.addr) = some object then some .paid
      else scene.start.registry.read d.place)
    (past : ∀ object ∈ displaced', object ≤ w'.heap.created)
    (kept : ∀ d ∈ scene.stalled.debts, ∀ object ∈ displaced',
      scene.start.objectId (some d.addr) = some object → w'.objectId (some d.addr) = some object)
    {created : Nat} (same : created = w'.heap.created) :
    scene.Mirrors { p with created } displaced' w' where
  slots name := by
    rw [beside.slots, mirrors.slots]
    apply Option.map_congr
    intro s _
    rw [World.word_congr beside.words]
    exact (beside.ids _ (counted.word s)).symm
  handles name := by
    rw [beside.handles, beside.ids _ (counted.handle name)]
    exact mirrors.handles name
  created := same
  slotNames := mirrors.slotNames
  handleNames := mirrors.handleNames
  apart := beside.slots ▸ mirrors.apart
  bare := beside.bare
  busy := beside.slots ▸ mirrors.busy
  held call member register := by
    rw [beside.ids _ (counted.below call member register)]
    exact mirrors.held call member register
  marks := marks
  past := past
  origin d member object stood := by
    obtain ⟨older, origin⟩ := mirrors.origin d member object stood
    refine ⟨Nat.le_trans older beside.created, fun addr names => ?_⟩
    exact origin addr (beside.older addr object older names)
  kept := kept

theorem Shows.of_beside (shows : scene.Shows c w call) (counted : scene.Counted w call.registers)
    (beside : Beside w w') {displaced : List Nat}
    (marks : ∀ d ∈ scene.stalled.debts, w'.registry.read d.place =
      if ∃ object ∈ displaced, w'.objectId (some d.addr) = some object then some .paid
      else scene.start.registry.read d.place)
    (past : ∀ object ∈ displaced, object ≤ w'.heap.created)
    (kept : ∀ d ∈ scene.stalled.debts, ∀ object ∈ displaced,
      scene.start.objectId (some d.addr) = some object → w'.objectId (some d.addr) = some object)
    {created : Nat} (same : created = w'.heap.created) :
    scene.Shows { c with cells.created := created, displaced } w' call where
  mirrors := shows.mirrors.of_beside counted beside marks past kept same
  during := shows.during
  named := beside.slots ▸ shows.named
  target := by
    have target := shows.target
    cases kind : c.target with
    | nothing =>
      rw [kind] at target
      exact target
    | bound name =>
      rw [kind] at target
      exact ⟨target.1, beside.slots ▸ target.2⟩
    | loose object =>
      rw [kind] at target
      obtain ⟨s, acts, there, unbound, holds⟩ := target
      refine ⟨s, acts, beside.words ▸ there, beside.slots ▸ unbound, ?_⟩
      rw [World.word_congr beside.words, beside.ids _ (counted.word s)]
      exact holds
  registers register := by
    rw [beside.ids _ (counted.register register)]
    exact shows.registers register
  exchanged := shows.exchanged
  seen := shows.seen
  outcome := shows.outcome
  blocks := shows.blocks

theorem Shows.content (shows : scene.Shows c w call) :
    w.objectId (call.slot.bind w.word) = c.content := by
  have target := shows.target
  unfold Config.content
  cases kind : c.target with
  | nothing =>
    rw [kind] at target
    rw [show call.slot = none from target]
    rfl
  | bound name =>
    rw [kind] at target
    obtain ⟨slot, acts⟩ := Option.isSome_iff_exists.mp target.1
    dsimp only
    rw [acts, Option.bind_some, Cells.content, shows.mirrors.slots, target.2, acts]
    rfl
  | loose object =>
    rw [kind] at target
    obtain ⟨slot, acts, -, -, holds⟩ := target
    rw [acts]
    exact holds

/-- What happens to the heap is out of sight, but for new objects. -/
theorem Shows.of_change (shows : scene.Shows c w call) (counted : scene.Counted w call.registers)
    (w' : World) (change : w.heap.Change w'.heap) (bare : w'.heap.Bare) (words : w'.words = w.words)
    (slots : w'.slots = w.slots) (handles : w'.handles = w.handles)
    (reads : ∀ d ∈ scene.stalled.debts, w'.registry.read d.place = w.registry.read d.place) {created : Nat}
    (same : created = w'.heap.created) : scene.Shows { c with cells.created := created } w' call := by
  have mirrors := shows.mirrors
  have beside : Beside w w' := {
    words, slots, handles, bare
    ids := fun _ => World.objectId_of_change change counted.bounded
    created := change.created_le
    older := fun _ _ => World.objectId_of_older change }
  apply shows.of_beside counted beside _ _ _ same
  · intro d member
    rw [reads d member, mirrors.marks d member]
    simp only [mirrors.displaced_iff counted change member]
  · intro object member
    exact Nat.le_trans (mirrors.past object member) change.created_le
  · intro d member object inside stood
    exact mirrors.displaced_stays counted change member inside (mirrors.kept d member object inside stood)

theorem Shows.of_count (shows : scene.Shows c w call) (counted : scene.Counted w call.registers)
    {heap : Heap (List Command)} (change : w.heap.Change heap) (created : heap.created = w.heap.created) :
    scene.Shows c { w with heap } call := by
  have bare := shows.mirrors.bare.of_change change created
  have same : c.cells.created = heap.created := shows.mirrors.created.trans created.symm
  exact shows.of_change counted { w with heap } change bare rfl rfl rfl (fun _ _ => rfl) same

/-- Where debts are recorded is out of sight, as long as the stalled ones keep their marks. -/
theorem Shows.of_registry (shows : scene.Shows c w call) {registry : Registry}
    (reads : ∀ d ∈ scene.stalled.debts, registry.read d.place = w.registry.read d.place) :
    scene.Shows c { w with registry } call :=
  { shows with
    mirrors := { shows.mirrors with marks := fun d member => (reads d member).trans (shows.mirrors.marks d member) } }

theorem advance (fit : scene.Fit)
    (alone : Alone scene.stalled w (scene.thread level { call with code := i :: code }))
    (during : call.during = none)
    (next : ∀ wish turn, scene.Counted w call.registers →
      Turn.run { addr := wish }
        (fun slot => Thread.uses (scene.thread level { call with code := i :: code }) slot)
        { world := w, call := { call with code } } i = .ok turn →
      w.heap.Change turn.world.heap →
      Alone scene.stalled turn.world (turn.above.toList ++ scene.thread level turn.call) →
      Leads scene.stalled goal turn.world (turn.above.toList ++ scene.thread level turn.call)) :
    Leads scene.stalled goal w (scene.thread level { call with code := i :: code }) := by
  apply Leads.instruction
  · intro call' member
    rcases List.mem_cons.mp member with rfl | member
    · exact during
    · exact fit.quiet call' member
  · intro wish turn ran change after
    have here : scene.Counted w ({ call with code := i :: code } : Call).registers :=
      counted alone (Thread.calls_cons_of_some rfl)
    exact next wish turn here ran change after

/-- An instruction is carried out wherever the world and a call show the same. -/
theorem proceed (fit : scene.Fit)
    (next : ∀ w call wish turn, scene.Counted w call.registers → scene.Shows c w call →
      Turn.run { addr := wish }
        (fun slot => Thread.uses (scene.thread level { call with code := i :: code }) slot)
        { world := w, call := { call with code } } i = .ok turn →
      w.heap.Change turn.world.heap →
      Alone scene.stalled turn.world (turn.above.toList ++ scene.thread level turn.call) →
      Leads scene.stalled goal turn.world (turn.above.toList ++ scene.thread level turn.call)) :
    scene.Proceeds level goal (i :: code) c := by
  intro w call alone shows
  apply advance fit alone shows.during
  intro wish turn here ran change after
  exact next w call wish turn here shows ran change after

theorem close_leads (role : Role) (records : List Record)
    (next : ∀ w' call', ({ role, todo := [], records } : Level).close w call = (w', call') →
      w.heap.Change w'.heap → Alone scene.stalled w' (scene.thread level call') →
      Leads scene.stalled goal w' (scene.thread level call')) :
    Leads scene.stalled goal w ({ role, todo := [], records } :: scene.thread level call) := by
  apply Leads.step
  intro wish w' thread' ran alone change
  obtain ⟨rfl, rfl⟩ := Prod.mk.inj (Except.ok.inj ran)
  exact next _ _ rfl change alone

/-- A reference is given up; the destruction of the object, if it was the last one, runs nothing. -/
theorem drop_leads (fit : scene.Fit) {addr : Addr} (shows : scene.Shows c w call)
    (next : ∀ heap events, scene.Shows c { w with heap } { call with events } →
      Alone scene.stalled { w with heap } (scene.thread level { call with code, events }) →
      Leads scene.stalled goal { w with heap } (scene.thread level { call with code, events }))
    (alone : Alone scene.stalled w (scene.thread level { call with code := .drop addr :: code })) :
    Leads scene.stalled goal w (scene.thread level { call with code := .drop addr :: code }) := by
  apply advance fit alone shows.during
  intro wish turn here ran change after
  cases Turn.goes_of_run ran with
  | gives_way gives => cases gives
  | drop released =>
    obtain ⟨object, live, rfl, rfl⟩ := Heap.release?_eq_some_iff.mp released
    have nothing := shows.mirrors.bare addr object (Heap.live?_eq_some_iff.mp live).1
    obtain ⟨id, count, onDrop⟩ := object
    obtain rfl : onDrop = [] := nothing
    have shows := shows.of_count here change rfl
    dsimp only at after shows ⊢
    -- The level of the destruction has nothing to do and closes at once.
    by_cases last : count - 1 = 0
    · rw [if_pos last] at after ⊢
      have here : scene.Counted _ ({ call with code } : Call).registers := counted after rfl
      apply close_leads
      intro w' call' closed change after
      obtain ⟨rfl, rfl⟩ := Prod.mk.inj closed
      have shows := shows.of_count here change rfl
      exact next _ _ { shows with } after
    · rw [if_neg last] at after ⊢
      exact next _ call.events shows after

theorem discard_leads (fit : scene.Fit) (ref : Ref) (shows : scene.Shows c w call)
    (next : ∀ heap events, scene.Shows c { w with heap } { call with events } →
      Alone scene.stalled { w with heap } (scene.thread level { call with code, events }) →
      Leads scene.stalled goal { w with heap } (scene.thread level { call with code, events }))
    (alone : Alone scene.stalled w
      (scene.thread level { call with code := ref.toList.map .drop ++ code })) :
    Leads scene.stalled goal w
      (scene.thread level { call with code := ref.toList.map .drop ++ code }) := by
  cases ref with
  | none => exact next w.heap call.events shows alone
  | some addr => exact drop_leads fit shows next alone

theorem drops_lead (fit : scene.Fit) (next : scene.Proceeds level goal code c) (ref : Ref)
    (alone : Alone scene.stalled w
      (scene.thread level { call with code := ref.toList.map .drop ++ code }))
    (shows : scene.Shows c w call) :
    Leads scene.stalled goal w
      (scene.thread level { call with code := ref.toList.map .drop ++ code }) := by
  refine discard_leads fit ref shows ?_ alone
  intro heap events shows after
  exact next _ { call with events } after shows

end Scene

end Slot

end SharedCells
