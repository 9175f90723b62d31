import SharedCells.Proofs.Slot.Displacing

/-! Names of slots beside stalled readers.

A name stands for a variable as long as it stands for a slot. A new slot takes the
name of another, and a dropped slot loses its name; the slot that has no name any
more is emptied next. Slots in use keep their names. -/

set_option autoImplicit false

namespace SharedCells.Slot

open Function (update)

/-- A new slot of the name gets the desired object; instructions act on the slot that had the name
before. -/
def Config.createSlot (c : Config) (name : String) : Config :=
  { c with
    cells := c.cells.put name (c.ids .desired)
    ids := update c.ids .desired none
    target := match c.cells.slots.get? name with
      | none => .nothing
      | some object => .loose object }

theorem Cells.uncounted_of_refusal {p : Cells} {busy : List String} {operation : Operation}
    {outcome : Outcome} (refused : p.refusal busy operation = some outcome) :
    outcome.uncounted = outcome := by
  unfold refusal at refused
  split at refused
  · rw [← Option.some.inj refused]
    rfl
  · split at refused
    · rw [← Option.some.inj refused]
      rfl
    · contradiction

/-- An operation takes the name away from the slot that it removes. -/
theorem Operation.removes?_of_unbinds (operation : Operation) (unbinds : operation.unbinds = true) :
    operation.removes? = operation.slot? := by
  cases operation with
  | drop slot | intoInner slot into => rfl
  | _ => contradiction

/-- What a call shows that has just been started. -/
def Operation.begin (operation : Operation) (p : Cells) (displaced : List Nat) : Config :=
  match operation.unbinds, operation.slot? with
  | true, some name => { cells := p.remove name, displaced, target := .loose (p.content name) }
  | _, some name => { cells := p, displaced, named := some name, target := .bound name }
  | _, none => { cells := p, displaced }

namespace Scene

variable {scene : Scene} {level : Level} {goal : World → Thread → Prop} {w w' : World} {call : Call}
  {c : Config} {code : List Instruction} {name : String} {slot : SlotId} {ref : Ref} {p : Cells}
  {displaced : List Nat} {content : Option Nat}

/-- The names of the slots in use below. -/
def busyNames (scene : Scene) : List String := scene.busy.map Prod.fst

theorem Fit.uses_iff (fit : scene.Fit) (mirrors : scene.Mirrors p displaced w)
    (bound : w.slots.get? name = some slot) : scene.below.uses slot = true ↔ name ∈ scene.busyNames := by
  rw [fit.uses, busyNames, List.mem_map]
  constructor
  · rintro ⟨other, inside⟩
    obtain rfl := mirrors.apart other name slot (mirrors.busy _ inside) bound
    exact ⟨_, inside, rfl⟩
  · rintro ⟨⟨_, other⟩, inside, rfl⟩
    have same := (mirrors.busy _ inside).symm.trans bound
    obtain rfl : other = slot := Option.some.inj same
    exact ⟨_, inside⟩

theorem uses_thread : Thread.uses (scene.thread level call) slot =
    (call.named == some slot || scene.below.uses slot) := rfl

/-- A slot is in use if the call has named it, or one below. -/
theorem Shows.uses_iff (shows : scene.Shows c w call) (fit : scene.Fit)
    (bound : w.slots.get? name = some slot) :
    Thread.uses (scene.thread level call) slot = true ↔ c.named = some name ∨ name ∈ scene.busyNames := by
  rw [uses_thread, Bool.or_eq_true, fit.uses_iff shows.mirrors bound, beq_iff_eq, shows.named,
    Option.bind_eq_some_iff]
  apply or_congr_left
  constructor
  · rintro ⟨other, named, found⟩
    rw [named, shows.mirrors.apart other name slot found bound]
  · intro named
    exact ⟨name, named, bound⟩

theorem Mirrors.createSlot (mirrors : scene.Mirrors p displaced w)
    (there : ∀ entry ∈ w.slots, entry.2 < w.words.length) (free : name ∉ scene.busyNames)
    (names : w.objectId ref = content) :
    scene.Mirrors (p.put name content) displaced
      { w with words := w.words ++ [ref], slots := w.slots.put name w.words.length } := by
  have lower {other : String} {s : SlotId} (found : w.slots.get? other = some s) :
      s < w.words.length := there _ (Table.mem_of_get? _ _ _ found)
  have word (s : SlotId) : World.word
      { w with words := w.words ++ [ref], slots := w.slots.put name w.words.length } s =
        if s = w.words.length then ref else w.word s := World.word_append rfl s
  refine { mirrors with
    slots := fun other => ?_
    slotNames := Table.nodup_put _ _ _ mirrors.slotNames
    apart := fun a b s => ?_
    busy := fun entry inside => ?_ }
  · rw [Cells.put, Table.get?_put, Table.get?_put]
    by_cases same : other = name
    · rw [if_pos same, if_pos same, Option.map_some, word, if_pos rfl]
      exact congrArg some names.symm
    · rw [if_neg same, if_neg same, mirrors.slots]
      apply Option.map_congr
      intro s found
      rw [word, if_neg (Nat.ne_of_lt (lower found))]
      rfl
  · rw [Table.get?_put, Table.get?_put]
    intro left right
    split at left <;> split at right
    · next first second => rw [first, second]
    · exact absurd (Option.some.inj left ▸ lower right) (Nat.lt_irrefl _)
    · exact absurd (Option.some.inj right ▸ lower left) (Nat.lt_irrefl _)
    · exact mirrors.apart a b s left right
  · rw [Table.get?_put, if_neg]
    · exact mirrors.busy entry inside
    · rintro rfl
      exact free (List.mem_map.mpr ⟨entry, inside, rfl⟩)

theorem Shows.createSlot (shows : scene.Shows c w call) (counted : scene.Counted w call.registers)
    (free : name ∉ scene.busyNames) (other : c.named ≠ some name) :
    scene.Shows (c.createSlot name)
      { w with
        words := w.words ++ [call.registers.get .desired]
        slots := w.slots.put name w.words.length }
      { call with
        slot := w.slots.get? name
        registers := call.registers.set .desired none } := by
  let next : World := { w with
    words := w.words ++ [call.registers.get .desired]
    slots := w.slots.put name w.words.length }
  have created : scene.Mirrors (c.cells.put name (c.ids .desired)) c.displaced next :=
    shows.mirrors.createSlot counted.slots free (shows.registers .desired)
  have emptied := shows.setRegister .desired none rfl
  refine { emptied with
    mirrors := created
    named := ?_
    target := ?_ }
  · rw [show (c.createSlot name).named = c.named from rfl, shows.named]
    apply Option.bind_congr
    intro own named
    have apart : own ≠ name := fun same => other (same ▸ named)
    rw [Table.get?_put, if_neg apart]
  · have mirrored := shows.mirrors.slots name
    unfold Config.createSlot
    dsimp only
    cases bound : w.slots.get? name with
    | none =>
      rw [bound] at mirrored
      rw [show c.cells.slots.get? name = none from mirrored]
      rfl
    | some s =>
      rw [bound] at mirrored
      rw [show c.cells.slots.get? name = some (w.objectId (w.word s)) from mirrored]
      -- The name has been that of another slot, which the call is to clear next.
      have there := counted.slots _ (Table.mem_of_get? _ _ _ bound)
      refine ⟨s, rfl, ?_, fun m => ?_, ?_⟩
      · rw [List.length_append]
        exact Nat.lt_succ_of_lt there
      · rw [Table.get?_put]
        split
        · intro same
          exact absurd (Option.some.inj same ▸ there) (Nat.lt_irrefl _)
        · next apart =>
          intro found
          exact apart (shows.mirrors.apart m name s found bound)
      · have word : next.word s = w.word s := (World.word_append rfl s).trans (if_neg (Nat.ne_of_lt there))
        exact congrArg w.objectId word

theorem createSlot_proceeds (fit : scene.Fit) (free : name ∉ scene.busyNames)
    (other : c.named ≠ some name) (next : scene.Proceeds level goal code (c.createSlot name)) :
    scene.Proceeds level goal (.createSlot name :: code) c := by
  apply proceed fit
  intro w call wish turn here shows ran change after
  cases Turn.goes_of_run ran with
  | gives_way gives => cases gives
  | busy taken =>
    obtain ⟨slot, bound, used⟩ := (Option.any_eq_true _ _).mp taken
    have shown : scene.Shows c w { call with code := .createSlot name :: code } := { shows with }
    rcases (shown.uses_iff fit bound).mp used with named | inside
    · exact absurd named other
    · exact absurd inside free
  | createSlot => exact next _ _ after { shows.createSlot here free other with }

theorem Mirrors.remove (mirrors : scene.Mirrors p displaced w) (free : name ∉ scene.busyNames) :
    scene.Mirrors (p.remove name) displaced { w with slots := w.slots.erase name } := by
  refine { mirrors with
    slots := fun other => ?_
    slotNames := Table.nodup_erase _ _ mirrors.slotNames
    apart := fun a b s left right => ?_
    busy := fun entry inside => ?_ }
  · rw [Cells.remove, Table.get?_erase, Table.get?_erase]
    split
    · rfl
    · exact mirrors.slots other
  · rw [Table.get?_erase] at left right
    split at left
    · contradiction
    · split at right
      · contradiction
      · exact mirrors.apart a b s left right
  · rw [Table.get?_erase, if_neg]
    · exact mirrors.busy entry inside
    · rintro rfl
      exact free (List.mem_map.mpr ⟨entry, inside, rfl⟩)

/-- The slot whose name went away still holds what it held. -/
theorem Mirrors.loose (mirrors : scene.Mirrors p displaced w) (bound : w.slots.get? name = some slot)
    (there : slot < w.words.length) :
    Target.Is { w with slots := w.slots.erase name } (.loose (p.content name)) (some slot) := by
  refine ⟨slot, rfl, there, fun other => ?_, ?_⟩
  · rw [Table.get?_erase]
    split
    · exact Option.some_ne_none slot |>.symm
    · next apart =>
      intro found
      exact apart (mirrors.apart other name slot found bound)
  · rw [Cells.content, mirrors.slots, bound]
    rfl

section Start

variable {operation : Operation} {inUse : SlotId → Bool}

theorem Mirrors.isNone_slot? (mirrors : scene.Mirrors p displaced w) (operation : Operation) :
    (operation.slot?.isSome && (operation.slot?.bind w.slots.get?).isNone) =
      operation.slot?.any fun slot => (p.slots.get? slot).isNone := by
  cases operation.slot? with
  | none => rfl
  | some slot =>
    rw [Option.isSome_some, Bool.true_and, Option.bind_some, Option.any_some, mirrors.slots,
      Option.isNone_map]

theorem Mirrors.any_removes? (mirrors : scene.Mirrors p displaced w)
    (used : ∀ name slot, w.slots.get? name = some slot → (inUse slot = true ↔ name ∈ scene.busyNames))
    (operation : Operation) :
    ((operation.removes?.bind w.slots.get?).any fun slot =>
        inUse slot || (!operation.unbinds && operation.slot?.bind w.slots.get? == some slot)) =
      operation.removes?.any fun slot => (p.slots.get? slot).isSome &&
        (scene.busyNames.contains slot || (!operation.unbinds && operation.slot? == some slot)) := by
  cases operation.removes? with
  | none => rfl
  | some name =>
    rw [Option.bind_some, Option.any_some, mirrors.slots, Option.isSome_map]
    cases bound : w.slots.get? name with
    | none => rfl
    | some slot =>
      have own : operation.slot?.bind w.slots.get? = some slot ↔ operation.slot? = some name := by
        rw [Option.bind_eq_some_iff]
        constructor
        · rintro ⟨other, named, found⟩
          rw [named, mirrors.apart other name slot found bound]
        · intro named
          exact ⟨name, named, bound⟩
      rw [Option.any_some, Option.isSome_some, Bool.true_and, Bool.eq_iff_iff]
      simp only [Bool.or_eq_true, Bool.and_eq_true, used name slot bound, beq_iff_eq, own,
        List.contains_iff_mem]

theorem start_refused (mirrors : scene.Mirrors p displaced w)
    (used : ∀ name slot, w.slots.get? name = some slot → (inUse slot = true ↔ name ∈ scene.busyNames))
    {outcome : Outcome} (refusal : p.refusal scene.busyNames operation = some outcome) :
    (Command.mk operation none).start w inUse = (w, { code := [], outcome }) := by
  unfold Cells.refusal at refusal
  unfold Command.start
  dsimp only
  rw [mirrors.isNone_slot?, mirrors.any_removes? used]
  split at refusal
  · next gone =>
    rw [if_pos gone, Option.some.inj refusal]
  · next there =>
    rw [if_neg there]
    split at refusal
    · next busy => rw [if_pos busy, Option.some.inj refusal]
    · contradiction

theorem Mirrors.bound_of_accepted (mirrors : scene.Mirrors p displaced w)
    (accepted : p.refusal scene.busyNames operation = none) (named : operation.slot? = some name) :
    ∃ slot, w.slots.get? name = some slot := by
  unfold Cells.refusal at accepted
  rw [named, Option.any_some, mirrors.slots, Option.isNone_map] at accepted
  split at accepted
  · contradiction
  · next there =>
    exact Option.isSome_iff_exists.mp (Option.isNone_eq_false_iff.mp (Bool.eq_false_of_not_eq_true there))

theorem Mirrors.free_of_accepted (mirrors : scene.Mirrors p displaced w)
    (accepted : p.refusal scene.busyNames operation = none) (removes : operation.removes? = some name) :
    name ∉ scene.busyNames ∧ (operation.unbinds = false → operation.slot? ≠ some name) := by
  have elsewhere : (p.slots.get? name).isSome = true →
      ¬ (name ∈ scene.busyNames ∨ operation.unbinds = false ∧ operation.slot? = some name) := by
    intro there busy
    unfold Cells.refusal at accepted
    split at accepted
    · contradiction
    · rw [removes, Option.any_some, there, Bool.true_and, if_pos] at accepted
      · contradiction
      · simpa using busy
  constructor
  · intro inside
    obtain ⟨entry, busy, rfl⟩ := List.mem_map.mp inside
    refine elsewhere ?_ (.inl inside)
    rw [mirrors.slots, mirrors.busy entry busy]
    rfl
  · intro stays named
    refine elsewhere ?_ (.inr ⟨stays, named⟩)
    obtain ⟨slot, bound⟩ := mirrors.bound_of_accepted accepted named
    rw [mirrors.slots, bound]
    rfl

theorem Mirrors.starts (mirrors : scene.Mirrors p displaced w) (code : List Instruction)
    (named : Option String) {target : Target} {slot : Option SlotId} (acts : target.Is w slot) :
    scene.Shows { cells := p, displaced, named, target } w
      { code, named := named.bind w.slots.get?, slot } where
  mirrors := mirrors
  during := rfl
  named := rfl
  target := acts
  registers register := by cases register <;> rfl
  exchanged := rfl
  seen := rfl
  outcome := rfl
  blocks := rfl

/-- How an operation that is not refused begins: a name that it takes away is gone. -/
def admitted (w : World) (operation : Operation) : World × Call :=
  let named := operation.slot?.bind w.slots.get?
  let call : Call := { code := operation.code, named, slot := named }
  match operation.unbinds, operation.slot? with
  | true, some name => ({ w with slots := w.slots.erase name }, { call with named := none })
  | _, _ => (w, call)

theorem start_accepted (mirrors : scene.Mirrors p displaced w)
    (there : ∀ entry ∈ w.slots, entry.2 < w.words.length)
    (used : ∀ name slot, w.slots.get? name = some slot → (inUse slot = true ↔ name ∈ scene.busyNames))
    (accepted : p.refusal scene.busyNames operation = none) :
    ∃ w' call, (Command.mk operation none).start w inUse = (w', { call with code := operation.code }) ∧
      scene.Shows (operation.begin p displaced) w' call := by
  have starts : (Command.mk operation none).start w inUse = admitted w operation := by
    unfold Cells.refusal at accepted
    unfold Command.start
    dsimp only
    rw [mirrors.isNone_slot?, mirrors.any_removes? used]
    split at accepted
    · contradiction
    · next exists_slot =>
      split at accepted
      · contradiction
      · next free =>
        rw [if_neg exists_slot]
        exact if_neg free
  rw [starts]
  unfold admitted Operation.begin
  cases named : operation.slot? with
  | none =>
    have acts : Target.nothing.Is w none := rfl
    have shows := mirrors.starts operation.code none acts
    cases operation.unbinds
    · exact ⟨_, _, rfl, shows⟩
    · exact ⟨_, _, rfl, shows⟩
  | some name =>
    obtain ⟨slot, bound⟩ := mirrors.bound_of_accepted accepted named
    cases unbinds : operation.unbinds with
    | false =>
      have acts : (Target.bound name).Is w (w.slots.get? name) := ⟨by rw [bound]; rfl, rfl⟩
      exact ⟨_, _, rfl, mirrors.starts operation.code (some name) acts⟩
    | true =>
      -- The slot has lost its name by the time its content is taken out.
      have removes := (operation.removes?_of_unbinds unbinds).trans named
      have removed := mirrors.remove (mirrors.free_of_accepted accepted removes).1
      have acts := mirrors.loose bound (there _ (Table.mem_of_get? _ _ _ bound))
      rw [← bound] at acts
      exact ⟨{ w with slots := w.slots.erase name }, _, rfl, removed.starts operation.code none acts⟩

/-- A command is refused, or starts. -/
theorem start_leads (fit : scene.Fit) {todo : List Command}
    (refused : ∀ outcome, p.refusal scene.busyNames operation = some outcome →
      scene.Ends { level with todo } goal { cells := p, outcome } displaced)
    (next : p.refusal scene.busyNames operation = none →
      scene.Proceeds { level with todo } goal operation.code (operation.begin p displaced))
    (mirrors : scene.Mirrors p displaced w)
    (alone : Alone scene.stalled w
      ({ level with call := none, todo := .mk operation none :: todo } :: scene.below)) :
    Leads scene.stalled goal w
      ({ level with call := none, todo := .mk operation none :: todo } :: scene.below) := by
  have used (name : String) (slot : SlotId) (bound : w.slots.get? name = some slot) :
      (false || Thread.uses ({ level with call := none, todo := .mk operation none :: todo } ::
        scene.below) slot) = true ↔ name ∈ scene.busyNames := fit.uses_iff mirrors bound
  apply Leads.step
  intro wish w' thread' ran after change
  unfold Thread.step at ran
  dsimp only at ran
  cases refusal : p.refusal scene.busyNames operation with
  | some outcome =>
    rw [start_refused mirrors used refusal] at ran
    obtain ⟨rfl, rfl⟩ := Prod.mk.inj (Except.ok.inj ran)
    have acts : Target.nothing.Is w none := rfl
    have shows : scene.Shows { cells := p, displaced, outcome } w { code := [], outcome } :=
      { mirrors.starts [] none acts with outcome := Cells.uncounted_of_refusal refusal }
    have ends : scene.Proceeds { level with todo } goal [] { cells := p, displaced, outcome } :=
      finish_proceeds (refused outcome refusal) (by constructor <;> intros <;> rfl)
    exact ends _ _ after shows
  | none =>
    obtain ⟨started, call, starts, shows⟩ :=
      start_accepted mirrors alone.sound.slots used refusal
    rw [starts] at ran
    obtain ⟨rfl, rfl⟩ := Prod.mk.inj (Except.ok.inj ran)
    exact next refusal _ call after shows

end Start

end Scene

end SharedCells.Slot
