import SharedCells.Proofs.Slot.Updates

/-! Slots are variables, whoever has stalled in the middle of a read.

Stalled readers leave debts behind: any number of them, paid or not, on addresses
in slots, on vacant ones and on those that new objects will get. They may have counted
references, too. A program that runs beside them does what it does to variables. It
pays the debts on the objects that it takes out of slots, so that these count one
reference more for each, and does nothing else to debts. -/

set_option autoImplicit false

namespace SharedCells.Slot

open Registry (Debt)

/-- Nothing is in progress but for readers that have stalled. -/
structure World.Quiet (w : World) (stalled : Stalled) : Prop where
  chained : w.registry.Chained
  backed : w.registry.Backed stalled.debts
  bounded : w.heap.Bounded
  numbered : w.heap.Numbered
  living : ∀ addr object, w.heap.find? addr = some object → 0 < object.count ∧ object.onDrop = []
  /-- Every reference is that of a slot, of a handle, of a paid debt or of a stalled reader. -/
  ledger : ∀ addr, w.heap.count addr = w.slotCount addr + w.handleCount addr +
    w.registry.paid stalled.debts addr + stalled.held.count addr
  slots : ∀ entry ∈ w.slots, entry.2 < w.words.length
  /-- No slot is forgotten while it holds something. -/
  held : ∀ slot addr, w.word slot = some addr → ∃ name, (name, slot) ∈ w.slots
  apart : ∀ a b slot, w.slots.get? a = some slot → w.slots.get? b = some slot → a = b
  slotNames : w.slots.names.Nodup
  handleNames : w.handles.names.Nodup

/-- The slots and handles of the world, as variables. -/
structure Cells.Depicts (p : Cells) (w : World) : Prop where
  slots : ∀ name, p.slots.get? name = (w.slots.get? name).map fun slot => w.objectId (w.word slot)
  handles : ∀ name, p.handles.get? name = w.objectId (w.handles.get? name)
  created : p.created = w.heap.created
  slotNames : p.slots.names.Nodup
  handleNames : p.handles.names.Nodup

/-- How many variables hold an object. -/
def Cells.references (p : Cells) (object : Nat) : Nat :=
  (p.slots.countP fun entry => entry.2 = some object) + p.handles.countP fun entry => entry.2 = object

/-- What has happened to the stalled debts while these objects were taken out of slots. -/
structure Pays (stalled : Stalled) (displaced : List Nat) (w w' : World) : Prop where
  /-- A displaced object stays if there is a debt on its address, -/
  stays : ∀ d ∈ stalled.debts, ∀ object ∈ displaced,
    w.objectId (some d.addr) = some object → w'.objectId (some d.addr) = some object
  /-- and exactly the debts on displaced objects have been paid; -/
  marks : ∀ d ∈ stalled.debts, w'.registry.read d.place =
    if ∃ object ∈ displaced, w'.objectId (some d.addr) = some object then some .paid
    else w.registry.read d.place
  /-- so as many more are paid on the address as were unpaid. -/
  paid : ∀ object ∈ displaced, ∀ addr, w.objectId (some addr) = some object →
    w'.registry.paid stalled.debts addr =
      w.registry.paid stalled.debts addr + w.registry.owing addr
  /-- If nothing was displaced, as by a load or by an exchange that fails, the marks that are taken
  are those that were. -/
  untouched : displaced = [] → ∀ place mark, mark ≠ .free →
    (w'.registry.read place = some mark ↔ w.registry.read place = some mark)

/-- How world and variables stand between two commands. -/
structure Stands (stalled : Stalled) (p : Cells) (w : World) : Prop where
  quiet : w.Quiet stalled
  depicts : p.Depicts w
  /-- Beyond the variables that hold it and the references that stalled readers own, an object
  counts the paid debts on its address. -/
  counts : ∀ addr object, w.objectId (some addr) = some object → w.heap.count addr =
    p.references object + w.registry.paid stalled.debts addr + stalled.held.count addr

/-- The program does to the slots what it does to variables, command by command: each comes to its
end, whatever addresses new objects get, and reports what it reports for variables. As with these,
no exchange fails by chance. -/
def Refines (stalled : Stalled) : List Command → Cells → List Record → World → Prop
  | [], p, _, w => Stands stalled p w
  | command :: program, p, records, w =>
    let answer := command.act [] p
    Stands stalled p w ∧ Reaches (fun w' thread => ∃ record,
        thread = [{ role := .main, todo := program, records := record :: records }] ∧
        record.report = .mk answer.outcome answer.blocks ∧ Pays stalled answer.displaced w w' ∧
        Refines stalled program answer.cells (record :: records) w')
      w [{ role := .main, todo := command :: program, records }]

variable {stalled : Stalled} {w w' : World} {p : Cells} {displaced : List Nat} {addr : Addr}
  {object : Nat}

theorem calls_idle (todo : List Command) (records : List Record) :
    Thread.calls [{ role := .main, todo, records }] ++ stalled.calls = stalled.calls := rfl

namespace World.Quiet

theorem alone (quiet : w.Quiet stalled) (todo : List Command) (records : List Record) :
    Alone stalled w [{ role := .main, todo, records }] where
  sound := {
    agreed := {
      chained := quiet.chained
      backed := by
        rw [calls_idle, stalled.debts_calls]
        exact quiet.backed
      fit := by
        intro i member
        rw [calls_idle, stalled.poolOf_calls] at member
        obtain ⟨d, -, rfl⟩ := List.mem_map.mp member
        trivial
      covered := by
        intro purpose debt member
        rw [calls_idle, stalled.poolOf_calls] at member
        obtain ⟨d, -, same⟩ := List.mem_map.mp member
        contradiction }
    ledger := by
      intro addr
      rw [quiet.ledger, paidCount, calls_idle, stalled.debts_calls, stalled.transitCount_calls]
      rfl
    buried := by
      intro addr
      rw [Heap.remains]
      cases found : w.heap.find? addr with
      | none => rfl
      | some object =>
        dsimp only
        rw [if_neg (Nat.ne_of_gt (quiet.living addr object found).1)]
        rfl
    bounded := quiet.bounded
    handles := quiet.handleNames
    slots := quiet.slots
    sane := by
      intro call member
      rw [calls_idle] at member
      rcases List.mem_append.mp member with debtor | owner
      · obtain ⟨d, -, rfl⟩ := List.mem_map.mp debtor
        exact ⟨List.pairwise_singleton _ _, fun addr payment pays => by simp [stall] at pays,
          fun slot acts => by simp [stall] at acts⟩
      · obtain ⟨addr, -, rfl⟩ := List.mem_map.mp owner
        exact ⟨List.Pairwise.nil, fun addr payment pays => absurd pays List.not_mem_nil,
          fun slot acts => by contradiction⟩ }
  moored := {
    names := quiet.slotNames
    named := fun call member => absurd member List.not_mem_nil
    held := fun slot addr word => .inl (quiet.held slot addr word)
    calls := fun call member => absurd member List.not_mem_nil }
  stacked := rfl
  numbered := quiet.numbered

theorem counts_word (quiet : w.Quiet stalled) (slot : SlotId) : w.Counts (w.word slot) :=
  (quiet.alone [] []).sound.counts_word slot

theorem counts_handle (quiet : w.Quiet stalled) (name : String) : w.Counts (w.handles.get? name) :=
  fun _ holds => (quiet.alone [] []).sound.counted_of_handle holds

theorem objectId_eq_iff (quiet : w.Quiet stalled) (names : w.objectId (some addr) = some object)
    {ref : Ref} (counts : w.Counts ref) : w.objectId ref = some object ↔ ref = some addr := by
  constructor
  · intro same
    apply World.objectId_inj quiet.numbered counts _ (same.trans names.symm)
    intro other equal
    obtain rfl := Option.some.inj equal
    rw [objectId, Option.bind_some, Option.map_eq_some_iff] at names
    obtain ⟨there, found, -⟩ := names
    rw [Heap.count_of_find? found]
    exact (quiet.living addr there found).1
  · rintro rfl
    exact names

theorem slotCount_eq (quiet : w.Quiet stalled) (addr : Addr) :
    w.slotCount addr = w.slots.countP fun entry => w.word entry.2 = some addr := by
  have words : (List.range w.words.length).map w.word = w.words := by
    apply List.ext_getElem
    · simp
    · intro slot _ there
      simp [word, there]
  have injective : ∀ entry ∈ w.slots, ∀ other ∈ w.slots, entry.2 = other.2 → entry = other := by
    rintro ⟨name, slot⟩ inside ⟨other, same⟩ inside' rfl
    have found := Table.get?_of_mem _ _ _ quiet.slotNames inside
    have found' := Table.get?_of_mem _ _ _ quiet.slotNames inside'
    rw [quiet.apart name other slot found found']
  have perm : ((List.range w.words.length).filter fun slot => w.word slot = some addr).Perm
      ((w.slots.filter fun entry => w.word entry.2 = some addr).map Prod.snd) := by
    have nodup : w.slots.Nodup := .of_map _ quiet.slotNames
    refine (List.perm_ext_iff_of_nodup (List.nodup_range.filter _) ?_).mpr fun slot => ?_
    · refine (nodup.filter _).map_on fun entry inside other inside' same => ?_
      exact injective entry (List.mem_of_mem_filter inside) other (List.mem_of_mem_filter inside') same
    · simp only [List.mem_filter, List.mem_range, List.mem_map, decide_eq_true_eq]
      constructor
      · rintro ⟨-, holds⟩
        obtain ⟨name, inside⟩ := quiet.held slot addr holds
        exact ⟨(name, slot), ⟨inside, holds⟩, rfl⟩
      · rintro ⟨entry, ⟨inside, holds⟩, rfl⟩
        exact ⟨quiet.slots entry inside, holds⟩
  calc w.slotCount addr
      = ((List.range w.words.length).map w.word).count (some addr) := by rw [words, slotCount]
    _ = (List.range w.words.length).countP fun slot => w.word slot = some addr := by
      rw [List.count_eq_countP, List.countP_map]
      apply List.countP_congr
      intro slot _
      simp
    _ = w.slots.countP fun entry => w.word entry.2 = some addr := by
      rw [List.countP_eq_length_filter, perm.length_eq, List.length_map,
        List.countP_eq_length_filter]

/-- What the count of an object is beyond the variables that hold it. -/
theorem count_eq (quiet : w.Quiet stalled) (depicts : p.Depicts w)
    (names : w.objectId (some addr) = some object) : w.heap.count addr =
      p.references object + w.registry.paid stalled.debts addr + stalled.held.count addr := by
  have slots : p.slots.countP (fun entry => entry.2 = some object) = w.slotCount addr := by
    rw [quiet.slotCount_eq]
    have counts := Table.countP_map w.slots quiet.slotNames depicts.slotNames depicts.slots
      fun content => content = some object
    refine counts.trans (List.countP_congr fun entry _ => ?_)
    simpa using quiet.objectId_eq_iff names (quiet.counts_word entry.2)
  have handles : p.handles.countP (fun entry => entry.2 = object) = w.handleCount addr := by
    -- Every handle in the table holds an object, so the number 0 stands for none of them.
    have same (name : String) : p.handles.get? name =
        (w.handles.get? name).map fun addr => (w.objectId (some addr)).getD 0 := by
      rw [depicts.handles]
      have counts := quiet.counts_handle name
      cases held : w.handles.get? name with
      | none => rfl
      | some other =>
        rw [held] at counts
        obtain ⟨there, -, id⟩ := World.objectId_of_counts counts
        rw [Option.map_some, id, Option.getD_some]
    have counts := Table.countP_map w.handles quiet.handleNames depicts.handleNames same
      fun held => held = object
    refine counts.trans (List.countP_congr ?_)
    rintro ⟨name, other⟩ inside
    have counts := quiet.counts_handle name
    rw [Table.get?_of_mem _ _ _ quiet.handleNames inside] at counts
    have iff := quiet.objectId_eq_iff names counts
    obtain ⟨there, -, id⟩ := World.objectId_of_counts counts
    rw [id, Option.some.injEq, Option.some.injEq] at iff
    simpa [id] using iff
  rw [quiet.ledger, Cells.references, slots, handles]

theorem stands (quiet : w.Quiet stalled) (depicts : p.Depicts w) : Stands stalled p w where
  quiet := quiet
  depicts := depicts
  counts _ _ names := quiet.count_eq depicts names

end World.Quiet

namespace Scene

/-- The scene of a command of the program. -/
def outermost (stalled : Stalled) (w : World) : Scene :=
  { stalled, below := [], busy := [], held := fun _ => none, start := w }

theorem fit_outermost : (outermost stalled w).Fit where
  quiet call member := absurd member List.not_mem_nil
  uses slot := by
    constructor
    · intro uses
      contradiction
    · rintro ⟨name, inside⟩
      contradiction

theorem mirrors_outermost (quiet : w.Quiet stalled) (depicts : p.Depicts w) :
    (outermost stalled w).Mirrors p [] w where
  slots := depicts.slots
  handles := depicts.handles
  created := depicts.created
  slotNames := depicts.slotNames
  handleNames := depicts.handleNames
  apart := quiet.apart
  bare addr object found := (quiet.living addr object found).2
  busy entry inside := absurd inside List.not_mem_nil
  held call member := absurd member List.not_mem_nil
  marks d member := by
    rw [if_neg]
    · rfl
    · rintro ⟨object, inside, -⟩
      contradiction
  past object inside := absurd inside List.not_mem_nil
  origin d member object stood := by
    simp only [World.objectId, Option.bind_some, Option.map_eq_some_iff] at stood ⊢
    obtain ⟨there, found, rfl⟩ := stood
    refine ⟨quiet.numbered.le _ _ found, fun addr same => ?_⟩
    obtain ⟨other, found', equal⟩ := same
    exact quiet.numbered.unique _ _ other there found' found equal
  kept d member object inside := absurd inside List.not_mem_nil

theorem Mirrors.depicts {scene : Scene} (mirrors : scene.Mirrors p displaced w) : p.Depicts w :=
  { mirrors with }

theorem Mirrors.quiet {scene : Scene} (mirrors : scene.Mirrors p displaced w) {todo : List Command}
    {records : List Record} (alone : Alone scene.stalled w [{ role := .main, todo, records }]) :
    w.Quiet scene.stalled where
  chained := alone.sound.agreed.chained
  backed := by
    have backed := alone.sound.agreed.backed
    rw [calls_idle, scene.stalled.debts_calls] at backed
    exact backed
  bounded := alone.sound.bounded
  numbered := alone.numbered
  living := by
    intro addr object found
    refine ⟨Nat.pos_of_ne_zero fun zero => ?_, mirrors.bare addr object found⟩
    have remains := alone.sound.buried addr
    rw [Heap.remains, found] at remains
    dsimp only at remains
    rw [if_pos zero] at remains
    contradiction
  ledger := by
    intro addr
    have ledger := alone.sound.ledger addr
    rw [paidCount, calls_idle, scene.stalled.debts_calls, scene.stalled.transitCount_calls] at ledger
    exact ledger
  slots := alone.sound.slots
  held := by
    intro slot addr word
    rcases alone.moored.held slot addr word with named | ⟨call, member, -⟩
    · exact named
    · exact absurd member List.not_mem_nil
  apart := mirrors.apart
  slotNames := alone.moored.names
  handleNames := alone.sound.handles

theorem Mirrors.pays (mirrors : (outermost stalled w).Mirrors p displaced w') (before : w.Quiet stalled)
    (after : w'.Quiet stalled) : Pays stalled displaced w w' where
  stays d member object inside := mirrors.kept d member object inside
  marks := mirrors.marks
  paid object inside addr names := by
    rw [before.backed.paid_add_owing, Registry.paid]
    apply List.countP_congr
    intro d member
    simp only [decide_eq_true_eq, and_iff_left_iff_imp]
    rintro rfl
    -- The displaced object is still there, so this debt is one of those that were paid.
    have stays := mirrors.kept d member object inside names
    rw [mirrors.marks d member, if_pos ⟨object, inside, stays⟩]
  untouched nothing place mark taken := by
    have same (d : Debt) (member : d ∈ stalled.debts) :
        w'.registry.read d.place = w.registry.read d.place := by
      rw [mirrors.marks d member, nothing, if_neg]
      · rfl
      · rintro ⟨object, inside, -⟩
        contradiction
    constructor
    · intro read
      obtain ⟨d, member, rfl⟩ := after.backed.claimed place mark read taken
      exact (same d member).symm.trans read
    · intro read
      obtain ⟨d, member, rfl⟩ := before.backed.claimed place mark read taken
      exact (same d member).trans read

end Scene

section Single

/-- The world of one slot that holds the only object. -/
def World.single (registry : Registry) (stalled : Stalled) : World where
  heap := ⟨[(0, ⟨1, 1 + registry.paid stalled.debts 0 + stalled.held.count 0, []⟩)], 1⟩
  registry := registry
  words := [some 0]
  slots := [("slot", 0)]

variable {registry : Registry}

theorem World.find?_single (addr : Addr) : (single registry stalled).heap.find? addr =
    if addr = 0 then some ⟨1, 1 + registry.paid stalled.debts 0 + stalled.held.count 0, []⟩
    else none := by
  by_cases same : addr = 0
  · rw [if_pos same, same]
    rfl
  · simp [single, Heap.find?, same, Ne.symm same]

/-- Readers may have stalled with any debts on the only object, paid or not, with references to it,
and with debts on other addresses that are not paid. -/
theorem World.quiet_single (chained : registry.Chained) (backed : registry.Backed stalled.debts)
    (paid : ∀ d ∈ stalled.debts, registry.read d.place = some .paid → d.addr = 0)
    (held : ∀ addr ∈ stalled.held, addr = 0) : (single registry stalled).Quiet stalled := by
  have only (addr : Addr) (object : Object (List Command))
      (found : (single registry stalled).heap.find? addr = some object) :
      addr = 0 ∧ object = ⟨1, 1 + registry.paid stalled.debts 0 + stalled.held.count 0, []⟩ := by
    rw [find?_single] at found
    split at found
    · next same => exact ⟨same, (Option.some.inj found).symm⟩
    · contradiction
  have named (name : String) (slot : SlotId)
      (bound : (single registry stalled).slots.get? name = some slot) : name = "slot" ∧ slot = 0 :=
    Prod.mk.inj (List.mem_singleton.mp (Table.mem_of_get? _ _ _ bound))
  refine {
    chained, backed
    bounded := fun addr above => ?_
    numbered := ?_
    living := fun addr object found => ?_
    ledger := fun addr => ?_
    slots := fun entry inside => ?_
    held := fun slot addr word => ?_
    apart := fun a b slot left right => ?_
    slotNames := List.nodup_singleton _
    handleNames := List.nodup_nil }
  · rw [find?_single, if_neg (Nat.ne_of_gt above)]
  · constructor
    · intro addr object found
      rw [(only addr object found).2]
      exact Nat.one_pos
    · intro addr object found
      rw [(only addr object found).2]
      exact Nat.le_refl 1
    · intro a b left right found found' _
      rw [(only a left found).1, (only b right found').1]
  · rw [(only addr object found).2]
    exact ⟨by dsimp only; omega, rfl⟩
  · rw [Heap.count, find?_single]
    by_cases same : addr = 0
    · rw [if_pos same, same]
      rfl
    · have slots : (single registry stalled).slotCount addr = 0 := List.count_eq_zero.mpr fun inside =>
        same (Option.some.inj (List.mem_singleton.mp inside))
      have owned : stalled.held.count addr = 0 := List.count_eq_zero.mpr fun inside =>
        same (held addr inside)
      have none : registry.paid stalled.debts addr = 0 := by
        rw [Registry.paid, List.countP_eq_zero]
        intro d member counted
        obtain ⟨rfl, isPaid⟩ := of_decide_eq_true counted
        exact same (paid d member isPaid)
      rw [if_neg same, slots, show (single registry stalled).registry = registry from rfl, none, owned]
      rfl
  · rw [List.mem_singleton.mp inside]
    exact Nat.one_pos
  · cases slot with
    | zero => exact ⟨"slot", List.mem_cons_self⟩
    | succ slot => contradiction
  · rw [(named a slot left).1, (named b slot right).1]

theorem Cells.depicts_single :
    Cells.Depicts { slots := [("slot", some 1)], created := 1 } (.single registry stalled) where
  slots name := by
    rw [World.single, Table.get?_cons, Table.get?_cons]
    split <;> rfl
  handles name := rfl
  created := rfl
  slotNames := List.nodup_singleton _
  handleNames := List.nodup_nil

end Single

/-- Stalled readers disturb no program, and it does them no harm. -/
theorem program_refines_variables (quiet : w.Quiet stalled) (depicts : p.Depicts w)
    (program : List Command) (calm : ∀ command ∈ program, command.Calm) (records : List Record) :
    Refines stalled program p records w := by
  induction program generalizing p records w with
  | nil => exact quiet.stands depicts
  | cons command program ih =>
    -- The scene of each command starts anew, with the marks that it finds.
    let scene := Scene.outermost stalled w
    let answer := command.act [] p
    have alone := quiet.alone (command :: program) records
    have ends : scene.Ends { role := .main, todo := program, records } (fun w' thread => ∃ record,
        thread = [{ role := .main, todo := program, records := record :: records }] ∧
        record.report = .mk answer.outcome answer.blocks ∧
        scene.Mirrors answer.cells (answer.displaced ++ []) w') answer [] := by
      intro w' record report mirrors alone
      exact .here ⟨record, rfl, report, mirrors⟩
    have leads := (calm command List.mem_cons_self).performs scene { role := .main, todo := [], records }
      _ p [] program w Scene.fit_outermost ends (Scene.mirrors_outermost quiet depicts) alone
    refine ⟨quiet.stands depicts, (leads.reaches alone).mono ?_⟩
    rintro w' thread ⟨alone, record, rfl, report, mirrors⟩
    rw [List.append_nil] at mirrors
    have quiet' := mirrors.quiet alone
    have rest (following : Command) (inside : following ∈ program) : following.Calm :=
      calm following (List.mem_cons_of_mem _ inside)
    exact ⟨record, rfl, report, mirrors.pays quiet quiet', ih quiet' mirrors.depicts rest _⟩

/-- Of two debts on the object in a slot one is paid, and the reader of the other has counted its
reference already; a third debt is on an address that no object has yet. Storing another object pays
the second debt. -/
theorem program_refines_variables_three_debts :
    let stalled : Stalled := { debts := [⟨⟨0, 2⟩, 1⟩, ⟨⟨0, 1⟩, 0⟩, ⟨⟨0, 0⟩, 0⟩], held := [0] }
    let claimed := ((Registry.empty.publish none 0).write ⟨0, 1⟩ (.owed 0)).write ⟨0, 2⟩ (.owed 1)
    let w := World.single (claimed.write ⟨0, 0⟩ .paid) stalled
    let p : Cells := { slots := [("slot", some 1)], created := 1 }
    let clear : Command := .mk (.clear "slot") none
    let program : List Command := [.mk (.store "slot" (.fresh [])) none, clear]
    w.Quiet stalled ∧ p.Depicts w ∧ (∀ command ∈ program, command.Calm) ∧
      Reaches (fun w' thread =>
          (∃ record, thread = [{ role := .main, todo := [clear], records := [record] }]) ∧
          w'.registry.paid stalled.debts 0 = 2 ∧ w'.objectId (some 0) = some 1)
        w [{ role := .main, todo := program }] := by
  intro stalled claimed w p clear program
  have first : (Registry.empty.publish none 0).Backed [⟨⟨0, 0⟩, 0⟩] := .publish .empty
  have backed : claimed.Backed stalled.debts := (first.take (by decide)).take (by decide)
  have owed : claimed.read ⟨0, 0⟩ = some (.owed 0) := by decide
  have quiet : w.Quiet stalled := World.quiet_single Registry.Chained.empty.publish.write.write.write
    (backed.pay owed) (by decide) (by decide)
  have depicts : p.Depicts w := Cells.depicts_single
  have calm : ∀ command ∈ program, command.Calm := by
    intro command inside
    rcases List.mem_pair.mp inside with rfl | rfl
    · refine .mk (fun v member => ?_) nofun
      rw [List.mem_singleton.mp member]
      rfl
    · exact .mk nofun nofun
  refine ⟨quiet, depicts, calm, ?_⟩
  have refines := program_refines_variables quiet depicts program calm []
  apply refines.2.mono
  rintro w' thread ⟨record, rfl, -, pays, -⟩
  refine ⟨⟨record, rfl⟩, ?_, ?_⟩
  · exact pays.paid 1 (by decide) 0 rfl
  · exact pays.stays ⟨⟨0, 0⟩, 0⟩ (by decide) 1 (by decide) rfl

end SharedCells.Slot
