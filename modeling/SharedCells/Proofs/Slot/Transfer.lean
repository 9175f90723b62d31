import SharedCells.Proofs.Slot.Effects
import SharedCells.Proofs.Slot.Ledger

/-! How the parts of an instruction hand references on.

An instruction is put together from few parts: a reference is counted or given
up, an object is created, a register, a handle or a slot gets a reference and
gives away its own, and instructions are put before the rest of the code. Each
part turns loose references into owned ones or owned ones into loose ones, and
leaves the ledger exact. -/

set_option autoImplicit false

namespace SharedCells.Slot

open Registry (Debt Payment)

namespace Instruction

/-- Plain instructions that own nothing and do not end their call. -/
def Light : Instruction → Prop
  | .drop _ | .require | .createSlot _ => False
  | i => i.Plain

variable {i : Instruction}

theorem Light.plain (light : i.Light) : i.Plain := by
  cases i <;> first | exact light | exact light.elim

theorem Light.stays (light : i.Light) : ¬ i.Abandons := by
  cases i <;> first | exact light.elim | exact id

theorem Plain.owned? (plain : i.Plain) (keeps : ∀ addr, i ≠ .drop addr) : i.owned? = none := by
  cases i with
  | drop addr => exact absurd rfl (keeps addr)
  | pay addr payment => exact plain.elim
  | _ => rfl

theorem Light.owned? (light : i.Light) : i.owned? = none :=
  light.plain.owned? fun addr same => by rw [same] at light; exact light

theorem countP_of_light {new : List Instruction} (light : ∀ i ∈ new, i.Light) (addr : Addr) :
    new.countP (fun i => i.owned? = some addr) = 0 := by
  rw [List.countP_eq_zero]
  intro i member
  simp [(light i member).owned?]

theorem pairwise_of_plain {new : List Instruction} (plain : ∀ i ∈ new, i.Plain)
    (stays : ∀ i ∈ new, ¬ i.Abandons) : new.Pairwise Precedes :=
  List.pairwise_of_forall_mem_list fun i inI j inJ =>
    ⟨.inl (plain j inJ), fun abandons => absurd abandons (stays i inI)⟩

end Instruction

namespace Sound

variable {w : World} {call : Call} {calls rest : List Call} {graves loose : List Addr} {addr : Addr}

theorem of_call {call' : Call} (sound : Sound w (call :: rest) graves loose)
    (code : call'.code = call.code) (registers : call'.registers = call.registers)
    (slot : ∀ s, call'.slot = some s → s < w.words.length) :
    Sound w (call' :: rest) graves loose where
  agreed := by
    rw [poolOf_cons, code]
    exact sound.agreed
  ledger addr := by
    rw [paidCount, transitCount_cons, poolOf_cons, code, registers, ← poolOf_cons,
      ← transitCount_cons]
    exact sound.ledger addr
  buried := sound.buried
  bounded := sound.bounded
  handles := sound.handles
  slots := sound.slots
  sane other member := by
    rcases List.mem_cons.mp member with rfl | member
    · have sane := sound.sane call List.mem_cons_self
      exact ⟨code ▸ sane.order, code ▸ registers ▸ sane.payer, slot⟩
    · exact sound.sane other (List.mem_cons_of_mem _ member)

theorem retain {heap : Heap (List Command)} (sound : Sound w calls graves loose)
    (retained : w.heap.retain? addr = some heap) :
    Sound { w with heap } calls graves (addr :: loose) where
  agreed := sound.agreed.of_words rfl fun _ => id
  ledger other := by
    have ledger := sound.ledger other
    rw [Heap.count_retain retained, List.count_cons]
    simp only [beq_iff_eq]
    simp only [World.slotCount, World.handleCount, paidCount] at ledger ⊢
    omega
  buried other := by rw [Heap.remains_retain retained, sound.buried]
  bounded := (Heap.Change.retained retained).bounded sound.bounded
  handles := sound.handles
  slots := sound.slots
  sane := sound.sane

theorem release {heap : Heap (List Command)} {left : Object (List Command)}
    (sound : Sound w calls graves (addr :: loose))
    (released : w.heap.release? addr = some (left, heap)) :
    Sound { w with heap } calls ((if left.count = 0 then [addr] else []) ++ graves) loose where
  agreed := sound.agreed.of_words rfl fun _ => id
  ledger other := by
    have ledger := sound.ledger other
    have count : heap.count other + _ = _ := Heap.count_release released
    rw [List.count_cons] at ledger
    simp only [beq_iff_eq] at ledger
    simp only [World.slotCount, World.handleCount, paidCount] at ledger ⊢
    omega
  buried other := by
    rw [Heap.remains_release released, ← sound.buried other, List.count_append, Nat.add_comm]
    congr 1
    split
    · simp [*, List.count_singleton]
    · simp [*]
  bounded := (Heap.Change.released released).bounded sound.bounded
  handles := sound.handles
  slots := sound.slots
  sane := sound.sane

theorem create (sound : Sound w calls graves loose) (wish : Option Addr) (onDrop : List Command) :
    Sound { w with heap := (w.heap.create wish onDrop).2 } calls graves
      ((w.heap.create wish onDrop).1 :: loose) where
  agreed := sound.agreed.of_words rfl fun _ => id
  ledger other := by
    have ledger := sound.ledger other
    rw [Heap.count_create sound.bounded, List.count_cons]
    simp only [beq_iff_eq]
    simp only [World.slotCount, World.handleCount, paidCount] at ledger ⊢
    omega
  buried other := by rw [Heap.remains_create sound.bounded, sound.buried]
  bounded := sound.bounded.create _ _
  handles := sound.handles
  slots := sound.slots
  sane := sound.sane

/-- The handle gets the loose reference; what it had becomes loose. -/
theorem assignHandle (name : String) (ref : Ref)
    (sound : Sound w calls graves (ref.toList ++ loose)) :
    Sound { w with handles := w.handles.assign name ref } calls graves
      ((w.handles.get? name).toList ++ loose) where
  agreed := sound.agreed.of_words rfl fun _ => id
  ledger other := by
    have ledger := sound.ledger other
    have count := Table.countP_assign w.handles name (fun a => decide (a = other)) sound.handles ref
    rw [List.count_append, count_toList] at ledger ⊢
    simp only [any_eq_iff] at count
    simp only [World.slotCount, World.handleCount, paidCount] at ledger ⊢
    omega
  buried := sound.buried
  bounded := sound.bounded
  handles := Table.nodup_assign _ _ sound.handles _
  slots := sound.slots
  sane := sound.sane

theorem popHandle {name : String} {handles : Table Addr} (sound : Sound w calls graves loose)
    (first : w.handles = (name, addr) :: handles) :
    Sound { w with handles } calls graves (addr :: loose) where
  agreed := sound.agreed.of_words rfl fun _ => id
  ledger other := by
    have ledger := sound.ledger other
    rw [List.count_cons]
    simp only [beq_iff_eq]
    simp only [World.slotCount, World.handleCount, paidCount, first, List.countP_cons,
      decide_eq_true_eq] at ledger ⊢
    omega
  buried := sound.buried
  bounded := sound.bounded
  handles := by
    have nodup := sound.handles
    rw [first, Table.names, List.map_cons, List.nodup_cons] at nodup
    exact nodup.2
  slots := sound.slots
  sane := sound.sane

theorem eraseSlot (sound : Sound w calls graves loose) (name : String) :
    Sound { w with slots := w.slots.erase name } calls graves loose :=
  { sound with
    agreed := sound.agreed.of_words rfl fun _ => id
    slots := fun entry member => sound.slots entry ((Table.mem_erase _ _).mp member).1 }

theorem appendWord (name : String) (ref : Ref)
    (sound : Sound w calls graves (ref.toList ++ loose)) :
    Sound { w with words := w.words ++ [ref], slots := w.slots.put name w.words.length }
      calls graves loose where
  agreed := sound.agreed.of_words rfl fun _ member => List.mem_append_left _ member
  ledger other := by
    have ledger := sound.ledger other
    rw [List.count_append, count_toList] at ledger
    simp only [World.slotCount, World.handleCount, paidCount, List.count_append,
      List.count_singleton, beq_iff_eq] at ledger ⊢
    omega
  buried := sound.buried
  bounded := sound.bounded
  handles := sound.handles
  slots entry member := by
    rw [List.length_append, List.length_singleton]
    rcases List.mem_cons.mp ((Table.perm_put _ _ _).mem_iff.mp member) with rfl | member
    · exact Nat.lt_succ_self _
    · exact Nat.lt_succ_of_lt (sound.slots entry ((Table.mem_erase _ _).mp member).1)
  sane call member :=
    { sound.sane call member with
      slot := fun s acts => by
        rw [List.length_append]
        exact Nat.lt_add_right _ ((sound.sane call member).slot s acts) }

end Sound

/-- A turn in the middle of an instruction that needs nothing of the registry. -/
structure Turn.Steady (t : Turn) (rest : List Call) (graves loose : List Addr) : Prop where
  sound : Sound t.world (t.call :: rest) ((t.above.bind Level.grave?).toList ++ graves) loose
  calm : ∀ i ∈ t.call.code, i.Plain

namespace Turn.Steady

variable {t : Turn} {rest : List Call} {graves loose : List Addr} {addr : Addr} {ref : Ref}

theorem setRegister (register : Register) (ref : Ref)
    (steady : t.Steady rest graves (ref.toList ++ loose)) :
    (t.setRegister register ref).Steady rest graves ((t.get register).toList ++ loose) where
  sound :=
    { agreed := steady.sound.agreed
      ledger := fun other => by
        have ledger := steady.sound.ledger other
        have count : (t.call.registers.set register ref).count other +
            (if t.get register = some other then 1 else 0) = _ := Registers.count_set _ register
        rw [List.count_append, count_toList, transitCount_cons] at ledger ⊢
        simp only [Turn.setRegister, World.slotCount, World.handleCount, paidCount,
          poolOf_cons] at ledger ⊢
        omega
      buried := steady.sound.buried
      bounded := steady.sound.bounded
      handles := steady.sound.handles
      slots := steady.sound.slots
      sane := fun call member => by
        rcases List.mem_cons.mp member with rfl | member
        · have sane := steady.sound.sane t.call List.mem_cons_self
          exact ⟨sane.order, fun addr payment pays => (steady.calm _ pays).elim, sane.slot⟩
        · exact steady.sound.sane call (List.mem_cons_of_mem _ member) }
  calm := steady.calm

/-- Plain instructions take over the loose references that they will give up. -/
theorem before {code : List Instruction}
    (steady : t.Steady rest graves (code.filterMap Instruction.owned? ++ loose))
    (plain : ∀ i ∈ code, i.Plain) (stays : ∀ i ∈ code, ¬ i.Abandons) :
    (t.before code).Steady rest graves loose where
  sound :=
    { agreed := by
        rw [poolOf_cons, Turn.before, List.append_assoc]
        exact steady.sound.agreed.append plain
      ledger := fun other => by
        have ledger := steady.sound.ledger other
        have owned : (code.filterMap Instruction.owned?).count other =
            code.countP fun i => i.owned? = some other := by
          rw [List.count_filterMap]
          exact List.countP_congr fun i _ => by simp
        rw [List.count_append, owned, transitCount_cons] at ledger
        rw [transitCount_cons]
        simp only [Turn.before, World.slotCount, World.handleCount, paidCount, poolOf_cons,
          List.append_assoc, List.countP_append, debts_append, debts_of_plain plain,
          List.nil_append] at ledger ⊢
        omega
      buried := steady.sound.buried
      bounded := steady.sound.bounded
      handles := steady.sound.handles
      slots := steady.sound.slots
      sane := fun call member => by
        rcases List.mem_cons.mp member with rfl | member
        · have sane := steady.sound.sane t.call List.mem_cons_self
          refine ⟨?_, fun addr payment pays => ?_, sane.slot⟩
          · exact List.pairwise_append.mpr ⟨Instruction.pairwise_of_plain plain stays, sane.order,
              fun i inI j inJ =>
                ⟨.inl (steady.calm j inJ), fun abandons => absurd abandons (stays i inI)⟩⟩
          · rcases List.mem_append.mp pays with pays | pays
            · exact (plain _ pays).elim
            · exact (steady.calm _ pays).elim
        · exact steady.sound.sane call (List.mem_cons_of_mem _ member) }
  calm i member := by
    rcases List.mem_append.mp member with member | member
    · exact plain i member
    · exact steady.calm i member

theorem light {code : List Instruction} (steady : t.Steady rest graves loose)
    (light : ∀ i ∈ code, i.Light) : (t.before code).Steady rest graves loose := by
  refine before ?_ (fun i member => (light i member).plain) fun i member => (light i member).stays
  have owned : code.filterMap Instruction.owned? = [] :=
    List.filterMap_eq_nil_iff.mpr fun i member => (light i member).owned?
  rw [owned]
  exact steady

theorem drops (steady : t.Steady rest graves (ref.toList ++ loose)) :
    (t.before (ref.toList.map .drop)).Steady rest graves loose := by
  have drop (i : Instruction) (member : i ∈ ref.toList.map .drop) : ∃ addr, i = .drop addr := by
    obtain ⟨addr, -, rfl⟩ := List.mem_map.mp member
    exact ⟨addr, rfl⟩
  refine before ?_ (fun i member => ?_) (fun i member => ?_)
  · have owned : (ref.toList.map Instruction.drop).filterMap Instruction.owned? = ref.toList := by
      cases ref <;> rfl
    rw [owned]
    exact steady
  · obtain ⟨addr, rfl⟩ := drop i member
    trivial
  · obtain ⟨addr, rfl⟩ := drop i member
    exact id

theorem assign (register : Register) (ref : Ref)
    (steady : t.Steady rest graves (ref.toList ++ loose)) :
    (t.assign register ref).Steady rest graves loose :=
  (steady.setRegister register ref).drops

theorem retainInto (register : Register) (ref : Ref) (steady : t.Steady rest graves loose)
    (counted : ∀ addr, ref = some addr → 0 < t.world.heap.count addr) :
    ∃ t', t.retainInto register ref = .ok t' ∧ t'.Steady rest graves loose := by
  cases ref with
  | none => exact ⟨_, rfl, steady.assign register none⟩
  | some addr =>
    obtain ⟨heap, retained⟩ := Heap.retain?_of_pos (counted addr rfl)
    have step : Steady { t with world.heap := heap } rest graves (addr :: loose) :=
      ⟨steady.sound.retain retained, steady.calm⟩
    exact ⟨_, by simp only [Turn.retainInto, retained], step.assign register (some addr)⟩

/-- A call may be ended when its code owns nothing. -/
theorem abandon (steady : t.Steady rest graves loose)
    (unowned : ∀ i ∈ t.call.code, i.owned? = none) (outcome : Outcome) :
    Steady { t with call.code := [], call.outcome := outcome } rest graves loose where
  sound :=
    { agreed := steady.sound.agreed.of_append steady.calm
      ledger := fun other => by
        have ledger := steady.sound.ledger other
        have none : t.call.code.countP (fun i => decide (i.owned? = some other)) = 0 := by
          rw [List.countP_eq_zero]
          intro i member
          simp [unowned i member]
        rw [transitCount_cons, none] at ledger
        rw [transitCount_cons]
        simp only [World.slotCount, World.handleCount, paidCount, poolOf_cons, debts_append,
          debts_of_plain steady.calm, List.nil_append, List.countP_nil] at ledger ⊢
        exact ledger
      buried := steady.sound.buried
      bounded := steady.sound.bounded
      handles := steady.sound.handles
      slots := steady.sound.slots
      sane := fun other member => by
        rcases List.mem_cons.mp member with rfl | member
        · exact ⟨.nil, fun addr payment pays => absurd pays List.not_mem_nil,
            (steady.sound.sane t.call List.mem_cons_self).slot⟩
        · exact steady.sound.sane other (List.mem_cons_of_mem _ member) }
  calm i member := absurd member List.not_mem_nil

theorem of_call {call : Call} (steady : t.Steady rest graves loose) (code : call.code = t.call.code)
    (registers : call.registers = t.call.registers)
    (slot : ∀ s, call.slot = some s → s < t.world.words.length) :
    Steady { t with call } rest graves loose :=
  ⟨steady.sound.of_call code registers slot, code ▸ steady.calm⟩

theorem note (steady : t.Steady rest graves loose) (outcome : Outcome) :
    (t.note outcome).Steady rest graves loose :=
  steady.of_call rfl rfl (steady.sound.sane t.call List.mem_cons_self).slot

/-- The slot gets the loose reference, and what the slot held goes to the observed register. -/
theorem takeOver (steady : t.Steady rest graves (ref.toList ++ [])) {slot : SlotId}
    (there : slot < t.world.words.length) (free : t.get .observed = none) :
    Sound (t.world.setWord slot ref)
      ({ t.call with
          registers := t.call.registers.set .observed (t.world.word slot)
          code := (t.world.word slot).toList.map (.pay · .start) ++ t.call.code } :: rest)
      ((t.above.bind Level.grave?).toList ++ graves) [] where
  agreed := by
    rw [poolOf_cons, List.append_assoc]
    exact steady.sound.agreed.publish slot ref
  ledger other := by
    -- The register takes over what the slot has held, and the slot what was loose.
    have ledger := steady.sound.ledger other
    have word := World.slotCount_setWord t.world there ref other
    have observed : (t.call.registers.set .observed (t.world.word slot)).count other +
        (if t.get .observed = some other then 1 else 0) = _ := Registers.count_set _ .observed
    have pays : ((t.world.word slot).toList.map (Instruction.pay · .start)).countP
        (fun i => decide (i.owned? = some other)) = 0 ∧
        debts ((t.world.word slot).toList.map (.pay · .start)) = [] := by
      cases t.world.word slot <;> exact ⟨rfl, rfl⟩
    rw [List.count_append, count_toList, transitCount_cons] at ledger
    rw [transitCount_cons]
    rw [free] at observed
    simp only [World.handleCount, paidCount, poolOf_cons, List.append_assoc, debts_append, pays,
      List.countP_append, List.nil_append, List.count_nil, reduceCtorEq, if_false] at ledger observed ⊢
    simp only [World.setWord] at word ⊢
    omega
  buried := steady.sound.buried
  bounded := steady.sound.bounded
  handles := steady.sound.handles
  slots entry member := by
    simp only [World.setWord, List.length_set]
    exact steady.sound.slots entry member
  sane call member := by
    have length : (t.world.setWord slot ref).words.length = t.world.words.length := List.length_set
    rw [length]
    rcases List.mem_cons.mp member with rfl | member
    · have sane := steady.sound.sane t.call List.mem_cons_self
      refine ⟨?_, fun addr payment pays => ?_, sane.slot⟩
      · cases t.world.word slot with
        | none => exact sane.order
        | some old => exact sane.order.cons fun j inJ => ⟨.inl (steady.calm j inJ), False.elim⟩
      · rcases List.mem_append.mp pays with pays | pays
        · obtain ⟨old, held, same⟩ := List.mem_map.mp pays
          rw [Option.mem_toList] at held
          rw [← (Instruction.pay.inj same).1]
          exact held
        · exact (steady.calm _ pays).elim
    · exact steady.sound.sane call (List.mem_cons_of_mem _ member)

/-- The slot gets the reference in the desired register, and the debts on what it held are paid. -/
theorem publish (steady : t.Steady rest graves []) {slot : SlotId}
    (there : slot < t.world.words.length) :
    Sound (t.publish slot (t.world.word slot)).world
      ((t.publish slot (t.world.word slot)).call :: rest)
      ((t.above.bind Level.grave?).toList ++ graves) [] := by
  have vacated : (t.setRegister .desired none).Steady rest graves ((t.get .desired).toList ++ []) :=
    steady.setRegister .desired none
  have emptied := (vacated.setRegister .observed none).drops
  exact emptied.takeOver there rfl

end Turn.Steady

end SharedCells.Slot
