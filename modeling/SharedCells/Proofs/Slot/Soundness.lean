import SharedCells.Proofs.Slot.Transfer

/-! Every instruction can be carried out and keeps the ledger. -/

set_option autoImplicit false

namespace SharedCells.Slot

open Registry (Debt Claim Settle Payment)

/-- The state of all calls after a turn, in which a destruction may have begun. -/
def Turn.Sound (t : Turn) (rest : List Call) (graves : List Addr) : Prop :=
  Slot.Sound t.world (t.call :: rest) ((t.above.bind Level.grave?).toList ++ graves) []

/-- The instruction at the head of the code can be carried out and keeps the ledger. -/
def Instruction.Runs (choice : Choice) (inUse : SlotId → Bool) (w : World) (call : Call)
    (rest : List Call) (graves : List Addr) (i : Instruction) : Prop :=
  ∃ t, Turn.run choice inUse { world := w, call } i = .ok t ∧ t.Sound rest graves

namespace Turn

theorem settled_light (purpose : Purpose) : ∀ i ∈ settled purpose, i.Light := by
  cases purpose <;> simp [settled, Instruction.Light, Instruction.Plain]

theorem look_light (purpose : Purpose) (seen : Ref) : (look purpose seen).Light := by
  cases purpose <;> trivial

theorem deliver_light (into : Option String) (source : Register) :
    ∀ i ∈ deliver into source, i.Light := by
  cases into <;> simp [deliver, Instruction.Light, Instruction.Plain]

theorem GivesWay.light {choice : Choice} {inUse : SlotId → Bool} {t : Turn} {i : Instruction}
    {new : List Instruction} (gives : GivesWay choice inUse t i new) (plain : i.Plain) :
    ∀ j ∈ new, j.Light := by
  cases gives with
  | verdict_won u n =>
    exact List.forall_mem_cons.mpr ⟨trivial, List.forall_mem_cons.mpr ⟨trivial, deliver_light _ _⟩⟩
  | pay_finished | pay_release | recheck_same | recheck_differs => exact plain.elim
  | _ => simp [Instruction.Light, Instruction.Plain, Registry.Claim.Pending]

end Turn

namespace Sound

variable {w : World} {call : Call} {rest : List Call} {graves loose : List Addr} {i : Instruction}
  {code : List Instruction}

theorem tail_plain (sound : Sound w (call :: rest) graves loose) (head : call.code = i :: code)
    (keeps : ∀ addr, i ≠ .drop addr) : ∀ j ∈ code, j.Plain := by
  intro j member
  have order := (sound.sane call List.mem_cons_self).order
  rw [head, List.pairwise_cons] at order
  exact (order.1 j member).1.resolve_right fun ⟨addr, same⟩ => keeps addr same

theorem agreed_of_head (sound : Sound w (call :: rest) graves loose) (head : call.code = i :: code) :
    Agreed w (i :: (code ++ poolOf rest)) := by
  have agreed := sound.agreed
  rw [poolOf_cons, head] at agreed
  exact agreed

theorem uncons (sound : Sound w (call :: rest) graves []) (head : call.code = i :: code)
    (plain : i.Plain) : Sound w ({ call with code } :: rest) graves i.owned?.toList where
  agreed := (sound.agreed_of_head head).of_cons plain
  ledger addr := by
    have ledger := sound.ledger addr
    rw [paidCount, transitCount_cons, poolOf_cons, head] at ledger
    rw [paidCount, transitCount_cons, poolOf_cons, count_toList]
    simp only [List.cons_append, debts_cons_of_none plain.debt?, List.countP_cons,
      decide_eq_true_eq, List.count_nil] at ledger ⊢
    omega
  buried := sound.buried
  bounded := sound.bounded
  handles := sound.handles
  slots := sound.slots
  sane other member := by
    rcases List.mem_cons.mp member with rfl | member
    · obtain ⟨order, payer, slot⟩ := sound.sane call List.mem_cons_self
      rw [head] at order payer
      exact ⟨(List.pairwise_cons.mp order).2,
        fun addr payment pays => payer addr payment (List.mem_cons_of_mem _ pays), slot⟩
    · exact sound.sane other (List.mem_cons_of_mem _ member)

theorem steady (sound : Sound w (call :: rest) graves []) (head : call.code = i :: code)
    (plain : i.Plain) (keeps : ∀ addr, i ≠ .drop addr) :
    Turn.Steady { world := w, call := { call with code } } rest graves [] where
  sound := by
    have uncons := sound.uncons head plain
    rw [plain.owned? keeps] at uncons
    exact uncons
  calm := sound.tail_plain head keeps

/-- An instruction that uses the registry gives way to those that follow from it. -/
theorem advance (sound : Sound w (call :: rest) graves loose) (head : call.code = i :: code)
    (keeps : ∀ addr, i ≠ .drop addr) (new : List Instruction) {registers : Registers}
    {loose' : List Addr} {r : Registry}
    (agreed : Agreed { w with registry := r } (new ++ (code ++ poolOf rest)))
    (balance : ∀ addr,
      r.paid (debts (new ++ (code ++ poolOf rest))) addr + registers.count addr +
          new.countP (fun j => j.owned? = some addr) + loose'.count addr =
        w.registry.paid (debts (i :: (code ++ poolOf rest))) addr + call.registers.count addr +
          (if i.owned? = some addr then 1 else 0) + loose.count addr)
    (order : new.Pairwise Instruction.Precedes) (stays : ∀ j ∈ new, ¬ j.Abandons)
    (payer : ∀ addr payment, .pay addr payment ∈ new → registers.observed = some addr) :
    Sound { w with registry := r } ({ call with code := new ++ code, registers } :: rest)
      graves loose' where
  agreed := by
    rw [poolOf_cons, List.append_assoc]
    exact agreed
  ledger addr := by
    have ledger := sound.ledger addr
    have balance := balance addr
    rw [paidCount, transitCount_cons, poolOf_cons, head] at ledger
    rw [paidCount, transitCount_cons, poolOf_cons]
    simp only [World.slotCount, World.handleCount, List.append_assoc, List.cons_append,
      List.countP_append, List.countP_cons, decide_eq_true_eq] at ledger balance ⊢
    omega
  buried := sound.buried
  bounded := sound.bounded
  handles := sound.handles
  slots := sound.slots
  sane other member := by
    rcases List.mem_cons.mp member with rfl | member
    · have sane := sound.sane call List.mem_cons_self
      have old := sane.order
      rw [head, List.pairwise_cons] at old
      refine ⟨List.pairwise_append.mpr ⟨order, old.2, fun x inX y inY =>
        ⟨.inl (sound.tail_plain head keeps y inY), fun abandons => absurd abandons (stays x inX)⟩⟩,
        fun addr payment pays => ?_, sane.slot⟩
      rcases List.mem_append.mp pays with pays | pays
      · exact payer addr payment pays
      · exact (sound.tail_plain head keeps _ pays).elim
    · exact sound.sane other (List.mem_cons_of_mem _ member)

end Sound

namespace Turn.Steady

variable {t : Turn} {rest : List Call} {graves : List Addr}

theorem mem_words {addr : Addr} (word : t.word = some addr) : some addr ∈ t.world.words := by
  obtain ⟨slot, -, held⟩ := Option.bind_eq_some_iff.mp word
  exact List.mem_of_getElem? (Option.join_eq_some_iff.mp held)

theorem slot_lt (steady : t.Steady rest graves []) {slot : SlotId} (acts : t.call.slot = some slot) :
    slot < t.world.words.length :=
  (steady.sound.sane t.call List.mem_cons_self).slot slot acts

theorem takeHandle (steady : t.Steady rest graves []) (handle : String) (into : Register) :
    ({ t with world.handles := t.world.handles.erase handle }.assign into
      (t.world.handles.get? handle)).Steady rest graves [] :=
  have taken := steady.sound.assignHandle handle none
  Steady.assign into _ ⟨taken, steady.calm⟩

theorem create (steady : t.Steady rest graves []) (choice : Choice) (onDrop : List Command)
    (into : Register) :
    ({ t with world.heap := (t.world.heap.create choice.addr onDrop).2 }.assign into
      (some (t.world.heap.create choice.addr onDrop).1)).Steady rest graves [] :=
  have created := steady.sound.create choice.addr onDrop
  Steady.assign into (some _) ⟨created, steady.calm⟩

theorem putHandle (steady : t.Steady rest graves []) (handle : String) (source : Register) :
    (({ t with world.handles := t.world.handles.assign handle (t.get source) }.setRegister source
      none).before ((t.world.handles.get? handle).toList.map .drop)).Steady rest graves [] := by
  have vacated := steady.setRegister source none
  have put := vacated.sound.assignHandle handle (t.get source)
  exact Steady.drops (t := { t with
    world.handles := t.world.handles.assign handle (t.get source) }.setRegister source none)
    ⟨put, vacated.calm⟩

theorem createSlot (steady : t.Steady rest graves []) (name : String) :
    (({ t with
        world.words := t.world.words ++ [t.get .desired]
        world.slots := t.world.slots.put name t.world.words.length
        call.slot := t.world.slots.get? name }.setRegister .desired none).Steady rest graves []) := by
  have vacated := steady.setRegister .desired none
  have appended := vacated.sound.appendWord name (t.get .desired)
  refine ⟨appended.of_call rfl rfl fun s held => ?_, steady.calm⟩
  rw [List.length_append]
  have member : (name, s) ∈ t.world.slots := Table.mem_of_get? _ _ _ held
  exact Nat.lt_add_right _ (steady.sound.slots _ member)

theorem unbind (steady : t.Steady rest graves []) {inUse : SlotId → Bool} {name : String} {slot : SlotId}
    (found : (t.world.slots.find? fun entry => !inUse entry.2) = some (name, slot)) :
    Turn.Steady ({ t with world.slots := t.world.slots.erase name, call.slot := some slot }.before
      [.swap, .release .observed, .dropNext]) rest graves [] := by
  have bound := steady.sound.slots _ (List.mem_of_find?_eq_some found)
  have erased := steady.sound.eraseSlot name
  refine light ⟨erased.of_call rfl rfl fun s same => ?_, steady.calm⟩
    (by simp [Instruction.Light, Instruction.Plain])
  rw [← Option.some.inj same]
  exact bound

theorem dropHandle (steady : t.Steady rest graves []) {name : String} {addr : Addr}
    {handles : Table Addr} (first : t.world.handles = (name, addr) :: handles) :
    Turn.Steady ({ t with world.handles := handles }.before [.drop addr, .dropNext]) rest graves [] := by
  have popped : Steady { t with world.handles := handles } rest graves [addr] :=
    ⟨steady.sound.popHandle first, steady.calm⟩
  have plain : ∀ i ∈ [Instruction.drop addr, .dropNext], i.Plain := by simp [Instruction.Plain]
  exact popped.before plain (by simp [Instruction.Abandons])

theorem consult (steady : t.Steady rest graves []) (u : Updating) (n : Nat) (above : t.above = none) :
    Turn.Sound { t.before [.offer u n] with
      call.seen := t.world.objectId (t.get .expected) :: t.call.seen
      above := (u.meanwhile[n]?.join).map fun todo => { role := .meanwhile, todo } } rest graves := by
  have light : ∀ i ∈ [Instruction.offer u n], i.Light := by
    simp [Instruction.Light, Instruction.Plain]
  have next : Slot.Sound t.world ((t.before [.offer u n]).call :: rest) graves [] := by
    simpa [Turn.before, above] using (steady.light light).sound
  unfold Turn.Sound
  cases u.meanwhile[n]?.join with
  | none => exact next.of_call rfl rfl fun s same => steady.slot_lt same
  | some todo => exact next.of_call rfl rfl fun s same => steady.slot_lt same

/-- The desired value takes the place of the expected one. -/
theorem exchange (steady : t.Steady rest graves []) {slot : SlotId} (acts : t.call.slot = some slot)
    (won : t.world.word slot = t.get .expected) :
    Turn.Sound (({ t with call.exchanged := true }.before [.release .observed]).publish slot
      (t.get .expected)) rest graves := by
  have marked : Steady { t with call.exchanged := true } rest graves [] :=
    steady.of_call rfl rfl fun s same => steady.slot_lt same
  have light : ∀ i ∈ [Instruction.release .observed], i.Light := by
    simp [Instruction.Light, Instruction.Plain]
  rw [← won]
  exact (marked.light light).publish (steady.slot_lt acts)

/-- A reference that is counted already is counted once more. -/
theorem retained (steady : t.Steady rest graves []) {register : Register} {ref : Ref}
    {result : Except Fault Turn} (counts : ∀ addr, ref = some addr → 0 < t.world.heap.count addr)
    (ran : t.retainInto register ref = result) : ∃ t', result = .ok t' ∧ t'.Sound rest graves := by
  obtain ⟨t', ran', steady'⟩ := steady.retainInto register ref counts
  exact ⟨t', ran.symm.trans ran', steady'.sound⟩

/-- The instructions that need nothing of the registry. -/
theorem run (steady : t.Steady rest graves []) (choice : Choice) (inUse : SlotId → Bool)
    {i : Instruction} (plain : i.Plain) (keeps : ∀ addr, i ≠ .drop addr)
    (settled : ∀ purpose addr progress, i ≠ .claim purpose addr progress)
    (unowned : i.Abandons → ∀ j ∈ t.call.code, j.owned? = none) (above : t.above = none) :
    ∃ t', Turn.run choice inUse t i = .ok t' ∧ t'.Sound rest graves := by
  have counts {addr : Addr} (word : t.word = some addr) : 0 < t.world.heap.count addr :=
    steady.sound.counted_of_word (mem_words word)
  have goes : Goes choice inUse t i (t.run choice inUse i) := run_goes
  generalize t.run choice inUse i = result at goes
  cases goes with
  | gives_way gives => exact ⟨_, rfl, (steady.light (gives.light plain)).sound⟩
  | refused | busy => exact ⟨_, rfl, (steady.abandon (unowned trivial) _).sound⟩
  | note | inspect | peek_empty | peek => exact ⟨_, rfl, (steady.note _).sound⟩
  | peek_dangling keep word gone =>
    obtain ⟨object, live⟩ := Heap.count_pos_iff.mp (counts word)
    exact absurd (live.symm.trans gone) nofun
  | peek_kept word live ran =>
    exact (steady.note _).retained (fun _ same => Option.some.inj same ▸ counts word) ran
  | handle_copy ran => exact steady.retained (fun _ holds => steady.sound.counted_of_handle holds) ran
  | copy ran =>
    exact steady.retained (fun _ => steady.sound.counted_of_register List.mem_cons_self _) ran
  | nothing into => exact ⟨_, rfl, (steady.assign into none).sound⟩
  | handle_take handle into => exact ⟨_, rfl, (steady.takeHandle handle into).sound⟩
  | fresh onDrop into => exact ⟨_, rfl, (steady.create choice onDrop into).sound⟩
  | move source target =>
    exact ⟨_, rfl, ((steady.setRegister source none).assign target (t.get source)).sound⟩
  | release register => exact ⟨_, rfl, (steady.setRegister register none).drops.sound⟩
  | putHandle handle source => exact ⟨_, rfl, (steady.putHandle handle source).sound⟩
  | @createSlot name => exact ⟨_, rfl, (steady.createSlot name).sound⟩
  | swap acts => exact ⟨_, rfl, steady.publish (steady.slot_lt acts)⟩
  | attempt_won acts _ won | once_won acts _ won => exact ⟨_, rfl, steady.exchange acts won⟩
  | retain_nothing purpose =>
    exact ⟨_, rfl, ((steady.light (settled_light purpose)).assign .observed none).sound⟩
  | consult u n => exact ⟨_, rfl, steady.consult u n above⟩
  -- A slot loses its name first, and its reference when its word is exchanged next.
  | unbind found => exact ⟨_, rfl, (steady.unbind found).sound⟩
  | dropHandle _ first => exact ⟨_, rfl, (steady.dropHandle first).sound⟩
  | drop | drop_dangling => exact absurd rfl (keeps _)
  | claim | recorded => exact absurd rfl (settled _ _ _)
  | _ => exact plain.elim

end Turn.Steady

end SharedCells.Slot
