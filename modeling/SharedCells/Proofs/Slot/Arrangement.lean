import SharedCells.Proofs.Slot.Solo

/-! How the code of a call is arranged.

A read finds the observed register empty, so that it displaces nothing while it
has a debt; a debt is settled before anything else is done; and an exchange with
the expected object is tried only while none has been reported. What a call may
let run is contained in its command. -/

set_option autoImplicit false

namespace SharedCells.Slot

/-! ### Commands without blocks in reads -/

/-- What the destruction of a new object runs. -/
def Value.commands : Value → List Command
  | .fresh onDrop => onDrop
  | _ => []

def Offer.commands : Offer → List Command
  | .same => []
  | .value v => v.commands

def Updating.commands (u : Updating) : List Command :=
  u.offers.flatMap Offer.commands ++ u.meanwhile.flatMap fun block => block.getD []

/-- The commands that an operation contains. -/
def Operation.commands : Operation → List Command
  | .set _ v | .create _ v _ | .store _ v | .exchange _ v _ | .compareExchange _ _ _ v _ _ =>
    v.commands
  | .compareAndExchange _ _ expected desired _ _ _ => expected.commands ++ desired.commands
  | .update _ offers meanwhile into => Updating.commands ⟨offers, meanwhile, into⟩
  | _ => []

/-- Neither the command nor any that it contains runs a block in the middle of a read. -/
inductive Command.Solitary : Command → Prop where
  | mk {operation : Operation} : (∀ command ∈ operation.commands, Command.Solitary command) →
      Command.Solitary (.mk operation none)

namespace Instruction

/-- The commands that an instruction may let run. -/
def commands : Instruction → List Command
  | .evaluate v _ => v.commands
  | .consult u _ | .offer u _ | .verdict u _ => u.commands
  | _ => []

/-- Instructions of a read that has begun to record its debt and has not settled it. -/
def Pending : Instruction → Prop
  | .claim _ _ _ | .recheck _ _ | .increment _ _ | .settle _ _ _ | .stale _ _ _ _ => True
  | _ => False

/-- Instructions that may lead to one of these at once. -/
def Holds : Instruction → Prop
  | .retain _ _ => True
  | i => i.Pending

/-- Instructions that lead to a read, before which the observed register is empty. -/
def Draws : Instruction → Prop
  | .read _ | .retain _ _ | .claim _ _ _ | .recheck _ _ | .increment _ _ | .stale _ _ _ _
  | .attempt _ | .once _ | .revisit _ | .consult _ _ | .offer _ _ | .verdict _ _ => True
  | _ => False

/-- Whether the observed register may hold something once the instruction and what follows from it
are done. -/
def fills (full : Bool) : Instruction → Bool
  | .swap | .evaluate _ .observed | .copy _ .observed | .move _ .observed | .peek _ => true
  | .read purpose | .retain purpose _ | .claim purpose _ _ | .recheck purpose _
  | .increment purpose _ | .settle purpose _ _ | .stale purpose _ _ _ => purpose = .load
  | .move .observed _ | .release .observed | .putHandle _ .observed | .attempt _ | .once _
  | .revisit _ | .consult _ _ | .offer _ _ | .verdict _ _ => false
  | _ => full

/-- Instructions that lead to an exchange with the expected object, or to a further call of an
updating function. -/
def Tries : Instruction → Bool
  | .read purpose => purpose ≠ .load
  | .retain purpose _ | .claim purpose _ _ | .recheck purpose _ | .stale purpose _ _ _ =>
    purpose = .strong
  | .attempt _ | .once _ | .consult _ _ | .offer _ _ | .verdict _ _ => true
  | _ => false

/-- Those before which no exchange has been reported; a verdict sees for itself. -/
def Untried : Instruction → Prop
  | .verdict _ _ => False
  | i => i.Tries = true

theorem Untried.tries {i : Instruction} (untried : i.Untried) : i.Tries = true := by
  cases i <;> first | exact untried | exact untried.elim

end Instruction

theorem Updating.commands_answer (u : Updating) (n : Nat) :
    ∀ command ∈ (u.answer n).commands, command ∈ u.commands := by
  have offered {offer : Offer} (member : offer ∈ u.offers) :
      ∀ command ∈ offer.commands, command ∈ u.commands := fun command inside =>
    List.mem_append_left _ (List.mem_flatMap.mpr ⟨offer, member, inside⟩)
  unfold answer
  cases found : u.offers[n]? with
  | some offer => exact offered (List.mem_of_getElem? found)
  | none =>
    cases last : u.offers.getLast? with
    | some offer => exact offered (List.mem_of_getLast? last)
    | none => exact fun command inside => absurd inside List.not_mem_nil

theorem Updating.commands_meanwhile (u : Updating) {n : Nat} {block : List Command}
    (there : u.meanwhile[n]?.join = some block) : ∀ command ∈ block, command ∈ u.commands := by
  intro command inside
  refine List.mem_append_right _ (List.mem_flatMap.mpr ⟨some block, ?_, inside⟩)
  exact List.mem_of_getElem? (Option.join_eq_some_iff.mp there)

/-! ### The arrangement of code -/

/-- Code that may be carried out when the observed register holds something and an exchange was
reported as these flags tell, and leads to what the last two tell at most. -/
def Arranged : Bool → Bool → List Instruction → Bool → Bool → Prop
  | full, done, [], full', done' => (full = true → full' = true) ∧ (done = true → done' = true)
  | full, done, i :: rest, full', done' =>
    (i.Draws → full = false) ∧ (i.Untried → done = false) ∧
      Arranged (i.fills full) (done || i.Tries) rest full' done'

section Arranged

variable {full done full₁ done₁ full' done' : Bool} {i : Instruction} {new code : List Instruction}

theorem fills_mono (le : full = true → full₁ = true) (filled : i.fills full = true) :
    i.fills full₁ = true := by
  cases full with
  | true => rwa [le rfl]
  | false =>
    cases full₁ with
    | false => exact filled
    | true =>
      unfold Instruction.fills at filled ⊢
      split at filled <;> simp_all

theorem Arranged.mono (arranged : Arranged full₁ done₁ code full' done')
    (le : full = true → full₁ = true) (le' : done = true → done₁ = true) :
    Arranged full done code full' done' := by
  induction code generalizing full done full₁ done₁ with
  | nil => exact ⟨arranged.1 ∘ le, arranged.2 ∘ le'⟩
  | cons i rest ih =>
    obtain ⟨reads, tries, rest⟩ := arranged
    refine ⟨fun inside => ?_, fun inside => ?_, ih rest (fills_mono le) fun now => ?_⟩
    · have empty := reads inside
      cases full <;> simp_all
    · have untried := tries inside
      cases done <;> simp_all
    · rw [Bool.or_eq_true] at now ⊢
      exact now.imp_left le'

/-- An instruction that neither draws nor tries may stand anywhere. -/
theorem Arranged.skip (draws : ¬ i.Draws) (tries : ¬ i.Untried)
    (arranged : Arranged (i.fills full) (done || i.Tries) code full' done') :
    Arranged full done (i :: code) full' done' :=
  ⟨fun drawn => absurd drawn draws, fun tried => absurd tried tries, arranged⟩

theorem Arranged.append (arranged : Arranged full done new full₁ done₁)
    (arranged' : Arranged full₁ done₁ code full' done') :
    Arranged full done (new ++ code) full' done' := by
  induction new generalizing full done with
  | nil => exact arranged'.mono arranged.1 arranged.2
  | cons i rest ih => exact ⟨arranged.1, arranged.2.1, ih arranged.2.2⟩

theorem Arranged.drops (arranged : Arranged full done new full' done') (ref : Ref) :
    Arranged full done (ref.toList.map .drop ++ new) full' done' := by
  cases ref with
  | none => exact arranged
  | some addr =>
    have none : (done || (Instruction.drop addr).Tries) = done := Bool.or_false done
    exact ⟨nofun, nofun, none.symm ▸ arranged⟩

theorem Arranged.pays (arranged : Arranged full done new full' done') (ref : Ref) :
    Arranged full done (ref.toList.map (.pay · .start) ++ new) full' done' := by
  cases ref with
  | none => exact arranged
  | some addr =>
    have none : (done || (Instruction.pay addr .start).Tries) = done := Bool.or_false done
    exact ⟨nofun, nofun, none.symm ▸ arranged⟩

end Arranged

/-- How a lone call is arranged. -/
structure Call.Tidy (call : Call) : Prop where
  waits : call.during = none
  commands : ∀ i ∈ call.code, ∀ command ∈ i.commands, command.Solitary
  arranged : Arranged call.registers.observed.isSome call.exchanged call.code true true
  pending : ∀ i ∈ call.code.tail, ¬ i.Pending

/-- What an instruction puts in its place. -/
structure Turn.Unfolds (i : Instruction) (t t' : Turn) (new : List Instruction) : Prop where
  code : t'.call.code = new ++ t.call.code
  arranged : Arranged (t'.get .observed).isSome t'.call.exchanged new
    (i.fills (t.get .observed).isSome) (t.call.exchanged || i.Tries)
  commands : ∀ j ∈ new, ∀ command ∈ j.commands, command ∈ i.commands
  pending : (∀ j ∈ new, ¬ j.Pending) ∨ t'.above = t.above ∧ i.Holds ∧ ∃ j, new = [j]

namespace Turn

variable {t s t' : Turn} {choice : Choice} {inUse : SlotId → Bool} {i : Instruction} {ref : Ref}
  {register : Register} {new : List Instruction}

theorem Unfolds.drops (ref : Ref) (new : List Instruction)
    (same : t'.call.code = ref.toList.map .drop ++ (new ++ t.call.code))
    (arranged : Arranged (t'.get .observed).isSome t'.call.exchanged new
      (i.fills (t.get .observed).isSome) (t.call.exchanged || i.Tries))
    (commands : ∀ j ∈ new, ∀ command ∈ j.commands, command ∈ i.commands)
    (pending : ∀ j ∈ new, ¬ j.Pending) : t.Unfolds i t' (ref.toList.map .drop ++ new) where
  code := same.trans (List.append_assoc _ _ _).symm
  arranged := arranged.drops ref
  commands j member command inside := by
    rcases List.mem_append.mp member with drops | member
    · obtain ⟨addr, -, rfl⟩ := List.mem_map.mp drops
      exact absurd inside List.not_mem_nil
    · exact commands j member command inside
  pending := .inl fun j member => by
    rcases List.mem_append.mp member with drops | member
    · obtain ⟨addr, -, rfl⟩ := List.mem_map.mp drops
      exact id
    · exact pending j member

theorem assign_unfolds (code : s.call.code = new ++ t.call.code)
    (registers : s.call.registers = t.call.registers)
    (arranged : ∀ full, (full = true → register = .observed ∨ (t.get .observed).isSome = true) →
      Arranged full s.call.exchanged new (i.fills (t.get .observed).isSome)
        (t.call.exchanged || i.Tries))
    (commands : ∀ j ∈ new, ∀ command ∈ j.commands, command ∈ i.commands)
    (pending : ∀ j ∈ new, ¬ j.Pending) : ∃ new, t.Unfolds i (s.assign register ref) new := by
  have code : (s.assign register ref).call.code =
      (s.get register).toList.map .drop ++ (new ++ t.call.code) := by
    rw [← code]
    rfl
  refine ⟨_, .drops _ _ code (arranged _ fun full => ?_) commands pending⟩
  rw [or_iff_not_imp_left]
  intro apart
  have still : (s.assign register ref).get .observed = t.get .observed := by
    rw [get, assign, before, setRegister, Registers.get_set, if_neg (Ne.symm apart), registers, get]
  rwa [still] at full

theorem get_unfolds (code : s.call.code = t.call.code)
    (registers : s.call.registers = t.call.registers)
    (exchanged : s.call.exchanged = t.call.exchanged)
    (fills : register = .observed ∨ (t.get .observed).isSome = true →
      i.fills (t.get .observed).isSome = true) : ∃ new, t.Unfolds i (s.assign register ref) new := by
  refine assign_unfolds (code.trans (List.nil_append _).symm) registers
    (fun full filled => ⟨fun now => fills (filled now), fun done => ?_⟩) (List.forall_mem_nil _)
    (List.forall_mem_nil _)
  rw [← exchanged, done, Bool.true_or]

/-- An instruction that puts another in its place, or nothing, and leaves the registers alone. -/
theorem Unfolds.of_light (code : t'.call.code = new ++ t.call.code)
    (observed : t'.get .observed = t.get .observed) (exchanged : t'.call.exchanged = t.call.exchanged)
    (arranged : Arranged (t.get .observed).isSome t.call.exchanged new
      (i.fills (t.get .observed).isSome) (t.call.exchanged || i.Tries))
    (commands : ∀ j ∈ new, ∀ command ∈ j.commands, command ∈ i.commands)
    (pending : (∀ j ∈ new, ¬ j.Pending) ∨ t'.above = t.above ∧ i.Holds ∧ ∃ j, new = [j]) :
    t.Unfolds i t' new :=
  ⟨code, by rwa [observed, exchanged], commands, pending⟩

theorem isSome_setRegister (register : Register) (full : ((t.setRegister register none).get .observed).isSome = true) :
    register ≠ .observed ∧ (t.get .observed).isSome = true := by
  rw [get, setRegister, Registers.get_set] at full
  split at full
  · contradiction
  · next apart => exact ⟨Ne.symm apart, full⟩

/-- What ends a read is arranged behind it, whatever the observed register has got. -/
theorem settled_arranged {full done : Bool} (purpose : Purpose) (tries : Bool) :
    Arranged full done (settled purpose) (purpose = .load) (done || tries) := by
  refine Arranged.mono ?_ (fun _ => rfl : full = true → true = true) id
  cases purpose <;> simp +contextual [settled, Arranged, Instruction.Draws, Instruction.Untried,
    Instruction.Tries, Instruction.fills]

theorem settled_quiet (purpose : Purpose) :
    ∀ j ∈ settled purpose, j.commands = [] ∧ ¬ j.Pending := by
  cases purpose <;> simp [settled, Instruction.commands, Instruction.Pending]

/-- A word is exchanged; what was there is in the observed register then. -/
theorem publish_unfolds (slot : SlotId) (old : Ref) (new : List Instruction)
    (code : s.call.code = new ++ t.call.code)
    (arranged : Arranged true s.call.exchanged new (i.fills (t.get .observed).isSome)
      (t.call.exchanged || i.Tries))
    (commands : ∀ j ∈ new, ∀ command ∈ j.commands, command ∈ i.commands)
    (pending : ∀ j ∈ new, ¬ j.Pending) : ∃ new, t.Unfolds i (s.publish slot old) new := by
  refine ⟨old.toList.map (.pay · .start) ++ ((s.get .observed).toList.map .drop ++ new),
    ?_, ?_, fun j member => ?_, .inl fun j member => ?_⟩
  · rw [List.append_assoc, List.append_assoc, ← code]
    rfl
  · exact ((arranged.drops _).pays _).mono (fun _ => rfl) id
  all_goals
    rcases List.mem_append.mp member with pays | member
    · obtain ⟨addr, -, rfl⟩ := List.mem_map.mp pays
      simp [Instruction.commands, Instruction.Pending]
    rcases List.mem_append.mp member with drops | member
    · obtain ⟨addr, -, rfl⟩ := List.mem_map.mp drops
      simp [Instruction.commands, Instruction.Pending]
  · exact commands j member
  · exact pending j member

/-- An instruction of a read, or a try, puts one instruction in its place and leaves the registers
alone. -/
theorem Unfolds.single {j : Instruction} (code : t'.call.code = [j] ++ t.call.code)
    (registers : t'.call.registers = t.call.registers)
    (exchanged : t'.call.exchanged = t.call.exchanged)
    (pending : ¬ j.Pending ∨ t'.above = t.above ∧ i.Holds) (empty : t.get .observed = none)
    (untried : j.Tries = true → i.Tries = true ∧ t.call.exchanged = false)
    (fills : j.fills false = true → i.fills false = true)
    (commands : ∀ command ∈ j.commands, command ∈ i.commands) : t.Unfolds i t' [j] := by
  have observed : t'.get .observed = t.get .observed := congrArg (·.get .observed) registers
  refine .of_light code observed exchanged ⟨fun _ => ?_, fun tries => (untried tries.tries).2, ?_, ?_⟩ ?_
    (pending.imp (fun rests => by simpa using rests) fun ⟨above, holds⟩ => ⟨above, holds, j, rfl⟩)
  · rw [empty]
    rfl
  · rw [empty]
    exact fills
  · intro done
    rcases Bool.or_eq_true_iff.mp done with already | tries
    · exact Bool.or_eq_true_iff.mpr (.inl already)
    · exact Bool.or_eq_true_iff.mpr (.inr (untried tries).1)
  · intro k member
    rw [List.mem_singleton.mp member]
    exact commands

theorem exchange_unfolds (slot : SlotId) (old : Ref) (fills : i.fills (t.get .observed).isSome = false)
    (tries : i.Tries = true) : ∃ new, t.Unfolds i
      (({ t with call.exchanged := true }.before [.release .observed]).publish slot old) new := by
  refine publish_unfolds slot old [.release .observed] rfl ?_ ?_ ?_
  · rw [fills, tries, Bool.or_true]
    exact ⟨nofun, nofun, nofun, fun _ => rfl⟩
  · simp [Instruction.commands]
  · simp [Instruction.Pending]

theorem GivesWay.unfolds (gives : GivesWay choice inUse t i new)
    (reads : i.Draws → t.get .observed = none) (tries : i.Untried → t.call.exchanged = false) :
    t.Unfolds i (t.before new) new := by
  have nothing (fills : (t.get .observed).isSome = true → i.fills (t.get .observed).isSome = true) :
      t.Unfolds i (t.before []) [] :=
    .of_light rfl rfl rfl ⟨fills, fun done => Bool.or_eq_true_iff.mpr (.inl done)⟩
      (List.forall_mem_nil _) (.inl (List.forall_mem_nil _))
  have stops (empty : t.get .observed = none) : t.Unfolds i (t.before []) [] :=
    nothing (by rw [empty]; exact nofun)
  cases gives with
  | required | swap_idle | pay_finished | swept => exact nothing fun full => by simp [Instruction.fills, full]
  | attempt_idle | once_idle | revisit_same => exact stops (reads trivial)
  | read_load => exact .single rfl rfl rfl (.inl id) (reads trivial) nofun id nofun
  | read_strong | read_weak | attempt_lost | attempt_differs =>
    exact .single rfl rfl rfl (.inl id) (reads trivial) (fun _ => ⟨rfl, tries rfl⟩) id nofun
  | revisit_differs => exact .single rfl rfl rfl (.inl id) (reads trivial) nofun id nofun
  | retain | recheck_differs =>
    exact .single rfl rfl rfl (.inr ⟨rfl, trivial⟩) (reads trivial) (fun now => ⟨now, tries now⟩) id nofun
  | recheck_same =>
    exact .single rfl rfl rfl (.inr ⟨rfl, trivial⟩) (reads trivial) nofun id nofun
  | pay_release addr =>
    refine .of_light rfl rfl rfl ⟨nofun, nofun, nofun, nofun, id, ?_⟩ ?_ (.inl ?_) <;>
      simp [Instruction.Tries, Instruction.commands, Instruction.Pending]
  | once_lost | once_differs =>
    refine .of_light rfl rfl rfl ?_ ?_ (.inl ?_)
    · rw [reads trivial, tries rfl]
      exact ⟨nofun, nofun, fun _ => rfl, nofun, nofun, nofun⟩
    · simp [Instruction.commands]
    · simp [Instruction.Pending]
  | @offer_same u n | @offer_value u n v answer =>
    refine .of_light rfl rfl rfl ?_ ?_ (.inl ?_)
    · rw [reads trivial, tries rfl]
      simp [Arranged, Instruction.Draws, Instruction.Untried, Instruction.Tries, Instruction.fills]
    · have offered := u.commands_answer n
      simp_all [Instruction.commands, Offer.commands]
    · simp [Instruction.Pending]
  | verdict_won u n =>
    refine .of_light rfl rfl rfl ?_ ?_ (.inl ?_)
    · rw [reads trivial]
      cases u.into <;>
        simp [deliver, Arranged, Instruction.Draws, Instruction.Untried, Instruction.Tries,
          Instruction.fills]
    · cases u.into <;> simp [deliver, Instruction.commands]
    · cases u.into <;> simp [deliver, Instruction.Pending]
  | verdict_lost u n lost =>
    refine .of_light rfl rfl rfl ?_ ?_ (.inl ?_)
    · rw [reads trivial, lost]
      simp [Arranged, Instruction.Draws, Instruction.Untried, Instruction.Tries, Instruction.fills]
    · simp [Instruction.commands]
    · simp [Instruction.Pending]

theorem run_unfolds (ran : t.run choice inUse i = .ok t') (reads : i.Draws → t.get .observed = none)
    (tries : i.Untried → t.call.exchanged = false) :
    (∃ new, t.Unfolds i t' new) ∨ t'.call.code = [] := by
  have still : t.call.exchanged = true → (t.call.exchanged || i.Tries) = true :=
    fun done => Bool.or_eq_true_iff.mpr (.inl done)
  have quiet (purpose : Purpose) : ∀ j ∈ settled purpose, ∀ command ∈ j.commands, command ∈ i.commands :=
    fun j member => by
      rw [(settled_quiet purpose j member).1]
      exact List.forall_mem_nil _
  have ended (purpose : Purpose) : ∀ j ∈ settled purpose, ¬ j.Pending :=
    fun j member => (settled_quiet purpose j member).2
  have drops (ref : Ref) (code : t'.call.code = ref.toList.map .drop ++ t.call.code)
      (exchanged : t'.call.exchanged = t.call.exchanged)
      (fills : (t'.get .observed).isSome = true → i.fills (t.get .observed).isSome = true) :
      ∃ new, t.Unfolds i t' new :=
    ⟨_, .drops ref [] code ⟨fills, exchanged ▸ still⟩ (List.forall_mem_nil _) (List.forall_mem_nil _)⟩
  cases goes_of_run ran with
  | gives_way gives => exact .inl ⟨_, gives.unfolds reads tries⟩
  | refused | busy => exact .inr rfl
  | note | inspect | drop | createSlot => exact .inl (drops none rfl rfl id)
  | peek_empty | peek => exact .inl (drops none rfl rfl fun _ => rfl)
  | peek_kept _ _ ran =>
    obtain ⟨heap, rfl⟩ := retainInto_eq ran
    exact .inl (get_unfolds rfl rfl rfl fun _ => rfl)
  | @handle_copy _ register _ ran | @copy _ register _ ran =>
    obtain ⟨heap, rfl⟩ := retainInto_eq ran
    refine .inl (get_unfolds rfl rfl rfl ?_)
    rintro (rfl | full)
    · rfl
    · cases register <;> first | exact full | rfl
  | nothing register | handle_take _ register | fresh _ register =>
    refine .inl (get_unfolds rfl rfl rfl ?_)
    rintro (rfl | full)
    · rfl
    · cases register <;> first | exact full | rfl
  | move source target =>
    refine .inl (drops ((t.setRegister source none).get target) rfl rfl fun full => ?_)
    cases source <;> cases target <;> first | rfl | exact full
  | release register =>
    refine .inl (drops (t.get register) rfl rfl fun full => ?_)
    cases register <;> exact full
  | putHandle handle register =>
    refine .inl (drops (t.world.handles.get? handle) rfl rfl fun full => ?_)
    obtain ⟨apart, full⟩ := isSome_setRegister register full
    cases register <;> first | exact full | contradiction
  | swap =>
    exact .inl (publish_unfolds _ _ [] rfl ⟨fun _ => rfl, still⟩ (List.forall_mem_nil _)
      (List.forall_mem_nil _))
  | attempt_won | once_won => exact .inl (exchange_unfolds _ _ rfl rfl)
  | pay_start | pay_test | pay_retain | pay_mark =>
    exact .inl ⟨_, .of_light rfl rfl rfl (.skip id Bool.false_ne_true ⟨id, id⟩)
      (List.forall_mem_singleton.mpr (List.forall_mem_nil _)) (.inl (List.forall_mem_singleton.mpr id))⟩
  | unbind | dropHandle =>
    refine .inl ⟨_, .of_light rfl rfl rfl ?_ ?_ (.inl ?_)⟩
    · simp [Arranged, Instruction.Draws, Instruction.Untried, Instruction.Tries, Instruction.fills]
    · simp [Instruction.commands]
    · simp [Instruction.Pending]
  | retain_nothing purpose | stale_paid purpose =>
    exact .inl (assign_unfolds rfl rfl (fun _ _ => settled_arranged purpose _) (quiet purpose)
      (ended purpose))
  | claim | recorded | stale =>
    exact .inl ⟨_, .single rfl rfl rfl (.inr ⟨rfl, trivial⟩) (reads trivial)
      (fun now => ⟨now, tries now⟩) id nofun⟩
  | stale_owed purpose =>
    cases purpose with
    | load | weak =>
      exact .inl ⟨_, .single rfl rfl rfl (.inr ⟨rfl, trivial⟩) (reads trivial) nofun id nofun⟩
    | strong =>
      exact .inl ⟨_, .single rfl rfl rfl (.inr ⟨rfl, trivial⟩) (reads trivial)
        (fun _ => ⟨rfl, tries rfl⟩) id nofun⟩
  | @increment purpose debt _ ran =>
    obtain ⟨heap, rfl⟩ := retainInto_eq ran
    -- Nothing is displaced, so that the debt is settled next.
    have empty : t.call.registers.observed = none := reads trivial
    refine .inl ⟨[.settle purpose debt .withdraw], ?_, .skip id Bool.false_ne_true ⟨id, id⟩, ?_,
      .inr ⟨rfl, trivial, _, rfl⟩⟩
    · simp [assign, before, setRegister, get, Registers.get, empty]
    · exact List.forall_mem_singleton.mpr (List.forall_mem_nil _)
  | settle =>
    exact .inl ⟨_, .of_light rfl rfl rfl (.skip id Bool.false_ne_true ⟨id, id⟩)
      (List.forall_mem_singleton.mpr (List.forall_mem_nil _)) (.inr ⟨rfl, trivial, _, rfl⟩)⟩
  | settle_owed purpose =>
    exact .inl ⟨_, .of_light rfl rfl rfl (settled_arranged purpose _) (quiet purpose) (.inl (ended purpose))⟩
  | @settle_paid purpose debt =>
    exact .inl ⟨_, .drops (some debt.addr) _ rfl (settled_arranged purpose _) (quiet purpose) (ended purpose)⟩
  | consult u n =>
    refine .inl ⟨_, .of_light rfl rfl rfl ?_ (List.forall_mem_singleton.mpr fun _ => id)
      (.inl (List.forall_mem_singleton.mpr id))⟩
    rw [reads trivial, tries rfl]
    exact ⟨fun _ => rfl, fun _ => rfl, id, id⟩

end Turn

/-- The objects bring along no block in a read. -/
def World.Solitary (w : World) : Prop :=
  ∀ addr object, w.heap.find? addr = some object → ∀ command ∈ object.onDrop, command.Solitary

namespace World.Solitary

variable {w : World} {heap : Heap (List Command)} {addr : Addr} {object : Object (List Command)}

theorem of_heap {w' : World} (solitary : w.Solitary) (same : w'.heap = w.heap) : w'.Solitary :=
  fun addr object found => solitary addr object (same ▸ found)

theorem set (solitary : w.Solitary) (each : ∀ command ∈ object.onDrop, command.Solitary) :
    World.Solitary { w with heap := w.heap.set addr object } := fun other found there => by
  dsimp only at there
  rw [Heap.find?_set] at there
  split at there
  · obtain ⟨-, -, rfl⟩ := Option.map_eq_some_iff.mp there
    exact each
  · exact solitary other found there

theorem retain (solitary : w.Solitary) (retained : w.heap.retain? addr = some heap) :
    World.Solitary { w with heap } := by
  obtain ⟨object, live, rfl⟩ := Heap.retain?_eq_some_iff.mp retained
  exact solitary.set (solitary addr object (Heap.live?_eq_some_iff.mp live).1)

theorem release {left : Object (List Command)} (solitary : w.Solitary)
    (released : w.heap.release? addr = some (left, heap)) :
    World.Solitary { w with heap } ∧ ∀ command ∈ left.onDrop, command.Solitary := by
  obtain ⟨object, live, rfl, rfl⟩ := Heap.release?_eq_some_iff.mp released
  have each := solitary addr object (Heap.live?_eq_some_iff.mp live).1
  exact ⟨solitary.set each, each⟩

theorem create (solitary : w.Solitary) (wish : Option Addr) {onDrop : List Command}
    (each : ∀ command ∈ onDrop, command.Solitary) :
    World.Solitary { w with heap := (w.heap.create wish onDrop).2 } := fun other found there => by
  dsimp only at there
  rw [Heap.find?_create] at there
  split at there
  · obtain rfl := Option.some.inj there
    exact each
  · exact solitary other found there

theorem free (solitary : w.Solitary) (addr : Addr) :
    World.Solitary { w with heap := w.heap.free addr } := fun other found there => by
  dsimp only at there
  rw [Heap.find?_free] at there
  split at there
  · contradiction
  · exact solitary other found there

end World.Solitary

/-- Neither the objects nor a level that is put on the stack bring along a block in a read. -/
structure Turn.Solitary (t : Turn) : Prop where
  world : t.world.Solitary
  above : ∀ level, t.above = some level → ∀ command ∈ level.todo, command.Solitary

namespace Turn

variable {t s t' : Turn} {choice : Choice} {inUse : SlotId → Bool} {i : Instruction} {ref : Ref}
  {register : Register}

theorem Solitary.retainInto (solitary : s.Solitary) (ran : s.retainInto register ref = .ok t') :
    t'.Solitary := by
  rcases retainInto_cases ran with ⟨-, rfl⟩ | ⟨addr, heap, -, retained, rfl⟩
  · exact ⟨solitary.world, solitary.above⟩
  · exact ⟨solitary.world.retain retained, solitary.above⟩

theorem Solitary.run (solitary : t.Solitary) (each : ∀ command ∈ i.commands, command.Solitary)
    (ran : t.run choice inUse i = .ok t') : t'.Solitary := by
  have same {w : World} {call : Call} {recorded : Bool} (heap : w.heap = t.world.heap) :
      Solitary { world := w, call, above := t.above, recorded } :=
    ⟨solitary.world.of_heap heap, solitary.above⟩
  cases goes_of_run ran with
  | fresh => exact ⟨solitary.world.create choice.addr each, solitary.above⟩
  | handle_copy ran | copy ran => exact solitary.retainInto ran
  | peek_kept _ _ ran | increment ran => exact retainInto (same rfl) ran
  | pay_retain _ retained => exact ⟨solitary.world.retain retained, solitary.above⟩
  | drop released =>
    obtain ⟨world, runs⟩ := solitary.world.release released
    refine ⟨world, fun level above => ?_⟩
    dsimp only at above
    split at above
    · obtain rfl := Option.some.inj above
      exact runs
    · contradiction
  | consult u n =>
    refine ⟨solitary.world, fun level above => ?_⟩
    obtain ⟨block, there, rfl⟩ := Option.map_eq_some_iff.mp above
    exact fun command member => each command (u.commands_meanwhile there command member)
  | _ => exact same rfl

end Turn

namespace Call.Tidy

variable {w : World} {call : Call} {i : Instruction} {code : List Instruction} {choice : Choice}
  {inUse : SlotId → Bool} {turn : Turn}

theorem reads (tidy : call.Tidy) (head : call.code = i :: code) (reads : i.Draws) :
    call.registers.observed = none := by
  have arranged := tidy.arranged
  rw [head] at arranged
  exact Option.not_isSome_iff_eq_none.mp (by simpa using arranged.1 reads)

theorem untried (tidy : call.Tidy) (head : call.code = i :: code) (untried : i.Untried) :
    call.exchanged = false := by
  have arranged := tidy.arranged
  rw [head] at arranged
  exact arranged.2.1 untried

/-- A tidy call stays tidy, and it has no debt when a level is put above it. -/
theorem run (tidy : call.Tidy) (head : call.code = i :: code)
    (ran : Turn.run choice inUse { world := w, call := { call with code } } i = .ok turn) :
    turn.call.Tidy ∧ (turn.above.isSome → ∀ j ∈ turn.call.code, ¬ j.Pending) := by
  have waits : turn.call.during = none := (Turn.run_during ran).trans tidy.waits
  rcases Turn.run_unfolds ran (tidy.reads head) (tidy.untried head) with ⟨new, unfolds⟩ | ended
  · have rest := tidy.pending
    have arranged := tidy.arranged
    have commands := tidy.commands
    rw [head] at rest arranged commands
    have same : turn.call.code = new ++ code := unfolds.code
    refine ⟨⟨waits, fun j member command inside => ?_, ?_, fun j member => ?_⟩, fun pushed j member => ?_⟩
    · rw [same] at member
      rcases List.mem_append.mp member with fresh | old
      · exact commands i List.mem_cons_self command (unfolds.commands j fresh command inside)
      · exact commands j (List.mem_cons_of_mem _ old) command inside
    · rw [same]
      exact unfolds.arranged.append arranged.2.2
    · rw [same] at member
      rcases unfolds.pending with none | ⟨-, -, only, single⟩
      · exact (List.mem_append.mp (List.mem_of_mem_tail member)).elim (none j) (rest j)
      · rw [single] at member
        exact rest j member
    · rw [same] at member
      rcases unfolds.pending with none | ⟨above, -⟩
      · exact (List.mem_append.mp member).elim (none j) (rest j)
      · rw [above] at pushed
        contradiction
  · refine ⟨⟨waits, ?_, ?_, ?_⟩, ?_⟩ <;> rw [ended]
    · exact List.forall_mem_nil _
    · exact ⟨fun _ => rfl, fun _ => rfl⟩
    · exact List.forall_mem_nil _
    · exact fun _ => List.forall_mem_nil _

theorem scope (tidy : call.Tidy) :
    Call.Tidy { call with code := call.registers.owned.map .release } := by
  have releases : ∀ i ∈ call.registers.owned.map Instruction.release, ∃ register, i = .release register :=
    fun i member => by
      obtain ⟨register, -, rfl⟩ := List.mem_map.mp member
      exact ⟨register, rfl⟩
  have arranged : ∀ (full done : Bool) (code : List Instruction),
      (∀ i ∈ code, ∃ register, i = .release register) → Arranged full done code true true := by
    intro full done code
    induction code generalizing full done with
    | nil => exact fun _ => ⟨fun _ => rfl, fun _ => rfl⟩
    | cons i rest ih =>
      intro each
      obtain ⟨register, rfl⟩ := each i List.mem_cons_self
      exact ⟨nofun, nofun, ih _ _ fun j member => each j (List.mem_cons_of_mem _ member)⟩
  refine ⟨tidy.waits, fun i member command inside => ?_, arranged _ _ _ releases, fun i member => ?_⟩
  · obtain ⟨register, rfl⟩ := releases i member
    exact absurd inside List.not_mem_nil
  · obtain ⟨register, rfl⟩ := releases i (List.mem_of_mem_tail member)
    exact id

theorem alike {call' : Call} (tidy : call.Tidy) (alike : call.Alike call')
    (waits : call'.during = call.during) : call'.Tidy :=
  ⟨waits.trans tidy.waits, alike.code ▸ tidy.commands,
    by rw [alike.code, alike.registers, alike.exchanged]; exact tidy.arranged,
    alike.code ▸ tidy.pending⟩

end Call.Tidy

theorem exchangeCode_arranged (strength : Strength) (success : Order) (failure : Option LoadOrder)
    {accepted refused : List Instruction} (arranged : ∀ full done, Arranged full done accepted true true)
    (arranged' : ∀ full done, Arranged full done refused true true)
    (quiet : ∀ i ∈ accepted, i.commands = [] ∧ ¬ i.Pending)
    (quiet' : ∀ i ∈ refused, i.commands = [] ∧ ¬ i.Pending) :
    Arranged false false (exchangeCode strength success failure accepted refused) true true ∧
      ∀ i ∈ exchangeCode strength success failure accepted refused,
        i.commands = [] ∧ ¬ i.Pending := by
  rcases exchangeCode_cases strength success failure accepted refused with same | ⟨bad, same⟩ <;>
    rw [same]
  · exact ⟨⟨fun _ => rfl, fun _ => rfl, arranged _ _⟩, List.forall_mem_cons.mpr ⟨⟨rfl, id⟩, quiet⟩⟩
  · refine ⟨⟨nofun, nofun, nofun, nofun, arranged' _ _⟩, ?_⟩
    exact List.forall_mem_cons.mpr ⟨⟨rfl, id⟩, List.forall_mem_cons.mpr ⟨⟨rfl, id⟩, quiet'⟩⟩

theorem Operation.code_arranged (operation : Operation) :
    Arranged false false operation.code true true ∧
      ∀ i ∈ operation.code, (∀ command ∈ i.commands, command ∈ operation.commands) ∧ ¬ i.Pending := by
  cases operation with
  | compareExchange strength slot expected desired success failure =>
    have ends (full done : Bool) :
        Arranged full done [.note .compared, .putHandle expected .expected] true true ∧
          Arranged full done [.putHandle expected .expected] true true := by
      simp [Arranged, Instruction.Draws, Instruction.Untried, Instruction.Tries]
    obtain ⟨arranged, quiet⟩ := exchangeCode_arranged strength success failure
      (fun full done => (ends full done).1) (fun full done => (ends full done).2)
      (by simp [Instruction.commands, Instruction.Pending])
      (by simp [Instruction.commands, Instruction.Pending])
    refine ⟨.skip id Bool.false_ne_true (.skip id Bool.false_ne_true arranged), fun i member => ?_⟩
    simp only [code, List.mem_cons] at member
    rcases member with rfl | rfl | member
    · exact ⟨List.forall_mem_nil _, id⟩
    · exact ⟨fun _ => id, id⟩
    · exact ⟨by rw [(quiet i member).1]; exact List.forall_mem_nil _, (quiet i member).2⟩
  | compareAndExchange strength slot expected desired success failure into =>
    have ends (full done : Bool) :
        Arranged full done (.note (.object .expected) :: deliver into .expected) true true ∧
          Arranged full done [.release .expected] true true := by
      cases into <;> simp [deliver, Arranged, Instruction.Draws, Instruction.Untried, Instruction.Tries]
    obtain ⟨arranged, quiet⟩ := exchangeCode_arranged strength success failure
      (fun full done => (ends full done).1) (fun full done => (ends full done).2)
      (by cases into <;> simp [deliver, Instruction.commands, Instruction.Pending])
      (by simp [Instruction.commands, Instruction.Pending])
    refine ⟨.skip id Bool.false_ne_true (.skip id Bool.false_ne_true arranged), fun i member => ?_⟩
    simp only [code, List.mem_cons] at member
    rcases member with rfl | rfl | member
    · exact ⟨fun _ => List.mem_append_left _, id⟩
    · exact ⟨fun _ => List.mem_append_right _, id⟩
    · exact ⟨by rw [(quiet i member).1]; exact List.forall_mem_nil _, (quiet i member).2⟩
  | create slot v required =>
    cases required <;>
      simp [code, Arranged, Instruction.Draws, Instruction.Untried, Instruction.Tries,
        Instruction.commands, Instruction.Pending, commands]
  | load slot into | exchange slot v into | take slot into | intoInner slot into | peek slot into =>
    cases into <;>
      simp [code, deliver, Arranged, Instruction.Draws, Instruction.Untried, Instruction.Tries,
        Instruction.commands, Instruction.Pending, commands]
  | _ =>
    simp [code, Arranged, Instruction.Draws, Instruction.Untried, Instruction.Tries,
      Instruction.fills, Instruction.commands, Instruction.Pending, commands]

end SharedCells.Slot
