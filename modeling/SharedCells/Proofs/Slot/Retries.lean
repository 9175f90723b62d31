import SharedCells.Proofs.Slot.Publications
import SharedCells.Proofs.Slot.Verdict

/-! A retry only follows another's progress.

A round of a read, or of a compare-exchange, begins with a word that was just
seen in the slot. It is followed by another round only if a later look at the
slot shows another word, so that each further round is paid for by a step that
has changed the slot since. -/

set_option autoImplicit false

namespace SharedCells.Slot

namespace Instruction

/-- The instruction begins a round: a load tries to retain what it has seen, and an exchange compares
it with what it expects. -/
def begins : Instruction → Bool
  | .retain .load _ | .attempt _ | .revisit _ => true
  | _ => false

/-- Instructions that still have a round, or a part of one, before them. -/
def looks : Instruction → Bool
  | .read _ | .retain _ _ | .claim _ _ _ | .recheck _ _ | .stale _ _ _ _ | .attempt _ | .once _
  | .revisit _ => true
  | _ => false

/-- What a read and a compare-exchange are made of. -/
def Reads : Instruction → Prop
  | .read _ | .retain _ _ | .claim _ _ _ | .recheck _ _ | .increment _ _ | .settle _ _ _
  | .stale _ _ _ _ | .attempt _ | .once _ | .revisit _ | .release _ | .move _ _ | .drop _
  | .pay _ _ => True
  | _ => False

/-- The steps of the debt registry: to record a debt, to settle one, and to pay all on an address. -/
def Records : Instruction → Prop
  | .claim _ _ _ | .settle _ _ _ | .stale _ _ _ _ | .pay _ _ => True
  | _ => False

theorem Records.reads {i : Instruction} (records : i.Records) : i.Reads := by
  cases i <;> trivial

theorem Records.stores {i : Instruction} (records : i.Records) (choice : Choice) (t : Turn) :
    i.stores choice t = none := by
  cases i <;> first | rfl | exact records.elim

/-- How many rounds the instruction may still lead to if the slot, which holds `word`, does not
change any more. One that has another word in view may find out and begin one more. -/
def rounds (word : Ref) : Instruction → Nat
  | .read _ => 1
  | .retain .load seen | .attempt seen | .once seen | .revisit seen | .stale _ _ seen _ =>
    if seen = word then 1 else 2
  | .retain _ seen => if seen = word then 0 else 1
  | .claim _ addr _ => if some addr = word then 0 else 1
  | .recheck _ debt => if some debt.addr = word then 0 else 1
  | _ => 0

/-- How many rounds a code may still lead to. -/
def roundsOf (word : Ref) : List Instruction → Nat
  | [] => 0
  | i :: code => i.rounds word + roundsOf word code

variable {word word' : Ref} {i : Instruction} {code more : List Instruction}

theorem rounds_eq_zero (rests : i.looks = false) : i.rounds word = 0 := by
  cases i with
  | retain purpose seen => exact absurd rests nofun
  | _ => first | rfl | exact absurd rests nofun

theorem roundsOf_append : roundsOf word (code ++ more) = roundsOf word code + roundsOf word more := by
  induction code with
  | nil => exact (Nat.zero_add _).symm
  | cons i code ih => rw [List.cons_append, roundsOf, roundsOf, ih, Nat.add_assoc]

theorem roundsOf_eq_zero (rest : ∀ i ∈ code, i.looks = false) : roundsOf word code = 0 := by
  induction code with
  | nil => rfl
  | cons i code ih =>
    obtain ⟨rests, rest⟩ := List.forall_mem_cons.mp rest
    rw [roundsOf, rounds_eq_zero rests, ih rest]

theorem begins_le : (if i.begins then 1 else 0) ≤ i.rounds word := by
  cases i with
  | retain purpose seen =>
    cases purpose with
    | load =>
      change 1 ≤ if seen = word then 1 else 2
      split <;> omega
    | strong | weak => exact Nat.zero_le _
  | attempt seen | revisit seen =>
    change 1 ≤ if seen = word then 1 else 2
    split <;> omega
  | _ => exact Nat.zero_le _

/-- A change of the slot may cost one more round. -/
theorem rounds_le : i.rounds word' ≤ i.rounds word + 1 := by
  cases i with
  | retain purpose seen => cases purpose <;> unfold rounds <;> dsimp only <;> split <;> split <;> omega
  | claim | recheck | stale | attempt | once | revisit =>
    unfold rounds
    dsimp only
    split <;> split <;> omega
  | _ => exact Nat.le_add_right _ _

end Instruction

/-- The rest of a read: at most one of its instructions still looks at the slot. -/
structure Reading (code : List Instruction) : Prop where
  reads : ∀ i ∈ code, i.Reads
  looks : code.countP Instruction.looks ≤ 1

namespace Reading

open Instruction

variable {i : Instruction} {code new : List Instruction} {word word' : Ref}

theorem rests_of_looks (reading : Reading (i :: code)) (looks : i.looks = true) :
    ∀ j ∈ code, j.looks = false := by
  have count := reading.looks
  rw [List.countP_cons_of_pos looks] at count
  simpa using List.countP_eq_zero.mp (Nat.le_zero.mp (Nat.le_of_succ_le_succ count))

theorem roundsOf_le (reading : Reading code) : roundsOf word' code ≤ roundsOf word code + 1 := by
  induction code with
  | nil => exact Nat.zero_le _
  | cons i code ih =>
    have rest : Reading code := ⟨(List.forall_mem_cons.mp reading.reads).2, by
      have count := reading.looks
      rw [List.countP_cons] at count
      omega⟩
    rw [roundsOf, roundsOf]
    cases looks : i.looks with
    | false =>
      rw [rounds_eq_zero looks, rounds_eq_zero looks]
      have := ih rest
      omega
    | true =>
      rw [roundsOf_eq_zero (reading.rests_of_looks looks), roundsOf_eq_zero (reading.rests_of_looks looks)]
      exact rounds_le

end Reading

namespace Turn

open Instruction

/-- Instructions of a read that do not look at the slot any more. -/
def Rests (code : List Instruction) : Prop := ∀ i ∈ code, i.Reads ∧ i.looks = false

/-- How an instruction of a read goes on. If it does not end the search, it leads to one instruction
that looks at the slot, or has a word of it in view; the rounds that it may still lead to are enough
for what comes next and for the round that it begins, if it begins one. -/
inductive Search (choice : Choice) (i : Instruction) (t t' : Turn) : Prop where
  | rests (new : List Instruction) : Rests new → t'.call.code = new ++ t.call.code →
      (t.call.exchanged = true ∨ (i.stores choice t).isSome → t'.call.exchanged = true) →
      Search choice i t t'
  | next (new : List Instruction) (j : Instruction) : Rests new → i.looks = true → j.Reads →
      t'.call.code = new ++ j :: t.call.code → t'.call.exchanged = t.call.exchanged →
      i.stores choice t = none →
      (if i.begins then 1 else 0) + j.rounds t'.word ≤ i.rounds t.word → Search choice i t t'

variable {t t' : Turn} {choice : Choice} {inUse : SlotId → Bool} {i j : Instruction}
  {code more : List Instruction}

theorem Rests.nil : Rests [] := nofun

theorem Rests.append (rests : Rests code) (rests' : Rests more) : Rests (code ++ more) :=
  fun i member => (List.mem_append.mp member).elim (rests i) (rests' i)

theorem Rests.single (reads : i.Reads) (rests : i.looks = false) : Rests [i] := fun j member => by
  rw [List.mem_singleton.mp member]
  exact ⟨reads, rests⟩

theorem Rests.drops (ref : Ref) : Rests (ref.toList.map .drop) := fun j member => by
  obtain ⟨addr, -, rfl⟩ := List.mem_map.mp member
  exact ⟨trivial, rfl⟩

theorem Rests.pays (ref : Ref) : Rests (ref.toList.map (.pay · .start)) := fun j member => by
  obtain ⟨addr, -, rfl⟩ := List.mem_map.mp member
  exact ⟨trivial, rfl⟩

theorem Rests.settled (purpose : Purpose) : Rests (settled purpose) := by
  cases purpose <;> simp [Rests, Turn.settled, Instruction.Reads, Instruction.looks]

theorem keeps_verdict (same : t'.call.exchanged = t.call.exchanged) (stores : i.stores choice t = none) :
    t.call.exchanged = true ∨ (i.stores choice t).isSome → t'.call.exchanged = true := by
  rintro (won | won)
  · exact same.trans won
  · rw [stores] at won
    contradiction

/-- The exchange ends the search. -/
theorem publish_search {slot : SlotId} (old : Ref) : Search choice i t
    (({ t with call.exchanged := true }.before [.release .observed]).publish slot old) := by
  have ends : Rests [.release .observed] := .single trivial rfl
  refine .rests _ (((Rests.pays old).append (.drops (t.get .observed))).append ends) ?_ fun _ => rfl
  rw [List.append_assoc, List.append_assoc]
  rfl

theorem GivesWay.search {new : List Instruction} (gives : GivesWay choice inUse t i new)
    (reads : i.Reads) : Search choice i t (t.before new) := by
  have stores := gives.stores
  have ends (rests : Rests new) : Search choice i t (t.before new) :=
    .rests new rests rfl (keeps_verdict rfl stores)
  have leads {first : List Instruction} {j : Instruction} (rests : Rests first) (looks : i.looks = true)
      (reads : j.Reads) (le : (if i.begins then 1 else 0) + j.rounds t.word ≤ i.rounds t.word) :
      Search choice i t (t.before (first ++ [j])) :=
    .next first j rests looks reads (List.append_assoc _ _ _) rfl stores le
  have viewed {slot : SlotId} (acts : t.call.slot = some slot) : t.world.word slot = t.word := by
    rw [Turn.word, acts, Option.bind_some]
  have releases : Rests [.release .desired] := .single trivial rfl
  cases gives with
  | pay_finished | attempt_idle | once_idle | revisit_same => exact ends .nil
  | pay_release addr => exact ends ((Rests.drops (some addr)).append (.single trivial rfl))
  | recheck_same => exact ends (.single trivial rfl)
  | read_load | read_strong | read_weak =>
    exact leads .nil rfl trivial (by simp [Instruction.rounds, begins])
  | retain purpose addr =>
    refine leads .nil rfl trivial ?_
    by_cases same : some addr = t.word <;> cases purpose <;> simp_all [Instruction.rounds, begins]
  | @recheck_differs purpose debt differs =>
    -- The slot has changed since it was read, and has now been read again.
    refine leads .nil rfl trivial ?_
    have changed : some debt.addr ≠ t.word := Ne.symm differs
    simp_all [Instruction.rounds, begins]
  | attempt_lost acts same lost =>
    refine leads .nil rfl trivial ?_
    rw [viewed acts] at lost ⊢
    rw [← same] at lost
    simp [Instruction.rounds, begins, Ne.symm lost]
  | @attempt_differs seen | @revisit_differs seen =>
    refine leads .nil rfl trivial ?_
    change 1 + (if seen = t.word then 0 else 1) ≤ if seen = t.word then 1 else 2
    split <;> omega
  | @once_lost seen _ acts =>
    refine leads releases rfl trivial ?_
    rw [viewed acts]
    change 0 + (if t.word = t.word then 1 else 2) ≤ if seen = t.word then 1 else 2
    rw [if_pos rfl]
    split <;> omega
  | once_differs => exact leads releases rfl trivial (Nat.zero_add _).le
  | _ => exact reads.elim

theorem run_search (reads : i.Reads) (ran : t.run choice inUse i = .ok t') :
    Search choice i t t' := by
  cases goes_of_run ran with
  | gives_way gives => exact gives.search reads
  | retain_nothing purpose | stale_paid purpose =>
    exact .rests _ ((Rests.drops _).append (.settled purpose)) (List.append_assoc _ _ _).symm
      (keeps_verdict rfl rfl)
  | claim purpose =>
    exact .next [] (.claim purpose _ _) .nil rfl trivial rfl rfl rfl (Nat.zero_add _).le
  | recorded purpose =>
    exact .next [] (.recheck purpose _) .nil rfl trivial rfl rfl rfl (Nat.zero_add _).le
  | stale purpose seen =>
    exact .next [] (.stale purpose _ seen _) .nil rfl trivial rfl rfl rfl (Nat.zero_add _).le
  | stale_owed purpose seen =>
    cases purpose with
    | load => exact .next [] (.retain .load seen) .nil rfl trivial rfl rfl rfl (Nat.zero_add _).le
    | strong => exact .next [] (.attempt seen) .nil rfl trivial rfl rfl rfl (Nat.zero_add _).le
    | weak => exact .next [] (.revisit seen) .nil rfl trivial rfl rfl rfl (Nat.zero_add _).le
  | @increment purpose debt _ ran =>
    have ends : Rests [.settle purpose debt .withdraw] := .single trivial rfl
    obtain ⟨heap, rfl⟩ := retainInto_eq ran
    exact .rests _ ((Rests.drops (t.get .observed)).append ends) (List.append_assoc _ _ _).symm
      (keeps_verdict rfl rfl)
  | @settle purpose debt _ next =>
    exact .rests _ (.single (i := .settle purpose debt next) trivial rfl) rfl (keeps_verdict rfl rfl)
  | pay_start addr | pay_test addr | @pay_retain addr | pay_mark addr =>
    have pays (next : Registry.Payment) : Rests [.pay addr next] := .single trivial rfl
    exact .rests _ (pays _) rfl (keeps_verdict rfl rfl)
  | settle_owed purpose => exact .rests _ (.settled purpose) rfl (keeps_verdict rfl rfl)
  | @settle_paid purpose debt =>
    exact .rests _ ((Rests.drops (some debt.addr)).append (.settled purpose)) rfl
      (keeps_verdict rfl rfl)
  | attempt_won | once_won => exact publish_search _
  | release register => exact .rests _ (.drops (t.get register)) rfl (keeps_verdict rfl rfl)
  | move => exact .rests _ (.drops _) rfl (keeps_verdict rfl rfl)
  | drop => exact .rests [] .nil rfl (keeps_verdict rfl rfl)
  | _ => exact reads.elim

theorem run_slot (reads : i.Reads) (ran : t.run choice inUse i = .ok t') :
    t'.call.slot = t.call.slot := by
  cases run_course ran with
  | passed new passes => exact passes.slot
  | ended _ _ _ same => exact same
  | created name same => exact (same ▸ reads : (Instruction.createSlot name).Reads).elim
  | unbound name slot same => exact (same ▸ reads : Instruction.dropNext.Reads).elim

/-- An instruction of a read that writes nothing leads to none that does. -/
theorem run_writes {new : List Instruction} (reads : i.Reads) (ran : t.run choice inUse i = .ok t')
    (same : t'.call.code = new ++ t.call.code) : ∀ j ∈ new, j.Writes → i.Writes := by
  cases run_course ran with
  | passed new' passes =>
    obtain rfl := List.append_cancel_right (same.symm.trans passes.code)
    exact fun j member writes => (passes.follows.writes j member writes).1
  | ended _ _ _ _ _ ended =>
    obtain ⟨rfl, -⟩ := List.append_eq_nil_iff.mp (same.symm.trans ended)
    nofun
  | created name created => exact (created ▸ reads : (Instruction.createSlot name).Reads).elim
  | unbound name slot unbound => exact (unbound ▸ reads : Instruction.dropNext.Reads).elim

theorem stores_of_rests (reads : i.Reads) (rests : i.looks = false) : i.stores choice t = none := by
  cases i <;> first | rfl | exact reads.elim | exact absurd rests nofun

/-- An instruction of a read that exchanges no word leaves all slots alone. -/
theorem run_keeps_words (reads : i.Reads) (quiet : i.stores choice t = none)
    (ran : t.run choice inUse i = .ok t') : t'.world.words = t.world.words := by
  cases run_course ran with
  | passed new passes => rw [passes.words, quiet]
  | ended _ _ world => rw [world]
  | created name same => exact (same ▸ reads : (Instruction.createSlot name).Reads).elim
  | unbound name slot same => exact (same ▸ reads : Instruction.dropNext.Reads).elim

end Turn

/-- A call in the middle of a read of a slot or of a compare-exchange on it: `rest` is what is left of
that, and `accepted` follows. -/
structure Call.Searches (slot : SlotId) (rest accepted : List Instruction) (call : Call) : Prop where
  slot : call.slot = some slot
  code : call.code = rest ++ accepted
  reading : Reading rest

section Searches

open Instruction

variable {call call' : Call} {slot : SlotId} {code accepted : List Instruction} {i : Instruction}

theorem Call.Searches.alike (searches : call.Searches slot code accepted) (alike : call.Alike call') :
    call'.Searches slot code accepted :=
  ⟨alike.slot.trans searches.slot, alike.code.trans searches.code, searches.reading⟩

/-- What an instruction of a read leaves to do: not more rounds than it found, and no more
instructions that look at the slot or write it. -/
structure Instruction.Narrows (choice : Choice) (slot : SlotId) (i : Instruction)
    (code code' : List Instruction) (t t' : Turn) : Prop where
  rounds : (if i.begins then 1 else 0) + roundsOf (t'.world.word slot) code' ≤
    roundsOf (t.world.word slot) (i :: code)
  rests : (∀ j ∈ i :: code, j.looks = false) → ∀ j ∈ code', j.looks = false
  writes : (∀ j ∈ i :: code, ¬ j.Writes) → ∀ j ∈ code', ¬ j.Writes
  verdict : t.call.exchanged = true ∨ (i.stores choice t).isSome → t'.call.exchanged = true

theorem Turn.run_searches {choice : Choice} {inUse : SlotId → Bool} {t turn : Turn}
    (searches : call.Searches slot (i :: code) accepted) (acts : t.call.slot = some slot)
    (after : t.call.code = code ++ accepted) (there : slot < t.world.words.length)
    (ran : t.run choice inUse i = .ok turn) :
    ∃ code', turn.call.Searches slot code' accepted ∧ i.Narrows choice slot code code' t turn := by
  obtain ⟨reads, others⟩ := List.forall_mem_cons.mp searches.reading.reads
  have acts' : turn.call.slot = some slot := (run_slot reads ran).trans acts
  have word : t.world.word slot = t.word := by rw [Turn.word, acts, Option.bind_some]
  have word' : turn.world.word slot = turn.word := by rw [Turn.word, acts', Option.bind_some]
  -- What comes before the rest of the code may write only if the instruction does.
  have unwritten {new : List Instruction} (same : turn.call.code = new ++ t.call.code)
      (none : ∀ j ∈ i :: code, ¬ j.Writes) : ∀ j ∈ new ++ code, ¬ j.Writes := by
    obtain ⟨first, rest⟩ := List.forall_mem_cons.mp none
    intro j member
    rcases List.mem_append.mp member with fresh | old
    · exact fun writes => first (run_writes reads ran same j fresh writes)
    · exact rest j old
  have joined {new : List Instruction} (same : turn.call.code = new ++ t.call.code) :
      turn.call.code = (new ++ code) ++ accepted := by rw [same, after, List.append_assoc]
  cases run_search reads ran with
  | rests new rests code' verdict =>
    have none (word : Ref) : roundsOf word new = 0 := roundsOf_eq_zero fun j member => (rests j member).2
    have quiet : new.countP Instruction.looks = 0 :=
      List.countP_eq_zero.mpr fun j member => by simp [(rests j member).2]
    refine ⟨new ++ code, ⟨acts', joined code', ?_, ?_⟩, ?_, ?_, unwritten code', verdict⟩
    · exact fun j member => (List.mem_append.mp member).elim (fun new => (rests j new).1) (others j)
    · have count := searches.reading.looks
      rw [List.countP_cons] at count
      rw [List.countP_append, quiet]
      omega
    · rw [roundsOf_append, none, roundsOf, Nat.zero_add]
      cases looks : i.looks with
      | false =>
        -- The slot stays as it is.
        have same := Turn.run_words ran there
        rw [stores_of_rests reads looks, if_neg (Option.some_ne_none slot).symm] at same
        have begun : (if i.begins then 1 else 0) ≤ i.rounds (t.world.word slot) := begins_le
        rw [rounds_eq_zero looks] at begun ⊢
        rw [same]
        omega
      | true =>
        have rest := searches.reading.rests_of_looks looks
        rw [roundsOf_eq_zero rest, roundsOf_eq_zero rest]
        exact begins_le
    · exact fun none j member => (List.mem_append.mp member).elim (fun new => (rests j new).2)
        ((List.forall_mem_cons.mp none).2 j)
  | next new j rests looks reads' code' exchanged stores rounds =>
    -- The instruction has looked at the slot, and of what follows only `j` looks at it again.
    have rest := searches.reading.rests_of_looks looks
    have none (word : Ref) : roundsOf word new = 0 := roundsOf_eq_zero fun j member => (rests j member).2
    have quiet : (new ++ code).countP Instruction.looks = 0 := List.countP_eq_zero.mpr fun k member => by
      rcases List.mem_append.mp member with fresh | old
      · simp [(rests k fresh).2]
      · simp [rest k old]
    have same : turn.call.code = (new ++ [j]) ++ t.call.code := by rw [code', List.append_assoc]; rfl
    refine ⟨(new ++ [j]) ++ code, ⟨acts', joined same, ?_, ?_⟩, ?_, ?_, unwritten same,
      keeps_verdict exchanged stores⟩
    · intro k member
      rw [List.append_assoc] at member
      rcases List.mem_append.mp member with fresh | old
      · exact (rests k fresh).1
      · exact List.forall_mem_cons.mpr ⟨reads', others⟩ k old
    · rw [List.countP_append] at quiet
      rw [List.countP_append, List.countP_append, List.countP_singleton]
      split <;> omega
    · rw [roundsOf_append, roundsOf_append, none, roundsOf, roundsOf, roundsOf,
        roundsOf_eq_zero rest, roundsOf_eq_zero rest, word, word']
      omega
    · intro none
      have rests := (List.forall_mem_cons.mp none).1
      rw [looks] at rests
      contradiction

end Searches

end SharedCells.Slot
