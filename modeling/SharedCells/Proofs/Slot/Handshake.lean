import SharedCells.Proofs.Registry.Debts
import SharedCells.Slot.Turn

/-! The handshake of readers and writers.

A reader that has seen its address in a slot after it recorded its debt may count
a reference there although it owns none: a slot still refers to the object, or
its debt is paid, or a writer that has taken the address out of a slot will yet
come to the debt. This module keeps that fact through every access to the words
of the slots and to the registry. It regards all instructions in progress as one
pool, whatever call and thread they belong to. -/

set_option autoImplicit false

namespace SharedCells.Slot

open Registry (Debt Claim Settle Payment)

namespace Instruction

/-- The reference that an instruction gives up, or that a payer has counted for a reader. -/
def owned? : Instruction → Option Addr
  | .drop addr | .pay addr (.mark _) | .pay addr (.release _) => some addr
  | _ => none

/-- The debt of a read that has recorded and not settled it. -/
def debt? : Instruction → Option Debt
  | .recheck _ debt | .increment _ debt | .settle _ debt _ | .stale _ debt _ _ => some debt
  | _ => none

/-- Instructions that need nothing of the registry. -/
def Plain : Instruction → Prop
  | .pay _ _ | .recheck _ _ | .increment _ _ | .settle _ _ _ | .stale _ _ _ _ => False
  | .claim _ _ progress => progress.Pending
  | _ => True

/-- A claim or a settlement in code is not at its end, and only a paid mark is about to be
cleared. -/
def Fit (r : Registry) : Instruction → Prop
  | .claim _ _ progress => progress.Pending
  | .settle _ debt progress | .stale _ debt _ progress =>
    progress = .withdraw ∨ progress = .clear ∧ r.read debt.place = some .paid
  | _ => True

variable {i : Instruction} {r : Registry}

theorem Plain.debt? (plain : i.Plain) : i.debt? = none := by
  cases i <;> first | exact plain.elim | rfl

theorem Plain.fit (plain : i.Plain) : i.Fit r := by
  cases i <;> trivial

theorem Plain.ne_pay (plain : i.Plain) (addr : Addr) (payment : Payment) : i ≠ .pay addr payment := by
  rintro rfl
  exact plain

theorem Fit.of_paid {r' : Registry} (fit : i.Fit r)
    (stays : ∀ d, i.debt? = some d → r.read d.place = some .paid → r'.read d.place = some .paid) :
    i.Fit r' := by
  cases i with
  | settle purpose d progress =>
    exact fit.imp_right fun clear => ⟨clear.1, stays d rfl clear.2⟩
  | stale purpose d seen progress =>
    exact fit.imp_right fun clear => ⟨clear.1, stays d rfl clear.2⟩
  | claim purpose addr claim => exact fit
  | _ => trivial

end Instruction

/-- The debts recorded and not settled. -/
def debts (pool : List Instruction) : List Debt := pool.filterMap Instruction.debt?

/-- The object at the address of the debt has a reference that outlives the reader's count. -/
def Covered (w : World) (pool : List Instruction) (debt : Debt) : Prop :=
  some debt.addr ∈ w.words ∨ w.registry.read debt.place = some .paid ∨
    ∃ payment, .pay debt.addr payment ∈ pool ∧ payment.Awaits w.registry debt.place

/-- The registry and the instructions in progress agree. -/
structure Agreed (w : World) (pool : List Instruction) : Prop where
  chained : w.registry.Chained
  backed : w.registry.Backed (debts pool)
  fit : ∀ i ∈ pool, i.Fit w.registry
  covered : ∀ purpose debt, .increment purpose debt ∈ pool → Covered w pool debt

section Pool

variable {w w' : World} {pool pool' new : List Instruction} {i : Instruction} {debt : Debt}
  {addr : Addr}

theorem debts_cons_of_some (recorded : i.debt? = some debt) :
    debts (i :: pool) = debt :: debts pool := by
  simp [debts, recorded]

theorem debts_cons_of_none (none : i.debt? = none) : debts (i :: pool) = debts pool := by
  simp [debts, none]

theorem debts_append : debts (new ++ pool) = debts new ++ debts pool := List.filterMap_append

theorem mem_debts (member : i ∈ pool) (recorded : i.debt? = some debt) : debt ∈ debts pool :=
  List.mem_filterMap.mpr ⟨i, member, recorded⟩

theorem debts_of_plain (plain : ∀ i ∈ new, i.Plain) : debts new = [] := by
  rw [debts, List.filterMap_eq_nil_iff]
  exact fun i member => (plain i member).debt?

theorem Covered.mono (covered : Covered w pool debt)
    (words : some debt.addr ∈ w.words → Covered w' pool' debt)
    (read : w.registry.read debt.place = some .paid → w'.registry.read debt.place = some .paid)
    (payments : ∀ payment : Payment, .pay debt.addr payment ∈ pool →
      payment.Awaits w.registry debt.place → Covered w' pool' debt) : Covered w' pool' debt := by
  rcases covered with word | paid | ⟨payment, member, awaits⟩
  · exact words word
  · exact .inr (.inl (read paid))
  · exact payments payment member awaits

namespace Agreed

theorem perm (agreed : Agreed w pool) (perm : pool.Perm pool') : Agreed w pool' where
  chained := agreed.chained
  backed := agreed.backed.perm (perm.filterMap _)
  fit i member := agreed.fit i (perm.mem_iff.mpr member)
  covered purpose debt member :=
    (agreed.covered purpose debt (perm.mem_iff.mpr member)).mono .inl id
      fun payment pays awaits => .inr (.inr ⟨payment, perm.mem_iff.mp pays, awaits⟩)

/-- Only the registry and the words matter, and words may be added. -/
theorem of_words (agreed : Agreed w pool) (registry : w'.registry = w.registry)
    (words : ∀ addr, some addr ∈ w.words → some addr ∈ w'.words) : Agreed w' pool where
  chained := registry ▸ agreed.chained
  backed := registry ▸ agreed.backed
  fit i member := registry ▸ agreed.fit i member
  covered purpose debt member :=
    (agreed.covered purpose debt member).mono (fun word => .inl (words _ word)) (registry ▸ id)
      fun payment pays awaits => .inr (.inr ⟨payment, pays, registry ▸ awaits⟩)

theorem of_cons (agreed : Agreed w (i :: pool)) (plain : i.Plain) : Agreed w pool where
  chained := agreed.chained
  backed := debts_cons_of_none plain.debt? ▸ agreed.backed
  fit j member := agreed.fit j (List.mem_cons_of_mem _ member)
  covered purpose debt member :=
    (agreed.covered purpose debt (List.mem_cons_of_mem _ member)).mono .inl id
      fun payment pays awaits => .inr (.inr ⟨payment,
        (List.mem_cons.mp pays).resolve_left (plain.ne_pay _ _).symm, awaits⟩)

theorem of_append (agreed : Agreed w (new ++ pool)) (plain : ∀ i ∈ new, i.Plain) : Agreed w pool := by
  induction new with
  | nil => exact agreed
  | cons i rest ih =>
    have next : Agreed w (rest ++ pool) := agreed.of_cons (plain i List.mem_cons_self)
    exact ih next fun j member => plain j (List.mem_cons_of_mem _ member)

theorem append (agreed : Agreed w pool) (plain : ∀ i ∈ new, i.Plain) : Agreed w (new ++ pool) where
  chained := agreed.chained
  backed := by
    rw [debts_append, debts_of_plain plain]
    exact agreed.backed
  fit i member := by
    rcases List.mem_append.mp member with member | member
    · exact (plain i member).fit
    · exact agreed.fit i member
  covered purpose debt member := by
    rcases List.mem_append.mp member with member | member
    · exact (plain _ member).elim
    · exact (agreed.covered purpose debt member).mono .inl id
        fun payment pays awaits => .inr (.inr ⟨payment, List.mem_append_right _ pays, awaits⟩)

/-- A writer that takes an address out of a slot begins to pay the debts on it. -/
theorem publish (agreed : Agreed w pool) (slot : SlotId) (ref : Ref) :
    Agreed (w.setWord slot ref) ((w.word slot).toList.map (.pay · .start) ++ pool) where
  chained := agreed.chained
  backed := by
    have none : debts ((w.word slot).toList.map (.pay · .start)) = [] := by
      cases w.word slot <;> rfl
    rw [debts_append, none]
    exact agreed.backed
  fit i member := by
    rcases List.mem_append.mp member with member | member
    · obtain ⟨addr, -, rfl⟩ := List.mem_map.mp member
      trivial
    · exact agreed.fit i member
  covered purpose debt member := by
    rcases List.mem_append.mp member with member | member
    · obtain ⟨addr, -, same⟩ := List.mem_map.mp member
      contradiction
    · refine (agreed.covered purpose debt member).mono (fun word => ?_) id
        fun payment pays awaits => .inr (.inr ⟨payment, List.mem_append_right _ pays, awaits⟩)
      -- Either some other slot keeps the address, or this is the one that it is taken from.
      obtain ⟨index, there⟩ := List.mem_iff_getElem?.mp word
      by_cases same : slot = index
      · subst same
        have old : w.word slot = some debt.addr := by simp [World.word, there]
        refine .inr (.inr ⟨.start, List.mem_append_left _ (by simp [old]), ?_⟩)
        exact agreed.backed.published (mem_debts member rfl)
      · refine .inl (List.mem_iff_getElem?.mpr ⟨index, ?_⟩)
        rw [World.setWord, List.getElem?_set_ne same, there]

section Payments

variable {payment : Payment}

/-- A step of a payer covers what it covered before, or has paid the debt. -/
theorem pay (agreed : Agreed w (.pay addr payment :: pool)) :
    Agreed { w with registry := (payment.step addr w.registry).2 }
      (.pay addr (payment.step addr w.registry).1 :: pool) := by
  have backed : w.registry.Backed (debts pool) := agreed.backed
  -- A step writes at most one mark, and only from owed to paid.
  have writes : (payment.step addr w.registry).2 = w.registry ∨
      ∃ p, w.registry.read p = some (.owed addr) ∧
        (payment.step addr w.registry).2 = w.registry.write p .paid := by
    cases payment with
    | mark p =>
      by_cases owed : w.registry.read p = some (.owed addr)
      · exact .inr ⟨p, owed, by rw [Payment.step_mark_of_owed owed]⟩
      · exact .inl (by rw [Payment.step_mark_of_not_owed owed])
    | _ => exact .inl rfl
  have stays (place : Registry.Place) (paid : w.registry.read place = some .paid) :
      (payment.step addr w.registry).2.read place = some .paid := by
    rcases writes with same | ⟨p, owed, same⟩
    · rw [same, paid]
    · by_cases here : place = p
      · rw [same, here, Registry.read_write_self (Registry.Place.Published.of_read owed)]
      · rw [same, Registry.read_write_of_ne here, paid]
  have backed' : (payment.step addr w.registry).2.Backed (debts pool) := by
    rcases writes with same | ⟨p, owed, same⟩
    · rw [same]; exact backed
    · rw [same]; exact backed.pay owed
  refine ⟨?_, backed', fun i member => ?_, fun purpose debt member => ?_⟩
  · rcases writes with same | ⟨p, -, same⟩
    · rw [same]; exact agreed.chained
    · rw [same]; exact agreed.chained.write
  · rcases List.mem_cons.mp member with rfl | member
    · trivial
    · exact (agreed.fit i (List.mem_cons_of_mem _ member)).of_paid fun d _ => stays d.place
  · have inside : .increment purpose debt ∈ pool := by simpa using member
    have recorded : debt ∈ debts pool := mem_debts inside rfl
    refine (agreed.covered purpose debt (List.mem_cons_of_mem _ inside)).mono .inl
      (stays debt.place) fun other pays awaits => ?_
    rcases List.mem_cons.mp pays with this | pays
    · obtain ⟨rfl, rfl⟩ := Instruction.pay.inj this
      -- A payer goes past an unsettled debt on its address only by marking it as paid.
      rcases Payment.awaits_step agreed.chained awaits with awaits | gone
      · exact .inr (.inr ⟨_, List.mem_cons_self, awaits⟩)
      · exact .inr (.inl ((backed'.marked debt recorded).resolve_left gone))
    · refine .inr (.inr ⟨other, List.mem_cons_of_mem _ pays, ?_⟩)
      rcases writes with same | ⟨p, -, same⟩
      · rw [same]; exact awaits
      · rw [same]; exact awaits.write

theorem resume (agreed : Agreed w (.pay addr payment :: pool)) :
    Agreed w (.pay addr (payment.resume w.registry) :: pool) where
  chained := agreed.chained
  backed := agreed.backed
  fit i member := by
    rcases List.mem_cons.mp member with rfl | member
    · trivial
    · exact agreed.fit i (List.mem_cons_of_mem _ member)
  covered purpose debt member := by
    have inside : .increment purpose debt ∈ pool := by simpa using member
    refine (agreed.covered purpose debt (List.mem_cons_of_mem _ inside)).mono .inl id
      fun other pays awaits => ?_
    rcases List.mem_cons.mp pays with this | pays
    · obtain ⟨rfl, rfl⟩ := Instruction.pay.inj this
      exact .inr (.inr ⟨_, List.mem_cons_self, Payment.awaits_resume agreed.chained awaits⟩)
    · exact .inr (.inr ⟨other, List.mem_cons_of_mem _ pays, awaits⟩)

theorem finish (agreed : Agreed w (.pay addr .finished :: pool)) : Agreed w pool where
  chained := agreed.chained
  backed := agreed.backed
  fit i member := agreed.fit i (List.mem_cons_of_mem _ member)
  covered purpose debt member := by
    refine (agreed.covered purpose debt (List.mem_cons_of_mem _ member)).mono .inl id
      fun other pays awaits => ?_
    rcases List.mem_cons.mp pays with this | pays
    · obtain ⟨rfl, rfl⟩ := Instruction.pay.inj this
      exact awaits.elim
    · exact .inr (.inr ⟨other, pays, awaits⟩)

end Payments

section Debts

variable {purpose : Purpose} {seen : Ref}

/-- A debt just recorded stands beside the others, whose marks stay as they are. -/
private theorem record {r : Registry} (agreed : Agreed w pool) (recorded : i.debt? = some debt)
    (chained : r.Chained) (backed : r.Backed (debt :: debts pool)) (fit : i.Fit r)
    (notIncrement : ∀ purpose, i ≠ .increment purpose debt)
    (reads : ∀ d ∈ debts pool, r.read d.place = w.registry.read d.place)
    (awaits : ∀ (payment : Payment) (p : Registry.Place), payment.Awaits w.registry p →
      payment.Awaits r p) :
    Agreed { w with registry := r } (i :: pool) where
  chained := chained
  backed := by
    rw [debts_cons_of_some recorded]
    exact backed
  fit j member := by
    rcases List.mem_cons.mp member with rfl | member
    · exact fit
    · refine (agreed.fit j member).of_paid fun d has paid => ?_
      rw [reads d (mem_debts member has), paid]
  covered purpose d member := by
    rcases List.mem_cons.mp member with this | member
    · subst this
      rw [Instruction.debt?, Option.some.injEq] at recorded
      subst recorded
      exact absurd rfl (notIncrement purpose)
    · refine (agreed.covered purpose d member).mono .inl (fun paid => ?_)
        fun payment pays waits => .inr (.inr ⟨payment, List.mem_cons_of_mem _ pays, awaits _ _ waits⟩)
      exact (reads d (mem_debts member rfl)).trans paid

theorem claim {progress : Claim} (agreed : Agreed w (.claim purpose addr progress :: pool))
    (spurious : Bool) :
    (∃ next : Claim, progress.step addr spurious w.registry = (next, w.registry) ∧
        (∀ place grown, next ≠ .recorded place grown) ∧
        Agreed w (.claim purpose addr next :: pool)) ∨
      ∃ place grown r, progress.step addr spurious w.registry = (.recorded place grown, r) ∧
        Agreed { w with registry := r } (.recheck purpose ⟨place, addr⟩ :: pool) ∧
        ∀ other, r.paid (⟨place, addr⟩ :: debts pool) other = w.registry.paid (debts pool) other := by
  have pending : progress.Pending := agreed.fit _ List.mem_cons_self
  have rest : Agreed w pool := agreed.of_cons pending
  have backed := rest.backed
  rcases Claim.step_cases pending addr spurious w.registry with
    ⟨next, still, step⟩ | ⟨p, free, step⟩ | step
  -- The claim scans on, takes a free mark, or publishes a node with a mark for itself.
  · have plain : ∀ i ∈ [Instruction.claim purpose addr next], i.Plain := by
      simpa [Instruction.Plain] using still
    refine .inl ⟨next, step, ?_, rest.append plain⟩
    rintro place grown rfl
    exact still
  · refine .inr ⟨p, false, _, step, ?_, fun other => backed.paid_take free⟩
    exact record rest rfl agreed.chained.write (backed.take free) trivial (by simp)
      (fun d member => Registry.Backed.read_write_other (backed.free_not_mem free) member)
      fun payment place waits => waits.write
  · refine .inr ⟨_, true, _, step, ?_, fun other => backed.paid_publish⟩
    exact record rest rfl agreed.chained.publish backed.publish trivial (by simp)
      (fun d member => Registry.read_publish_of_published (backed.published member))
      fun payment place waits => waits.publish

private theorem exchange {j : Instruction} (agreed : Agreed w (i :: pool))
    (recorded : i.debt? = some debt) (recorded' : j.debt? = some debt) (fit : j.Fit w.registry)
    (covered : ∀ purpose, j = .increment purpose debt → Covered w pool debt) :
    Agreed w (j :: pool) := by
  have same : debts (j :: pool) = debts (i :: pool) := by
    rw [debts_cons_of_some recorded, debts_cons_of_some recorded']
  have onto (d : Debt) (was : Covered w (i :: pool) d) : Covered w (j :: pool) d := by
    refine was.mono .inl id fun payment pays awaits => ?_
    rcases List.mem_cons.mp pays with this | pays
    · subst this
      contradiction
    · exact .inr (.inr ⟨payment, List.mem_cons_of_mem _ pays, awaits⟩)
  refine ⟨agreed.chained, same ▸ agreed.backed, fun k member => ?_, fun purpose d member => ?_⟩
  · rcases List.mem_cons.mp member with rfl | member
    · exact fit
    · exact agreed.fit k (List.mem_cons_of_mem _ member)
  · rcases List.mem_cons.mp member with this | member
    · subst this
      rw [Instruction.debt?, Option.some.injEq] at recorded'
      subst recorded'
      exact (covered purpose rfl).mono .inl id
        fun payment pays awaits => .inr (.inr ⟨payment, List.mem_cons_of_mem _ pays, awaits⟩)
    · exact onto d (agreed.covered purpose d (List.mem_cons_of_mem _ member))

/-- The slot still holds the address, so the reader may count its reference. -/
theorem recheck_word (agreed : Agreed w (.recheck purpose debt :: pool))
    (word : some debt.addr ∈ w.words) : Agreed w (.increment purpose debt :: pool) :=
  agreed.exchange rfl rfl trivial fun _ _ => .inl word

theorem recheck_stale (agreed : Agreed w (.recheck purpose debt :: pool)) :
    Agreed w (.stale purpose debt seen .withdraw :: pool) :=
  agreed.exchange rfl rfl (.inl rfl) nofun

theorem increment (agreed : Agreed w (.increment purpose debt :: pool)) :
    Agreed w (.settle purpose debt .withdraw :: pool) :=
  agreed.exchange rfl rfl (.inl rfl) nofun

theorem settle_clear {progress : Settle} (agreed : Agreed w (.settle purpose debt progress :: pool))
    (paid : w.registry.read debt.place = some .paid) :
    Agreed w (.settle purpose debt .clear :: pool) :=
  agreed.exchange rfl rfl (.inr ⟨rfl, paid⟩) nofun

theorem stale_clear {progress : Settle}
    (agreed : Agreed w (.stale purpose debt seen progress :: pool))
    (paid : w.registry.read debt.place = some .paid) :
    Agreed w (.stale purpose debt seen .clear :: pool) :=
  agreed.exchange rfl rfl (.inr ⟨rfl, paid⟩) nofun

/-- The owner of a debt frees its mark and is done with it. -/
theorem settled (agreed : Agreed w (i :: pool)) (recorded : i.debt? = some debt) :
    Agreed { w with registry := w.registry.write debt.place .free } pool := by
  have backed : w.registry.Backed (debt :: debts pool) := by
    rw [← debts_cons_of_some recorded]
    exact agreed.backed
  have reads (d : Debt) (member : d ∈ debts pool) :
      (w.registry.write debt.place .free).read d.place = w.registry.read d.place :=
    Registry.Backed.read_write_other backed.not_mem_places member
  refine ⟨agreed.chained.write, backed.settle, fun j member => ?_, fun purpose d member => ?_⟩
  · refine (agreed.fit j (List.mem_cons_of_mem _ member)).of_paid fun d has paid => ?_
    rw [reads d (mem_debts member has), paid]
  · refine (agreed.covered purpose d (List.mem_cons_of_mem _ member)).mono .inl
      (fun paid => (reads d (mem_debts member rfl)).trans paid) fun payment pays awaits => ?_
    rcases List.mem_cons.mp pays with this | pays
    · subst this
      contradiction
    · exact .inr (.inr ⟨payment, pays, awaits.write⟩)

end Debts

end Agreed

end Pool

end SharedCells.Slot
