import SharedCells.Proofs.Slot.Soundness

/-! The instructions of readers and payers.

A payer counts a reference before it marks a debt as paid, and so the reader
that finds its debt paid owns one. Readers and payers may be anywhere in their
code when another thread takes a step; what they need is in `Agreed`. -/

set_option autoImplicit false

namespace SharedCells.Slot

open Registry (Debt Claim Settle Payment)

namespace Sound

variable {w : World} {call : Call} {rest : List Call} {graves : List Addr} {code : List Instruction}
  {choice : Choice} {inUse : SlotId → Bool} {addr : Addr} {purpose : Purpose} {debt : Debt}
  {seen : Ref}

theorem run_drop (sound : Sound w (call :: rest) graves []) (head : call.code = .drop addr :: code) :
    (Instruction.drop addr).Runs choice inUse w { call with code } rest graves := by
  have loose : Sound w ({ call with code } :: rest) graves [addr] := sound.uncons head trivial
  obtain ⟨left, heap, released⟩ :=
    Heap.release?_of_pos (loose.counted_of_loose List.mem_cons_self)
  have given := loose.release released
  refine ⟨_, Turn.run_eq_iff.mpr (.drop released), ?_⟩
  unfold Turn.Sound
  dsimp only
  split
  · next last => rwa [if_pos last] at given
  · next more => rwa [if_neg more] at given

section Payments

variable {payment : Payment}

theorem owned?_scan (place : Option Registry.Place) :
    (Instruction.pay addr (Payment.scan place)).owned? = none := by
  cases place <;> rfl

/-- A payer that marks a debt as paid gives the debt the reference that it has counted. -/
theorem balance_pay {r : Registry} {debts : List Debt} (backed : r.Backed debts)
    (payment : Payment) (addr other : Addr) :
    (payment.step addr r).2.paid debts other +
        (if (Instruction.pay addr (payment.step addr r).1).owned? = some other then 1 else 0) =
      r.paid debts other + if (Instruction.pay addr payment).owned? = some other then 1 else 0 := by
  cases payment with
  | start => rw [Payment.step, owned?_scan]; rfl
  | test p =>
    rw [Payment.step_test]
    split
    · rfl
    · rw [owned?_scan]; rfl
  | mark p =>
    by_cases owed : r.read p = some (.owed addr)
    · have paid : _ = r.paid debts other + _ := backed.paid_pay owed
      rw [Payment.step_mark_of_owed owed, owned?_scan, paid]
      simp [Instruction.owned?]
    · rw [Payment.step_mark_of_not_owed owed]
      rfl
  | retain p | release p | finished => rfl

theorem payer (sound : Sound w (call :: rest) graves [])
    (head : call.code = .pay addr payment :: code) : call.registers.observed = some addr :=
  (sound.sane call List.mem_cons_self).payer addr payment (head ▸ List.mem_cons_self)

theorem step_pay (sound : Sound w (call :: rest) graves [])
    (head : call.code = .pay addr payment :: code) :
    Sound { w with registry := (payment.step addr w.registry).2 }
      ({ call with code := .pay addr (payment.step addr w.registry).1 :: code } :: rest)
      graves [] := by
  have agreed := sound.agreed_of_head head
  refine sound.advance head nofun [_] agreed.pay (fun other => ?_)
    (List.pairwise_singleton _ _) (fun j member => ?_) fun addr' payment' pays => ?_
  · have balance := balance_pay agreed.backed payment addr other
    simp only [List.countP_singleton, decide_eq_true_eq] at balance ⊢
    have same (p : Payment) : debts (.pay addr p :: (code ++ poolOf rest)) =
        debts (code ++ poolOf rest) := debts_cons_of_none rfl
    rw [List.singleton_append, same]
    rw [same] at balance ⊢
    omega
  · rw [List.mem_singleton.mp member]
    exact id
  · rw [List.mem_singleton, Instruction.pay.injEq] at pays
    rw [pays.1]
    exact sound.payer head

theorem run_pay (sound : Sound w (call :: rest) graves [])
    (head : call.code = .pay addr payment :: code) :
    (Instruction.pay addr payment).Runs choice inUse w { call with code } rest graves := by
  have stepped := sound.step_pay head
  have payer := sound.payer head
  cases payment with
  | start | test p | mark p => exact ⟨_, rfl, stepped⟩
  | finished =>
    refine ⟨_, rfl, sound.advance head (by simp) [] (sound.agreed_of_head head).finish
      (fun other => ?_) .nil (fun j member => absurd member List.not_mem_nil)
      fun addr' payment' member => absurd member List.not_mem_nil⟩
    rw [debts_cons_of_none rfl]
    simp [Instruction.owned?]
  | retain p =>
    -- The payer has a reference of its own, so that the object is there to be retained.
    obtain ⟨heap, retained⟩ :=
      Heap.retain?_of_pos (sound.counted_of_register List.mem_cons_self .observed payer)
    have counted := sound.retain retained
    have next : Sound { w with heap } ({ call with code := .pay addr (.mark p) :: code } :: rest)
        graves [] := by
      refine counted.advance head (by simp) [.pay addr (.mark p)] (counted.agreed_of_head head).resume
        (fun other => ?_) (List.pairwise_singleton _ _) ?_ ?_
      · rw [List.singleton_append, debts_cons_of_none rfl, debts_cons_of_none rfl]
        simp [Instruction.owned?, List.count_singleton]
      · simp [Instruction.Abandons]
      · rintro addr' payment' pays
        rw [List.mem_singleton, Instruction.pay.injEq] at pays
        rw [pays.1, payer]
    exact ⟨_, Turn.run_eq_iff.mpr (.pay_retain p retained), next⟩
  | release p =>
    have resumed := (sound.agreed_of_head head).resume
    have dropped : ∀ i ∈ [Instruction.drop addr], i.Plain := by simp [Instruction.Plain]
    refine ⟨_, rfl, sound.advance head (by simp) [.drop addr, .pay addr (Payment.scan _)]
      (resumed.append dropped) (fun other => ?_) ?_ ?_ ?_⟩
    · simp only [List.cons_append, List.nil_append, List.countP_cons, List.countP_nil, owned?_scan]
      rw [debts_cons_of_none rfl, debts_cons_of_none rfl, debts_cons_of_none rfl]
      simp [Instruction.owned?]
    · simp [Instruction.Precedes, Instruction.Abandons]
    · simp [Instruction.Abandons]
    · rintro addr' payment' pays
      simp only [List.mem_cons, reduceCtorEq, false_or, List.not_mem_nil, or_false,
        Instruction.pay.injEq] at pays
      rw [pays.1, payer]

end Payments

section Reads

variable {i : Instruction} {loose : List Addr}

theorem run_claim {progress : Claim} (sound : Sound w (call :: rest) graves [])
    (head : call.code = .claim purpose addr progress :: code) :
    (Instruction.claim purpose addr progress).Runs choice inUse w { call with code } rest graves := by
  rcases (sound.agreed_of_head head).claim choice.spurious with
    ⟨next, step, scans, agreed⟩ | ⟨place, grown, r, step, agreed, paid⟩
  · have stepped : Sound w ({ call with code := .claim purpose addr next :: code } :: rest) graves [] := by
      refine sound.advance head nofun [.claim purpose addr next] agreed (fun other => ?_)
        (List.pairwise_singleton _ _) (by simp [Instruction.Abandons]) (by simp)
      rw [List.singleton_append, debts_cons_of_none rfl, debts_cons_of_none rfl]
      simp [Instruction.owned?]
    exact ⟨_, Turn.run_eq_iff.mpr (.claim purpose step scans), stepped⟩
  · have recorded : Sound { w with registry := r }
        ({ call with code := .recheck purpose ⟨place, addr⟩ :: code } :: rest) graves [] := by
      refine sound.advance head nofun [.recheck purpose ⟨place, addr⟩] agreed (fun other => ?_)
        (List.pairwise_singleton _ _) (by simp [Instruction.Abandons]) (by simp)
      rw [List.singleton_append, debts_cons_of_some rfl, debts_cons_of_none rfl, paid]
      simp [Instruction.owned?]
    exact ⟨_, Turn.run_eq_iff.mpr (.recorded purpose step), recorded⟩

theorem of_debt? (recorded : i.debt? = some debt) :
    i.owned? = none ∧ ¬ i.Abandons ∧ (∀ addr, i ≠ .drop addr) ∧
      ∀ addr payment, i ≠ .pay addr payment := by
  cases i <;> first | contradiction | exact ⟨rfl, id, nofun, nofun⟩

theorem keep {j : Instruction} (sound : Sound w (call :: rest) graves [])
    (head : call.code = i :: code) (recorded : i.debt? = some debt)
    (recorded' : j.debt? = some debt) (agreed : Agreed w (j :: (code ++ poolOf rest))) :
    Sound w ({ call with code := j :: code } :: rest) graves [] := by
  obtain ⟨unowned, -, keeps, -⟩ := of_debt? recorded
  obtain ⟨unowned', stays, -, quiet⟩ := of_debt? recorded'
  -- The debt stands behind the new instruction as it stood behind the old one.
  refine sound.advance head keeps [j] agreed (fun other => ?_) (List.pairwise_singleton _ _)
    (fun k member => ?_) fun addr payment pays => ?_
  · rw [List.singleton_append, debts_cons_of_some recorded, debts_cons_of_some recorded']
    simp [unowned, unowned']
  · rw [List.mem_singleton.mp member]
    exact stays
  · exact absurd (List.mem_singleton.mp pays).symm (quiet addr payment)

theorem run_recheck (sound : Sound w (call :: rest) graves [])
    (head : call.code = .recheck purpose debt :: code) :
    (Instruction.recheck purpose debt).Runs choice inUse w { call with code } rest graves := by
  have agreed := sound.agreed_of_head head
  by_cases word : Turn.word { world := w, call := { call with code } } = some debt.addr
  · exact ⟨_, Turn.GivesWay.run (.recheck_same purpose word),
      sound.keep head rfl rfl (agreed.recheck_word (Turn.Steady.mem_words word))⟩
  · exact ⟨_, Turn.GivesWay.run (.recheck_differs purpose word), sound.keep head rfl rfl agreed.recheck_stale⟩

theorem adopt (sound : Sound w (call :: rest) graves loose) (head : call.code = i :: code)
    (keeps : ∀ addr, i ≠ .drop addr) (addr : Addr) (new : List Instruction) {r : Registry}
    (agreed : Agreed { w with registry := r } (new ++ (code ++ poolOf rest)))
    (balance : ∀ other,
      r.paid (debts (new ++ (code ++ poolOf rest))) other + (if addr = other then 1 else 0) +
          new.countP (fun j => j.owned? = some other) =
        w.registry.paid (debts (i :: (code ++ poolOf rest))) other +
          (if i.owned? = some other then 1 else 0) + loose.count other)
    (order : new.Pairwise Instruction.Precedes) (stays : ∀ j ∈ new, ¬ j.Abandons)
    (quiet : ∀ addr payment, .pay addr payment ∉ new) :
    Sound { w with registry := r }
      ({ call with
          code := call.registers.observed.toList.map .drop ++ (new ++ code)
          registers := call.registers.set .observed (some addr) } :: rest) graves [] := by
  have dropped (j : Instruction) (member : j ∈ call.registers.observed.toList.map Instruction.drop) :
      ∃ addr, j = .drop addr := by
    obtain ⟨addr, -, rfl⟩ := List.mem_map.mp member
    exact ⟨addr, rfl⟩
  have plain (j : Instruction) (member : j ∈ call.registers.observed.toList.map Instruction.drop) :
      j.Plain := by
    obtain ⟨addr, rfl⟩ := dropped j member
    trivial
  have owned (other : Addr) :
      (call.registers.observed.toList.map Instruction.drop).countP (fun j => j.owned? = some other) =
        if call.registers.observed = some other then 1 else 0 := by
    cases call.registers.observed <;> simp [Instruction.owned?, List.countP_cons]
  rw [← List.append_assoc]
  -- What the register has held is dropped first.
  refine sound.advance head keeps _ ?_ (fun other => ?_) ?_ (fun j member => ?_) fun addr payment pays => ?_
  · rw [List.append_assoc]
    exact agreed.append plain
  · have balance := balance other
    have count : (call.registers.set .observed (some addr)).count other +
        (if call.registers.observed = some other then 1 else 0) = _ := Registers.count_set _ .observed
    rw [List.append_assoc, debts_append, debts_of_plain plain, List.countP_append, owned]
    simp only [List.nil_append, List.count_nil, Option.some.injEq] at count ⊢
    omega
  · refine List.pairwise_append.mpr ⟨List.pairwise_of_forall_mem_list fun j inJ k inK => ?_, order,
      fun j inJ k inK => ?_⟩
    · obtain ⟨addr, rfl⟩ := dropped j inJ
      exact ⟨.inr ⟨addr, rfl⟩, False.elim⟩
    · obtain ⟨addr, rfl⟩ := dropped j inJ
      exact ⟨.inr ⟨addr, rfl⟩, False.elim⟩
  · rcases List.mem_append.mp member with member | member
    · obtain ⟨addr, rfl⟩ := dropped j member
      exact id
    · exact stays j member
  · rcases List.mem_append.mp pays with pays | pays
    · obtain ⟨addr, same⟩ := dropped _ pays
      contradiction
    · exact absurd pays (quiet _ _)

theorem run_increment (sound : Sound w (call :: rest) graves [])
    (head : call.code = .increment purpose debt :: code) :
    (Instruction.increment purpose debt).Runs choice inUse w { call with code } rest graves := by
  have member : .increment purpose debt ∈ poolOf (call :: rest) := by
    rw [poolOf_cons, head]
    exact List.mem_cons_self
  -- The reader owns no reference yet, but the handshake says that there is one.
  obtain ⟨heap, retained⟩ := Heap.retain?_of_pos (sound.counted_of_increment member)
  have counted := sound.retain retained
  have next := counted.adopt head nofun debt.addr [.settle purpose debt .withdraw]
    (counted.agreed_of_head head).increment (fun other => by
      rw [List.singleton_append, debts_cons_of_some rfl, debts_cons_of_some rfl]
      simp [Instruction.owned?, List.count_singleton])
    (List.pairwise_singleton _ _) (by simp [Instruction.Abandons]) (by simp)
  exact ⟨_, Turn.run_eq_iff.mpr (.increment (Turn.retainInto_of_retain? retained)), next⟩

theorem marked (sound : Sound w (call :: rest) graves []) (head : call.code = i :: code)
    (recorded : i.debt? = some debt) :
    w.registry.read debt.place = some (.owed debt.addr) ∨ w.registry.read debt.place = some .paid :=
  (sound.agreed_of_head head).backed.marked debt (mem_debts List.mem_cons_self recorded)

theorem withdraw (sound : Sound w (call :: rest) graves []) (head : call.code = i :: code)
    (recorded : i.debt? = some debt) (owed : w.registry.read debt.place = some (.owed debt.addr))
    {new : List Instruction} (light : ∀ j ∈ new, j.Light) :
    Sound { w with registry := w.registry.write debt.place .free }
      ({ call with code := new ++ code } :: rest) graves [] := by
  have agreed := sound.agreed_of_head head
  obtain ⟨unowned, -, keeps, -⟩ := of_debt? recorded
  have plain : ∀ j ∈ new, j.Plain := fun j member => (light j member).plain
  have stays : ∀ j ∈ new, ¬ j.Abandons := fun j member => (light j member).stays
  refine sound.advance head keeps new ((agreed.settled recorded).append plain) (fun other => ?_)
    (Instruction.pairwise_of_plain plain stays) stays fun addr payment pays => (plain _ pays).elim
  have backed : w.registry.Backed (debt :: debts (code ++ poolOf rest)) := by
    rw [← debts_cons_of_some recorded]
    exact agreed.backed
  rw [debts_append, debts_of_plain plain, List.nil_append, backed.paid_settle,
    debts_cons_of_some recorded, Registry.paid_cons, owed, Instruction.countP_of_light light, unowned]
  simp

theorem balance_clear (sound : Sound w (call :: rest) graves []) (head : call.code = i :: code)
    (recorded : i.debt? = some debt) (paid : w.registry.read debt.place = some .paid)
    {new : List Instruction} (plain : ∀ j ∈ new, j.Plain) (other : Addr) :
    (w.registry.write debt.place .free).paid (debts (new ++ (code ++ poolOf rest))) other +
        (if debt.addr = other then 1 else 0) =
      w.registry.paid (debts (i :: (code ++ poolOf rest))) other := by
  have backed : w.registry.Backed (debt :: debts (code ++ poolOf rest)) := by
    rw [← debts_cons_of_some recorded]
    exact (sound.agreed_of_head head).backed
  rw [debts_append, debts_of_plain plain, List.nil_append, backed.paid_settle,
    debts_cons_of_some recorded, Registry.paid_cons, paid]
  simp

/-- A reader that has counted its own reference drops the one that its payer has counted. -/
theorem settle_clear (sound : Sound w (call :: rest) graves []) (head : call.code = i :: code)
    (recorded : i.debt? = some debt) (paid : w.registry.read debt.place = some .paid)
    {new : List Instruction} (light : ∀ j ∈ new, j.Light) :
    Sound { w with registry := w.registry.write debt.place .free }
      ({ call with code := .drop debt.addr :: new ++ code } :: rest) graves [] := by
  have agreed := sound.agreed_of_head head
  obtain ⟨unowned, -, keeps, -⟩ := of_debt? recorded
  have plain : ∀ j ∈ .drop debt.addr :: new, j.Plain := fun j member => by
    rcases List.mem_cons.mp member with rfl | member
    · trivial
    · exact (light j member).plain
  have stays : ∀ j ∈ .drop debt.addr :: new, ¬ j.Abandons := fun j member => by
    rcases List.mem_cons.mp member with rfl | member
    · exact id
    · exact (light j member).stays
  refine sound.advance head keeps (.drop debt.addr :: new) ((agreed.settled recorded).append plain)
    (fun other => ?_) (Instruction.pairwise_of_plain plain stays) stays
    fun addr payment pays => (plain _ pays).elim
  rw [← sound.balance_clear head recorded paid plain other, unowned, List.countP_cons,
    Instruction.countP_of_light light]
  simp only [Instruction.owned?, Option.some.injEq, decide_eq_true_eq, List.count_nil,
    reduceCtorEq, if_false]
  omega

theorem run_settle {progress : Settle} (sound : Sound w (call :: rest) graves [])
    (head : call.code = .settle purpose debt progress :: code) :
    (Instruction.settle purpose debt progress).Runs choice inUse w { call with code } rest graves := by
  have agreed := sound.agreed_of_head head
  have light := Turn.settled_light purpose
  rcases agreed.fit _ List.mem_cons_self with rfl | ⟨rfl, paid⟩
  · rcases sound.marked head rfl with owed | paid
    · exact ⟨_, Turn.run_eq_iff.mpr (.settle_owed purpose (Settle.step_withdraw_of_owed owed)),
        sound.withdraw head rfl owed light⟩
    · exact ⟨_, Turn.run_eq_iff.mpr (.settle purpose (Settle.step_withdraw_of_paid paid) nofun nofun),
        sound.keep head rfl rfl (agreed.settle_clear paid)⟩
  · exact ⟨_, Turn.run_eq_iff.mpr (.settle_paid purpose rfl), sound.settle_clear head rfl paid light⟩

/-- A reader that has seen its slot move on takes the payer's reference instead of another look. -/
theorem run_stale {progress : Settle} (sound : Sound w (call :: rest) graves [])
    (head : call.code = .stale purpose debt seen progress :: code) :
    (Instruction.stale purpose debt seen progress).Runs choice inUse w { call with code } rest
      graves := by
  have agreed := sound.agreed_of_head head
  have light := Turn.settled_light purpose
  rcases agreed.fit _ List.mem_cons_self with rfl | ⟨rfl, paid⟩
  · rcases sound.marked head rfl with owed | paid
    · have look : ∀ j ∈ [Turn.look purpose seen], j.Light := fun j member => by
        rw [List.mem_singleton.mp member]
        exact Turn.look_light purpose seen
      exact ⟨_, Turn.run_eq_iff.mpr (.stale_owed purpose seen (Settle.step_withdraw_of_owed owed)),
        sound.withdraw head rfl owed look⟩
    · exact ⟨_, Turn.run_eq_iff.mpr (.stale purpose seen (Settle.step_withdraw_of_paid paid) nofun nofun),
        sound.keep head rfl rfl (agreed.stale_clear paid)⟩
  · -- What the payer has counted is the reader's from now on.
    have member : debt ∈ debts (poolOf (call :: rest)) := by
      rw [poolOf_cons, head]
      exact mem_debts List.mem_cons_self rfl
    obtain ⟨object, live⟩ := Heap.count_pos_iff.mp (sound.counted_of_paid member paid)
    have plain : ∀ j ∈ Turn.settled purpose, j.Plain := fun j member => (light j member).plain
    have stays : ∀ j ∈ Turn.settled purpose, ¬ j.Abandons := fun j member => (light j member).stays
    have adopted := sound.adopt head nofun debt.addr (Turn.settled purpose)
      ((agreed.settled rfl).append plain) (fun other => by
        rw [← sound.balance_clear head rfl paid plain other, Instruction.countP_of_light light]
        simp [Instruction.owned?])
      (Instruction.pairwise_of_plain plain stays) stays fun addr payment pays => plain _ pays
    have live : (w.heap.live? debt.addr).isSome := by rw [live, Option.isSome_some]
    exact ⟨_, Turn.run_eq_iff.mpr (.stale_paid purpose seen rfl live), adopted⟩

end Reads

/-- A step of a call: its first instruction can be carried out, and the ledger stays exact. -/
theorem runs (sound : Sound w (call :: rest) graves []) {i : Instruction}
    (head : call.code = i :: code) (choice : Choice) (inUse : SlotId → Bool) :
    i.Runs choice inUse w { call with code } rest graves := by
  cases i with
  | drop addr => exact sound.run_drop head
  | pay addr payment => exact sound.run_pay head
  | claim purpose addr progress => exact sound.run_claim head
  | recheck purpose debt => exact sound.run_recheck head
  | increment purpose debt => exact sound.run_increment head
  | settle purpose debt progress => exact sound.run_settle head
  | stale purpose debt seen progress => exact sound.run_stale head
  | _ =>
    refine (sound.steady head trivial nofun).run choice inUse trivial nofun nofun ?_ rfl
    intro abandons j member
    have order := (sound.sane call List.mem_cons_self).order
    rw [head, List.pairwise_cons] at order
    exact (order.1 j member).2 abandons

end Sound

end SharedCells.Slot
