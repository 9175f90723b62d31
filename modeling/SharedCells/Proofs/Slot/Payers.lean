import SharedCells.Proofs.Slot.Publications

/-! Who pays a debt.

Debts are recorded on addresses, and an address may be used again. So nothing in
a debt tells which object it will be paid for. But a payment on an address begins
when a word with that address is taken out of a slot, and it keeps a reference
until it is over: the object that it pays for is the one that was in the slot. -/

set_option autoImplicit false

namespace SharedCells.Slot

open Registry (Debt Place Payment Claim Settle)

namespace Turn

/-- What an instruction does about payments. A payment on an address begins when the address is taken
out of a slot, and only payments mark debts as paid. -/
structure Deals (i : Instruction) (t t' : Turn) : Prop where
  pays : ∀ addr payment, .pay addr payment ∈ t'.call.code →
    .pay addr payment ∈ t.call.code ∨ (∃ p, i = .pay addr p) ∨
      payment = .start ∧ some addr ∈ t.world.words
  marks : ∀ place, t'.world.registry.read place = some .paid →
    t.world.registry.read place = some .paid ∨
      ∃ addr payment, t.world.registry.read place = some (.owed addr) ∧ i = .pay addr payment

variable {t t' s : Turn} {choice : Choice} {inUse : SlotId → Bool} {i : Instruction} {ref : Ref}
  {register : Register} {slot : SlotId}

theorem Deals.of_unpaid
    (code : ∀ addr payment, .pay addr payment ∈ t'.call.code → .pay addr payment ∈ t.call.code)
    (marks : ∀ place, t'.world.registry.read place = some .paid →
      t.world.registry.read place = some .paid) : Deals i t t' :=
  ⟨fun addr payment pays => .inl (code addr payment pays), fun place paid => .inl (marks place paid)⟩

theorem Deals.of_quiet (registry : t'.world.registry = t.world.registry)
    (code : ∀ addr payment, .pay addr payment ∈ t'.call.code → .pay addr payment ∈ t.call.code) :
    Deals i t t' := .of_unpaid code fun _ paid => registry ▸ paid

theorem Deals.of_pay {addr : Addr} {payment : Payment}
    (code : ∀ other p, .pay other p ∈ t'.call.code → other = addr ∨ .pay other p ∈ t.call.code)
    (marks : ∀ place, t'.world.registry.read place = some .paid →
      t.world.registry.read place = some .paid ∨ t.world.registry.read place = some (.owed addr)) :
    Deals (.pay addr payment) t t' where
  pays other p member := by
    rcases code other p member with rfl | old
    · exact .inr (.inl ⟨payment, rfl⟩)
    · exact .inl old
  marks place paid := (marks place paid).imp_right fun owed => ⟨addr, payment, owed, rfl⟩

theorem retainInto_deals (ran : s.retainInto register ref = .ok t')
    (registry : s.world.registry = t.world.registry)
    (code : ∀ addr payment, .pay addr payment ∈ s.call.code → .pay addr payment ∈ t.call.code) :
    Deals i t t' := by
  obtain ⟨heap, rfl⟩ := retainInto_eq ran
  exact .of_quiet registry (by simpa [assign, setRegister, before] using code)

/-- What is taken out of a slot is paid for next. -/
theorem publish_deals {old : Ref} (world : s.world = t.world)
    (code : ∀ addr payment, .pay addr payment ∈ s.call.code → .pay addr payment ∈ t.call.code)
    (held : ∀ addr, old = some addr → some addr ∈ t.world.words) : Deals i t (s.publish slot old) := by
  refine ⟨fun addr payment pays => ?_, fun place paid => .inl ?_⟩
  · simp only [publish, assign, setRegister, before, List.mem_append, List.mem_map,
      Option.mem_toList] at pays
    rcases pays with ⟨other, taken, same⟩ | ⟨other, -, same⟩ | old
    · obtain ⟨rfl, rfl⟩ := Instruction.pay.inj same
      exact .inr (.inr ⟨rfl, held other taken⟩)
    · contradiction
    · exact .inl (code addr payment old)
  · rw [← world]
    exact paid

theorem settled_unpaid (purpose : Purpose) (addr : Addr) (payment : Payment) :
    .pay addr payment ∉ settled purpose := by
  cases purpose <;> simp [settled]

theorem look_ne_pay (purpose : Purpose) (seen : Ref) (addr : Addr) (payment : Payment) :
    .pay addr payment ≠ look purpose seen := by
  cases purpose <;> nofun

theorem GivesWay.deals {new : List Instruction} (gives : GivesWay choice inUse t i new) :
    Deals i t (t.before new) := by
  cases gives with
  | pay_release => exact .of_pay (by grind [before]) fun _ => .inl
  | verdict_won u => exact .of_quiet rfl (by cases u.into <;> simp [before, deliver])
  | _ => exact .of_quiet rfl (by simp [before])

theorem run_deals (ran : t.run choice inUse i = .ok t') : Deals i t t' := by
  have held {slot : SlotId} {addr : Addr} (there : t.world.word slot = some addr) :
      some addr ∈ t.world.words := List.mem_of_getElem? (Option.join_eq_some_iff.mp there)
  cases goes_of_run ran with
  | gives_way gives => exact gives.deals
  | handle_copy ran | copy ran | peek_kept _ _ ran => exact retainInto_deals ran rfl fun _ _ => id
  | increment ran => exact retainInto_deals ran rfl (by simp [before])
  | swap => exact publish_deals rfl (fun _ _ => id) fun _ => held
  | attempt_won _ _ same | once_won _ _ same =>
    exact publish_deals rfl (by simp [before]) fun _ => held ∘ same.trans
  | pay_start | pay_test | pay_retain => exact .of_pay (by grind [before]) fun _ => .inl
  | pay_mark => exact .of_pay (by grind [before]) fun _ => Payment.read_of_step_paid
  | claim _ step | recorded _ step =>
    refine .of_unpaid (by simp [before]) fun place paid => ?_
    exact Claim.read_of_step_paid ((congrArg (·.2.read place) step).trans paid)
  | settle _ step | settle_owed _ step | settle_paid _ step | stale _ _ step | stale_owed _ _ step
  | stale_paid _ _ step =>
    refine .of_unpaid ?_ fun place paid =>
      Settle.read_of_step_paid ((congrArg (·.2.read place) step).trans paid)
    simp [assign, setRegister, before, look_ne_pay, settled_unpaid]
  | retain_nothing => exact .of_quiet rfl (by simp [assign, setRegister, before, settled_unpaid])
  | refused | busy => exact .of_quiet rfl fun _ _ member => absurd member List.not_mem_nil
  | _ => exact .of_quiet rfl (by simp [assign, setRegister, before, Turn.note])

end Turn

theorem mem_poolOf {calls : List Call} {call : Call} {i : Instruction} (member : call ∈ calls)
    (inside : i ∈ call.code) : i ∈ poolOf calls := List.mem_flatMap.mpr ⟨call, member, inside⟩

theorem Command.start_pays (command : Command) (w : World) (inUse : SlotId → Bool) {addr : Addr}
    {payment : Payment} : .pay addr payment ∉ (command.start w inUse).2.code := by
  obtain ⟨operation, during⟩ := command
  have plain : .pay addr payment ∉ operation.code := fun pays =>
    (operation.code_plain _ pays).1.ne_pay addr payment rfl
  unfold Command.start
  dsimp only
  split
  · exact List.not_mem_nil
  · split
    · exact List.not_mem_nil
    · split <;> exact plain

theorem Thread.Move.marks {choice : Choice} {inUse : SlotId → Bool} {w w' : World}
    {thread thread' : Thread} {place : Place} (move : Move choice inUse w thread w' thread')
    (paid : w'.registry.read place = some .paid) :
    w.registry.read place = some .paid ∨ ∃ addr payment,
      w.registry.read place = some (.owed addr) ∧ .pay addr payment ∈ poolOf thread.calls := by
  cases move with
  | rest | scope | finish => exact .inl paid
  | start => exact .inl (Command.start_registry _ _ _ ▸ paid)
  | close => exact .inl (Level.close_registry _ _ _ ▸ paid)
  | @instruction level below call i code turn busy head ran
  | @block level below call i code turn todo busy head ran =>
    refine ((Turn.run_deals ran).marks place paid).imp_right fun ⟨addr, payment, owed, pays⟩ =>
      ⟨addr, payment, owed, ?_⟩
    rw [calls_cons_of_some busy]
    exact mem_poolOf List.mem_cons_self (head ▸ pays ▸ List.mem_cons_self)

namespace Machine

variable {m m' : Machine} {j : Nat} {choice : Choice} {addr : Addr} {place : Place}

/-- Some call is paying debts on the address. -/
def Paying (m : Machine) (addr : Addr) : Prop := ∃ payment, .pay addr payment ∈ poolOf m.calls

theorem Paying.counts (paying : m.Paying addr) (sound : m.Sound) : m.world.Counts (some addr) := by
  obtain ⟨payment, pays⟩ := paying
  obtain ⟨call, member, code⟩ := List.mem_flatMap.mp pays
  have owns := (sound.counted.sane call member).payer addr payment code
  exact owns ▸ sound.counted.counts_register member .observed

/-- Debts on an address are paid by those who did so before, or after it was taken out of a slot. -/
theorem step_paying (sound : m.Sound) (ran : m.step j choice = .ok m') (paying : m'.Paying addr) :
    m.Paying addr ∨ some addr ∈ m.world.words := by
  obtain ⟨payment, pays⟩ := paying
  obtain ⟨call, member, code⟩ := List.mem_flatMap.mp pays
  refine step_forall_calls
    (P := fun call => ∀ p, .pay addr p ∈ call.code → m.Paying addr ∨ some addr ∈ m.world.words)
    sound ran (fun call member p pays => ?_) (fun inUse call i code turn holds head ran p pays => ?_)
    (fun call _ p pays => ?_) (fun command inUse p pays => ?_)
    (fun call call' alike holds p pays => ?_) call member payment code
  · exact .inl ⟨p, mem_poolOf member pays⟩
  · rcases (Turn.run_deals ran).pays addr p pays with old | ⟨p, rfl⟩ | ⟨-, held⟩
    · exact holds p (head ▸ List.mem_cons_of_mem _ old)
    · exact holds p (head ▸ List.mem_cons_self)
    · exact .inr held
  · obtain ⟨register, -, same⟩ := List.mem_map.mp pays
    contradiction
  · exact absurd pays (command.start_pays m.world inUse)
  · exact holds p (alike.code ▸ pays)

/-- A debt is paid by one who is paying debts on its address. -/
theorem step_paid (sound : m.Sound) (ran : m.step j choice = .ok m')
    (paid : m'.world.registry.read place = some .paid) :
    m.world.registry.read place = some .paid ∨
      ∃ addr, m.world.registry.read place = some (.owed addr) ∧ m.Paying addr := by
  rcases step_cases sound ran with ⟨-, rfl⟩ | ⟨thread, w', thread', found, move, rfl⟩
  · exact .inl paid
  · refine (move.marks paid).imp_right fun ⟨addr, payment, owed, pays⟩ =>
      ⟨addr, owed, payment, ?_⟩
    obtain ⟨call, member, code⟩ := List.mem_flatMap.mp pays
    exact mem_poolOf (List.mem_flatMap.mpr ⟨thread, List.mem_of_getElem? found, member⟩) code

end Machine

end SharedCells.Slot
