import SharedCells.Proofs.Slot.Arrangement

/-! A thread that runs alone.

No other thread takes a step, and no block is run in the middle of a read. So a
read is over before anything else happens, and between reads there is no debt:
the registry is empty, or it has one node, whose marks are free. -/

set_option autoImplicit false

namespace SharedCells

namespace Registry

/-- One node, whose marks are free. -/
def sole : Registry := ⟨[⟨Vector.replicate breadth .free, none⟩], some 0⟩

theorem breadth_pos : 0 < breadth := by decide

/-- The first mark of the first node. -/
def origin : Place := ⟨0, ⟨0, breadth_pos⟩⟩

/-- One node, whose first mark owes the address and whose other marks are free. -/
def soleOwing (addr : Addr) : Registry := sole.write origin (.owed addr)

/-- A registry that only a lone thread has used, and that has no debt. -/
def Idle (r : Registry) : Prop := r = empty ∨ r = sole

section Sole

variable {r : Registry} {addr : Addr} {p : Place} {mark : Mark}

theorem read_sole : sole.read origin = some .free := by decide

theorem take_sole : sole.replace origin .free (.owed addr) = (true, soleOwing addr) := by
  rw [replace, if_pos read_sole]
  rfl

theorem publish_empty : empty.publish none addr = soleOwing addr := by
  simp [publish, empty, soleOwing, sole, origin, write]

theorem Claim.step_test_sole {spurious : Bool} :
    (Claim.test origin).step addr spurious sole = (.take origin, sole) := by
  rw [step, if_pos read_sole]

theorem Claim.step_take_sole {spurious : Bool} :
    (Claim.take origin).step addr spurious sole = (.recorded origin false, soleOwing addr) := by
  rw [step, take_sole]

theorem Claim.step_link_of_spurious {spurious : Bool} (fails : spurious = true) :
    (Claim.link none).step addr spurious empty = (.link none, empty) := by
  subst fails
  rfl

theorem Claim.step_link_of_steady {spurious : Bool} (steady : spurious = false) :
    (Claim.link none).step addr spurious empty = (.recorded origin true, soleOwing addr) := by
  subst steady
  exact congrArg _ publish_empty

theorem empty_ne_sole : empty ≠ sole := nofun

theorem soleOwing_ne_empty : soleOwing addr ≠ empty := fun same => by
  have counts := congrArg (·.nodes.length) same
  rw [soleOwing, length_write] at counts
  contradiction

theorem read_soleOwing : (soleOwing addr).read origin = some (.owed addr) :=
  read_write_self Nat.zero_lt_one

theorem withdraw_soleOwing :
    (soleOwing addr).replace origin (.owed addr) .free = (true, sole) := by
  rw [replace, if_pos read_soleOwing]
  simp [soleOwing, sole, origin, write]

theorem Idle.read (idle : r.Idle) (read : r.read p = some mark) : mark = .free := by
  rcases idle with rfl | rfl
  · rw [read_eq_none_iff.mpr (Nat.zero_le _)] at read
    contradiction
  · obtain ⟨node, index⟩ := p
    cases node with
    | zero => simpa [Registry.read, sole] using read.symm
    | succ n => simp [Registry.read, sole] at read

theorem Idle.pay (idle : r.Idle) (addr : Addr) (payment : Payment) :
    (payment.step addr r).2 = r := by
  cases payment with
  | mark p =>
    have unowed : r.read p ≠ some (.owed addr) := fun owed => by
      have free := idle.read owed
      contradiction
    rw [Payment.step_mark_of_not_owed unowed]
  | _ => rfl

end Sole

end Registry

namespace Slot

/-- The registry is as a lone thread has it when it is about to carry out the instruction. -/
def Instruction.Meets (r : Registry) : Instruction → Prop
  | .claim _ _ (.test p) | .claim _ _ (.take p) => r = Registry.sole ∧ p = Registry.origin
  | .claim _ _ .grow => r = Registry.empty
  | .claim _ _ (.link next) => r = Registry.empty ∧ next = none
  | .claim _ _ (.recorded _ _) => False
  | .recheck _ debt | .increment _ debt => debt.place = Registry.origin ∧ r = Registry.soleOwing debt.addr
  | .settle _ debt progress | .stale _ debt _ progress =>
    debt.place = Registry.origin ∧ r = Registry.soleOwing debt.addr ∧ progress = .withdraw
  | _ => r.Idle

/-- The registry is as a lone thread has it when it goes on with the call. -/
def Call.Meets (r : Registry) (call : Call) : Prop :=
  match call.code with
  | [] => r.Idle
  | i :: _ => i.Meets r

section Meets

variable {r : Registry} {i : Instruction} {call : Call} {t t' : Turn} {choice : Choice}
  {inUse : SlotId → Bool}

theorem Instruction.meets_of_idle (idle : r.Idle) (quiet : ¬ i.Pending) : i.Meets r := by
  cases i <;> first | exact idle | exact absurd trivial quiet

theorem Instruction.Meets.idle (meets : i.Meets r) (quiet : ¬ i.Pending) : r.Idle := by
  cases i <;> first | exact meets | exact absurd trivial quiet

theorem Call.meets_of_idle (idle : r.Idle) (quiet : ∀ i ∈ call.code, ¬ i.Pending) : call.Meets r := by
  unfold Call.Meets
  split
  · exact idle
  · next head => exact Instruction.meets_of_idle idle (quiet _ (head ▸ List.mem_cons_self))

theorem Turn.retainInto_registry {register : Register} {ref : Ref}
    (ran : t.retainInto register ref = .ok t') : t'.world.registry = t.world.registry := by
  obtain ⟨heap, rfl⟩ := Turn.retainInto_eq ran
  rfl

/-- The next access of a claim finds the registry as the last one has left it. -/
theorem Turn.claim_meets {purpose : Purpose} {addr : Addr} {progress next : Registry.Claim}
    {r' : Registry} {spurious : Bool} (meets : (Instruction.claim purpose addr progress).Meets r)
    (step : progress.step addr spurious r = (next, r')) :
    (∃ grown, next = .recorded Registry.origin grown ∧ r' = Registry.soleOwing addr) ∨
      (Instruction.claim purpose addr next).Meets r' := by
  cases progress with
  | start =>
    rcases (meets : r.Idle) with rfl | rfl <;> obtain ⟨rfl, rfl⟩ := Prod.mk.inj step
    · exact .inr rfl
    · exact .inr ⟨rfl, rfl⟩
  | test p =>
    obtain ⟨rfl, rfl⟩ : r = Registry.sole ∧ p = Registry.origin := meets
    obtain ⟨rfl, rfl⟩ := Prod.mk.inj (Registry.Claim.step_test_sole.symm.trans step)
    exact .inr ⟨rfl, rfl⟩
  | take p =>
    obtain ⟨rfl, rfl⟩ : r = Registry.sole ∧ p = Registry.origin := meets
    obtain ⟨rfl, rfl⟩ := Prod.mk.inj (Registry.Claim.step_take_sole.symm.trans step)
    exact .inl ⟨false, rfl, rfl⟩
  | grow =>
    obtain rfl : r = Registry.empty := meets
    obtain ⟨rfl, rfl⟩ := Prod.mk.inj step
    exact .inr ⟨rfl, rfl⟩
  | link next =>
    obtain ⟨rfl, rfl⟩ : r = Registry.empty ∧ next = none := meets
    cases spurious with
    | true =>
      obtain ⟨rfl, rfl⟩ := Prod.mk.inj step
      exact .inr ⟨rfl, rfl⟩
    | false =>
      obtain ⟨rfl, rfl⟩ := Prod.mk.inj ((Registry.Claim.step_link_of_steady rfl).symm.trans step)
      exact .inl ⟨true, rfl, rfl⟩
  | recorded p grown => exact meets.elim

theorem Turn.settle_step {debt : Registry.Debt} {r : Registry} (place : debt.place = Registry.origin)
    (owes : r = Registry.soleOwing debt.addr) :
    Registry.Settle.withdraw.step debt r = (.settled true, Registry.sole) := by
  rw [Registry.Settle.step, place, owes, Registry.withdraw_soleOwing]

/-- Only a read that is about to retain its object gets into the middle of it. -/
theorem Turn.run_settled (rests : ¬ i.Holds) (quiet : ∀ j ∈ t.call.code, ¬ j.Pending)
    (reads : i.Draws → t.get .observed = none) (tries : i.Untried → t.call.exchanged = false)
    (ran : t.run choice inUse i = .ok t') : ∀ j ∈ t'.call.code, ¬ j.Pending := by
  intro j member
  rcases run_unfolds ran reads tries with ⟨new, unfolds⟩ | ended
  · rw [unfolds.code] at member
    have none := unfolds.pending.resolve_right fun single => rests single.2.1
    exact (List.mem_append.mp member).elim (none j) (quiet j)
  · rw [ended] at member
    exact absurd member List.not_mem_nil

/-- A lone thread finds the registry as it has left it, and has no debt when a level is put above the
call. -/
theorem Turn.run_meets (meets : i.Meets t.world.registry) (quiet : ∀ j ∈ t.call.code, ¬ j.Pending)
    (reads : i.Draws → t.get .observed = none) (tries : i.Untried → t.call.exchanged = false)
    (above : t.above = none) (ran : t.run choice inUse i = .ok t') :
    t'.call.Meets t'.world.registry ∧ (t'.above.isSome → t'.world.registry.Idle) := by
  have nothing {s : Turn} (same : s.above = t.above) : s.above.isSome → s.world.registry.Idle := by
    rw [same, above]
    exact nofun
  -- Where the registry is idle after the instruction, nothing has to be pending.
  have rests (idle : t'.world.registry.Idle) (pending : ¬ i.Holds) :
      t'.call.Meets t'.world.registry ∧ (t'.above.isSome → t'.world.registry.Idle) :=
    ⟨Call.meets_of_idle idle (run_settled pending quiet reads tries ran), fun _ => idle⟩
  have ends (purpose : Purpose) : ∀ j ∈ settled purpose ++ t.call.code, ¬ j.Pending :=
    fun j member => (List.mem_append.mp member).elim (fun last => (settled_quiet purpose j last).2) (quiet j)
  cases goes_of_run ran with
  | gives_way gives =>
    cases gives with
    | retain => exact ⟨meets, nothing rfl⟩
    | recheck_same => exact ⟨meets, nothing rfl⟩
    | recheck_differs => exact ⟨⟨meets.1, meets.2, rfl⟩, nothing rfl⟩
    | _ => exact rests meets id
  | handle_copy ran | copy ran => exact rests ((retainInto_registry ran).symm ▸ meets) id
  | peek_kept _ _ ran => exact rests ((retainInto_registry ran).symm ▸ meets :) id
  | pay_mark => exact rests ((Registry.Idle.pay meets _ _).symm ▸ meets) id
  | retain_nothing purpose =>
    have empty : t.call.registers.observed = none := reads trivial
    refine ⟨Call.meets_of_idle meets fun j member => ends purpose j ?_, nothing rfl⟩
    simpa [assign, before, setRegister, get, Registers.get, empty] using member
  | claim purpose step goes =>
    rcases claim_meets meets step with ⟨grown, rfl, -⟩ | meets
    · exact absurd rfl (goes _ grown)
    · exact ⟨meets, nothing rfl⟩
  | recorded purpose step =>
    rcases claim_meets meets step with ⟨grown, same, rfl⟩ | meets
    · obtain ⟨rfl, -⟩ := Registry.Claim.recorded.inj same
      exact ⟨⟨rfl, rfl⟩, nothing rfl⟩
    · exact meets.elim
  | @increment purpose debt _ ran =>
    have empty : t.call.registers.observed = none := reads trivial
    obtain ⟨heap, rfl⟩ := retainInto_eq ran
    have meets : (Instruction.settle purpose debt .withdraw).Meets t.world.registry :=
      ⟨meets.1, meets.2, rfl⟩
    refine ⟨?_, nothing rfl⟩
    simp only [assign, before, setRegister, get, Registers.get, empty, Option.toList_none,
      List.map_nil, List.nil_append]
    exact meets
  | settle _ step goes | stale _ _ step goes =>
    obtain ⟨place, owes, rfl⟩ := meets
    rw [settle_step place owes] at step
    exact absurd (congrArg Prod.fst step).symm (goes true)
  | settle_paid _ step | stale_paid _ _ step =>
    obtain ⟨place, owes, rfl⟩ := meets
    rw [settle_step place owes] at step
    simp at step
  | settle_owed purpose step =>
    obtain ⟨place, owes, rfl⟩ := meets
    obtain ⟨-, rfl⟩ := Prod.mk.inj ((settle_step place owes).symm.trans step)
    exact ⟨Call.meets_of_idle (.inr rfl) (ends purpose), nothing rfl⟩
  | stale_owed purpose seen step =>
    obtain ⟨place, owes, rfl⟩ := meets
    obtain ⟨-, rfl⟩ := Prod.mk.inj ((settle_step place owes).symm.trans step)
    refine ⟨?_, nothing rfl⟩
    cases purpose <;> exact .inr rfl
  | _ => exact rests meets id

end Meets

theorem Command.Solitary.start {command : Command} (solitary : command.Solitary) (w : World)
    (inUse : SlotId → Bool) :
    (command.start w inUse).2.Tidy ∧ (∀ i ∈ (command.start w inUse).2.code, ¬ i.Pending) ∧
      (command.start w inUse).1.registry = w.registry := by
  obtain ⟨each⟩ := solitary
  next operation =>
  obtain ⟨arranged, inside⟩ := operation.code_arranged
  have refused (outcome : Outcome) : Call.Tidy { code := [], outcome } :=
    ⟨rfl, nofun, ⟨nofun, nofun⟩, nofun⟩
  have begun (call : Call) (w' : World) (code : call.code = operation.code)
      (waits : call.during = none) (empty : call.registers = {}) (untried : call.exchanged = false)
      (registry : w'.registry = w.registry) :
      call.Tidy ∧ (∀ i ∈ call.code, ¬ i.Pending) ∧ w'.registry = w.registry := by
    have quiet : ∀ i ∈ call.code, ¬ i.Pending := fun i member => (inside i (code ▸ member)).2
    refine ⟨⟨waits, fun i member command there => ?_, ?_, fun i member => ?_⟩, quiet, registry⟩
    · exact each command ((inside i (code ▸ member)).1 command there)
    · rw [code, empty, untried]
      exact arranged
    · exact quiet i (List.mem_of_mem_tail member)
  unfold Command.start
  dsimp only
  split
  · exact ⟨refused _, nofun, rfl⟩
  · split
    · exact ⟨refused _, nofun, rfl⟩
    · split
      · exact begun _ _ rfl rfl rfl rfl rfl
      · exact begun _ _ rfl rfl rfl rfl rfl

namespace Thread

/-- The registry is as a lone thread has it when it goes on. -/
def Meets (r : Registry) (thread : Thread) : Prop :=
  match thread.head?.bind Level.call with
  | none => r.Idle
  | some call => call.Meets r

/-- What a thread keeps that runs alone: only its innermost call may have a debt. -/
structure Lone (w : World) (thread : Thread) : Prop where
  objects : w.Solitary
  tidy : ∀ call ∈ thread.calls, call.Tidy
  todo : ∀ level ∈ thread, ∀ command ∈ level.todo, command.Solitary
  settled : ∀ call ∈ calls thread.tail, ∀ i ∈ call.code, ¬ i.Pending
  meets : thread.Meets w.registry

variable {choice : Choice} {others inUse : SlotId → Bool} {w w' : World} {thread thread' below : Thread}
  {level : Level} {call : Call} {i : Instruction} {code : List Instruction}

theorem meets_of_some {r : Registry} (busy : level.call = some call) :
    Meets r (level :: below) ↔ call.Meets r := by
  rw [Meets, List.head?_cons, Option.bind_some, busy]

theorem meets_of_none {r : Registry} (idle : level.call = none) : Meets r (level :: below) ↔ r.Idle := by
  rw [Meets, List.head?_cons, Option.bind_some, idle]

theorem Lone.step_instruction (lone : Lone w (level :: below)) (busy : level.call = some call)
    (head : call.code = i :: code) :
    step choice others w (level :: below) =
      (Turn.run choice (fun slot => others slot || uses (level :: below) slot)
        { world := w, call := { call with code } } i).map fun turn =>
          (turn.world, turn.above.toList ++ { level with call := some turn.call } :: below) := by
  unfold step
  simp only [busy, head]
  cases ran : Turn.run choice (fun slot => others slot || uses (level :: below) slot)
      { world := w, call := { call with code } } i with
  | error fault => rfl
  | ok turn =>
    have tidy := lone.tidy
    rw [calls_cons_of_some busy] at tidy
    have quiet : fire ({ level with call := some turn.call } :: below) = none := by
      refine fire_eq_none fun call' member => ?_
      rw [calls_cons_of_some rfl] at member
      rcases List.mem_cons.mp member with rfl | member
      · exact (Turn.run_during ran).trans (tidy call List.mem_cons_self).waits
      · exact (tidy call' (List.mem_cons_of_mem _ member)).waits
    dsimp only [bind, Except.bind, Except.map]
    rw [quiet, ite_self]
    rfl

/-- No block is run in the middle of a read. -/
theorem Lone.no_block (lone : Lone w (level :: below)) (busy : level.call = some call)
    (head : call.code = i :: code) {turn : Turn} {todo : List Command}
    (ran : Turn.run choice (fun slot => others slot || uses (level :: below) slot)
      { world := w, call := { call with code } } i = .ok turn) (recorded : turn.recorded = true) :
    step choice others w (level :: below) ≠ .ok (turn.world,
      { role := .during, todo } :: unwait ({ level with call := some turn.call } :: below)) := by
  rw [lone.step_instruction busy head, ran]
  intro same
  have above : turn.above = none := (Turn.run_effect ran rfl).above_of_recorded rfl recorded
  have lengths := congrArg List.length (Prod.mk.inj (Except.ok.inj same)).2
  simp [above, unwait] at lengths

section Step

variable {inUse : SlotId → Bool} {turn : Turn}

theorem Lone.instruction (lone : Lone w (level :: below)) (busy : level.call = some call)
    (head : call.code = i :: code)
    (ran : Turn.run choice inUse { world := w, call := { call with code } } i = .ok turn) :
    Lone turn.world (turn.above.toList ++ { level with call := some turn.call } :: below) := by
  have tidy := lone.tidy
  rw [calls_cons_of_some busy] at tidy
  obtain ⟨first, others⟩ := List.forall_mem_cons.mp tidy
  have rests : ∀ j ∈ code, ¬ j.Pending := fun j member => first.pending j (head ▸ member)
  have meets : i.Meets w.registry := by
    have meets := (meets_of_some busy).mp lone.meets
    rwa [Call.Meets, head] at meets
  obtain ⟨tidy', pushed⟩ := first.run head ran
  obtain ⟨meets', idle'⟩ := Turn.run_meets (t := { world := w, call := { call with code } })
    meets rests (first.reads head) (first.untried head) rfl ran
  have solitary : Turn.Solitary { world := w, call := { call with code } } :=
    ⟨lone.objects, fun _ above => by contradiction⟩
  have each : ∀ command ∈ i.commands, command.Solitary :=
    first.commands i (by rw [head]; exact List.mem_cons_self)
  have contents : turn.Solitary := solitary.run each ran
  have todo : ∀ upper ∈ { level with call := some turn.call } :: below,
      ∀ command ∈ upper.todo, command.Solitary :=
    List.forall_mem_cons.mpr (List.forall_mem_cons.mp lone.todo)
  have kept : ∀ call' ∈ turn.call :: calls below, call'.Tidy :=
    List.forall_mem_cons.mpr ⟨tidy', others⟩
  cases above : turn.above with
  | none => exact ⟨contents.world, kept, todo, lone.settled, (meets_of_some rfl).mpr meets'⟩
  | some new =>
    have fresh : new.call = none := (Turn.run_effect ran rfl).above_call above
    have now : turn.above.isSome := by rw [above]; rfl
    refine ⟨contents.world, ?_, List.forall_mem_cons.mpr ⟨contents.above new above, todo⟩,
      List.forall_mem_cons.mpr ⟨pushed now, lone.settled⟩, (meets_of_none fresh).mpr (idle' now)⟩
    rw [Option.toList_some, List.singleton_append, calls_cons_of_none fresh]
    exact kept

theorem Lone.idle_of_ended (lone : Lone w (level :: below)) (busy : level.call = some call)
    (ended : call.code = []) : w.registry.Idle := by
  have meets := (meets_of_some busy).mp lone.meets
  rwa [Call.Meets, ended] at meets

theorem Lone.scope (lone : Lone w (level :: below)) (busy : level.call = some call)
    (ended : call.code = []) :
    Lone w ({ level with call := some { call with code := call.registers.owned.map .release } } :: below) := by
  have tidy := lone.tidy
  rw [calls_cons_of_some busy] at tidy
  obtain ⟨first, others⟩ := List.forall_mem_cons.mp tidy
  refine ⟨lone.objects, List.forall_mem_cons.mpr ⟨first.scope, others⟩,
    List.forall_mem_cons.mpr (List.forall_mem_cons.mp lone.todo), lone.settled, ?_⟩
  refine (meets_of_some rfl).mpr (Call.meets_of_idle (lone.idle_of_ended busy ended) fun i member => ?_)
  obtain ⟨register, -, rfl⟩ := List.mem_map.mp member
  exact id

theorem Lone.start {command : Command} {todo : List Command} (lone : Lone w (level :: below))
    (free : level.call = none) (more : level.todo = command :: todo) :
    Lone (command.start w inUse).1
      ({ level with todo, call := some (command.start w inUse).2 } :: below) := by
  have tidy := lone.tidy
  rw [calls_cons_of_none free] at tidy
  obtain ⟨here, others⟩ := List.forall_mem_cons.mp lone.todo
  rw [more] at here
  obtain ⟨first, rest⟩ := List.forall_mem_cons.mp here
  obtain ⟨begun, quiet, registry⟩ := first.start w inUse
  refine ⟨lone.objects.of_heap (command.start_heap w inUse), List.forall_mem_cons.mpr ⟨begun, tidy⟩,
    List.forall_mem_cons.mpr ⟨rest, others⟩, lone.settled, (meets_of_some rfl).mpr ?_⟩
  rw [registry]
  exact Call.meets_of_idle ((meets_of_none free).mp lone.meets) quiet

theorem Lone.close {caller : Level} (lone : Lone w (level :: caller :: below))
    (free : level.call = none) (waits : caller.call = some call) :
    Lone (level.close w call).1 ({ caller with call := some (level.close w call).2 } :: below) := by
  have tidy := lone.tidy
  rw [calls_cons_of_none free, calls_cons_of_some waits] at tidy
  obtain ⟨first, others⟩ := List.forall_mem_cons.mp tidy
  have settled : ∀ call' ∈ call :: calls below, ∀ i ∈ call'.code, ¬ i.Pending := by
    rw [← calls_cons_of_some waits]
    exact lone.settled
  obtain ⟨quiet, rest⟩ := List.forall_mem_cons.mp settled
  have idle := (meets_of_none free).mp lone.meets
  have alike := Level.close_alike level w call
  have closed : (level.close w call).1.Solitary ∧ (level.close w call).1.registry = w.registry ∧
      (level.close w call).2.during = call.during := by
    unfold Level.close
    dsimp only
    cases level.role with
    | destruction addr => exact ⟨lone.objects.free addr, rfl, rfl⟩
    | main | during | meanwhile => exact ⟨lone.objects, rfl, rfl⟩
  obtain ⟨objects, registry, during⟩ := closed
  refine ⟨objects, List.forall_mem_cons.mpr ⟨first.alike alike during, others⟩,
    List.forall_mem_cons.mpr (List.forall_mem_cons.mp (List.forall_mem_cons.mp lone.todo).2), rest,
    (meets_of_some rfl).mpr ?_⟩
  rw [registry]
  exact Call.meets_of_idle idle (alike.code ▸ quiet)

theorem Lone.step (lone : Lone w thread) (stacked : thread.Stacked)
    (ran : thread.step choice others w = .ok (w', thread')) : Lone w' thread' := by
  cases step_cases stacked ran with
  | rest => exact lone
  | instruction busy head turned => exact lone.instruction busy head turned
  | block busy head turned recorded => exact absurd ran (lone.no_block busy head turned recorded)
  | scope busy ended => exact lone.scope busy ended
  | finish record busy ended =>
    have tidy := lone.tidy
    rw [calls_cons_of_some busy] at tidy
    exact ⟨lone.objects, (List.forall_mem_cons.mp tidy).2,
      List.forall_mem_cons.mpr (List.forall_mem_cons.mp lone.todo), lone.settled,
      (meets_of_none rfl).mpr (lone.idle_of_ended busy ended)⟩
  | start free more => exact lone.start free more
  | close free _ waits => exact lone.close free waits

end Step

theorem lone_ofCommands {program : List Command} (solitary : ∀ command ∈ program, command.Solitary) :
    Lone {} (ofCommands program) where
  objects addr object found := by
    rw [show World.heap {} = Heap.empty from rfl] at found
    contradiction
  tidy call member := absurd member List.not_mem_nil
  todo level member := by
    rw [List.mem_singleton.mp member]
    exact solitary
  settled call member := absurd member List.not_mem_nil
  meets := .inl rfl

end Thread

namespace Machine

/-- The first thread takes all steps. -/
def solo (choices : List Choice) : List (Nat × Choice) := choices.map fun choice => (0, choice)

variable {m m' : Machine} {thread : Thread} {w : World} {choice : Choice} {choices : List Choice}

theorem step_only (ran : step 0 choice ⟨w, [thread]⟩ = .ok m') :
    ∃ w' thread', thread.step choice thread.uses w = .ok (w', thread') ∧ m' = ⟨w', [thread']⟩ := by
  unfold step at ran
  dsimp only [List.getElem?_cons_zero] at ran
  have only : (fun slot => [thread].any (·.uses slot)) = thread.uses := by
    funext slot
    rw [List.any_cons, List.any_nil, Bool.or_false]
  rw [only] at ran
  cases moved : thread.step choice thread.uses w with
  | error fault =>
    rw [moved] at ran
    contradiction
  | ok next =>
    rw [moved] at ran
    exact ⟨next.1, next.2, rfl, (Except.ok.inj ran).symm⟩

theorem step_lone (sound : Machine.Sound ⟨w, [thread]⟩) (lone : thread.Lone w)
    (ran : step 0 choice ⟨w, [thread]⟩ = .ok m') :
    ∃ w' thread', m' = ⟨w', [thread']⟩ ∧ thread'.Lone w' := by
  obtain ⟨w', thread', moved, rfl⟩ := step_only ran
  exact ⟨w', thread', rfl, lone.step (sound.stacked thread List.mem_cons_self) moved⟩

theorem run_lone (sound : Machine.Sound ⟨w, [thread]⟩) (lone : thread.Lone w)
    (ran : run (solo choices) ⟨w, [thread]⟩ = .ok m') :
    m'.Sound ∧ ∃ thread', m'.threads = [thread'] ∧ thread'.Lone m'.world := by
  induction choices generalizing w thread with
  | nil =>
    obtain rfl := Except.ok.inj ran
    exact ⟨sound, thread, rfl, lone⟩
  | cons choice rest ih =>
    obtain ⟨next, stepped⟩ := step_ok sound 0 choice
    obtain ⟨w', thread', rfl, lone'⟩ := step_lone sound lone stepped
    exact ih (step_sound sound stepped) lone' (run_cons stepped ▸ ran)

/-- A thread that runs alone has no debt but that of its own read. -/
theorem lone_of_run {program : List Command} (solitary : ∀ command ∈ program, command.Solitary)
    (ran : (ofPrograms [program]).run (solo choices) = .ok m) :
    m.Sound ∧ ∃ thread, m.threads = [thread] ∧ thread.Lone m.world :=
  run_lone (ofPrograms_sound [program]) (Thread.lone_ofCommands solitary) ran

end Machine

end Slot

end SharedCells
