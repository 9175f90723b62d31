import SharedCells.Proofs.Cell.Contents
import SharedCells.Proofs.Slot.Dealings

/-! What a refused compare-exchange does, and what its orders decide.

The orders are looked at before the slot is. If they are refused, the call gives
up the references that were moved into it, and nothing else: it uses neither its
slot nor the registry. If they are not, the call goes on as with any other orders. -/

set_option autoImplicit false

namespace SharedCells.Slot

open Machine Dealing

/-- A call whose orders are refused, before it comes to the rest of its code: it reports the refusal,
and then gives up what is in some of its registers. It takes so many more steps at most. -/
inductive Call.Withdraws (bad : Order.Misorder) (rest : List Instruction) (call : Call) :
    Ref → List Register → Nat → Prop where
  | reports (given : List Register) :
      call.code = .note (.misordered bad) :: (given.map .release ++ rest) →
      Withdraws bad rest call none given (2 * given.length + 1)
  | gives (pending : Ref) (given : List Register) :
      call.code = pending.toList.map .drop ++ (given.map .release ++ rest) →
      call.outcome = .misordered bad →
      Withdraws bad rest call pending given (pending.toList.length + 2 * given.length)

/-- What a call is about to give up. -/
def Call.owes (call : Call) (w : World) (pending : Ref) (given : List Register) : List Dealing :=
  releases (w.objectId pending) ++
    given.flatMap fun register => releases (w.objectId (call.registers.get register))

/-- Nothing has changed but counts. -/
def World.Recounts (w w' : World) : Prop := w' = { w with heap := w'.heap }

theorem World.Recounts.trans {w w₁ w' : World} (first : w.Recounts w₁) (second : w₁.Recounts w') :
    w.Recounts w' := Eq.trans second (by rw [first])

section Step

variable {bad : Order.Misorder} {rest code : List Instruction} {call call' : Call} {pending : Ref}
  {given : List Register} {left : Nat} {w w' : World} {choice : Choice} {inUse : SlotId → Bool}
  {turn : Turn} {i : Instruction}

theorem Call.Withdraws.alike (withdraws : call.Withdraws bad rest pending given left)
    (alike : call.Alike call') : call'.Withdraws bad rest pending given left := by
  cases withdraws with
  | reports given code => exact .reports given (alike.code.trans code)
  | gives pending given code outcome =>
    exact .gives pending given (alike.code.trans code) (alike.outcome.trans outcome)

theorem Call.Withdraws.of_ended (withdraws : call.Withdraws bad rest pending given left)
    (ended : call.code = rest) : pending = none ∧ given = [] ∧ call.outcome = .misordered bad := by
  cases withdraws with
  | reports given code =>
    have length := congrArg List.length (code.symm.trans ended)
    simp only [List.length_cons, List.length_append] at length
    omega
  | gives pending given code outcome =>
    have same := code.symm.trans ended
    rw [← List.append_assoc, List.append_left_eq_self, List.append_eq_nil_iff, List.map_eq_nil_iff,
      List.map_eq_nil_iff] at same
    exact ⟨Option.toList_eq_nil_iff.mp same.1, same.2, outcome⟩

/-- What has been done in a step of a call that withdraws. -/
structure Turn.Withdrew (bad : Order.Misorder) (rest : List Instruction) (call : Call) (pending : Ref)
    (given : List Register) (left : Nat) (w : World) (dealings : List Dealing) (turn : Turn)
    (pending' : Ref) (given' : List Register) (left' : Nat) : Prop where
  withdraws : turn.call.Withdraws bad rest pending' given' left'
  fewer : left' < left
  remain : ∃ gone, given = gone ++ given' ∧
    (pending' = none ∨ ∃ register, pending' = call.registers.get register) ∧
    ∀ register, turn.call.registers.get register =
      if register ∈ gone then none else call.registers.get register
  spares : w.Recounts turn.world
  accounts : Accounts dealings w.heap turn.world.heap
  dealt : dealings ++ call.owes w pending' given' = call.owes w pending given

theorem Turn.run_withdraws (numbered : w.heap.Numbered) (bounded : w.heap.Bounded)
    (withdraws : call.Withdraws bad rest pending given left) (unended : call.code ≠ rest)
    (head : call.code = i :: code)
    (ran : Turn.run choice inUse { world := w, call := { call with code } } i = .ok turn) :
    ∃ pending' given' left', turn.Withdrew bad rest call pending given left w
      (i.dealings choice { world := w, call := { call with code } }) pending' given' left' := by
  cases withdraws with
  | reports given same =>
    obtain ⟨rfl, rfl⟩ := List.cons.inj (head.symm.trans same)
    have accounts := Turn.run_accounts numbered bounded (by nofun) ran
    obtain rfl := Turn.eq_of_goes ran (.note _)
    exact ⟨none, given, _, .gives none given rfl rfl, by simp,
      ⟨[], rfl, .inl rfl, fun register => (if_neg List.not_mem_nil).symm⟩, rfl, accounts, rfl⟩
  | gives pending given same outcome =>
    cases pending with
    | some addr =>
      obtain ⟨rfl, rfl⟩ := List.cons.inj (head.symm.trans same)
      have accounts := Turn.run_accounts numbered bounded (by nofun) ran
      cases Turn.goes_of_run ran with
      | gives_way gives => cases gives
      | drop =>
        exact ⟨none, given, _, .gives none given rfl outcome, by simp,
          ⟨[], rfl, .inl rfl, fun register => (if_neg List.not_mem_nil).symm⟩, rfl, accounts, rfl⟩
    | none =>
      cases given with
      | nil => exact absurd same unended
      | cons register given =>
        obtain ⟨rfl, rfl⟩ := List.cons.inj (head.symm.trans same)
        have accounts := Turn.run_accounts numbered bounded (by nofun) ran
        obtain rfl := Turn.eq_of_goes ran (.release register)
        refine ⟨call.registers.get register, given, _, .gives _ given rfl outcome, ?_,
          ⟨[register], rfl, .inr ⟨register, rfl⟩, fun other => ?_⟩, rfl, accounts, rfl⟩
        · have most : (call.registers.get register).toList.length ≤ 1 := by
            cases call.registers.get register <;> simp
          rw [List.length_cons, Option.toList_none, List.length_nil]
          omega
        · simp only [Turn.before, Turn.setRegister, Registers.get_set, List.mem_singleton]

end Step

namespace Machine

variable {m m' next : Machine} {i j depth : Nat} {choice : Choice} {call call' : Call}
  {schedule later : List (Nat × Choice)} {bad : Order.Misorder} {rest : List Instruction}
  {pending : Ref} {given : List Register} {left : Nat}

theorem dealings_cons (stepped : m.step j choice = .ok next) :
    m.dealings ((j, choice) :: later) i depth =
      Moment.dealings ⟨m, j, choice, next⟩ i depth ++ next.dealings later i depth := by
  rw [dealings, moments_cons stepped, List.flatMap_cons]
  rfl

theorem owes_step (sound : m.Sound) (stepped : m.step j choice = .ok next)
    (there : m.callAt i depth = some call) (counts : m.world.Counts pending) (given : List Register) :
    call.owes next.world pending given = call.owes m.world pending given := by
  have member := mem_calls_of_callAt there
  have names (register : Register) : next.world.objectId (call.registers.get register) =
      m.world.objectId (call.registers.get register) :=
    step_objectId sound stepped (sound.counted.counts_register member register)
  simp only [Call.owes, names, step_objectId sound stepped counts]

theorem counts_pending (sound : m.Sound) (there : m.callAt i depth = some call)
    (withdraws : call.Withdraws bad rest pending given left) : m.world.Counts pending := by
  rintro addr rfl
  cases withdraws with
  | gives _ given code =>
    refine sound.counted.counted_of_drop (List.mem_flatMap.mpr ⟨call, mem_calls_of_callAt there, ?_⟩)
    exact code ▸ List.mem_cons_self

/-- A step of a call that withdraws does what is left of it; the steps of others leave it as it is. -/
theorem step_withdraws (sound : m.Sound) (stepped : m.step j choice = .ok next)
    (there : m.callAt i depth = some call) (withdraws : call.Withdraws bad rest pending given left)
    (unended : ∀ c, Moment.call? ⟨m, j, choice, next⟩ i depth = some c → c.code ≠ rest) :
    ∃ call₁ pending' gone given' left', next.callAt i depth = some call₁ ∧
      call₁.Withdraws bad rest pending' given' left' ∧ given = gone ++ given' ∧
      (∀ register, call₁.registers.get register =
        if register ∈ gone then none else call.registers.get register) ∧
      (given.Nodup → Moment.dealings ⟨m, j, choice, next⟩ i depth ++
        call₁.owes next.world pending' given' = call.owes m.world pending given) ∧
      ((Moment.call? ⟨m, j, choice, next⟩ i depth).isSome →
        left' < left ∧ m.world.Recounts next.world ∧
          Accounts (Moment.dealings ⟨m, j, choice, next⟩ i depth) m.world.heap next.world.heap) ∧
      left' ≤ left := by
  have pends := counts_pending sound there withdraws
  rcases step_callAt sound stepped there with ⟨acts, -, goes⟩ | ⟨waits, call₁, there₁, alike⟩
  · obtain ⟨i, code, head⟩ : ∃ i code, call.code = i :: code := by
      refine List.exists_cons_of_ne_nil fun ended => unended call acts ?_
      cases withdraws with
      | reports given code => exact absurd (code.symm.trans ended) (List.cons_ne_nil _ _)
      | gives pending given code =>
        obtain ⟨-, nothing⟩ := List.append_eq_nil_iff.mp (code.symm.trans ended)
        rw [ended, (List.append_eq_nil_iff.mp nothing).2]
    obtain ⟨inUse, turn, call₁, ran, world, there₁, alike⟩ := goes i code head
    obtain ⟨pending', given', left', withdrew⟩ :=
      Turn.run_withdraws sound.numbered sound.counted.bounded withdraws (unended call acts) head ran
    obtain ⟨gone, split, source, registers⟩ := withdrew.remain
    have dealt := Moment.dealings_of_acts acts head
    rw [← alike.registers] at registers
    refine ⟨call₁, pending', gone, given', left', there₁, withdrew.withdraws.alike alike, split,
      registers, fun apart => ?_,
      fun _ => ⟨withdrew.fewer, world ▸ withdrew.spares, dealt ▸ world ▸ withdrew.accounts⟩,
      Nat.le_of_lt withdrew.fewer⟩
    have counts : m.world.Counts pending' := by
      rcases source with rfl | ⟨register, rfl⟩
      · nofun
      · exact sound.counted.counts_register (mem_calls_of_callAt there) register
    have kept : ∀ register ∈ given', call₁.registers.get register = call.registers.get register :=
      fun register member => (registers register).trans
        (if_neg fun gone => (List.nodup_append.mp (split ▸ apart)).2.2 register gone register member rfl)
    have owes : call₁.owes next.world pending' given' = call.owes m.world pending' given' := by
      rw [← owes_step sound stepped there counts]
      unfold Call.owes
      congr 1
      exact List.flatMap_congr fun register member => by rw [kept register member]
    rw [dealt, owes, withdrew.dealt]
  · -- While others act, the call goes on owing what it owes.
    refine ⟨call₁, pending, [], given, left, there₁, withdraws.alike alike, rfl, fun register => ?_,
      fun _ => ?_, fun own => ?_, Nat.le_refl left⟩
    · rw [if_neg List.not_mem_nil, alike.registers]
    · rw [Moment.dealings_of_waits waits, List.nil_append, Call.owes, alike.registers]
      exact owes_step sound stepped there pends given
    · rw [waits] at own
      contradiction

theorem countP_of_withdraws (sound : m.Sound) (there : m.callAt i depth = some call)
    (withdraws : call.Withdraws bad rest pending given left)
    (unended : ∀ moment ∈ m.moments schedule, ∀ c, moment.call? i depth = some c → c.code ≠ rest) :
    (m.moments schedule).countP (fun moment => (moment.call? i depth).isSome) ≤ left := by
  induction schedule generalizing m call pending given left with
  | nil => exact Nat.zero_le left
  | cons turn later ih =>
    obtain ⟨j, choice⟩ := turn
    obtain ⟨next, stepped⟩ := step_ok sound j choice
    rw [moments_cons stepped] at unended ⊢
    obtain ⟨now, after⟩ := List.forall_mem_cons.mp unended
    obtain ⟨call₁, pending', gone, given', left', there₁, withdraws', -, -, -, own, le⟩ :=
      step_withdraws sound stepped there withdraws now
    have fewer := ih (step_sound sound stepped) there₁ withdraws' after
    rw [List.countP_cons]
    split
    · next acts => exact Nat.le_trans (Nat.succ_le_succ fewer) (own acts).1
    · exact Nat.le_trans fewer le

/-- What a call has done that has withdrawn and comes to the rest of its code. What was moved into it is
given up, and nothing else is changed in its steps. -/
structure Withdrawn (m : Machine) (schedule : List (Nat × Choice)) (i depth : Nat) (call : Call)
    (bad : Order.Misorder) (given : List Register) (dealings : List Dealing) (m' : Machine)
    (call' : Call) : Prop where
  outcome : call'.outcome = .misordered bad
  registers : ∀ register, call'.registers.get register =
    if register ∈ given then none else call.registers.get register
  names : ∀ register, register ∉ given →
    m'.world.objectId (call'.registers.get register) = m.world.objectId (call.registers.get register)
  dealt : m.dealings schedule i depth = dealings
  spared : ∀ moment ∈ m.moments schedule, (moment.call? i depth).isSome →
    moment.before.world.Recounts moment.after.world ∧
      Accounts (moment.dealings i depth) moment.before.world.heap moment.after.world.heap

theorem Brings.of_withdraws (brings : m.Brings schedule i depth rest m' call') (sound : m.Sound)
    (there : m.callAt i depth = some call) (withdraws : call.Withdraws bad rest pending given left)
    (apart : given.Nodup) :
    m.Withdrawn schedule i depth call bad given (call.owes m.world pending given) m' call' := by
  induction schedule generalizing m call pending given left with
  | nil =>
    obtain rfl := Except.ok.inj brings.ran
    obtain rfl := Option.some.inj (there.symm.trans brings.there)
    obtain ⟨rfl, rfl, outcome⟩ := withdraws.of_ended brings.reached
    exact ⟨outcome, fun register => (if_neg List.not_mem_nil).symm, fun _ _ => rfl, rfl, nofun⟩
  | cons turn later ih =>
    obtain ⟨j, choice⟩ := turn
    obtain ⟨next, stepped⟩ := step_ok sound j choice
    have first := brings.first
    rw [moments_cons stepped] at first
    obtain ⟨call₁, pending', gone, given', left', there₁, withdraws', split, registers, owes, own, -⟩ :=
      step_withdraws sound stepped there withdraws (List.forall_mem_cons.mp first).1
    subst split
    have withdrawn := ih (brings.tail stepped) (step_sound sound stepped) there₁ withdraws'
      (List.nodup_append.mp apart).2.1
    refine ⟨withdrawn.outcome, fun register => ?_, fun register kept => ?_, ?_, ?_⟩
    · rw [withdrawn.registers, registers]
      simp only [List.mem_append]
      split <;> split <;> simp_all
    · obtain ⟨ungone, kept⟩ := not_or.mp (List.mem_append.not.mp kept)
      rw [withdrawn.names register kept, registers, if_neg ungone]
      exact step_objectId sound stepped
        (sound.counted.counts_register (mem_calls_of_callAt there) register)
    · rw [dealings_cons stepped, withdrawn.dealt]
      exact owes apart
    · rw [moments_cons stepped]
      exact List.forall_mem_cons.mpr ⟨fun acts => (own acts).2, withdrawn.spared⟩

/-- If no others take steps meanwhile, a call that has withdrawn has changed nothing but the counts of
what it has given up. -/
theorem Withdrawn.alone {dealings : List Dealing} (sound : m.Sound)
    (ran : m.run schedule = .ok m')
    (withdrawn : m.Withdrawn schedule i depth call bad given dealings m' call')
    (own : ∀ moment ∈ m.moments schedule, (moment.call? i depth).isSome) :
    m.world.Recounts m'.world ∧ Accounts dealings m.world.heap m'.world.heap := by
  rw [← withdrawn.dealt]
  have spared := withdrawn.spared
  clear withdrawn
  induction schedule generalizing m with
  | nil =>
    obtain rfl := Except.ok.inj ran
    exact ⟨rfl, .refl rfl rfl⟩
  | cons turn later ih =>
    obtain ⟨j, choice⟩ := turn
    obtain ⟨next, stepped⟩ := step_ok sound j choice
    rw [moments_cons stepped] at own spared
    obtain ⟨acts, own⟩ := List.forall_mem_cons.mp own
    obtain ⟨now, spared⟩ := List.forall_mem_cons.mp spared
    obtain ⟨spares, accounts⟩ := ih (step_sound sound stepped) (run_cons stepped ▸ ran) own spared
    rw [dealings_cons stepped]
    exact ⟨(now acts).1.trans spares, (now acts).2.trans accounts⟩

end Machine

/-! ### Orders that are admitted -/

/-- A call that has not reported that its orders are refused, and is not about to. -/
structure Call.Admitted (call : Call) : Prop where
  outcome : ∀ bad, call.outcome ≠ .misordered bad
  code : ∀ bad, .note (.misordered bad) ∉ call.code

theorem Call.Admitted.run {w : World} {call : Call} {i : Instruction} {code : List Instruction}
    {choice : Choice} {inUse : SlotId → Bool} {turn : Turn} (admitted : call.Admitted)
    (head : call.code = i :: code)
    (ran : Turn.run choice inUse { world := w, call := { call with code } } i = .ok turn) :
    turn.call.Admitted where
  outcome bad refused := by
    rcases (Turn.run_tells ran).2 bad refused with before | rfl
    · exact admitted.outcome bad before
    · exact admitted.code bad (head ▸ List.mem_cons_self)
  code bad member :=
    admitted.code bad (head ▸ List.mem_cons_of_mem i (Turn.run_given ran trivial id member))

theorem Call.Admitted.alike {call call' : Call} (admitted : call.Admitted) (alike : call.Alike call') :
    call'.Admitted :=
  ⟨alike.outcome ▸ admitted.outcome, alike.code ▸ admitted.code⟩

theorem Machine.admitted_of_run {m m' : Machine} {i depth : Nat} {call : Call}
    {schedule : List (Nat × Choice)} (sound : m.Sound) (there : m.callAt i depth = some call)
    (admitted : call.Admitted) (ran : m.run schedule = .ok m')
    (unended : ∀ moment ∈ m.moments schedule, ∀ c, moment.call? i depth = some c → c.code ≠ []) :
    ∃ call', m'.callAt i depth = some call' ∧ call'.Admitted := by
  induction schedule generalizing m call with
  | nil =>
    obtain rfl := Except.ok.inj ran
    exact ⟨call, there, admitted⟩
  | cons turn later ih =>
    obtain ⟨j, choice⟩ := turn
    obtain ⟨next, stepped⟩ := step_ok sound j choice
    rw [moments_cons stepped] at unended
    obtain ⟨now, after⟩ := List.forall_mem_cons.mp unended
    have onward {call₁ : Call} (there₁ : next.callAt i depth = some call₁) (still : call₁.Admitted) :=
      ih (step_sound sound stepped) there₁ still (run_cons stepped ▸ ran) after
    rcases step_callAt sound stepped there with ⟨acts, -, goes⟩ | ⟨-, call₁, there₁, alike⟩
    · obtain ⟨i, code, head⟩ := List.exists_cons_of_ne_nil (now call acts)
      obtain ⟨inUse, turn, call₁, ran, -, there₁, alike⟩ := goes i code head
      exact onward there₁ ((admitted.run head ran).alike alike)
    · exact onward there₁ (admitted.alike alike)

namespace Operation

/-- The orders that an operation gives. -/
def orders? : Operation → Option (Order × Option LoadOrder)
  | compareExchange _ _ _ _ success failure | compareAndExchange _ _ _ _ success failure _ =>
    some (success, failure)
  | _ => none

/-- The same operation with other orders. -/
def withOrders (success : Order) (failure : Option LoadOrder) : Operation → Operation
  | compareExchange strength slot expected desired _ _ =>
    compareExchange strength slot expected desired success failure
  | compareAndExchange strength slot expected desired _ _ into =>
    compareAndExchange strength slot expected desired success failure into
  | operation => operation

variable {operation : Operation} {success success' : Order} {failure failure' : Option LoadOrder}

theorem code_withOrders (orders : operation.orders? = some (success, failure))
    (admitted : ¬ success.Refuses failure) (admitted' : ¬ success'.Refuses failure') :
    (operation.withOrders success' failure').code = operation.code := by
  obtain ⟨order, admits⟩ := Order.not_refuses_iff.mp admitted
  obtain ⟨order', admits'⟩ := Order.not_refuses_iff.mp admitted'
  cases operation with
  | compareExchange | compareAndExchange =>
    obtain ⟨rfl, rfl⟩ := Prod.mk.inj (Option.some.inj orders)
    simp only [withOrders, code, exchangeCode, admits, admits']
  | _ => contradiction

theorem code_admitted (orders : operation.orders? = some (success, failure))
    (admitted : ¬ success.Refuses failure) (bad : Order.Misorder) :
    .note (.misordered bad) ∉ operation.code := by
  obtain ⟨order, admits⟩ := Order.not_refuses_iff.mp admitted
  cases operation with
  | compareExchange =>
    obtain ⟨rfl, rfl⟩ := Prod.mk.inj (Option.some.inj orders)
    simp [code, exchangeCode, admits]
  | compareAndExchange _ _ _ _ _ _ into =>
    obtain ⟨rfl, rfl⟩ := Prod.mk.inj (Option.some.inj orders)
    cases into <;> simp [code, exchangeCode, admits, deliver]
  | _ => contradiction

theorem start_withOrders (orders : operation.orders? = some (success, failure))
    (admitted : ¬ success.Refuses failure) (admitted' : ¬ success'.Refuses failure') (w : World)
    (inUse : SlotId → Bool) (during : Option (List Command)) :
    (Command.mk (operation.withOrders success' failure') during).start w inUse =
      (Command.mk operation during).start w inUse := by
  have code := code_withOrders orders admitted admitted'
  cases operation with
  | compareExchange | compareAndExchange =>
    unfold Command.start
    dsimp only
    rw [code]
    rfl
  | _ => contradiction

end Operation

theorem any_uses_set {threads : List Thread} {i : Nat} {thread thread' : Thread} (slot : SlotId)
    (found : threads[i]? = some thread) (same : thread'.uses slot = thread.uses slot) :
    (threads.set i thread').any (·.uses slot) = threads.any (·.uses slot) := by
  obtain ⟨bound, rfl⟩ := List.getElem?_eq_some_iff.mp found
  let uses (thread : Thread) : Bool := thread.uses slot
  have bound' : i < (threads.map uses).length := by rwa [List.length_map]
  have kept : (threads.map uses).set i (threads.map uses)[i] = threads.map uses :=
    List.set_getElem_self bound'
  have used (l : List Thread) : l.any uses = (l.map uses).any id := by
    rw [List.any_map]
    rfl
  calc (threads.set i thread').any uses = ((threads.map uses).set i (uses thread')).any id := by
        rw [used, List.map_set]
    _ = ((threads.map uses).set i (threads.map uses)[i]).any id := by
        rw [List.getElem_map]
        exact congrArg (fun used => ((threads.map uses).set i used).any id) same
    _ = threads.any uses := by rw [kept, used]

theorem Machine.step_set {m : Machine} {i : Nat} {thread thread' : Thread} {choice : Choice}
    (found : m.threads[i]? = some thread) (same : thread'.uses = thread.uses)
    (steps : ∀ others, thread'.step choice others m.world = thread.step choice others m.world) :
    Machine.step i choice { m with threads := m.threads.set i thread' } = m.step i choice := by
  have bound : i < m.threads.length := (List.getElem?_eq_some_iff.mp found).1
  have others : (fun slot => (m.threads.set i thread').any (·.uses slot)) =
      fun slot => m.threads.any (·.uses slot) :=
    funext fun slot => any_uses_set slot found (congrFun same slot)
  unfold Machine.step
  simp only [found, List.getElem?_set_self bound, List.set_set]
  rw [others, steps]

/-- A thread that is about to begin a compare-exchange comes to the same state whichever orders the
command gives, if they are admitted. -/
theorem Machine.step_withOrders {m : Machine} {i : Nat} {level : Level} {below : Thread}
    {operation : Operation} {during : Option (List Command)} {todo : List Command}
    {success success' : Order} {failure failure' : Option LoadOrder}
    (found : m.threads[i]? = some (level :: below)) (idle : level.call = none)
    (next : level.todo = .mk operation during :: todo)
    (orders : operation.orders? = some (success, failure)) (admitted : ¬ success.Refuses failure)
    (admitted' : ¬ success'.Refuses failure') (choice : Choice) :
    Machine.step i choice { m with threads := m.threads.set i ({ level with
        todo := .mk (operation.withOrders success' failure') during :: todo } :: below) } =
      m.step i choice := by
  refine step_set found rfl fun others => ?_
  obtain ⟨role, _, _, records⟩ := level
  obtain rfl := idle
  obtain rfl := next
  simp only [Thread.step, Operation.start_withOrders orders admitted admitted']
  rfl

/-- The destruction of the value that is passed to the refused call empties the slot. -/
def emptying : List Command :=
  [.mk (.create "s" (.fresh []) false) none,
    .mk (.compareAndExchange .strong "s" (.fresh []) (.fresh [.mk (.clear "s") none]) .relaxed
      (some .seqCst) none) none]

theorem emptying_run : ∃ m call m' call',
    (ofPrograms [emptying]).run (List.replicate 9 (0, {})) = .ok m ∧ m.callAt 0 0 = some call ∧
      call.code = exchangeCode .strong .relaxed (some .seqCst)
        [.note (.object .expected), .release .expected] ([Register.expected].map .release ++ []) ∧
      m.Brings (List.replicate 14 (0, {})) 0 0 [] m' call' ∧
      m.world.objectId call.registers.desired = some 3 ∧
      m.world.objectId call.registers.expected = some 2 ∧
      m.world.objectId (m.world.word 0) = some 1 ∧ m'.world.objectId (m'.world.word 0) = none :=
  ⟨_, _, _, _, rfl, rfl, rfl, ⟨rfl, rfl, rfl, first_of_lengths rfl⟩, rfl, rfl, rfl, rfl⟩

/-- A compare-exchange reports that its orders are refused exactly if a failure order is given that
outranks the success order. A cell of values and what the caller expects are then as they were. A call on
a reference, among any other threads, then gives up every reference that was moved into it, in so many
steps at most, and changes nothing else in them: no slot, no handle, no mark, no other count; what the
destruction of these objects does is not its own. If the orders are admitted, they make no difference. A
content that does not decode is the only other reason to fail, and nothing has changed then either. -/
theorem refused_orders_change_nothing :
    (∀ {ρ α : Type} [DecidableEq ρ] (E : Encoding ρ α) (strength : Strength) (spurious : Bool)
        (success : Order) (failure : Option LoadOrder) (content : ρ) (expected desired : α),
      let tried :=
        Cell.compareExchange E strength spurious expected desired success failure content
      ((∃ bad, tried.1.verdict = .error (.misordered bad)) ↔ success.Refuses failure) ∧
        (tried.1.verdict = .error .undecodable ↔ ¬ success.Refuses failure ∧
          ¬(content = E.encode expected ∧ ¬(strength = .weak ∧ spurious = true)) ∧
          E.decode content = none) ∧
        (∀ error, tried.1.verdict = .error error → tried = (⟨.error error, expected⟩, content)) ∧
        ∀ success' failure', ¬ success.Refuses failure → ¬ success'.Refuses failure' →
          Cell.compareExchange E strength spurious expected desired success' failure' content =
            tried) ∧
    (∀ {programs : List (List Command)} {before : List (Nat × Choice)} {m : Machine}
        {i depth : Nat} {call : Call} {strength : Strength} {success : Order}
        {failure : Option LoadOrder} {accepted rest : List Instruction} {given : List Register},
      (ofPrograms programs).run before = .ok m → m.callAt i depth = some call →
      call.code = exchangeCode strength success failure accepted (given.map .release ++ rest) →
      (Register.desired :: given).Nodup → success.Refuses failure →
      let dealings := (Register.desired :: given).flatMap fun register =>
        releases (m.world.objectId (call.registers.get register))
      (∀ schedule m' call', m.Brings schedule i depth rest m' call' →
        ∃ bad, Order.failureOrder success failure = .error bad ∧
          m.Withdrawn schedule i depth call bad (.desired :: given) dealings m' call' ∧
          ((∀ moment ∈ m.moments schedule, (moment.call? i depth).isSome) →
            m.world.Recounts m'.world ∧ Accounts dealings m.world.heap m'.world.heap)) ∧
        ∀ schedule, (∀ moment ∈ m.moments schedule, ∀ c, moment.call? i depth = some c →
            c.code ≠ rest) →
          (m.moments schedule).countP (fun moment => (moment.call? i depth).isSome) ≤
            2 * given.length + 3) ∧
    ∀ {operation : Operation} {success : Order} {failure : Option LoadOrder},
      operation.orders? = some (success, failure) → ¬ success.Refuses failure →
      (∀ {programs : List (List Command)} {before schedule : List (Nat × Choice)} {m m' : Machine}
          {i depth : Nat} {call : Call},
        (ofPrograms programs).run before = .ok m → m.callAt i depth = some call →
        call.code = operation.code → call.outcome = .done → m.run schedule = .ok m' →
        (∀ moment ∈ m.moments schedule, ∀ c, moment.call? i depth = some c → c.code ≠ []) →
        ∃ call', m'.callAt i depth = some call' ∧ ∀ bad, call'.outcome ≠ .misordered bad) ∧
      (∀ {m : Machine} {i : Nat} {level : Level} {below : Thread} {during : Option (List Command)}
          {todo : List Command} (success' : Order) (failure' : Option LoadOrder),
        m.threads[i]? = some (level :: below) → level.call = none →
        level.todo = .mk operation during :: todo → ¬ success'.Refuses failure' →
        ∀ choice schedule,
          Machine.run ((i, choice) :: schedule) { m with threads := m.threads.set i ({ level with
              todo := .mk (operation.withOrders success' failure') during :: todo } :: below) } =
            m.run ((i, choice) :: schedule)) ∧
      ∀ order, Order.failureOrder success failure = .ok order →
        ¬ success.publishing.Refuses (some order) := by
  refine ⟨fun E strength spurious success failure content expected desired =>
    Cell.compareExchange_orders E strength spurious success failure content expected desired, ?_, ?_⟩
  · intro programs before m i depth call strength success failure accepted rest given reached there code
      apart refuses
    have sound : m.Sound := sound_of_run (ofPrograms_sound programs) reached
    obtain ⟨bad, refused⟩ := Order.refuses_iff.mp refuses
    have reports : call.code =
        .note (.misordered bad) :: ((Register.desired :: given).map .release ++ rest) := by
      rw [code, exchangeCode, refused]
      rfl
    have withdraws := Call.Withdraws.reports _ reports
    refine ⟨fun schedule m' call' brings => ⟨bad, refused, ?_⟩, fun schedule unended => ?_⟩
    · have withdrawn := brings.of_withdraws sound there withdraws apart
      exact ⟨withdrawn, withdrawn.alone sound brings.ran⟩
    · have few := countP_of_withdraws sound there withdraws unended
      rwa [List.length_cons, Nat.mul_succ] at few
  · intro operation success failure orders admitted
    refine ⟨?_, ?_, fun order => Order.failureOrder_publishing⟩
    · intro programs before schedule m m' i depth call reached there code outcome ran unended
      have sound : m.Sound := sound_of_run (ofPrograms_sound programs) reached
      have quiet : call.Admitted := by
        refine ⟨fun bad refused => ?_, fun bad => code ▸ Operation.code_admitted orders admitted bad⟩
        rw [outcome] at refused
        contradiction
      obtain ⟨call', there', still⟩ := admitted_of_run sound there quiet ran unended
      exact ⟨call', there', still.outcome⟩
    · intro m i level below during todo success' failure' found idle next admitted' choice schedule
      unfold Machine.run
      rw [List.foldlM_cons, List.foldlM_cons]
      dsimp only
      rw [step_withOrders found idle next orders admitted admitted']

/-- The call gives up the reference that was passed and the expected one, each once. -/
theorem refused_orders_change_nothing_emptying : ∃ m call m' call',
    (ofPrograms [emptying]).run (List.replicate 9 (0, {})) = .ok m ∧ m.callAt 0 0 = some call ∧
      Order.Refuses .relaxed (some .seqCst) ∧
      m.Brings (List.replicate 14 (0, {})) 0 0 [] m' call' ∧
      call'.outcome = .misordered ⟨.relaxed, .seqCst⟩ ∧
      m.dealings (List.replicate 14 (0, {})) 0 0 = [.released 3, .released 2] := by
  obtain ⟨m, call, m', call', reached, there, code, brings, desired, expected, -, -⟩ := emptying_run
  have refuses : Order.Refuses .relaxed (some .seqCst) := ⟨.seqCst, rfl, by decide⟩
  obtain ⟨withdrawn, -⟩ :=
    refused_orders_change_nothing.2.1 reached there code (by decide) refuses
  obtain ⟨bad, refused, withdrew, -⟩ := withdrawn _ _ _ brings
  obtain rfl := Except.error.inj refused
  refine ⟨m, call, m', call', reached, there, refuses, brings, withdrew.outcome, ?_⟩
  rw [withdrew.dealt]
  simp only [List.flatMap_cons, List.flatMap_nil, Registers.get, desired, expected]
  rfl

/-- A content that does not decode makes a compare-exchange fail that gives no failure order; and a slot
may change while a refused call gives up what was passed. -/
theorem undecodable_fails_and_refusal_empties :
    let E := Variant.encoding [⟨"A", 0, true⟩, ⟨"B", (1 : Int), false⟩]
    ¬((∃ error, (Cell.compareExchange E .strong false 1 1 .seqCst none (E.encode 0)).1.verdict =
        .error error) ↔ Order.Refuses .seqCst none) ∧
    ∃ m call m' call',
      (ofPrograms [emptying]).run (List.replicate 9 (0, {})) = .ok m ∧ m.callAt 0 0 = some call ∧
        call.code = exchangeCode .strong .relaxed (some .seqCst)
          [.note (.object .expected), .release .expected] ([Register.expected].map .release ++ []) ∧
        m.Brings (List.replicate 14 (0, {})) 0 0 [] m' call' ∧
        m'.world.objectId (m'.world.word 0) ≠ m.world.objectId (m.world.word 0) := by
  intro E
  refine ⟨fun agree => ?_, ?_⟩
  · obtain ⟨order, given, -⟩ := agree.mp ⟨.undecodable, rfl⟩
    exact absurd given (Option.some_ne_none order).symm
  · obtain ⟨m, call, m', call', reached, there, code, brings, -, -, held, empty⟩ := emptying_run
    exact ⟨m, call, m', call', reached, there, code, brings, by rw [held, empty]; nofun⟩

end SharedCells.Slot
