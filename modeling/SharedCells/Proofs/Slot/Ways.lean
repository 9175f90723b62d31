import SharedCells.Slot.Turn

/-! The ways that instructions go.

What an instruction does is said here once, with one constructor for each of its
ways. What instructions keep is shown from these ways, without a look at how they
are carried out. -/

set_option autoImplicit false

namespace SharedCells.Slot

namespace Turn

open Registry (Claim Debt Payment Place Settle)

/-- What stands in the place of an instruction that changes nothing but the code of its call. -/
inductive GivesWay (choice : Choice) (inUse : SlotId → Bool) (t : Turn) : Instruction → List Instruction → Prop where
  | required : (t.get .desired).isSome → GivesWay choice inUse t .require []
  | swap_idle : t.call.slot = none → GivesWay choice inUse t .swap []
  | pay_finished (addr : Addr) : GivesWay choice inUse t (.pay addr .finished) []
  | pay_release (addr : Addr) (place : Place) : GivesWay choice inUse t (.pay addr (.release place))
      [.drop addr, .pay addr (.scan (t.world.registry.after place))]
  | read_load : GivesWay choice inUse t (.read .load) [.retain .load t.word]
  | read_strong : GivesWay choice inUse t (.read .strong) [.attempt t.word]
  | read_weak : GivesWay choice inUse t (.read .weak) [.once t.word]
  | retain (purpose : Purpose) (addr : Addr) :
      GivesWay choice inUse t (.retain purpose (some addr)) [.claim purpose addr .start]
  | recheck_same (purpose : Purpose) {debt : Debt} : t.word = some debt.addr →
      GivesWay choice inUse t (.recheck purpose debt) [.increment purpose debt]
  | recheck_differs (purpose : Purpose) {debt : Debt} : t.word ≠ some debt.addr →
      GivesWay choice inUse t (.recheck purpose debt) [.stale purpose debt t.word .withdraw]
  | attempt_idle (seen : Ref) : t.call.slot = none → GivesWay choice inUse t (.attempt seen) []
  | attempt_lost {seen : Ref} {slot : SlotId} : t.call.slot = some slot → seen = t.get .expected →
      t.world.word slot ≠ t.get .expected →
      GivesWay choice inUse t (.attempt seen) [.attempt (t.world.word slot)]
  | attempt_differs {seen : Ref} {slot : SlotId} : t.call.slot = some slot →
      seen ≠ t.get .expected → GivesWay choice inUse t (.attempt seen) [.retain .strong seen]
  | once_idle (seen : Ref) : t.call.slot = none → GivesWay choice inUse t (.once seen) []
  | once_lost {seen : Ref} {slot : SlotId} : t.call.slot = some slot → seen = t.get .expected →
      ¬ (t.world.word slot = t.get .expected ∧ choice.spurious = false) →
      GivesWay choice inUse t (.once seen) [.release .desired, .revisit (t.world.word slot)]
  | once_differs {seen : Ref} {slot : SlotId} : t.call.slot = some slot → seen ≠ t.get .expected →
      GivesWay choice inUse t (.once seen) [.release .desired, .revisit seen]
  | revisit_same {seen : Ref} : seen = t.get .expected → GivesWay choice inUse t (.revisit seen) []
  | revisit_differs {seen : Ref} : seen ≠ t.get .expected →
      GivesWay choice inUse t (.revisit seen) [.retain .weak seen]
  | offer_same {u : Updating} {n : Nat} : u.answer n = .same → GivesWay choice inUse t (.offer u n)
      [.copy .expected .desired, .copy .expected .kept, .read .weak, .verdict u n]
  | offer_value {u : Updating} {n : Nat} {v : Value} : u.answer n = .value v →
      GivesWay choice inUse t (.offer u n)
        [.evaluate v .desired, .copy .expected .kept, .read .weak, .verdict u n]
  | verdict_won (u : Updating) (n : Nat) : t.call.exchanged = true →
      GivesWay choice inUse t (.verdict u n) (.release .expected :: .note .updated :: deliver u.into .kept)
  | verdict_lost (u : Updating) (n : Nat) : t.call.exchanged = false →
      GivesWay choice inUse t (.verdict u n) [.release .kept, .consult u (n + 1)]
  | swept : (t.world.slots.find? fun entry => !inUse entry.2) = none →
      t.world.handles = [] → GivesWay choice inUse t .dropNext []

/-- How an instruction goes. Few instructions can fail: those that count, give up or hand out a reference,
and those that settle a debt. -/
inductive Goes (choice : Choice) (inUse : SlotId → Bool) (t : Turn) :
    Instruction → Except Fault Turn → Prop where
  | gives_way {i : Instruction} {new : List Instruction} : GivesWay choice inUse t i new →
      Goes choice inUse t i (.ok (t.before new))
  -- The call ends early.
  | refused : t.get .desired = none → Goes choice inUse t .require
      (.ok { t with call.code := [], call.outcome := .noValue })
  | busy {name : String} : (t.world.slots.get? name).any inUse = true →
      Goes choice inUse t (.createSlot name)
        (.ok { t with call.code := [], call.outcome := .slotBusy })
  -- Something is noted.
  | note (n : Note) : Goes choice inUse t (.note n) (.ok (t.note (t.outcome n)))
  | inspect : Goes choice inUse t .inspect (.ok (t.note (.emptiness t.word.isNone)))
  | peek_empty (keep : Bool) : t.word = none →
      Goes choice inUse t (.peek keep) (.ok (t.note (.object none)))
  | peek_dangling (keep : Bool) {addr : Addr} : t.word = some addr → t.world.heap.live? addr = none →
      Goes choice inUse t (.peek keep) (.error (.dangling addr))
  | peek {addr : Addr} {object : Object (List Command)} : t.word = some addr →
      t.world.heap.live? addr = some object →
      Goes choice inUse t (.peek false) (.ok (t.note (.viewed object.id object.count)))
  | peek_kept {addr : Addr} {object : Object (List Command)} {result : Except Fault Turn} :
      t.word = some addr → t.world.heap.live? addr = some object →
      (t.note (.viewed object.id object.count)).retainInto .observed (some addr) = result →
      Goes choice inUse t (.peek true) result
  -- A register gets a reference.
  | nothing (into : Register) :
      Goes choice inUse t (.evaluate .nothing into) (.ok (t.assign into none))
  | handle_copy {handle : String} {into : Register} {result : Except Fault Turn} :
      t.retainInto into (t.world.handles.get? handle) = result →
      Goes choice inUse t (.evaluate (.copy handle) into) result
  | handle_take (handle : String) (into : Register) : Goes choice inUse t (.evaluate (.take handle) into)
      (.ok ({ t with world.handles := t.world.handles.erase handle }.assign into
        (t.world.handles.get? handle)))
  | fresh (onDrop : List Command) (into : Register) : Goes choice inUse t (.evaluate (.fresh onDrop) into)
      (.ok ({ t with world.heap := (t.world.heap.create choice.addr onDrop).2 }.assign into
        (some (t.world.heap.create choice.addr onDrop).1)))
  | copy {source target : Register} {result : Except Fault Turn} :
      t.retainInto target (t.get source) = result → Goes choice inUse t (.copy source target) result
  | move (source target : Register) : Goes choice inUse t (.move source target)
      (.ok ((t.setRegister source none).assign target (t.get source)))
  -- References are given up or away.
  | release (register : Register) : Goes choice inUse t (.release register)
      (.ok ((t.setRegister register none).before ((t.get register).toList.map .drop)))
  | drop {addr : Addr} {left : Object (List Command)} {heap : Heap (List Command)} :
      t.world.heap.release? addr = some (left, heap) → Goes choice inUse t (.drop addr)
        (.ok { t with
          world.heap := heap
          above := if left.count = 0 then some { role := .destruction addr, todo := left.onDrop }
            else none })
  | drop_dangling {addr : Addr} : t.world.heap.release? addr = none →
      Goes choice inUse t (.drop addr) (.error (.dangling addr))
  | putHandle (handle : String) (source : Register) : Goes choice inUse t (.putHandle handle source)
      (.ok (({ t with world.handles := t.world.handles.assign handle (t.get source) }.setRegister source
        none).before ((t.world.handles.get? handle).toList.map .drop)))
  -- A slot is created, or its word exchanged.
  | createSlot {name : String} : (t.world.slots.get? name).any inUse = false →
      Goes choice inUse t (.createSlot name)
        (.ok ({ t with
          world.words := t.world.words ++ [t.get .desired]
          world.slots := t.world.slots.put name t.world.words.length
          call.slot := t.world.slots.get? name }.setRegister .desired none))
  | swap {slot : SlotId} : t.call.slot = some slot →
      Goes choice inUse t .swap (.ok (t.publish slot (t.world.word slot)))
  | attempt_won {seen : Ref} {slot : SlotId} : t.call.slot = some slot → seen = t.get .expected →
      t.world.word slot = t.get .expected → Goes choice inUse t (.attempt seen)
        (.ok (({ t with call.exchanged := true }.before [.release .observed]).publish slot
          (t.get .expected)))
  | once_won {seen : Ref} {slot : SlotId} : t.call.slot = some slot → seen = t.get .expected →
      t.world.word slot = t.get .expected → choice.spurious = false → Goes choice inUse t (.once seen)
        (.ok (({ t with call.exchanged := true }.before [.release .observed]).publish slot
          (t.get .expected)))
  -- A payment goes on.
  | pay_start (addr : Addr) : Goes choice inUse t (.pay addr .start)
      (.ok (t.before [.pay addr (.scan t.world.registry.first)]))
  | pay_test (addr : Addr) (place : Place) : Goes choice inUse t (.pay addr (.test place))
      (.ok (t.before [.pay addr (Payment.step addr (.test place) t.world.registry).1]))
  | pay_retain {addr : Addr} (place : Place) {heap : Heap (List Command)} :
      t.world.heap.retain? addr = some heap → Goes choice inUse t (.pay addr (.retain place))
        (.ok ({ t with world.heap := heap }.before [.pay addr (.mark place)]))
  | pay_dangling {addr : Addr} (place : Place) : t.world.heap.retain? addr = none →
      Goes choice inUse t (.pay addr (.retain place)) (.error (.dangling addr))
  | pay_mark (addr : Addr) (place : Place) : Goes choice inUse t (.pay addr (.mark place))
      (.ok ({ t with world.registry := (Payment.step addr (.mark place) t.world.registry).2 }.before
        [.pay addr (Payment.step addr (.mark place) t.world.registry).1]))
  -- A read goes on.
  | retain_nothing (purpose : Purpose) : Goes choice inUse t (.retain purpose none)
      (.ok ((t.before (settled purpose)).assign .observed none))
  | claim (purpose : Purpose) {addr : Addr} {progress next : Claim} {registry : Registry} :
      progress.step addr choice.spurious t.world.registry = (next, registry) →
      (∀ place grown, next ≠ .recorded place grown) →
      Goes choice inUse t (.claim purpose addr progress)
        (.ok ({ t with world.registry := registry }.before [.claim purpose addr next]))
  | recorded (purpose : Purpose) {addr : Addr} {progress : Claim} {place : Place} {grown : Bool}
      {registry : Registry} :
      progress.step addr choice.spurious t.world.registry = (.recorded place grown, registry) →
      Goes choice inUse t (.claim purpose addr progress)
        (.ok { t.before [.recheck purpose ⟨place, addr⟩] with
          world.registry := registry
          recorded := true })
  | increment {purpose : Purpose} {debt : Debt} {result : Except Fault Turn} :
      (t.before [.settle purpose debt .withdraw]).retainInto .observed (some debt.addr) = result →
      Goes choice inUse t (.increment purpose debt) result
  | settle (purpose : Purpose) {debt : Debt} {progress next : Settle} {registry : Registry} :
      progress.step debt t.world.registry = (next, registry) →
      (∀ outstanding, next ≠ .settled outstanding) → next ≠ .corrupted →
      Goes choice inUse t (.settle purpose debt progress)
        (.ok ({ t with world.registry := registry }.before [.settle purpose debt next]))
  | settle_owed (purpose : Purpose) {debt : Debt} {progress : Settle} {registry : Registry} :
      progress.step debt t.world.registry = (.settled true, registry) →
      Goes choice inUse t (.settle purpose debt progress)
        (.ok ({ t with world.registry := registry }.before (settled purpose)))
  | settle_paid (purpose : Purpose) {debt : Debt} {progress : Settle} {registry : Registry} :
      progress.step debt t.world.registry = (.settled false, registry) →
      Goes choice inUse t (.settle purpose debt progress)
        (.ok ({ t with world.registry := registry }.before (.drop debt.addr :: settled purpose)))
  | settle_corrupted (purpose : Purpose) {debt : Debt} {progress : Settle} {registry : Registry} :
      progress.step debt t.world.registry = (.corrupted, registry) →
      Goes choice inUse t (.settle purpose debt progress) (.error (.corrupted debt.place))
  | stale (purpose : Purpose) {debt : Debt} (seen : Ref) {progress next : Settle}
      {registry : Registry} : progress.step debt t.world.registry = (next, registry) →
      (∀ outstanding, next ≠ .settled outstanding) → next ≠ .corrupted →
      Goes choice inUse t (.stale purpose debt seen progress)
        (.ok ({ t with world.registry := registry }.before [.stale purpose debt seen next]))
  | stale_owed (purpose : Purpose) {debt : Debt} (seen : Ref) {progress : Settle}
      {registry : Registry} : progress.step debt t.world.registry = (.settled true, registry) →
      Goes choice inUse t (.stale purpose debt seen progress)
        (.ok ({ t with world.registry := registry }.before [look purpose seen]))
  | stale_paid (purpose : Purpose) {debt : Debt} (seen : Ref) {progress : Settle}
      {registry : Registry} : progress.step debt t.world.registry = (.settled false, registry) →
      (t.world.heap.live? debt.addr).isSome → Goes choice inUse t (.stale purpose debt seen progress)
        (.ok (({ t with world.registry := registry }.before (settled purpose)).assign .observed
          (some debt.addr)))
  | stale_dangling (purpose : Purpose) {debt : Debt} (seen : Ref) {progress : Settle}
      {registry : Registry} : progress.step debt t.world.registry = (.settled false, registry) →
      t.world.heap.live? debt.addr = none →
      Goes choice inUse t (.stale purpose debt seen progress) (.error (.dangling debt.addr))
  | stale_corrupted (purpose : Purpose) {debt : Debt} (seen : Ref) {progress : Settle}
      {registry : Registry} : progress.step debt t.world.registry = (.corrupted, registry) →
      Goes choice inUse t (.stale purpose debt seen progress) (.error (.corrupted debt.place))
  -- An update calls its function.
  | consult (u : Updating) (n : Nat) : Goes choice inUse t (.consult u n)
      (.ok { t.before [.offer u n] with
        call.seen := t.world.objectId (t.get .expected) :: t.call.seen
        above := (u.meanwhile[n]?.join).map fun todo => { role := .meanwhile, todo } })
  -- A slot or a handle is dropped.
  | unbind {name : String} {slot : SlotId} :
      (t.world.slots.find? fun entry => !inUse entry.2) = some (name, slot) →
      Goes choice inUse t .dropNext
        (.ok ({ t with world.slots := t.world.slots.erase name, call.slot := some slot }.before
          [.swap, .release .observed, .dropNext]))
  | dropHandle {name : String} {addr : Addr} {handles : Table Addr} :
      (t.world.slots.find? fun entry => !inUse entry.2) = none →
      t.world.handles = (name, addr) :: handles →
      Goes choice inUse t .dropNext
        (.ok ({ t with world.handles := handles }.before [.drop addr, .dropNext]))

variable {s t t' : Turn} {choice : Choice} {inUse : SlotId → Bool} {i : Instruction} {ref : Ref}
  {register : Register}

theorem before_nil : t.before [] = t := rfl

theorem retainInto_of_retain? {addr : Addr} {heap : Heap (List Command)}
    (retained : t.world.heap.retain? addr = some heap) : t.retainInto register (some addr) =
      .ok ({ t with world.heap := heap }.assign register (some addr)) := by
  simp only [retainInto, retained]

theorem retainInto_cases (ran : t.retainInto register ref = .ok t') :
    (ref = none ∧ t' = t.assign register none) ∨
      ∃ addr heap, ref = some addr ∧ t.world.heap.retain? addr = some heap ∧
        t' = { t with world.heap := heap }.assign register (some addr) := by
  cases ref with
  | none => exact .inl ⟨rfl, (Except.ok.inj ran).symm⟩
  | some addr =>
    unfold retainInto at ran
    dsimp only at ran
    split at ran
    · next heap retained => exact .inr ⟨addr, heap, rfl, retained, (Except.ok.inj ran).symm⟩
    · contradiction

/-- Beside the count, a reference that is retained only changes a register. -/
theorem retainInto_eq (ran : t.retainInto register ref = .ok t') :
    ∃ heap, t' = { t with world.heap := heap }.assign register ref := by
  rcases retainInto_cases ran with ⟨rfl, same⟩ | ⟨addr, heap, rfl, -, same⟩
  · exact ⟨t.world.heap, same⟩
  · exact ⟨heap, same⟩

theorem exchange_eq_won {slot : SlotId} {spurious : Bool} {failed : Ref → List Instruction}
    (won : t.world.word slot = t.get .expected ∧ spurious = false) :
    t.exchange slot spurious failed =
      ({ t with call.exchanged := true }.before [.release .observed]).publish slot
        (t.get .expected) := if_pos won

theorem exchange_eq_lost {slot : SlotId} {spurious : Bool} {failed : Ref → List Instruction}
    (lost : ¬ (t.world.word slot = t.get .expected ∧ spurious = false)) :
    t.exchange slot spurious failed = t.before (failed (t.world.word slot)) := if_neg lost

theorem run_attempt_of_eq {seen : Ref} {slot : SlotId} (acts : t.call.slot = some slot)
    (same : seen = t.get .expected) : t.run choice inUse (.attempt seen) =
      .ok (t.exchange slot false fun word => [.attempt word]) := by
  unfold run
  dsimp only
  rw [acts]
  exact if_pos same

theorem run_once_of_eq {seen : Ref} {slot : SlotId} (acts : t.call.slot = some slot)
    (same : seen = t.get .expected) : t.run choice inUse (.once seen) =
      .ok (t.exchange slot choice.spurious fun word => [.release .desired, .revisit word]) := by
  unfold run
  dsimp only
  rw [acts]
  exact if_pos same

theorem settle_goes {purpose : Purpose} {debt : Debt} {progress : Settle} :
    Goes choice inUse t (.settle purpose debt progress)
      (t.run choice inUse (.settle purpose debt progress)) := by
  unfold run
  dsimp only
  cases step : progress.step debt t.world.registry with
  | mk next registry =>
    cases next with
    | settled outstanding =>
      cases outstanding with
      | true => exact .settle_owed purpose step
      | false => exact .settle_paid purpose step
    | corrupted => exact .settle_corrupted purpose step
    | withdraw | clear => exact .settle purpose step nofun nofun

theorem stale_goes {purpose : Purpose} {debt : Debt} {seen : Ref} {progress : Settle} :
    Goes choice inUse t (.stale purpose debt seen progress)
      (t.run choice inUse (.stale purpose debt seen progress)) := by
  unfold run
  dsimp only
  cases step : progress.step debt t.world.registry with
  | mk next registry =>
    cases next with
    | settled outstanding =>
      cases outstanding with
      | true => exact .stale_owed purpose seen step
      | false =>
        dsimp only
        split
        · next live => exact .stale_paid purpose seen step live
        · next gone => exact .stale_dangling purpose seen step (Option.not_isSome_iff_eq_none.mp gone)
    | corrupted => exact .stale_corrupted purpose seen step
    | withdraw | clear => exact .stale purpose seen step nofun nofun

theorem attempt_goes {seen : Ref} :
    Goes choice inUse t (.attempt seen) (t.run choice inUse (.attempt seen)) := by
  unfold run
  dsimp only
  split
  · next idle => exact .gives_way (.attempt_idle seen idle)
  · next slot acts =>
    split
    · next same =>
      by_cases won : t.world.word slot = t.get .expected
      · rw [exchange_eq_won ⟨won, rfl⟩]
        exact .attempt_won acts same won
      · rw [exchange_eq_lost fun both => won both.1]
        exact .gives_way (.attempt_lost acts same won)
    · next differs => exact .gives_way (.attempt_differs acts differs)

theorem once_goes {seen : Ref} :
    Goes choice inUse t (.once seen) (t.run choice inUse (.once seen)) := by
  unfold run
  dsimp only
  split
  · next idle => exact .gives_way (.once_idle seen idle)
  · next slot acts =>
    split
    · next same =>
      by_cases won : t.world.word slot = t.get .expected ∧ choice.spurious = false
      · rw [exchange_eq_won won]
        exact .once_won acts same won.1 won.2
      · rw [exchange_eq_lost won]
        exact .gives_way (.once_lost acts same won)
    · next differs => exact .gives_way (.once_differs acts differs)

theorem peek_goes {keep : Bool} :
    Goes choice inUse t (.peek keep) (t.run choice inUse (.peek keep)) := by
  unfold run
  dsimp only
  split
  · next empty => exact .peek_empty keep empty
  · next addr word =>
    split
    · next gone => exact .peek_dangling keep word gone
    · next object live =>
      cases keep with
      | true => exact .peek_kept word live rfl
      | false => exact .peek word live

theorem dropNext_goes : Goes choice inUse t .dropNext (t.run choice inUse .dropNext) := by
  unfold run
  dsimp only
  cases found : t.world.slots.find? fun entry => !inUse entry.2 with
  | some entry => exact .unbind found
  | none =>
    cases first : t.world.handles with
    | nil => exact .gives_way (.swept found first)
    | cons entry handles => exact .dropHandle found first

/-- An instruction goes in one of its ways. -/
theorem run_goes : Goes choice inUse t i (t.run choice inUse i) := by
  cases i with
  | evaluate v into =>
    cases v with
    | nothing => exact .nothing into
    | copy handle => exact .handle_copy rfl
    | take handle => exact .handle_take handle into
    | fresh onDrop => exact .fresh onDrop into
  | copy source target => exact .copy rfl
  | move source target => exact .move source target
  | release register => exact .release register
  | putHandle handle source => exact .putHandle handle source
  | note n => exact .note n
  | inspect => exact .inspect
  | consult u n => exact .consult u n
  | increment purpose debt => exact .increment rfl
  | settle => exact settle_goes
  | stale => exact stale_goes
  | attempt => exact attempt_goes
  | once => exact once_goes
  | peek => exact peek_goes
  | dropNext => exact dropNext_goes
  | read purpose =>
    cases purpose with
    | load => exact .gives_way .read_load
    | strong => exact .gives_way .read_strong
    | weak => exact .gives_way .read_weak
  | retain purpose seen =>
    cases seen with
    | none => exact .retain_nothing purpose
    | some addr => exact .gives_way (.retain purpose addr)
  | pay addr payment =>
    cases payment with
    | start => exact .pay_start addr
    | test place => exact .pay_test addr place
    | mark place => exact .pay_mark addr place
    | release place => exact .gives_way (.pay_release addr place)
    | finished => exact .gives_way (.pay_finished addr)
    | retain place =>
      unfold run
      dsimp only
      split
      · next gone => exact .pay_dangling place gone
      · next heap retained => exact .pay_retain place retained
  | offer u n =>
    unfold run
    dsimp only
    cases answer : u.answer n with
    | same => exact .gives_way (.offer_same answer)
    | value v => exact .gives_way (.offer_value answer)
  | drop addr =>
    unfold run
    dsimp only [dropReference]
    split
    · next gone => exact .drop_dangling gone
    · next left heap released => exact .drop released
  | require =>
    unfold run
    dsimp only
    split
    · next there => exact .gives_way (.required there)
    · next gone => exact .refused (Option.not_isSome_iff_eq_none.mp gone)
  | createSlot name =>
    unfold run
    dsimp only
    split
    · next used => exact .busy used
    · next unused => exact .createSlot (eq_false_of_ne_true unused)
  | swap =>
    unfold run
    dsimp only
    split
    · next idle => exact .gives_way (.swap_idle idle)
    · next slot acts => exact .swap acts
  | claim purpose addr progress =>
    unfold run
    dsimp only
    split
    · next step => exact .recorded purpose step
    · next goes step => exact .claim purpose step goes
  | recheck purpose debt =>
    unfold run
    dsimp only
    split
    · next same => exact .gives_way (.recheck_same purpose same)
    · next differs => exact .gives_way (.recheck_differs purpose differs)
  | revisit seen =>
    unfold run
    dsimp only
    split
    · next same => exact .gives_way (.revisit_same same)
    · next differs => exact .gives_way (.revisit_differs differs)
  | verdict u n =>
    unfold run
    dsimp only
    split
    · next won => exact .gives_way (.verdict_won u n won)
    · next lost => exact .gives_way (.verdict_lost u n (eq_false_of_ne_true lost))

theorem goes_of_run {result : Except Fault Turn} (ran : t.run choice inUse i = result) :
    Goes choice inUse t i result := ran ▸ run_goes

theorem GivesWay.run {new : List Instruction} (gives : GivesWay choice inUse t i new) :
    t.run choice inUse i = .ok (t.before new) := by
  cases gives with
  | required there => exact if_pos there
  | recheck_same purpose same => exact if_pos same
  | recheck_differs purpose differs => exact if_neg differs
  | revisit_same same => exact if_pos same
  | revisit_differs differs => exact if_neg differs
  | verdict_won u n won => exact if_pos won
  | verdict_lost u n lost => exact if_neg (lost ▸ Bool.false_ne_true)
  | attempt_lost acts same lost =>
    rw [run_attempt_of_eq acts same, exchange_eq_lost fun both => lost both.1]
  | once_lost acts same lost => rw [run_once_of_eq acts same, exchange_eq_lost lost]
  | attempt_differs acts differs | once_differs acts differs =>
    unfold Turn.run
    dsimp only
    rw [acts]
    exact if_neg differs
  | swap_idle fact | attempt_idle _ fact | once_idle _ fact | offer_same fact | offer_value fact =>
    simp only [Turn.run, fact, before_nil]
  | swept found first => simp only [Turn.run, found, first, before_nil]
  | _ => rfl

/-- The ways of an instruction are all that it may do, and it can go all of them. -/
theorem run_eq_iff {result : Except Fault Turn} :
    t.run choice inUse i = result ↔ Goes choice inUse t i result := by
  refine ⟨fun ran => ran ▸ run_goes, fun goes => ?_⟩
  cases goes with
  | gives_way gives => exact gives.run
  | handle_copy ran | copy ran | increment ran => exact ran
  | refused gone => exact if_neg (by rw [gone]; exact Bool.false_ne_true)
  | busy used => exact if_pos used
  | createSlot unused => exact if_neg (by rw [unused]; exact Bool.false_ne_true)
  | attempt_won acts same won => rw [run_attempt_of_eq acts same, exchange_eq_won ⟨won, rfl⟩]
  | once_won acts same won steady =>
    rw [run_once_of_eq acts same, exchange_eq_won ⟨won, steady⟩]
  | peek_kept word live ran => simpa only [Turn.run, word, live, if_true] using ran
  | peek word live => simp only [Turn.run, word, live, Bool.false_eq_true, if_false]
  | peek_dangling keep word gone => simp only [Turn.run, word, gone]
  | stale_paid purpose seen step live => simp only [Turn.run, step, live, if_true]
  | stale_dangling purpose seen step gone =>
    simp only [Turn.run, step, gone, Option.isSome_none, Bool.false_eq_true, if_false]
  | settle purpose step goes sane | stale purpose seen step goes sane =>
    unfold Turn.run
    dsimp only
    rw [step]
    dsimp only
    split
    · exact absurd rfl (goes true)
    · exact absurd rfl (goes false)
    · exact absurd rfl sane
    · rfl
  | claim purpose step goes =>
    unfold Turn.run
    dsimp only
    rw [step]
    split
    · next same => exact absurd (congrArg Prod.fst same) (goes _ _)
    · next same =>
      obtain ⟨rfl, rfl⟩ := Prod.mk.inj same
      rfl
  | dropHandle found first => simp only [Turn.run, found, first]
  | drop fact | drop_dangling fact | peek_empty _ fact | swap fact | pay_retain _ fact | pay_dangling _ fact
  | recorded _ fact | settle_owed _ fact | settle_paid _ fact | settle_corrupted _ fact
  | stale_owed _ _ fact | stale_corrupted _ _ fact | unbind fact =>
    simp only [Turn.run, dropReference, fact, Payment.resume]
  | _ => rfl

/-- An instruction that can go one way does not go another. -/
theorem eq_of_goes (ran : t.run choice inUse i = .ok t') (goes : Goes choice inUse t i (.ok s)) : t' = s :=
  Except.ok.inj (ran.symm.trans (run_eq_iff.mpr goes))

theorem Goes.of_eq {s' : Turn} (goes : Goes choice inUse t i (.ok s)) (same : s = s') :
    Goes choice inUse t i (.ok s') := same ▸ goes

theorem eq_of_givesWay {new : List Instruction} (ran : t.run choice inUse i = .ok t')
    (gives : GivesWay choice inUse t i new) : t' = t.before new :=
  Except.ok.inj (ran.symm.trans gives.run)

end Turn

end SharedCells.Slot
