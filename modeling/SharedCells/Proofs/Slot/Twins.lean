import SharedCells.Proofs.Slot.Lasting
import SharedCells.Proofs.Slot.Passages
import SharedCells.Proofs.Slot.Spares

/-! Two runs that differ by one reference.

The levels above a call do the same whether one reference more is counted to an
object or not, as long as the object stays alive. They may take other steps only
where the one run puts the first node into the registry and the other finds it
there. -/

set_option autoImplicit false

namespace SharedCells.Slot

open Machine

theorem Call.Noted.refl (call : Call) : call.Noted call := ⟨call.seen, call.outcome, call.events, rfl⟩

/-- A read that is about to put the first node into the registry begins anew where there is a node. -/
def Instruction.restart : Instruction → Instruction
  | .claim purpose addr _ => .claim purpose addr .start
  | i => i

def restarted (unused : Bool) (code : List Instruction) : List Instruction :=
  match unused with
  | true => code.modifyHead Instruction.restart
  | false => code

theorem restarted_of_settled {code : List Instruction} (settled : ∀ i ∈ code, ¬ i.Pending)
    (unused : Bool) : restarted unused code = code := by
  cases unused with
  | false => rfl
  | true =>
    cases code with
    | nil => rfl
    | cons i rest =>
      have quiet := settled i List.mem_cons_self
      cases i <;> first | rfl | exact absurd trivial quiet

/-- A call that is not in the middle of a read does not get further than to its beginning. -/
theorem Turn.restarted_of_run {t t' : Turn} {choice : Choice} {inUse : SlotId → Bool} {i : Instruction}
    {unused : Bool} (rests : ¬ i.Pending) (quiet : ∀ j ∈ t.call.code, ¬ j.Pending)
    (reads : i.Draws → t.get .observed = none) (tries : i.Untried → t.call.exchanged = false)
    (ran : t.run choice inUse i = .ok t') : restarted unused t'.call.code = t'.call.code := by
  by_cases holds : i.Holds
  · cases goes_of_run ran with
    | gives_way gives =>
      cases gives with
      | retain => cases unused <;> rfl
      | recheck_same | recheck_differs => exact absurd trivial rests
      | _ => exact holds.elim
    | retain_nothing purpose =>
      have empty : t.call.registers.observed = none := reads trivial
      refine restarted_of_settled (fun j member => ?_) unused
      have member : j ∈ settled purpose ++ t.call.code := by
        simpa [assign, before, setRegister, get, Registers.get, empty] using member
      exact (List.mem_append.mp member).elim (fun last => (settled_quiet purpose j last).2) (quiet j)
    | _ => first | exact holds.elim | exact absurd trivial rests
  · exact restarted_of_settled (run_settled holds quiet reads tries ran) unused

/-- The second level does what the first does. -/
structure Level.Twin (unused : Bool) (level level' : Level) : Prop where
  role : level'.role = level.role
  todo : level'.todo = level.todo
  idle : level.call = none → level'.call = none
  busy : ∀ call, level.call = some call → ∃ call', level'.call = some call' ∧
    Call.Noted { call with code := restarted unused call.code } call'

/-- Only the innermost level may be in the middle of a read. -/
inductive Thread.Twin (unused : Bool) : Thread → Thread → Prop where
  | nil : Twin unused [] []
  | cons {top top' : Level} {more more' : Thread} : top.Twin unused top' →
      List.Forall₂ (Level.Twin false) more more' → Twin unused (top :: more) (top' :: more')

variable {unused : Bool} {level top top' : Level} {upper upper' more more' below : Thread}
  {w w' : World} {call call' : Call} {slot : SlotId} {ref : Ref}

theorem Level.Twin.named {level level' : Level} (twin : level.Twin unused level') (slot : SlotId) :
    (level'.call.any fun call => call.named == some slot) =
      level.call.any fun call => call.named == some slot := by
  cases current : level.call with
  | none => rw [twin.idle current]
  | some call =>
    obtain ⟨call', current', seen, outcome, events, same⟩ := twin.busy call current
    rw [current', same]
    rfl

theorem uses_of_forall₂ (twins : List.Forall₂ (Level.Twin false) more more') :
    Thread.uses more' slot = Thread.uses more slot := by
  induction twins with
  | nil => rfl
  | cons twin _ ih =>
    unfold Thread.uses at ih ⊢
    rw [List.any_cons, List.any_cons, ih, twin.named]

theorem Thread.Twin.uses (twin : Thread.Twin unused upper upper') (named : call'.named = call.named) :
    Thread.uses (upper' ++ { level with call := some call' } :: below) =
      Thread.uses (upper ++ { level with call := some call } :: below) := by
  funext slot
  have base : Thread.uses ({ level with call := some call' } :: below) slot =
      Thread.uses ({ level with call := some call } :: below) slot := by
    simp only [Thread.uses, List.any_cons, Option.any_some, named]
  have split (upper lower : Thread) : Thread.uses (upper ++ lower) slot =
      (Thread.uses upper slot || Thread.uses lower slot) := List.any_append
  rw [split, split, base]
  cases twin with
  | nil => rfl
  | cons top more =>
    have first := top.named slot
    have others : Thread.uses _ slot = _ := uses_of_forall₂ more
    simp only [Thread.uses, List.any_cons] at others ⊢
    rw [first, others]

namespace Thread

variable {choice : Choice} {others : SlotId → Bool} {command : Command} {todo : List Command}
  {caller : Level}

theorem step_scope (busy : level.call = some call) (ended : call.code = [])
    (owns : call.registers.owned ≠ []) : step choice others w (level :: below) =
      .ok (w, { level with call := some { call with code := call.registers.owned.map .release } } :: below) := by
  unfold step
  simp only [busy, ended]
  cases owned : call.registers.owned with
  | nil => exact absurd owned owns
  | cons register rest => rfl

theorem step_finish (busy : level.call = some call) (ended : call.code = [])
    (owns : call.registers.owned = []) : ∃ record, step choice others w (level :: below) =
      .ok (w, { level with call := none, records := record :: level.records } :: below) := by
  unfold step
  simp only [busy, ended, owns]
  exact ⟨_, rfl⟩

theorem step_start (idle : level.call = none) (more : level.todo = command :: todo) :
    step choice others w (level :: below) =
      .ok ((command.start w fun slot => others slot || uses (level :: below) slot).1,
        { level with
          todo
          call := some (command.start w fun slot => others slot || uses (level :: below) slot).2 } ::
            below) := by
  unfold step
  simp only [idle, more]

theorem step_close (idle : level.call = none) (ended : level.todo = [])
    (waits : caller.call = some call) : step choice others w (level :: caller :: below) =
      .ok ((level.close w call).1, { caller with call := some (level.close w call).2 } :: below) := by
  unfold step
  simp only [idle, ended, waits]

end Thread

theorem Machine.step_of_thread {thread thread' : Thread} {choice : Choice}
    (moved : thread.step choice thread.uses w = .ok (w', thread')) :
    step 0 choice ⟨w, [thread]⟩ = .ok ⟨w', [thread']⟩ := by
  obtain ⟨next, stepped⟩ : ∃ next, step 0 choice ⟨w, [thread]⟩ = .ok next := by
    unfold step
    dsimp only [List.getElem?_cons_zero]
    have only : (fun slot => [thread].any (·.uses slot)) = thread.uses := by
      funext slot
      rw [List.any_cons, List.any_nil, Bool.or_false]
    rw [only, moved]
    exact ⟨_, rfl⟩
  obtain ⟨w'', thread'', moved', rfl⟩ := step_only stepped
  obtain ⟨rfl, rfl⟩ := Prod.mk.inj (Except.ok.inj (moved.symm.trans moved'))
  exact stepped

theorem Moment.waits_of_acts {moment : Moment} {i depth other : Nat} {c : Call}
    (acts : moment.call? i other = some c) (differ : depth ≠ other) : moment.call? i depth = none := by
  unfold Moment.call? at acts ⊢
  split at acts
  · next own =>
    rw [if_pos own]
    obtain ⟨thread, found, inner⟩ := Option.bind_eq_some_iff.mp acts
    rw [found, Option.bind_some]
    cases thread with
    | nil => rfl
    | cons level below =>
      unfold Thread.innermost at inner ⊢
      dsimp only at inner ⊢
      split at inner
      · next same => exact if_neg (same ▸ Ne.symm differ)
      · contradiction
  · contradiction

/-- Levels above a call take some steps. -/
structure Machine.Climbs (depth : Nat) (m : Machine) (choices : List Choice) (m' : Machine) : Prop where
  ran : m.run (solo choices) = .ok m'
  idle : ∀ moment ∈ m.moments (solo choices), moment.call? 0 depth = none

namespace Machine.Climbs

variable {depth : Nat} {m m' m'' : Machine} {choices later : List Choice}

theorem refl : Climbs depth m [] m := ⟨rfl, nofun⟩

theorem trans (first : Climbs depth m choices m') (second : Climbs depth m' later m'') :
    Climbs depth m (choices ++ later) m'' where
  ran := by rw [solo_append, run_append first.ran, second.ran]
  idle moment member := by
    rw [solo_append, moments_append first.ran] at member
    exact (List.mem_append.mp member).elim (first.idle moment) (second.idle moment)

theorem single {thread thread' : Thread} {choice : Choice}
    (moved : thread.step choice thread.uses w = .ok (w', thread'))
    (above : thread.innermost depth = none) : Climbs depth ⟨w, [thread]⟩ [choice] ⟨w', [thread']⟩ where
  ran := run_cons (step_of_thread moved)
  idle moment member := by
    rw [solo_cons, moments_cons (step_of_thread moved)] at member
    obtain rfl := List.mem_singleton.mp member
    rw [Moment.call?, if_pos rfl]
    exact above

end Machine.Climbs

theorem Segment.climbs {lower : Thread} {depth : Nat} {c c₁ : Call} {choices : List Choice} {w₁ : World}
    (segment : Segment top lower w c choices w₁ c₁)
    (alone : (stage top lower w c).otherSteps (solo choices) 0 lower.length = 0)
    (higher : depth < lower.length) :
    Climbs depth (stage top lower w c) choices (stage top lower w₁ c₁) := by
  refine ⟨segment.ran, fun moment member => ?_⟩
  have own := List.countP_eq_zero.mp alone moment member
  rw [Bool.not_eq_true, Option.isNone_eq_false_iff] at own
  obtain ⟨c, acts⟩ := Option.isSome_iff_exists.mp own
  exact Moment.waits_of_acts acts (Nat.ne_of_lt higher)

/-- The levels above the second call go on as those above the first have. -/
def Followed (unused : Bool) (ref : Ref) (level : Level) (below upper' : Thread) (w' : World)
    (call' : Call) (w₁ : World) (upper₁ : Thread) : Prop :=
  ∃ unused' choices upper₁' w₁' events, (unused = false → unused' = false) ∧
    Climbs below.length (waiting upper' level below w' call') choices
      (waiting upper₁' level below w₁' { call' with events }) ∧
    Thread.Twin unused' upper₁ upper₁' ∧ w₁.Spare unused' ref w₁'

theorem World.Spare.start (spare : w.Spare unused ref w') (command : Command) (inUse : SlotId → Bool) :
    (command.start w inUse).1.Spare unused ref (command.start w' inUse).1 ∧
      (command.start w' inUse).2 = (command.start w inUse).2 := by
  obtain ⟨operation, during⟩ := command
  unfold Command.start
  dsimp only
  rw [spare.slots]
  split
  · exact ⟨spare, rfl⟩
  · split
    · exact ⟨spare, rfl⟩
    · split
      · exact ⟨spare.withSlots _, rfl⟩
      · exact ⟨spare, rfl⟩

/-- An object whose destruction ends is not the one that is kept alive. -/
theorem World.Spare.close {level level' : Level} (spare : w.Spare unused ref w')
    (role : level'.role = level.role) (kept : (level.close w call).1.Counts ref) :
    (level.close w call).1.Spare unused ref (level'.close w' call').1 := by
  unfold Level.close at kept ⊢
  rw [role]
  cases same : level.role with
  | destruction addr =>
    rw [same] at kept
    refine spare.withHeap (spare.heap.free fun freed => ?_)
    have gone : (w.heap.free addr).count addr = 0 := by
      rw [Heap.count, Heap.find?_free, if_pos rfl]
      rfl
    exact Nat.ne_of_gt (kept addr freed) gone
  | main | during | meanwhile => exact spare

section Step

variable {c c' : Call} {i : Instruction} {code : List Instruction} {choice : Choice} {turn : Turn}

theorem Level.Twin.busy_of {level level' : Level} (role : level'.role = level.role)
    (todo : level'.todo = level.todo) (busy : level.call = some c) (busy' : level'.call = some c')
    (noted : Call.Noted { c with code := restarted unused c.code } c') : level.Twin unused level' where
  role := role
  todo := todo
  idle free := by
    rw [free] at busy
    contradiction
  busy d there := by
    obtain rfl := Option.some.inj (there.symm.trans busy)
    exact ⟨c', busy', noted⟩

theorem Level.Twin.of_settled {level level' : Level} (role : level'.role = level.role)
    (todo : level'.todo = level.todo) (busy : level.call = some c) (busy' : level'.call = some c')
    (quiet : ∀ i ∈ c.code, ¬ i.Pending) (noted : c.Noted c') : level.Twin unused level' :=
  .busy_of role todo busy busy' (by rw [restarted_of_settled quiet]; exact noted)

theorem follow_instruction (first : top.Twin unused top')
    (others : List.Forall₂ (Level.Twin false) more more') (named : call'.named = call.named)
    (spare : w.Spare unused ref w')
    (lone : Thread.Lone w (top :: more ++ { level with call := some call } :: below))
    (lone' : Thread.Lone w' (top' :: more' ++ { level with call := some call' } :: below))
    (bounded : w.heap.Bounded) (busy : top.call = some c) (head : c.code = i :: code)
    (begun : unused = true → ¬ i.Pending ∧ ∀ addr, i ≠ .pay addr .start)
    (ran : Turn.run choice (fun slot =>
        Thread.uses (top :: more ++ { level with call := some call } :: below) slot ||
        Thread.uses (top :: more ++ { level with call := some call } :: below) slot)
      { world := w, call := { c with code } } i = .ok turn)
    (kept : turn.world.Counts ref) :
    Followed unused ref level below (top' :: more') w' call' turn.world
      (turn.above.toList ++ { top with call := some turn.call } :: more) := by
  obtain ⟨c', busy', seen, outcome, events, rfl⟩ := first.busy c busy
  have tidy : c.Tidy := lone.tidy c (List.mem_filterMap.mpr ⟨top, List.mem_cons_self, busy⟩)
  have same : restarted unused c.code = i :: code := by
    rw [head]
    cases unused with
    | false => rfl
    | true =>
      have quiet := (begun rfl).1
      cases i <;> first | rfl | exact absurd trivial quiet
  -- What follows is not in the middle of a read if the registry has no node.
  have rests : restarted unused turn.call.code = turn.call.code := by
    cases unused with
    | false => rfl
    | true =>
      exact Turn.restarted_of_run (t := { world := w, call := { c with code } }) (begun rfl).1 (fun j member => tidy.pending j (head ▸ member))
        (tidy.reads head) (tidy.untried head) ran
  have turns : Turn.Spare unused ref { world := w, call := { c with code } }
      { world := w', call := { c with code, seen, outcome, events } } :=
    ⟨spare, ⟨seen, outcome, events, rfl⟩, rfl⟩
  obtain ⟨turn', ran', world, ⟨seen', outcome', events', noted⟩, above⟩ :=
    turns.run bounded begun ran kept
  have uses : Thread.uses (top' :: (more' ++ { level with call := some call' } :: below)) =
      Thread.uses (top :: more ++ { level with call := some call } :: below) :=
    Thread.Twin.uses (.cons first others) named
  have moved : Thread.step choice
      (Thread.uses (top' :: (more' ++ { level with call := some call' } :: below))) w'
      (top' :: (more' ++ { level with call := some call' } :: below)) =
        .ok (turn'.world, turn'.above.toList ++ { top' with call := some turn'.call } ::
          (more' ++ { level with call := some call' } :: below)) := by
    have lone' : Thread.Lone w' (top' :: (more' ++ { level with call := some call' } :: below)) := lone'
    rw [lone'.step_instruction busy' same, uses]
    exact congrArg (Except.map _) ran'
  refine ⟨unused, [choice], turn'.above.toList ++ { top' with call := some turn'.call } :: more',
    turn'.world, call'.events, id, ?_, ?_, world⟩
  · rw [waiting, waiting, List.append_assoc]
    exact .single moved (innermost_above (List.cons_ne_nil _ _))
  · rw [above]
    cases pushed : turn.above with
    | none =>
      refine .cons (.busy_of first.role first.todo rfl rfl ⟨seen', outcome', events', ?_⟩) others
      rw [noted, rests]
    | some new =>
      have fresh : new.call = none := (Turn.run_effect ran rfl).above_call pushed
      refine .cons ⟨rfl, rfl, fun _ => fresh, fun d there => ?_⟩ (.cons ?_ others)
      · rw [fresh] at there
        contradiction
      · exact .busy_of first.role first.todo rfl rfl ⟨seen', outcome', events', noted⟩

theorem climb {goal : World → Call → Prop} {bound : Nat} (busy : top.call = some c)
    (sound : (waiting (top :: more) level below w call).Sound)
    (lone : Thread.Lone w (top :: more ++ { level with call := some call } :: below))
    (comes : ∀ lower, Staged top lower w c → Comes top lower bound True (List.replicate (bound + 1) {})
      (fun _ _ w₁ c₁ => goal w₁ c₁) w c) :
    ∃ choices w₁ c₁, goal w₁ c₁ ∧ Climbs below.length (waiting (top :: more) level below w call) choices
      (waiting ({ top with call := some c₁ } :: more) level below w₁ call) := by
  have same : { top with call := some c } = top := by rw [← busy]
  have staged : Staged top (more ++ { level with call := some call } :: below) w c := by
    constructor <;> (try rw [stage]) <;> rw [same]
    · exact sound
    · exact lone
  obtain ⟨choices, w₁, c₁, segment, alone, there⟩ := (comes _ staged).reach staged
  have higher : below.length < (more ++ { level with call := some call } :: below).length := by
    rw [List.length_append, List.length_cons]
    omega
  have climbs := segment.climbs alone higher
  rw [stage, same] at climbs
  exact ⟨choices, w₁, c₁, there, climbs⟩

theorem claim_empty {purpose : Purpose} {addr : Addr} {progress next : Registry.Claim}
    {registry : Registry} {spurious : Bool}
    (meets : (Instruction.claim purpose addr progress).Meets .empty)
    (step : progress.step addr spurious .empty = (next, registry)) :
    registry = .empty ∨ ∃ grown, next = .recorded Registry.origin grown := by
  cases progress with
  | start | grow => exact .inl (Prod.mk.inj step).2.symm
  | link above =>
    obtain ⟨-, rfl⟩ := meets
    cases spurious with
    | true => exact .inl (Prod.mk.inj step).2.symm
    | false => exact .inr ⟨true, (Prod.mk.inj step).1.symm⟩
  | test p | take p => exact absurd meets.1 Registry.empty_ne_sole
  | recorded => exact meets.elim

/-- The second call waits until the first one has put a node into the registry, and then takes a mark. -/
theorem follow_claim {purpose : Purpose} {addr : Addr} {progress : Registry.Claim}
    {inUse : SlotId → Bool} (first : top.Twin true top')
    (others : List.Forall₂ (Level.Twin false) more more') (spare : w.Spare true ref w')
    (meets : (Instruction.claim purpose addr progress).Meets w.registry)
    (sound' : (waiting (top' :: more') level below w' call').Sound)
    (lone' : Thread.Lone w' (top' :: more' ++ { level with call := some call' } :: below))
    (busy : top.call = some c) (head : c.code = .claim purpose addr progress :: code)
    (ran : Turn.run choice inUse { world := w, call := { c with code } }
      (.claim purpose addr progress) = .ok turn) :
    Followed true ref level below (top' :: more') w' call' turn.world
      (turn.above.toList ++ { top with call := some turn.call } :: more) := by
  obtain ⟨c', busy', seen, outcome, events, rfl⟩ := first.busy c busy
  obtain ⟨fresh, used⟩ := spare.registry
  -- The second call is still at the beginning.
  have begins (progress' : Registry.Claim) :
      Followed true ref level below (top' :: more') w' call' { w with registry := .empty }
        ({ top with call := some { c with code := .claim purpose addr progress' :: code } } :: more) := by
    have still : { w with registry := .empty } = w := by rw [← fresh]
    refine ⟨true, [], top' :: more', w', call'.events, id, .refl, .cons ?_ others, still ▸ spare⟩
    refine .busy_of first.role first.todo rfl busy' ⟨seen, outcome, events, ?_⟩
    rw [head]
    rfl
  cases Turn.goes_of_run ran with
  | gives_way gives => cases gives
  | claim _ step goes =>
    rcases claim_empty (fresh ▸ meets) (fresh ▸ step) with rfl | ⟨grown, rfl⟩
    · exact begins _
    · exact absurd rfl (goes _ grown)
  | recorded _ step =>
    obtain ⟨grown, same, rfl⟩ := (Turn.claim_meets meets step).resolve_right id
    obtain ⟨rfl, -⟩ := Registry.Claim.recorded.inj same
    have begun : restarted true c.code = .claim purpose addr .start :: code := by
      rw [head]
      rfl
    obtain ⟨choices, w₁', c₁', ⟨rfl, rfl⟩, climbs⟩ := climb busy' sound' lone' fun lower staged =>
      (take_comes staged used begun).imp fun _ _ _ _ there => there.2
    refine ⟨false, choices, { top' with call := some _ } :: more', _, call'.events, fun _ => rfl, climbs,
      .cons ?_ others, { spare with registry := rfl }⟩
    exact .busy_of first.role first.todo rfl rfl ⟨seen, outcome, events, rfl⟩

/-- The second call finds the marks free where the first one has found no node. -/
theorem follow_pay {addr : Addr} {inUse : SlotId → Bool} (first : top.Twin true top')
    (others : List.Forall₂ (Level.Twin false) more more') (spare : w.Spare true ref w')
    (sound' : (waiting (top' :: more') level below w' call').Sound)
    (lone' : Thread.Lone w' (top' :: more' ++ { level with call := some call' } :: below))
    (busy : top.call = some c) (head : c.code = .pay addr .start :: code)
    (ran : Turn.run choice inUse { world := w, call := { c with code } } (.pay addr .start) = .ok turn) :
    Followed true ref level below (top' :: more') w' call' turn.world
      (turn.above.toList ++ { top with call := some turn.call } :: more) := by
  obtain ⟨c', busy', seen, outcome, events, rfl⟩ := first.busy c busy
  have fresh : w.registry = .empty := spare.registry.1
  have same : restarted true c.code = .pay addr .start :: code := by
    rw [head]
    rfl
  have ends : Registry.Payment.scan w.registry.first = .finished := by
    rw [fresh]
    rfl
  obtain rfl := Turn.eq_of_goes ran (.pay_start addr)
  rw [Turn.before, ends]
  obtain ⟨choices, w₁', c₁', ⟨rfl, rfl⟩, climbs⟩ := climb busy' sound' lone' fun lower staged =>
    (search_comes staged same).imp fun _ _ _ _ there => there.2
  refine ⟨true, choices, { top' with call := some _ } :: more', w₁', call'.events, id, climbs,
    .cons ?_ others, spare⟩
  exact .busy_of first.role first.todo rfl rfl ⟨seen, outcome, events, rfl⟩

theorem follow_turn (first : top.Twin unused top') (others : List.Forall₂ (Level.Twin false) more more')
    (named : call'.named = call.named) (spare : w.Spare unused ref w')
    (bounded : w.heap.Bounded)
    (lone : Thread.Lone w (top :: more ++ { level with call := some call } :: below))
    (sound' : (waiting (top' :: more') level below w' call').Sound)
    (lone' : Thread.Lone w' (top' :: more' ++ { level with call := some call' } :: below))
    (busy : top.call = some c) (head : c.code = i :: code)
    (ran : Turn.run choice (fun slot =>
        Thread.uses (top :: more ++ { level with call := some call } :: below) slot ||
        Thread.uses (top :: more ++ { level with call := some call } :: below) slot)
      { world := w, call := { c with code } } i = .ok turn)
    (kept : turn.world.Counts ref) :
    Followed unused ref level below (top' :: more') w' call' turn.world
      (turn.above.toList ++ { top with call := some turn.call } :: more) := by
  by_cases begun : unused = true → ¬ i.Pending ∧ ∀ addr, i ≠ .pay addr .start
  · exact follow_instruction first others named spare lone lone' bounded busy head begun ran kept
  · obtain ⟨rfl, lags⟩ := Classical.not_imp.mp begun
    have fresh : w.registry = .empty := spare.registry.1
    have meets : i.Meets w.registry := by
      have meets := (Thread.meets_of_some busy).mp lone.meets
      rwa [Call.Meets, head] at meets
    cases i with
    | claim purpose addr progress =>
      exact follow_claim first others spare meets sound' lone' busy head ran
    | pay addr payment =>
      cases payment with
      | start => exact follow_pay first others spare sound' lone' busy head ran
      | _ => exact absurd ⟨id, fun _ same => by cases same⟩ lags
    | recheck purpose debt | increment purpose debt =>
      exact absurd (meets.2.symm.trans fresh) Registry.soleOwing_ne_empty
    | settle purpose debt progress | stale purpose debt seen progress =>
      exact absurd (meets.2.1.symm.trans fresh) Registry.soleOwing_ne_empty
    | _ => exact absurd ⟨id, fun _ same => by cases same⟩ lags

theorem follow_step (choice : Choice) (upper₁' : Thread) {upper₁ : Thread} {w₁ w₁' : World} {events : List Event}
    (moved : Thread.step choice
        (Thread.uses (top :: more ++ { level with call := some call } :: below)) w
        (top :: more ++ { level with call := some call } :: below) =
      .ok (w₁', upper₁' ++ { level with call := some { call with events } } :: below))
    (twin : Thread.Twin unused upper₁ upper₁') (spare : w₁.Spare unused ref w₁') :
    Followed unused ref level below (top :: more) w call w₁ upper₁ :=
  ⟨unused, [choice], upper₁', w₁', events, id, .single moved (innermost_above (List.cons_ne_nil _ _)),
    twin, spare⟩

theorem follow_start {command : Command} {todo : List Command} {inUse : SlotId → Bool} (choice : Choice)
    (first : top.Twin unused top') (others : List.Forall₂ (Level.Twin false) more more')
    (named : call'.named = call.named) (spare : w.Spare unused ref w') (solitary : command.Solitary)
    (idle : top.call = none) (waits : top.todo = command :: todo)
    (used : inUse = fun slot =>
      Thread.uses (top :: more ++ { level with call := some call } :: below) slot ||
        Thread.uses (top :: more ++ { level with call := some call } :: below) slot) :
    Followed unused ref level below (top' :: more') w' call' (command.start w inUse).1
      ({ top with todo, call := some (command.start w inUse).2 } :: more) := by
  have quiet := (solitary.start w inUse).2.1
  obtain ⟨alike, same⟩ := spare.start command inUse
  have moved : Thread.step choice
      (Thread.uses (top' :: more' ++ { level with call := some call' } :: below)) w'
      (top' :: more' ++ { level with call := some call' } :: below) =
        .ok ((command.start w' inUse).1, { top' with todo, call := some (command.start w inUse).2 } ::
          (more' ++ { level with call := some call' } :: below)) := by
    rw [← same, used, ← Thread.Twin.uses (.cons first others) named]
    exact Thread.step_start (first.idle idle) (first.todo.trans waits)
  exact follow_step choice ({ top' with todo, call := some (command.start w inUse).2 } :: more') moved
    (.cons (.of_settled first.role rfl rfl rfl quiet (.refl _)) others) alike

theorem restarted_of_ended (ended : c.code = []) : restarted unused c.code = [] := by
  rw [ended]
  cases unused <;> rfl

theorem follow_scope (choice : Choice) (first : top.Twin unused top')
    (others : List.Forall₂ (Level.Twin false) more more') (spare : w.Spare unused ref w')
    (busy : top.call = some c) (ended : c.code = []) (owns : c.registers.owned ≠ []) :
    Followed unused ref level below (top' :: more') w' call' w
      ({ top with call := some { c with code := c.registers.owned.map .release } } :: more) := by
  obtain ⟨c', busy', seen, outcome, events, rfl⟩ := first.busy c busy
  refine follow_step choice ({ top' with call := some { c with
    code := c.registers.owned.map .release, seen, outcome, events } } :: more')
    (Thread.step_scope busy' (restarted_of_ended ended) owns) ?_ spare
  refine .cons (.of_settled first.role first.todo rfl rfl ?_ ⟨seen, outcome, events, rfl⟩) others
  intro j member
  obtain ⟨register, -, rfl⟩ := List.mem_map.mp member
  exact id

theorem follow_finish (choice : Choice) (record : Record) (first : top.Twin unused top')
    (others : List.Forall₂ (Level.Twin false) more more') (spare : w.Spare unused ref w')
    (busy : top.call = some c) (ended : c.code = []) (owns : c.registers.owned = []) :
    Followed unused ref level below (top' :: more') w' call' w
      ({ top with call := none, records := record :: top.records } :: more) := by
  obtain ⟨c', busy', seen, outcome, events, rfl⟩ := first.busy c busy
  obtain ⟨record', moved⟩ := Thread.step_finish busy' (restarted_of_ended ended) owns
  refine follow_step choice ({ top' with call := none, records := record' :: top'.records } :: more')
    moved ?_ spare
  exact .cons ⟨first.role, first.todo, fun _ => rfl, fun d there => by contradiction⟩ others

/-- The call itself is told that the last level above it is closed. -/
theorem follow_last (choice : Choice) (first : top.Twin unused top') (spare : w.Spare unused ref w')
    (idle : top.call = none) (ended : top.todo = []) (kept : (top.close w call).1.Counts ref) :
    Followed unused ref level below [top'] w' call' (top.close w call).1 [] := by
  obtain ⟨events, told⟩ := top'.close_events w' call'
  have moved : Thread.step choice
      (Thread.uses ([top'] ++ { level with call := some call' } :: below)) w'
      ([top'] ++ { level with call := some call' } :: below) = _ :=
    Thread.step_close (first.idle idle) (first.todo.trans ended) rfl
  rw [told] at moved
  exact follow_step choice [] moved .nil (spare.close first.role kept)

theorem follow_close {caller caller' : Level} (choice : Choice) (first : top.Twin unused top')
    (next : caller.Twin false caller') (others : List.Forall₂ (Level.Twin false) more more')
    (spare : w.Spare unused ref w') (idle : top.call = none) (ended : top.todo = [])
    (calls : caller.call = some c) (quiet : ∀ i ∈ c.code, ¬ i.Pending)
    (kept : (top.close w c).1.Counts ref) :
    Followed unused ref level below (top' :: caller' :: more') w' call' (top.close w c).1
      ({ caller with call := some (top.close w c).2 } :: more) := by
  obtain ⟨c', calls', seen, outcome, events, noted⟩ := next.busy c calls
  obtain ⟨told, tells⟩ := top.close_events w c
  obtain ⟨told', tells'⟩ := top'.close_events w' c'
  have moved : Thread.step choice
      (Thread.uses (top' :: caller' :: more' ++ { level with call := some call' } :: below)) w'
      (top' :: caller' :: more' ++ { level with call := some call' } :: below) = _ :=
    Thread.step_close (first.idle idle) (first.todo.trans ended) calls'
  rw [tells'] at moved
  rw [tells]
  exact follow_step choice ({ caller' with call := some _ } :: more') moved
    (.cons (.of_settled next.role next.todo rfl rfl quiet ⟨seen, outcome, told', noted ▸ rfl⟩) others)
    (spare.close first.role kept)

/-- One step of the first run. -/
theorem Thread.Twin.step {thread₁ : Thread} {w₁ : World}
    (twin : Thread.Twin unused (top :: more) upper') (named : call'.named = call.named)
    (spare : w.Spare unused ref w')
    (sound : (waiting (top :: more) level below w call).Sound)
    (lone : Thread.Lone w (top :: more ++ { level with call := some call } :: below))
    (sound' : (waiting upper' level below w' call').Sound)
    (lone' : Thread.Lone w' (upper' ++ { level with call := some call' } :: below))
    (moved : Thread.step choice
        (Thread.uses (top :: more ++ { level with call := some call } :: below)) w
        (top :: more ++ { level with call := some call } :: below) = .ok (w₁, thread₁))
    (kept : w₁.Counts ref) :
    ∃ upper₁ events, thread₁ = upper₁ ++ { level with call := some { call with events } } :: below ∧
      Followed unused ref level below upper' w' call' w₁ upper₁ := by
  have stacked := sound.stacked _ List.mem_cons_self
  have bounded := sound.counted.bounded
  cases twin with
  | @cons _ top' _ more' first others =>
  have same : top :: more ++ { level with call := some call } :: below =
    top :: (more ++ { level with call := some call } :: below) := rfl
  have move := Thread.step_cases (same ▸ stacked) (same ▸ moved)
  generalize lower : more ++ { level with call := some call } :: below = base at move
  cases move with
  | rest =>
    exact ⟨top :: more, call.events, by rw [← lower]; rfl, unused, [], top' :: more', w', call'.events,
      id, .refl, .cons first others, spare⟩
  | @instruction _ _ c i code turn busy head ran =>
    refine ⟨turn.above.toList ++ { top with call := some turn.call } :: more, call.events, ?_, ?_⟩
    · rw [← lower, List.append_assoc]
      rfl
    · rw [← lower] at ran
      exact follow_turn first others named spare bounded lone sound' lone' busy head ran kept
  | block busy head turned recorded =>
    rw [← lower] at turned
    exact absurd (lower ▸ moved :) (Thread.Lone.no_block lone busy head turned recorded)
  | scope busy ended owns =>
    exact ⟨{ top with call := some _ } :: more, call.events, by rw [← lower]; rfl,
      follow_scope choice first others spare busy ended owns⟩
  | finish record busy ended owns =>
    exact ⟨{ top with call := none, records := record :: top.records } :: more, call.events,
      by rw [← lower]; rfl, follow_finish choice record first others spare busy ended owns⟩
  | @start _ _ command todo idle waits =>
    have solitary : command.Solitary :=
      lone.todo top List.mem_cons_self command (waits ▸ List.mem_cons_self)
    subst lower
    exact ⟨{ top with todo, call := some _ } :: more, call.events, rfl,
      follow_start choice first others named spare solitary idle waits rfl⟩
  | @close _ _ rest d idle ended calls =>
    cases others with
    | nil =>
      obtain ⟨rfl, rfl⟩ := List.cons.inj lower
      obtain rfl := Option.some.inj calls
      obtain ⟨events, told⟩ := top.close_events w call
      exact ⟨[], events, by rw [told]; rfl, follow_last choice first spare idle ended kept⟩
    | @cons caller caller' more more' next others =>
      obtain ⟨rfl, rfl⟩ := List.cons.inj lower
      have quiet : ∀ i ∈ d.code, ¬ i.Pending :=
        lone.settled d (List.mem_filterMap.mpr ⟨_, List.mem_cons_self, calls⟩)
      exact ⟨{ caller with call := some _ } :: more, call.events, rfl,
        follow_close choice first next others spare idle ended calls quiet kept⟩

end Step

section Run

variable {choices : List Choice} {w₂ : World} {call₂ : Call}

theorem Waited.climbs (waited : Waited upper level below w call choices w₂ call₂) :
    Climbs below.length (waiting upper level below w call) choices (stage level below w₂ call₂) :=
  ⟨waited.ran, waited.idle⟩

theorem Machine.Climbs.waited
    (climbs : Climbs below.length (waiting upper level below w call) choices (stage level below w₂ call₂))
    (sound : (waiting upper level below w call).Sound)
    (lone : Thread.Lone w (upper ++ { level with call := some call } :: below)) :
    Waited upper level below w call choices w₂ call₂ := by
  rcases wait choices sound lone with ⟨done, rest, w', call', rfl, waited⟩ | ⟨-, -, last⟩
  · cases rest with
    | nil =>
      rw [List.append_nil] at climbs ⊢
      obtain ⟨rfl, threads⟩ := Machine.mk.inj (Except.ok.inj (waited.ran.symm.trans climbs.ran))
      have top := (List.cons.inj (List.cons.inj threads).1).1
      obtain rfl := Option.some.inj (congrArg Level.call top)
      exact waited
    | cons choice rest =>
      -- The call would go on before the end.
      obtain ⟨next, stepped⟩ := step_ok waited.staged.sound 0 choice
      have acts : Moment.call? ⟨stage level below w' call', 0, choice, next⟩ 0 below.length = some call' :=
        stage_acts
      rw [climbs.idle _ ?_] at acts
      · contradiction
      · rw [solo_append, moments_append waited.ran, solo_cons, moments_cons stepped]
        exact List.mem_append_right _ List.mem_cons_self
  · obtain ⟨thread, only, never⟩ := last _ climbs.ran
    obtain rfl := (List.cons.inj only).1
    rw [Thread.innermost, if_pos rfl] at never
    contradiction

/-- Where the levels above the first call are closed, so are those above the second. -/
theorem Machine.Climbs.twin
    (climbs : Climbs below.length (waiting upper level below w call) choices (stage level below w₂ call₂))
    (sound : (waiting upper level below w call).Sound)
    (lone : Thread.Lone w (upper ++ { level with call := some call } :: below))
    (sound' : (waiting upper' level below w' call').Sound)
    (lone' : Thread.Lone w' (upper' ++ { level with call := some call' } :: below))
    (twin : Thread.Twin unused upper upper') (named : call'.named = call.named)
    (spare : w.Spare unused ref w') (counts : w.Counts ref)
    (lives : ∀ id, w.objectId ref = some id → w₂.heap.Lives id) :
    ∃ unused' choices' w₂' events, (unused = false → unused' = false) ∧
      Climbs below.length (waiting upper' level below w' call') choices'
        (stage level below w₂' { call' with events }) ∧ w₂.Spare unused' ref w₂' := by
  induction choices generalizing unused upper upper' w w' call call' with
  | nil =>
    obtain ⟨rfl, threads⟩ := Machine.mk.inj (Except.ok.inj climbs.ran)
    have lengths := congrArg List.length (List.cons.inj threads).1
    cases twin with
    | nil => exact ⟨unused, [], w', call'.events, id, .refl, spare⟩
    | cons =>
      simp only [List.length_append, List.length_cons] at lengths
      omega
  | cons choice rest ih =>
    obtain ⟨next, stepped⟩ := step_ok sound 0 choice
    cases upper with
    | nil =>
      have acts : Moment.call? ⟨waiting [] level below w call, 0, choice, next⟩ 0 below.length = some call :=
        stage_acts
      rw [climbs.idle _ ?_] at acts
      · contradiction
      · rw [solo_cons, moments_cons stepped]
        exact List.mem_cons_self
    | cons top more =>
      obtain ⟨w₁, thread₁, moved, rfl⟩ := step_only stepped
      have sound₁ := step_sound sound stepped
      have lone₁ := lone.step (sound.stacked _ List.mem_cons_self) moved
      have ran₁ := (run_cons stepped).symm.trans climbs.ran
      obtain ⟨counts₁, names₁⟩ := (run_lasts sound₁ ran₁).stays sound stepped counts lives
      obtain ⟨upper₁, events, rfl, unused₁, choices₁, upper₁', w₁', events', still₁, climbs₁, twin₁, spare₁⟩ :=
        twin.step named spare sound lone sound' lone' moved counts₁
      obtain ⟨sound₁', thread₁', only, lone₁'⟩ := run_lone sound' lone' climbs₁.ran
      obtain rfl := (List.cons.inj only).1
      have onward : Climbs below.length (waiting upper₁ level below w₁ { call with events }) rest
          (stage level below w₂ call₂) := by
        refine ⟨ran₁, fun moment member => climbs.idle moment ?_⟩
        rw [solo_cons, moments_cons stepped]
        exact List.mem_cons_of_mem _ member
      obtain ⟨unused₂, choices₂, w₂', events₂, still₂, climbs₂, spare₂⟩ :=
        ih onward sound₁ lone₁ sound₁' lone₁' twin₁ named spare₁ counts₁ fun id same =>
          lives id (names₁ ▸ same)
      exact ⟨unused₂, choices₁ ++ choices₂, w₂', events₂, still₂ ∘ still₁, climbs₁.trans climbs₂, spare₂⟩

/-- What both calls give up is destroyed in the same way. -/
theorem Gave.twin {given : Ref} {rest rest' : List Instruction}
    (gave : Gave given level below w { call with code := rest } w₂ call₂)
    (staged : Staged level below w call) (code : call.code = given.toList.map .drop ++ rest)
    (staged' : Staged level below w' call') (code' : call'.code = given.toList.map .drop ++ rest')
    (named : call'.named = call.named) (spare : w.Spare unused ref w') (counts : w.Counts ref)
    (lives : ∀ id, w.objectId ref = some id → w₂.heap.Lives id) :
    ∃ unused' w₂' events, (unused = false → unused' = false) ∧
      Gave given level below w' { call' with code := rest' } w₂' { call' with code := rest', events } ∧
      w₂.Spare unused' ref w₂' := by
  cases given with
  | none =>
    obtain ⟨rfl, -⟩ := gave
    exact ⟨unused, w', call'.events, id, ⟨rfl, rfl⟩, spare⟩
  | some addr =>
    obtain ⟨left, heap, choices, released, waited⟩ := gave
    obtain ⟨stepped, sound₁, lone₁⟩ := staged.drop code released
    obtain ⟨counts₁, names₁⟩ := (run_lasts sound₁ waited.ran).stays staged.sound stepped counts lives
    obtain ⟨left', heap', released', spares, ends, onDrop⟩ := spare.heap.release released counts₁
    obtain ⟨-, sound₁', lone₁'⟩ := staged'.drop code' released'
    have same : destruction addr left' = destruction addr left := by
      simp only [destruction, ends, onDrop]
    have twin : Thread.Twin unused (destruction addr left).toList (destruction addr left').toList := by
      rw [same, destruction]
      split
      · exact .cons ⟨rfl, rfl, fun _ => rfl, fun d there => by contradiction⟩ .nil
      · exact .nil
    obtain ⟨unused', choices', w₂', events, still, climbs', spare'⟩ :=
      waited.climbs.twin sound₁ lone₁ sound₁' lone₁' twin named (spare.withHeap spares) counts₁
        fun id same => lives id (names₁ ▸ same)
    exact ⟨unused', w₂', events, still,
      ⟨left', heap', choices', released', climbs'.waited sound₁' lone₁'⟩, spare'⟩

end Run

end SharedCells.Slot
