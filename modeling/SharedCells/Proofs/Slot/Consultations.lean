import Mathlib.Data.List.Induction
import SharedCells.Proofs.Slot.Heeding

/-! How often an update calls its function.

In a thread that runs alone, without failures for no reason, an update calls its
function again only if the last call has run commands that have left something else
in the slot. This holds as long as no destruction of what the update gives up writes
the slot; the commands that the function runs may do anything. -/

set_option autoImplicit false

namespace SharedCells.Slot

open Machine

/-- The dealing is a call of the updating function. -/
def Dealing.isCall : Dealing → Bool
  | called _ => true
  | _ => false

theorem Instruction.countP_isCall {choice : Choice} {t : Turn} {i : Instruction} :
    (i.dealings choice t).countP Dealing.isCall = if i.consults then 1 else 0 := by
  have none {object : Option Nat} : (Dealing.loads object).countP Dealing.isCall = 0 ∧
      (Dealing.retains object).countP Dealing.isCall = 0 ∧
      (Dealing.releases object).countP Dealing.isCall = 0 := by
    cases object <;> exact ⟨rfl, rfl, rfl⟩
  cases i with
  | consult => rfl
  | copy source target =>
    unfold dealings
    dsimp only
    split
    · rfl
    · exact none.2.1
  | drop addr => exact none.2.2
  | pay addr payment =>
    cases payment with
    | retain p => exact none.2.1
    | _ => rfl
  | increment purpose debt =>
    unfold dealings
    dsimp only
    split
    · exact none.1
    · exact none.2.1
  | peek keep =>
    unfold dealings
    dsimp only
    split
    · exact none.1
    · rfl
  | evaluate | revisit => rfl
  | _ =>
    refine List.countP_eq_zero.mpr fun dealing member => ?_
    obtain ⟨slot, -, rfl⟩ := List.mem_map.mp member
    nofun

namespace Moment

/-- In this step the call on a level of thread `i` waits for the destruction of an object that it has
given up. -/
def destroys (moment : Moment) (i depth : Nat) : Bool :=
  (moment.before.threads[i]?.bind fun thread => thread.reverse[depth + 1]?).any fun level =>
    level.grave?.isSome

/-- The n-th call of the updating function returns while the slot does not hold what it was given. -/
def Leaves (moment : Moment) (i depth : Nat) (slot : SlotId) (u : Updating) (n : Nat) : Prop :=
  ∃ call current, moment.call? i depth = some call ∧ call.code = [.offer u n] ∧
    call.seen.head? = some current ∧
    moment.before.world.objectId (moment.before.world.word slot) ≠ current

end Moment

namespace Machine

/-- How often the call on a level of thread `i` calls its updating function. -/
def consultations (m : Machine) (schedule : List (Nat × Choice)) (i depth : Nat) : Nat :=
  (m.dealings schedule i depth).countP Dealing.isCall

/-- Until the call on a level of thread `i` returns, no destruction of what it gives up writes the
slot. -/
def Harmless (m : Machine) (schedule : List (Nat × Choice)) (i depth : Nat) (slot : SlotId) : Prop :=
  ∀ first, first <+: schedule → m.Unreturned first i depth → ∀ moment ∈ m.moments first,
    moment.destroys i depth → moment.publishes slot = false

theorem harmless_of_all {m : Machine} {schedule : List (Nat × Choice)} {i depth : Nat} {slot : SlotId}
    (sound : m.Sound)
    (safe : (m.moments schedule).all fun moment => !moment.destroys i depth || !moment.publishes slot) :
    m.Harmless schedule i depth slot := by
  rintro first ⟨rest, rfl⟩ - moment member destroys
  obtain ⟨m', ran, -⟩ := run_sound sound first
  rw [moments_append ran] at safe
  have here := List.all_eq_true.mp safe moment (List.mem_append_left _ member)
  simpa [destroys] using here

/-- The n-th call of the updating function has run commands, and has left something else in the slot than
it was given. -/
def Displaced (m : Machine) (schedule : List (Nat × Choice)) (i depth : Nat) (slot : SlotId)
    (u : Updating) (n : Nat) : Prop :=
  (u.meanwhile[n]?.join).isSome ∧ ∃ moment ∈ m.moments schedule, moment.Leaves i depth slot u n

section Concat

variable {m m₁ m' : Machine} {schedule : List (Nat × Choice)} {i j depth : Nat} {choice : Choice}

theorem moments_concat (ran : m.run schedule = .ok m₁) (stepped : m₁.step j choice = .ok m') :
    m.moments (schedule ++ [(j, choice)]) = m.moments schedule ++ [⟨m₁, j, choice, m'⟩] := by
  rw [moments_append ran]
  exact congrArg _ (moments_cons stepped)

theorem consultations_concat (ran : m.run schedule = .ok m₁) (stepped : m₁.step j choice = .ok m') :
    m.consultations (schedule ++ [(j, choice)]) i depth = m.consultations schedule i depth +
      (Moment.dealings ⟨m₁, j, choice, m'⟩ i depth).countP Dealing.isCall := by
  rw [consultations, dealings, moments_concat ran stepped, List.flatMap_append, List.countP_append,
    List.flatMap_singleton]
  rfl

end Concat

end Machine

/-- Where an update is that has called its function so often; `left n` tells that the n-th call has left
something else in the slot than it was given. -/
inductive Consults (u : Updating) (slot : SlotId) (calls : Nat) (left : Nat → Prop) (w : World)
    (call : Call) : Prop where
  | asks {n : Nat} : calls = n + 1 → call.code = [.offer u n] → call.slot = some slot →
      call.exchanged = false → call.seen.head? = some (w.objectId call.registers.expected) →
      (u.meanwhile[n]?.join = none → call.registers.expected = w.word slot) →
      Consults u slot calls left w call
  | heeds : call.slot = some slot → call.exchanged = false →
      Heeds u calls (∀ n < calls, left n) (w.word slot) call.registers call.code →
      Consults u slot calls left w call
  | wins : call.exchanged = true → Concludes u call.code → Consults u slot calls left w call

/-- An update in the middle of its course, with the levels `upper` above it. Each call of its function but
the last one has left something else in the slot. -/
structure Updates (u : Updating) (slot : SlotId) (calls : Nat) (left : Nat → Prop) (level : Level)
    (below upper : Thread) (w : World) (call : Call) : Prop where
  sound : (waiting upper level below w call).Sound
  lone : Thread.Lone w (upper ++ { level with call := some call } :: below)
  earlier : ∀ n, n + 1 < calls → left n
  consults : Consults u slot calls left w call
  above : ∀ next, upper.getLast? = some next → next.grave?.isSome ∨
    ∃ n, call.code = [.offer u n] ∧ (u.meanwhile[n]?.join).isSome

variable {u : Updating} {slot : SlotId} {calls : Nat} {left left' : Nat → Prop} {level : Level}
  {below upper : Thread} {w w' : World} {call call' : Call} {choice : Choice} {m' : Machine}
  {later : List Choice}

theorem Thread.getElem?_above (upper : Thread) (level : Level) (below : Thread) :
    (upper ++ level :: below).reverse[below.length + 1]? = upper.getLast? := by
  have lower : (below.reverse ++ [level]).length = below.length + 1 := by
    rw [List.length_append, List.length_reverse, List.length_singleton]
  rw [List.reverse_append, List.reverse_cons, List.getElem?_append_right (Nat.le_of_eq lower), lower,
    Nat.sub_self, ← List.head?_eq_getElem?, List.head?_reverse]

theorem Heeds.not_offer {past : Prop} {word : Ref} {r : Registers} {n : Nat} :
    ¬ Heeds u calls past word r [.offer u n] := by
  intro heeds
  cases heeds with
  | fetches _ _ fetches => exact fetches
  | current _ onward => cases onward
  | yields yields => exact yields

theorem Updates.wait {top : Level}
    (updates : Updates u slot calls left level below (top :: upper) w call)
    (stepped : (waiting (top :: upper) level below w call).step 0 choice = .ok m')
    (harmless : Moment.destroys ⟨waiting (top :: upper) level below w call, 0, choice, m'⟩ 0
      below.length → Moment.publishes ⟨waiting (top :: upper) level below w call, 0, choice, m'⟩ slot =
        false)
    (more : ∀ n, left n → left' n) :
    ∃ upper' w' call', m' = waiting upper' level below w' call' ∧
      Updates u slot calls left' level below upper' w' call' := by
  obtain ⟨w', thread', moved, rfl⟩ := step_only stepped
  have stacked := updates.sound.stacked _ List.mem_cons_self
  obtain ⟨upper', events, rfl, stays⟩ := Thread.step_above updates.lone stacked moved
  have same : w'.objectId call.registers.expected = w.objectId call.registers.expected :=
    step_objectId updates.sound stepped (updates.sound.counted.counts_register mem_waiting .expected)
  -- Only a call of the function lets anything but a destruction at the slot.
  have word (quiet : ∀ n, call.code = [.offer u n] → u.meanwhile[n]?.join = none) :
      w'.word slot = w.word slot := by
    obtain ⟨next, last⟩ :=
      Option.isSome_iff_exists.mp (List.getLast?_isSome.mpr (List.cons_ne_nil top upper))
    rcases updates.above next last with destroys | ⟨n, asks, runs⟩
    · refine step_word updates.sound stepped (harmless ?_)
      have found : (top :: upper ++ { level with call := some call } :: below).reverse[below.length + 1]? =
        some next := (Thread.getElem?_above _ _ _).trans last
      rw [Moment.destroys, waiting, List.getElem?_cons_zero, Option.bind_some, found]
      exact destroys
    · rw [quiet n asks] at runs
      contradiction
  refine ⟨upper', w', { call with events }, rfl, step_sound updates.sound stepped,
    updates.lone.step stacked moved, fun n lt => more n (updates.earlier n lt), ?_, fun next last => ?_⟩
  · cases updates.consults with
    | @asks n counted asks acts untried given quiet =>
      refine .asks counted asks acts untried (same ▸ given) fun none => ?_
      rw [word fun m asks' => ?_]
      · exact quiet none
      · obtain ⟨-, rfl⟩ := Instruction.offer.inj (List.cons.inj (asks.symm.trans asks')).1
        exact none
    | heeds acts untried heeds =>
      refine .heeds acts untried ?_
      rw [word fun n asks => absurd (asks ▸ heeds) Heeds.not_offer]
      exact heeds.mono (fun past n lt => more n (past n lt)) rfl rfl
    | wins won concludes => exact .wins won concludes
  · have roles := stays (List.ne_nil_of_mem (List.mem_of_getLast? last))
    rw [List.getLast?_map, List.getLast?_map, last, Option.map_some] at roles
    obtain ⟨level', last', role⟩ := Option.map_eq_some_iff.mp roles.symm
    refine (updates.above level' last').imp_left ?_
    rw [Level.grave?, Level.grave?, role]
    exact id

theorem Consults.ne_nil (consults : Consults u slot calls left w call) : call.code ≠ [] := by
  intro ended
  cases consults with
  | asks _ asks =>
    rw [ended] at asks
    contradiction
  | heeds _ _ heeds =>
    rw [ended] at heeds
    cases heeds with
    | current _ onward => cases onward
  | wins _ concludes =>
    rw [ended] at concludes
    cases concludes

theorem Consults.run {i : Instruction} {code : List Instruction} {turn : Turn} {inUse : SlotId → Bool}
    (consults : Consults u slot calls left w call) (head : call.code = i :: code) (quiet : ¬ i.Notes)
    (earlier : ∀ n, n + 1 < calls → left n) (steady : choice.spurious = false)
    (more : ∀ n, left n → left' n)
    (leaves : ∀ n, call.code = [.offer u n] → (u.meanwhile[n]?.join).isSome →
      call.seen.head? = some (w.objectId call.registers.expected) →
      call.registers.expected ≠ w.word slot → left' n)
    (ran : Turn.run choice inUse { world := w, call := { call with code } } i = .ok turn) :
    (∀ n, n + 1 < (calls + if i.consults then 1 else 0) → left' n) ∧
      Consults u slot (calls + if i.consults then 1 else 0) left' turn.world turn.call ∧
      ∀ next, turn.above = some next → next.grave?.isSome ∨
        ∃ n, turn.call.code = [.offer u n] ∧ (u.meanwhile[n]?.join).isSome := by
  have earlier' (n : Nat) (lt : n + 1 < calls) : left' n := more n (earlier n lt)
  cases consults with
  | @asks n counted asks acts untried given holds =>
    obtain ⟨rfl, rfl⟩ := List.cons.inj (head.symm.trans asks)
    -- Something else can be in the slot only if the call has run commands.
    have past (differs : call.registers.expected ≠ w.word slot) (k : Nat) (lt : k < calls) : left' k := by
      rcases Nat.lt_or_eq_of_le (Nat.le_of_lt_succ (counted ▸ lt)) with before | rfl
      · exact earlier' k (by omega)
      · refine leaves k asks ?_ given differs
        rw [← Option.ne_none_iff_isSome]
        exact fun none => differs (holds none)
    obtain ⟨stays, heeds⟩ := Turn.run_offer_heeds (t := { world := w, call := { call with code := [] } })
      counted past rfl rfl ran
    refine ⟨earlier', .heeds (stays.slot.trans acts) (stays.exchanged.trans untried) ?_,
      fun next new => .inl (stays.above next new)⟩
    rw [stays.holds slot]
    exact heeds
  | heeds acts untried heeds =>
    rw [head] at heeds
    cases Turn.run_heeds heeds rfl acts rfl untried rfl steady ran with
    | consults past same last holds =>
      subst same last
      obtain rfl := Turn.eq_of_goes ran (.consult u calls)
      refine ⟨fun n lt => more n (past n (Nat.lt_of_succ_lt_succ lt)),
        .asks rfl rfl acts untried rfl fun _ => holds, fun next new => .inr ⟨calls, rfl, ?_⟩⟩
      obtain ⟨todo, runs, -⟩ := Option.map_eq_some_iff.mp new
      rw [runs]
      rfl
    | heeds silent stays heeds =>
      rw [silent]
      refine ⟨earlier', .heeds (stays.slot.trans acts) (stays.exchanged.trans untried) ?_,
        fun next new => .inl (stays.above next new)⟩
      rw [stays.holds slot]
      exact heeds.mono (fun past n lt => more n (past n lt)) rfl rfl
    | wins silent won flat concludes =>
      rw [silent]
      refine ⟨earlier', .wins won concludes, fun next new => ?_⟩
      rw [flat] at new
      contradiction
  | wins won concludes =>
    obtain ⟨silent, won, concludes, above⟩ :=
      Turn.run_concludes (head ▸ concludes) quiet rfl won rfl ran
    rw [silent]
    exact ⟨earlier', .wins won concludes, fun next new => .inl (above next new)⟩

theorem Updates.own (updates : Updates u slot calls left level below [] w call)
    (unreturned : ¬ call.Returns) (steady : choice.spurious = false)
    (stepped : (stage level below w call).step 0 choice = .ok m') (more : ∀ n, left n → left' n)
    (leaves : ∀ n, (u.meanwhile[n]?.join).isSome →
      Moment.Leaves ⟨stage level below w call, 0, choice, m'⟩ 0 below.length slot u n → left' n) :
    ∃ upper' w' call', m' = waiting upper' level below w' call' ∧
      Updates u slot (calls +
        (Moment.dealings ⟨stage level below w call, 0, choice, m'⟩ 0 below.length).countP Dealing.isCall)
        left' level below upper' w' call' := by
  have staged : Staged level below w call := ⟨updates.sound, updates.lone⟩
  obtain ⟨i, code, head⟩ := List.exists_cons_of_ne_nil updates.consults.ne_nil
  have quiet : ¬ i.Notes := by
    intro notes
    cases i with
    | note note => exact unreturned ⟨note, code, head⟩
    | _ => exact notes
  have acts : Moment.call? ⟨stage level below w call, 0, choice, m'⟩ 0 below.length = some call :=
    stage_acts
  rw [Moment.dealings_of_acts acts head, Instruction.countP_isCall]
  obtain ⟨inUse, turn, ran, stepped', sound, lone⟩ := staged.step head choice
  obtain rfl := Except.ok.inj (stepped.symm.trans stepped')
  obtain ⟨earlier, consults, above⟩ := updates.consults.run head quiet updates.earlier steady more
    (fun n asks runs given differs => leaves n runs ⟨call, _, acts, asks, given, fun same =>
      differs (World.objectId_inj staged.sound.numbered (staged.counts .expected)
        (staged.sound.counted.counts_word slot) same.symm)⟩) ran
  refine ⟨turn.above.toList, turn.world, turn.call, rfl, sound, lone, earlier, consults,
    fun next last => above next ?_⟩
  rw [← last]
  cases turn.above <;> rfl

theorem Updates.begin (staged : Staged level below w call) (acts : call.slot = some slot)
    (head : call.code = [.read .load, .move .observed .expected, .consult u 0])
    (exchanged : call.exchanged = false) : Updates u slot 0 left level below [] w call where
  sound := staged.sound
  lone := staged.lone
  earlier n lt := absurd lt (Nat.not_lt_zero _)
  consults := by
    refine .heeds acts exchanged ?_
    rw [head]
    exact .reads (fun n lt => absurd lt (Nat.not_lt_zero n)) .consult
  above next last := absurd last nofun

/-- An update is somewhere in its course as long as it has not returned. The induction is on the steps
taken. -/
theorem updates_of_run (staged : Staged level below w call) (acts : call.slot = some slot)
    (head : call.code = [.read .load, .move .observed .expected, .consult u 0])
    (exchanged : call.exchanged = false) {choices : List Choice}
    (steady : ∀ choice ∈ choices, choice.spurious = false)
    (unreturned : (stage level below w call).Unreturned (solo choices) 0 below.length)
    (harmless : (stage level below w call).Harmless (solo choices) 0 below.length slot)
    (ran : (stage level below w call).run (solo choices) = .ok m') :
    ∃ upper w' call', m' = waiting upper level below w' call' ∧
      Updates u slot ((stage level below w call).consultations (solo choices) 0 below.length)
        ((stage level below w call).Displaced (solo choices) 0 below.length slot u) level below upper w'
        call' := by
  induction choices using List.reverseRecOn generalizing m' with
  | nil =>
    obtain rfl := Except.ok.inj ran
    exact ⟨[], w, call, rfl, .begin staged acts head exchanged⟩
  | append_singleton choices choice ih =>
    obtain ⟨m₁, ran₁, sound₁⟩ := run_sound staged.sound (solo choices)
    rw [solo_append] at unreturned harmless ran ⊢
    rw [run_append ran₁] at ran
    obtain ⟨next, stepped⟩ := step_ok sound₁ 0 choice
    obtain rfl := Except.ok.inj ((run_cons stepped).symm.trans ran)
    have told := moments_concat ran₁ stepped
    have last : ⟨m₁, 0, choice, next⟩ ∈
        (stage level below w call).moments (solo choices ++ [(0, choice)]) := by
      rw [told]
      exact List.mem_append_right _ List.mem_cons_self
    have more (n : Nat) :
        (stage level below w call).Displaced (solo choices) 0 below.length slot u n →
          (stage level below w call).Displaced (solo choices ++ [(0, choice)]) 0 below.length slot u n := by
      rintro ⟨runs, moment, member, leaves⟩
      exact ⟨runs, moment, told ▸ List.mem_append_left _ member, leaves⟩
    obtain ⟨upper, w₁, call₁, rfl, updates⟩ := ih
      (fun choice member => steady choice (List.mem_append_left _ member))
      (fun moment member => unreturned moment (told ▸ List.mem_append_left _ member))
      (fun first before => harmless first (before.trans ⟨_, rfl⟩)) ran₁
    have counted : (stage level below w call).consultations (solo choices ++ solo [choice]) 0
      below.length = _ := consultations_concat ran₁ stepped
    rw [counted]
    -- The step is the update's own, or it is taken by a level above it.
    cases upper with
    | nil =>
      exact updates.own (unreturned _ last call₁ stage_acts)
        (steady choice (List.mem_append_right _ List.mem_cons_self)) stepped more
        fun n runs leaves => ⟨runs, _, last, leaves⟩
    | cons top upper =>
      have waits : Moment.call? ⟨waiting (top :: upper) level below w₁ call₁, 0, choice, next⟩ 0
        below.length = none := waiting_idle (List.cons_ne_nil top upper)
      rw [Moment.dealings_of_waits waits]
      exact updates.wait stepped (harmless _ (List.prefix_refl _) unreturned _ last) more

theorem waiting_eq_stage (same : stage level below w call = waiting upper level below w' call') :
    upper = [] ∧ w' = w ∧ call' = call := by
  obtain ⟨rfl, threads⟩ := Machine.mk.inj same
  have thread := (List.cons.inj threads).1
  cases upper with
  | nil => exact ⟨rfl, rfl, (Option.some.inj (congrArg Level.call (List.cons.inj thread).1)).symm⟩
  | cons top upper =>
    have lengths := congrArg List.length thread
    simp only [List.length_append, List.length_cons] at lengths
    omega

/-- An update that is about to call its function has left something else in the slot by each call before. -/
theorem Updates.of_consult {v : Updating} {n : Nat} {code : List Instruction}
    (updates : Updates u slot calls left level below upper w call)
    (head : call.code = .consult v n :: code) : v = u ∧ calls = n ∧ ∀ k < n, left k := by
  cases updates.consults with
  | asks _ asks =>
    rw [head] at asks
    exact absurd (List.cons.inj asks).1 nofun
  | heeds _ _ heeds =>
    rw [head] at heeds
    cases heeds with
    | fetches _ _ fetches => exact fetches.elim
    | current past onward =>
      cases onward
      exact ⟨rfl, rfl, past⟩
    | yields yields => exact yields.elim
  | wins _ concludes =>
    rw [head] at concludes
    cases concludes with
    | cons concludes => exact concludes.elim

/-- An update ends within so many laps, or is about to begin another. -/
theorem laps_come (bound : Nat) {n : Nat} (staged : Staged level below w call)
    (laps : call.Laps u n slot) : Comes level below (28 * bound) False later (fun _ _ _ call' =>
      call'.Laps u (n + bound) slot ∨ call'.code = .note .updated :: deliver u.into .kept) w call := by
  induction bound generalizing later n w call with
  | zero => exact .here staged (.inl laps)
  | succ bound ih =>
    rw [Nat.mul_succ]
    refine Comes.bind (lap_comes staged laps) fun _ _ _ w₁ call₁ _ lapped there => ?_
    rcases there with ⟨lap, -, -, -, -, again⟩ | ⟨new, ended⟩
    · refine (ih lapped.staged again).imp fun _ _ _ call' there => ?_
      rwa [Nat.add_right_comm, Nat.add_assoc] at there
    · exact .here lapped.staged (.inr ended.code)

/-- The calls of the function in an update in a single thread, if no exchange fails for no reason and no
destruction of what the update gives up writes its slot. The function is called again only if the last call,
as all calls before, has left something else in the slot than it was given. So if only the first `most`
calls run commands, the function is called once more at most, whatever the commands do, and the update
returns after so many steps of its own. -/
theorem update_calls_follow_interference {program : List Command} {before : List Choice}
    {name : String} {offers : List Offer} {meanwhile : List (Option (List Command))}
    {into : Option String}
    (solitary : ∀ command ∈ program, command.Solitary)
    (reached : (ofPrograms [program]).run (solo before) = .ok (stage level below w call))
    (begins : call = {
      code := (Operation.update name offers meanwhile into).code
      named := some slot
      slot := some slot })
    (steady : ∀ choice ∈ later, choice.spurious = false)
    (harmless : (stage level below w call).Harmless (solo later) 0 below.length slot) :
    (∀ first again n code w' call', first <+: later → Segment level below w call first w' call' →
      call'.code = .consult again n :: code →
      (stage level below w call).consultations (solo first) 0 below.length = n ∧
      ∀ k < n, ∃ moment ∈ (stage level below w call).moments (solo first),
        moment.Leaves 0 below.length slot ⟨offers, meanwhile, into⟩ k) ∧
    ∀ most, (∀ n, most ≤ n → meanwhile[n]?.join = none) →
      (∀ first, first <+: later → (stage level below w call).Unreturned (solo first) 0 below.length →
        (stage level below w call).consultations (solo first) 0 below.length ≤ most + 1) ∧
      Comes level below (10 + 28 * (most + 1)) False later (fun _ dealings _ call' =>
        dealings.countP Dealing.isCall ≤ most + 1 ∧
          call'.code = .note .updated :: deliver into .kept) w call := by
  let u : Updating := ⟨offers, meanwhile, into⟩
  have staged := staged_of_run solitary reached
  have acts : call.slot = some slot := by rw [begins]
  have head : call.code = [.read .load, .move .observed .expected, .consult u 0] := by
    rw [begins]
    rfl
  have follow {first : List Choice} {m' : Machine} (early : first <+: later)
      (unreturned : (stage level below w call).Unreturned (solo first) 0 below.length)
      (ran : (stage level below w call).run (solo first) = .ok m') :=
    updates_of_run staged acts head (by rw [begins])
      (fun choice member => steady choice (early.subset member)) unreturned
      (fun start prior => harmless start (prior.trans (early.map _))) ran
  refine ⟨fun first again n code w' call' early segment asks => ?_, fun most quiet => ?_⟩
  · obtain ⟨upper, w₁, call₁, same, updates⟩ := follow early segment.before segment.ran
    obtain ⟨rfl, rfl, rfl⟩ := waiting_eq_stage same
    obtain ⟨-, counted, left⟩ := updates.of_consult asks
    exact ⟨counted, fun k lt => (left k lt).2⟩
  · -- No commands run from that call on, so that none of them leaves something else in the slot.
    have never {schedule : List (Nat × Choice)} :
        ¬ (stage level below w call).Displaced schedule 0 below.length slot u most := by
      rintro ⟨runs, -⟩
      rw [quiet most (Nat.le_refl most)] at runs
      contradiction
    have few (first : List Choice) (early : first <+: later)
        (unreturned : (stage level below w call).Unreturned (solo first) 0 below.length) :
        (stage level below w call).consultations (solo first) 0 below.length ≤ most + 1 := by
      obtain ⟨m', ran, -⟩ := run_sound staged.sound (solo first)
      obtain ⟨upper, w', call', -, updates⟩ := follow early unreturned ran
      exact Nat.le_of_not_lt fun more => never (updates.earlier most more)
    have comes : Comes level below (10 + 28 * (most + 1)) False later (fun _ _ _ call' =>
        call'.Laps u (most + 1) slot ∨ call'.code = .note .updated :: deliver into .kept) w call := by
      rw [Nat.add_comm]
      refine Comes.bind (opened_comes staged acts head (by rw [begins]) (by rw [begins]))
        fun _ _ _ w₁ call₁ _ opened there => ?_
      refine (laps_come (most + 1) opened.staged there.2.1).imp fun _ _ _ call' ends => ?_
      rwa [Nat.zero_add] at ends
    refine ⟨few, ?_⟩
    rcases comes with ⟨done, rest, w', call', rfl, segment, own, idle, there⟩ | ends
    · have early : done <+: done ++ rest := ⟨rest, rfl⟩
      refine .inl ⟨done, rest, w', call', rfl, segment, own, idle, few done early segment.before,
        there.resolve_left fun laps => ?_⟩
      -- Another lap would need that the last call had left something else in the slot.
      obtain ⟨upper, w₁, call₁, same, updates⟩ := follow early segment.before segment.ran
      obtain ⟨rfl, rfl, rfl⟩ := waiting_eq_stage same
      exact never ((updates.of_consult laps.code).2.2 most (Nat.lt_succ_self most))
    · exact .inr ends

/-- The slot is empty, and the first call of the function puts an object into it. The object that this call
returns is given up, and its destruction empties another slot. -/
def rejecting : List Command :=
  [.mk (.create "s" .nothing false) none, .mk (.create "t" .nothing false) none,
    .mk (.update "s" [.value (.fresh [.mk (.clear "t") none])]
      [some [.mk (.store "s" (.fresh [])) none]] none) none]

theorem update_calls_follow_interference_rejecting :
    ∃ level below w call first later w' call',
      (ofPrograms [rejecting]).run (solo (List.replicate 13 {})) = .ok (stage level below w call) ∧
      (stage level below w call).Harmless (solo later) 0 below.length 0 ∧
      (∃ moment ∈ (stage level below w call).moments (solo later), moment.destroys 0 below.length) ∧
      first <+: later ∧ Segment level below w call first w' call' ∧
      (stage level below w call).consultations (solo first) 0 below.length = 1 ∧
      (∃ u, ∃ moment ∈ (stage level below w call).moments (solo first),
        moment.Leaves 0 below.length 0 u 0) ∧
      Comes level below 66 False later (fun _ dealings _ call' =>
        dealings.countP Dealing.isCall ≤ 2 ∧ call'.code = [.note .updated, .release .kept]) w call := by
  have solitary : ∀ command ∈ rejecting, command.Solitary := by
    have clears : (Command.mk (.clear "t") none).Solitary := .mk nofun
    have stores : (Command.mk (.store "s" (.fresh [])) none).Solitary := .mk nofun
    refine List.forall_mem_cons.mpr ⟨.mk nofun, List.forall_mem_cons.mpr ⟨.mk nofun,
      List.forall_mem_singleton.mpr (.mk ?_)⟩⟩
    exact List.forall_mem_cons.mpr ⟨clears, List.forall_mem_singleton.mpr stores⟩
  obtain ⟨level, below, w, call, w', call', reached, begins, ran, quiet, asks, safe, destroyed⟩ :
      ∃ level below w call w' call',
        (ofPrograms [rejecting]).run (solo (List.replicate 13 {})) = .ok (stage level below w call) ∧
        call = {
          code := (Operation.update "s" [.value (.fresh [.mk (.clear "t") none])]
            [some [.mk (.store "s" (.fresh [])) none]] none).code
          named := some 0
          slot := some 0 } ∧
        (stage level below w call).run (solo (List.replicate 33 {})) =
          .ok (stage level below w' call') ∧
        (((stage level below w call).moments (solo (List.replicate 33 {}))).all fun moment =>
          (moment.call? 0 below.length).all fun call => !call.returns) ∧
        call'.code = [.consult ⟨[.value (.fresh [.mk (.clear "t") none])],
          [some [.mk (.store "s" (.fresh [])) none]], none⟩ 1] ∧
        (((stage level below w call).moments (solo (List.replicate 54 {}))).all fun moment =>
          !moment.destroys 0 below.length || !moment.publishes 0) ∧
        ((stage level below w call).moments (solo (List.replicate 54 {}))).any fun moment =>
          moment.destroys 0 below.length :=
    ⟨{ role := .main, todo := [], records := _ }, [], _, _, _, _, rfl, rfl, rfl, rfl, rfl, rfl, rfl⟩
  have segment := segment_of_run solitary reached ran (unreturned_of_all quiet)
  have harmless := harmless_of_all (staged_of_run solitary reached).sound safe
  have early : List.replicate 33 {} <+: List.replicate 54 ({} : Choice) := ⟨List.replicate 21 {}, rfl⟩
  obtain ⟨again, ends⟩ := update_calls_follow_interference solitary reached begins
    (fun choice member => by rw [List.eq_of_mem_replicate member]) harmless
  obtain ⟨counted, leaves⟩ := again _ _ 1 [] w' call' early segment asks
  obtain ⟨-, comes⟩ := ends 1 fun n le => by
    rw [List.getElem?_eq_none le]
    rfl
  exact ⟨level, below, w, call, _, _, w', call', reached, harmless, List.any_eq_true.mp destroyed, early,
    segment, counted, ⟨_, leaves 0 Nat.one_pos⟩, comes⟩

end SharedCells.Slot
