import SharedCells.Proofs.Slot.Payers
import SharedCells.Proofs.Slot.Retries

/-! Readers never see a slot go back in time.

A load does not always return what the address that it read stood for: when the
slot has moved on, it may be given the object that is at the address by then.
But the payer of its debt has taken that object out of a slot after the address
was read. So what a load returns was in a slot while the load was in progress,
and with a single slot two loads, one after the other, return what was put into
it in this order. -/

set_option autoImplicit false

namespace SharedCells.Slot

open Registry (Debt)

namespace Machine

/-- The reference names an object that is alive, or nothing, and that satisfies `past`. -/
structure Holds (m : Machine) (past : Option Nat → Prop) (ref : Ref) : Prop where
  counts : m.world.Counts ref
  past : past (m.world.objectId ref)

/-- What a reader knows of a word that it has seen: whoever pays debts on it now has an object that
satisfies `past`. The word itself may mean something else by now. -/
def Glimpsed (m : Machine) (past : Option Nat → Prop) (seen : Ref) : Prop :=
  (∀ addr, seen = some addr → m.Paying addr) → past (m.world.objectId seen)

/-- If the debt is paid, then for an object that satisfies `past`. -/
def Pledged (m : Machine) (past : Option Nat → Prop) (debt : Debt) : Prop :=
  m.world.registry.read debt.place = some .paid → past (m.world.objectId (some debt.addr))

/-- What is left of a load. -/
inductive Load (m : Machine) (past : Option Nat → Prop) (r : Registers) : List Instruction → Prop where
  | read : Load m past r [.read .load]
  | retain {seen : Ref} : m.Glimpsed past seen → Load m past r [.retain .load seen]
  | claim {addr : Addr} {progress : Registry.Claim} : m.Glimpsed past (some addr) →
      Load m past r [.claim .load addr progress]
  | recheck {debt : Debt} : m.Glimpsed past (some debt.addr) → m.Pledged past debt →
      Load m past r [.recheck .load debt]
  | stale {debt : Debt} {seen : Ref} {progress : Registry.Settle} :
      m.Glimpsed past (some debt.addr) → m.Pledged past debt → m.Glimpsed past seen →
      Load m past r [.stale .load debt seen progress]
  | increment {debt : Debt} : m.Holds past (some debt.addr) → Load m past r [.increment .load debt]
  | settle {debt : Debt} {progress : Registry.Settle} : m.Holds past r.observed →
      Load m past r [.settle .load debt progress]
  | done : m.Holds past r.observed → Load m past r []
  | drop (addr : Addr) {code : List Instruction} : Load m past r code →
      Load m past r (.drop addr :: code)

variable {m m' next : Machine} {i j depth : Nat} {choice : Choice} {past past' : Option Nat → Prop}
  {ref seen : Ref} {debt : Debt} {r : Registers} {code rest accepted : List Instruction}
  {call call' : Call} {schedule : List (Nat × Choice)}

theorem Load.drops (load : m.Load past r code) (ref : Ref) :
    m.Load past r (ref.toList.map .drop ++ code) := by
  cases ref with
  | none => exact load
  | some addr => exact .drop addr load

/-- Everything in a slot satisfies `past`. -/
def Shows (m : Machine) (past : Option Nat → Prop) : Prop :=
  ∀ ref ∈ m.world.words, past (m.world.objectId ref)

/-- The object, or nothing, satisfies `past` or is in a slot now. -/
def Since (m : Machine) (past : Option Nat → Prop) (id : Option Nat) : Prop :=
  past id ∨ ∃ ref ∈ m.world.words, m.world.objectId ref = id

theorem Load.mono (load : m.Load past r code) (later : ∀ id, past id → past' id) :
    m.Load past' r code := by
  have holds {ref : Ref} (h : m.Holds past ref) : m.Holds past' ref := ⟨h.counts, later _ h.past⟩
  have glimpsed {seen : Ref} (h : m.Glimpsed past seen) : m.Glimpsed past' seen := later _ ∘ h
  induction load with
  | read => exact .read
  | retain seen => exact .retain (glimpsed seen)
  | claim seen => exact .claim (glimpsed seen)
  | recheck seen pledged => exact .recheck (glimpsed seen) (later _ ∘ pledged)
  | stale seen pledged seen' => exact .stale (glimpsed seen) (later _ ∘ pledged) (glimpsed seen')
  | increment h => exact .increment (holds h)
  | settle h => exact .settle (holds h)
  | done h => exact .done (holds h)
  | drop addr _ ih => exact .drop addr ih

/-- The mark that stands for the debt is not another's. -/
structure Marks (m : Machine) (debt : Debt) : Prop where
  paid : m.world.registry.read debt.place = some .paid → m.world.Counts (some debt.addr)
  owed : ∀ addr, m.world.registry.read debt.place = some (.owed addr) → addr = debt.addr

theorem marks_of_mem (sound : m.Sound) (member : debt ∈ debts (poolOf m.calls)) : m.Marks debt where
  paid paid addr same := by
    rw [← Option.some.inj same]
    exact sound.counted.counted_of_paid member paid
  owed addr owes := by
    rcases sound.counted.agreed.backed.marked debt member with owed | paid
    · rw [owed, Option.some.injEq, Registry.Mark.owed.injEq] at owes
      exact owes.symm
    · rw [paid] at owes
      simp at owes

section Step

variable (sound : m.Sound) (stepped : m.step j choice = .ok next)

include sound stepped

theorem Holds.step (holds : m.Holds past ref) (counts : next.world.Counts ref) :
    next.Holds past ref where
  counts := counts
  past := by
    rw [step_objectId sound stepped holds.counts]
    exact holds.past

theorem Pledged.step (pledged : m.Pledged past debt) (glimpsed : m.Glimpsed past (some debt.addr))
    (marks : m.Marks debt) : next.Pledged past debt := by
  intro paid
  rcases step_paid sound stepped paid with before | ⟨addr, owes, paying⟩
  · rw [step_objectId sound stepped (marks.paid before)]
    exact pledged before
  · obtain rfl := marks.owed addr owes
    rw [step_objectId sound stepped (paying.counts sound)]
    exact glimpsed fun _ same => Option.some.inj same ▸ paying

variable (shows : m.Shows past)

include shows

/-- Whoever begins to pay debts on the address now has taken it out of a slot, and what is in a slot
satisfies `past`. -/
theorem Glimpsed.step (glimpsed : m.Glimpsed past seen) : next.Glimpsed past seen := by
  intro paying
  cases seen with
  | none => exact glimpsed nofun
  | some addr =>
    rcases step_paying sound stepped (paying addr rfl) with before | word
    · rw [step_objectId sound stepped (before.counts sound)]
      exact glimpsed fun _ same => Option.some.inj same ▸ before
    · have counts : m.world.Counts (some addr) := fun _ same =>
        Option.some.inj same ▸ sound.counted.counted_of_word word
      rw [step_objectId sound stepped counts]
      exact shows _ word

/-- A load stays what it is in every step, its own ones included once its code has been put in order. -/
theorem Load.step (load : m.Load past r code) (marks : ∀ debt ∈ debts code, m.Marks debt)
    (alive : ∀ purpose debt, .increment purpose debt ∈ code → next.world.Counts (some debt.addr))
    (observed : next.world.Counts r.observed) : next.Load past r code := by
  induction load with
  | read => exact .read
  | retain seen => exact .retain (seen.step sound stepped shows)
  | claim seen => exact .claim (seen.step sound stepped shows)
  | recheck seen pledged =>
    exact .recheck (seen.step sound stepped shows)
      (pledged.step sound stepped seen (marks _ (mem_debts List.mem_cons_self rfl)))
  | stale seen pledged seen' =>
    exact .stale (seen.step sound stepped shows)
      (pledged.step sound stepped seen (marks _ (mem_debts List.mem_cons_self rfl)))
      (seen'.step sound stepped shows)
  | increment holds => exact .increment (holds.step sound stepped (alive _ _ List.mem_cons_self))
  | settle holds => exact .settle (holds.step sound stepped observed)
  | done holds => exact .done (holds.step sound stepped observed)
  | drop addr _ ih =>
    exact .drop addr (ih marks fun purpose debt member => alive purpose debt (List.mem_cons_of_mem _ member))

end Step

theorem debts_drops (ref : Ref) : debts (ref.toList.map .drop) = [] :=
  debts_of_plain fun i member => by
    obtain ⟨addr, -, rfl⟩ := List.mem_map.mp member
    trivial

theorem Load.assign {t : Turn} (load : ∀ r : Registers, r.observed = ref → m.Load past r rest)
    (after : t.call.code = rest ++ accepted) (marks : ∀ debt ∈ debts rest, m.Marks debt) :
    ∃ code, (t.assign .observed ref).call.code = code ++ accepted ∧
      m.Load past (t.assign .observed ref).call.registers code ∧ ∀ debt ∈ debts code, m.Marks debt := by
  refine ⟨(t.get .observed).toList.map .drop ++ rest, ?_, (load _ rfl).drops _, ?_⟩
  · rw [List.append_assoc]
    exact congrArg (_ ++ ·) after
  · rw [debts_append, debts_drops]
    exact marks

theorem unmarked_of_recorded {progress : Registry.Claim} {place : Registry.Place} {addr : Addr}
    {grown spurious : Bool} {r : Registry} (pending : progress.Pending)
    (step : progress.step addr spurious m.world.registry = (.recorded place grown, r)) :
    m.world.registry.read place = some .free ∨ m.world.registry.read place = none := by
  rcases Registry.Claim.step_cases pending addr spurious m.world.registry with
    ⟨next, still, step'⟩ | ⟨p, free, step'⟩ | step'
  · obtain ⟨rfl, -⟩ := Prod.mk.inj (step.symm.trans step')
    exact still.elim
  · obtain ⟨same, -⟩ := Prod.mk.inj (step.symm.trans step')
    obtain ⟨rfl, -⟩ := Registry.Claim.recorded.inj same
    exact .inl free
  · obtain ⟨same, -⟩ := Prod.mk.inj (step.symm.trans step')
    obtain ⟨rfl, -⟩ := Registry.Claim.recorded.inj same
    exact .inr (Registry.read_eq_none_iff.mpr (Nat.le_refl _))

theorem Load.reads {i : Instruction} (load : m.Load past r (i :: rest)) : i.Reads := by
  cases load <;> trivial

theorem marks_of_none {i : Instruction} (none : i.debt? = none) : ∀ debt ∈ debts [i], m.Marks debt := by
  intro debt member
  rw [debts_cons_of_none none] at member
  exact absurd member List.not_mem_nil

theorem Load.run {t turn : Turn} {i : Instruction} {inUse : SlotId → Bool} {slot : SlotId}
    (load : m.Load past t.call.registers (i :: rest)) (sound : m.Sound)
    (world : t.world = m.world) (after : t.call.code = rest ++ accepted)
    (inside : i ∈ poolOf m.calls) (marks : ∀ debt ∈ debts (i :: rest), m.Marks debt)
    (acts : t.call.slot = some slot) (bound : slot < m.world.words.length) (shows : m.Shows past)
    (ran : t.run choice inUse i = .ok turn) :
    ∃ code, turn.call.code = code ++ accepted ∧ m.Load past turn.call.registers code ∧
      ∀ debt ∈ debts code, m.Marks debt := by
  have nothing : ∀ debt ∈ debts [], m.Marks debt := fun debt member => absurd member List.not_mem_nil
  -- What the slot holds satisfies `past`.
  have mem : t.word ∈ m.world.words := by
    rw [Turn.word, acts, Option.bind_some, world]
    refine List.mem_of_getElem? (i := slot) ?_
    simp [World.word, bound]
  have word : past (m.world.objectId t.word) := shows _ mem
  cases load with
  | read =>
    obtain rfl := Turn.eq_of_givesWay ran .read_load
    exact ⟨_, congrArg _ after, .retain fun _ => word, marks_of_none rfl⟩
  | @retain seen glimpsed =>
    cases seen with
    | none =>
      obtain rfl := Turn.eq_of_goes ran (.retain_nothing .load)
      have done : m.Holds past none := ⟨by simp [World.Counts], glimpsed (by simp)⟩
      exact Load.assign (fun r same => .done (same ▸ done)) after nothing
    | some addr =>
      obtain rfl := Turn.eq_of_givesWay ran (.retain .load addr)
      exact ⟨[.claim .load addr .start], congrArg _ after, .claim glimpsed, marks_of_none rfl⟩
  | claim seen =>
    cases Turn.goes_of_run ran with
    | gives_way gives => cases gives
    | claim => exact ⟨_, congrArg _ after, .claim seen, marks_of_none rfl⟩
    | recorded _ step =>
      -- The mark was free or not there yet, so that nobody has paid the new debt.
      have fresh := unmarked_of_recorded (sound.counted.agreed.fit _ inside) (world ▸ step)
      refine ⟨[.recheck .load _], congrArg _ after, .recheck seen fun paid => ?_, fun debt member => ?_⟩
      · rcases fresh with free | unread <;> simp_all
      · obtain rfl := List.mem_singleton.mp member
        constructor <;> rcases fresh with free | unread <;> simp [*]
  | @recheck debt seen pledged =>
    cases Turn.goes_of_run ran with
    | gives_way gives =>
      cases gives with
      | recheck_same _ same =>
        have counts : m.world.Counts (some debt.addr) := fun _ equal =>
          Option.some.inj equal ▸ sound.counted.counted_of_word (same ▸ mem)
        exact ⟨[.increment .load debt], congrArg _ after, .increment ⟨counts, same ▸ word⟩, marks⟩
      | recheck_differs =>
        exact ⟨[.stale .load debt t.word .withdraw], congrArg _ after,
          .stale seen pledged fun _ => word, marks⟩
  | @stale debt seen progress glimpsed pledged seen' =>
    cases Turn.goes_of_run ran with
    | gives_way gives => cases gives
    | stale => exact ⟨[.stale .load debt seen _], congrArg _ after, .stale glimpsed pledged seen', marks⟩
    | stale_owed => exact ⟨[.retain .load seen], congrArg _ after, .retain seen', marks_of_none rfl⟩
    | stale_paid _ _ step =>
      have paid : m.world.registry.read debt.place = some .paid := by
        rcases sound.counted.agreed.fit _ inside with rfl | ⟨-, paid⟩
        · exact absurd (congrArg Prod.fst step) Registry.Settle.step_withdraw_ne
        · exact paid
      -- The reference that the payer has retained is the one that the load returns.
      have holds : m.Holds past (some debt.addr) :=
        ⟨(marks debt (mem_debts List.mem_cons_self rfl)).paid paid, pledged paid⟩
      exact Load.assign (fun r same => .done (same ▸ holds)) after nothing
  | @increment debt holds =>
    obtain ⟨heap, rfl⟩ := Turn.run_increment_eq ran
    have settles (r : Registers) (same : r.observed = some debt.addr) :
        m.Load past r [.settle .load debt .withdraw] := .settle (same ▸ holds)
    exact Load.assign settles (congrArg _ after) marks
  | @settle debt _ holds =>
    cases Turn.goes_of_run ran with
    | gives_way gives => cases gives
    | settle => exact ⟨[.settle .load debt _], congrArg _ after, .settle holds, marks⟩
    | settle_owed => exact ⟨[], after, .done holds, nothing⟩
    | settle_paid => exact ⟨[.drop _], congrArg _ after, .drop _ (.done holds), marks_of_none rfl⟩
  | drop addr load =>
    cases Turn.goes_of_run ran with
    | gives_way gives => cases gives
    | drop => exact ⟨rest, after, load, marks⟩

/-- Some slot holds the object, or nothing, at some moment from the beginning of the schedule to its
end. -/
def HeldWithin (m : Machine) (schedule : List (Nat × Choice)) (id : Option Nat) : Prop :=
  ∃ earlier mid, earlier <+: schedule ∧ m.run earlier = .ok mid ∧
    ∃ ref ∈ mid.world.words, mid.world.objectId ref = id

theorem HeldWithin.cons {id : Option Nat} (stepped : m.step j choice = .ok next)
    (held : next.HeldWithin schedule id) : m.HeldWithin ((j, choice) :: schedule) id := by
  obtain ⟨earlier, mid, early, ran, holds⟩ := held
  exact ⟨(j, choice) :: earlier, mid, List.prefix_cons_inj _ |>.mpr early, run_cons stepped ▸ ran, holds⟩

theorem Load.stays (load : m.Load past call'.registers code) (sound : m.Sound)
    (stepped : m.step j choice = .ok next) (shows : m.Shows past)
    (marks : ∀ debt ∈ debts code, m.Marks debt) (there : next.callAt i depth = some call')
    (same : call'.code = code ++ accepted) : next.Load past call'.registers code := by
  have sound' := step_sound sound stepped
  have member := mem_calls_of_callAt there
  refine load.step sound stepped shows marks (fun purpose debt inside addr equal => ?_)
    (sound'.counted.counts_register member .observed)
  rw [← Option.some.inj equal]
  exact sound'.counted.counted_of_increment
    (mem_poolOf member (same ▸ List.mem_append_left accepted inside))

/-- What a load returns is alive, and was in a slot meanwhile. -/
theorem Brings.of_load {slot : SlotId} (brings : m.Brings schedule i depth accepted m' call')
    (sound : m.Sound) (there : m.callAt i depth = some call) (acts : call.slot = some slot)
    (same : call.code = code ++ accepted) (load : m.Load past call.registers code)
    (shows : m.Shows past) :
    m'.world.Counts call'.registers.observed ∧
      (past (m'.world.objectId call'.registers.observed) ∨
        m.HeldWithin schedule (m'.world.objectId call'.registers.observed)) := by
  induction schedule generalizing m call code past with
  | nil =>
    obtain rfl := Except.ok.inj brings.ran
    obtain rfl := Option.some.inj (there.symm.trans brings.there)
    rw [brings.reached, List.self_eq_append_left] at same
    subst same
    cases load with
    | done holds => exact ⟨holds.counts, .inl holds.past⟩
  | cons turn schedule ih =>
    obtain ⟨j, choice⟩ := turn
    obtain ⟨next, stepped⟩ := step_ok sound j choice
    have sound' := step_sound sound stepped
    have member := mem_calls_of_callAt there
    have bound := (sound.counted.sane call member).slot slot acts
    have marks (debt : Debt) (recorded : debt ∈ debts code) : m.Marks debt := by
      obtain ⟨instruction, inside, recorded⟩ := List.mem_filterMap.mp recorded
      exact marks_of_mem sound
        (mem_debts (mem_poolOf member (same ▸ List.mem_append_left accepted inside)) recorded)
    -- The load goes on in a step of its own, and what it knows stays true in the steps of others.
    obtain ⟨call₁, code₁, there₁, acts₁, same₁, load₁⟩ : ∃ call₁ code₁,
        next.callAt i depth = some call₁ ∧ call₁.slot = some slot ∧
        call₁.code = code₁ ++ accepted ∧ next.Load past call₁.registers code₁ := by
      rcases step_callAt sound stepped there with ⟨own, -, goes⟩ | ⟨waits, call₁, there₁, alike⟩
      · cases code with
        | nil =>
          exact absurd same (brings.first _ (moments_cons stepped ▸ List.mem_cons_self) call own)
        | cons instruction code =>
          obtain ⟨inUse, turn, call₁, ran, world, there₁, alike⟩ := goes instruction _ same
          obtain ⟨code₁, same₁, load₁, marks₁⟩ := load.run sound rfl rfl
            (mem_poolOf member (same ▸ List.mem_cons_self)) marks acts bound shows ran
          have same₂ := alike.code.trans same₁
          refine ⟨call₁, code₁, there₁, ?_, same₂, ?_⟩
          · exact alike.slot.trans ((Turn.run_slot load.reads ran).trans acts)
          · rw [← alike.registers] at load₁
            exact load₁.stays sound stepped shows marks₁ there₁ same₂
      · have same₁ := alike.code.trans same
        refine ⟨call₁, code, there₁, alike.slot.trans acts, same₁, ?_⟩
        rw [← alike.registers] at load
        exact load.stays sound stepped shows marks there₁ same₁
    -- From now on what the slots hold after this step belongs to the past as well.
    have since : next.Load (next.Since past) call₁.registers code₁ := load₁.mono fun _ => .inl
    obtain ⟨counts, held⟩ := ih (brings.tail stepped) sound' there₁ acts₁ same₁ since
      fun ref inside => .inr ⟨ref, inside, rfl⟩
    refine ⟨counts, ?_⟩
    rcases held with (before | ⟨ref, inside, holds⟩) | after
    · exact .inl before
    · exact .inr ⟨[(j, choice)], next, List.prefix_append [(j, choice)] schedule,
        by rw [run_cons stepped]; rfl, ref, inside, holds⟩
    · exact .inr (after.cons stepped)

theorem step_words_length (sound : m.Sound) (stepped : m.step j choice = .ok next) :
    m.world.words.length ≤ next.world.words.length := by
  have ran {inUse : SlotId → Bool} {i : Instruction} {t turn : Turn}
      (ran : t.run choice inUse i = .ok turn) : t.world.words.length ≤ turn.world.words.length := by
    cases Turn.run_course ran with
    | passed new passes =>
      rw [passes.words]
      cases i.stores choice t <;> simp
    | ended _ _ world => rw [world]
    | created _ _ _ words => simp [words]
    | unbound _ _ _ _ _ words => rw [words]
  rcases step_cases sound stepped with ⟨-, rfl⟩ | ⟨thread, w', thread', found, move, rfl⟩
  · exact Nat.le_refl _
  · cases move with
    | rest | scope | finish => exact Nat.le_refl _
    | instruction _ _ turned | block _ _ turned => exact ran turned
    | start => rw [Command.start_words]
    | close => rw [Level.close_words]

theorem run_words_length (sound : m.Sound) (ran : m.run schedule = .ok m') :
    m.world.words.length ≤ m'.world.words.length := by
  induction schedule generalizing m with
  | nil =>
    obtain rfl := Except.ok.inj ran
    exact Nat.le_refl _
  | cons turn schedule ih =>
    obtain ⟨j, choice⟩ := turn
    obtain ⟨next, stepped⟩ := step_ok sound j choice
    exact (step_words_length sound stepped).trans
      (ih (step_sound sound stepped) (run_cons stepped ▸ ran))

/-- The objects that are put into a slot in the course of a schedule, in this order. -/
def published (m : Machine) (schedule : List (Nat × Choice)) (slot : SlotId) : List Nat :=
  (m.publications schedule slot).filterMap Publication.object

theorem published_prefix {slot : SlotId} {earlier : List (Nat × Choice)} (sound : m.Sound)
    (early : earlier <+: schedule) : m.published earlier slot <+: m.published schedule slot := by
  obtain ⟨later, rfl⟩ := early
  obtain ⟨mid, ran, -⟩ := run_sound sound earlier
  rw [published, published, publications_append ran, List.filterMap_append]
  exact List.prefix_append _ _

theorem HeldWithin.published {programs : List (List Command)} {before : List (Nat × Choice)} {id : Nat}
    (held : m.HeldWithin schedule (some id)) (reached : (ofPrograms programs).run before = .ok m)
    (ran : m.run schedule = .ok m') (sole : m'.world.words.length ≤ 1) :
    ∃ earlier older, earlier <+: schedule ∧
      (ofPrograms programs).published (before ++ earlier) 0 = older ++ [id] := by
  obtain ⟨earlier, mid, early, ran', ref, inside, holds⟩ := held
  have start := ofPrograms_sound programs
  have reached' : (ofPrograms programs).run (before ++ earlier) = .ok mid := (run_append reached).trans ran'
  have sound : mid.Sound := sound_of_run start reached'
  have word : ref = mid.world.word 0 := by
    obtain ⟨later, rfl⟩ := early
    have few := (run_words_length sound ((run_append ran').symm.trans ran)).trans sole
    rw [World.word]
    cases words : mid.world.words with
    | nil => simp [words] at inside
    | cons only others =>
      cases others with
      | nil => simpa [words] using inside
      | cons => simp [words] at few
  have content := objectId_word_of_run start reached' 0
  rw [← word, holds] at content
  refine ⟨earlier, (((ofPrograms programs).publications (before ++ earlier) 0).dropLast).filterMap
    Publication.object, early, ?_⟩
  cases last : ((ofPrograms programs).publications (before ++ earlier) 0).getLast? with
  | none =>
    rw [last, Option.map_none, Option.getD_none] at content
    contradiction
  | some publication =>
    rw [last] at content
    have object : publication.object = some id := content.symm
    rw [Machine.published, ← List.dropLast_append_getLast? publication last]
    simp [object]

/-- Of two objects that were put into a slot last at two moments, the one of the later moment was not
put there first, if each was put there once. -/
theorem idxOf_le_of_prefix {older newer all : List Nat} {a b : Nat} (once : all.Nodup)
    (early : older ++ [a] <+: newer ++ [b]) (late : newer ++ [b] <+: all) :
    a ∈ all ∧ b ∈ all ∧ all.idxOf a ≤ all.idxOf b := by
  have before : a ∈ all := (early.trans late).subset (by simp)
  have after : b ∈ all := late.subset (by simp)
  refine ⟨before, after, ?_⟩
  have first : all.idxOf a < (older ++ [a]).length :=
    ((early.trans late).mem_iff_idxOf_lt_length a).mp (by simp)
  have fresh : b ∉ newer := fun old =>
    (List.nodup_append.mp (late.sublist.nodup once)).2.2 b old b (by simp) rfl
  have last : newer.length = all.idxOf b := by
    rw [← late.idxOf_eq_of_mem (by simp), List.idxOf_append_of_notMem fresh]
    simp
  have lengths := early.length_le
  simp only [List.length_append, List.length_singleton] at first lengths
  omega

theorem Brings.held {slot : SlotId} (returned : m.Brings schedule i depth accepted m' call')
    (sound : m.Sound) (there : m.callAt i depth = some call)
    (code : call.code = .read .load :: accepted) (acts : call.slot = some slot) :
    m'.world.Counts call'.registers.observed ∧
      m.HeldWithin schedule (m'.world.objectId call'.registers.observed) := by
  have shows : m.Shows (m.Since fun _ => False) := fun ref inside => .inr ⟨ref, inside, rfl⟩
  have load : m.Load (m.Since fun _ => False) call.registers [.read .load] := .read
  obtain ⟨counts, held⟩ := returned.of_load sound there acts code load shows
  refine ⟨counts, ?_⟩
  rcases held with (never | now) | later
  · exact never.elim
  · exact ⟨[], m, List.nil_prefix, rfl, now⟩
  · exact later

/-- Two loads of a process that has a single slot, the second of which begins when the first has
returned. What they return is alive then. If each object is put into the slot only once, then the
second load does not return one that was put there before the one that the first has returned; so the
loads of one reader follow the order of publication. -/
theorem loads_follow_publications {programs : List (List Command)}
    {before first between second : List (Nat × Choice)} {m₁ m₂ m₃ m₄ : Machine}
    {i j depth depth' : Nat} {call₁ call₂ call₃ call₄ : Call} {accepted accepted' : List Instruction}
    {order : List Nat} (reached : (ofPrograms programs).run before = .ok m₁)
    (there₁ : m₁.callAt i depth = some call₁) (code₁ : call₁.code = .read .load :: accepted)
    (acts₁ : call₁.slot = some 0) (returned₁ : m₁.Brings first i depth accepted m₂ call₂)
    (ran : m₂.run between = .ok m₃)
    (there₃ : m₃.callAt j depth' = some call₃) (code₃ : call₃.code = .read .load :: accepted')
    (acts₃ : call₃.slot = some 0) (returned₃ : m₃.Brings second j depth' accepted' m₄ call₄)
    (sole : m₄.world.words.length ≤ 1)
    (all : (ofPrograms programs).published (before ++ first ++ between ++ second) 0 = order)
    (once : order.Nodup) :
    (∀ addr, call₂.registers.observed = some addr → (m₂.world.heap.live? addr).isSome) ∧
      (∀ addr, call₄.registers.observed = some addr → (m₄.world.heap.live? addr).isSome) ∧
      ∀ id id', m₂.world.objectId call₂.registers.observed = some id →
        m₄.world.objectId call₄.registers.observed = some id' →
        id ∈ order ∧ id' ∈ order ∧ order.idxOf id ≤ order.idxOf id' := by
  have start := ofPrograms_sound programs
  have reached₂ := (run_append reached).trans returned₁.ran
  have reached₃ := (run_append reached₂).trans ran
  have sound {schedule : List (Nat × Choice)} {m : Machine}
      (reached : (ofPrograms programs).run schedule = .ok m) : m.Sound := sound_of_run start reached
  obtain ⟨counts₂, held₁⟩ := returned₁.held (sound reached) there₁ code₁ acts₁
  obtain ⟨counts₄, held₃⟩ := returned₃.held (sound reached₃) there₃ code₃ acts₃
  have live {w : World} {ref : Ref} (counts : w.Counts ref) (addr : Addr) (holds : ref = some addr) :
      (w.heap.live? addr).isSome := by
    obtain ⟨object, live⟩ := Heap.count_pos_iff.mp (counts addr holds)
    rw [live]
    rfl
  refine ⟨live counts₂, live counts₄, fun id id' loaded loaded' => ?_⟩
  rw [loaded] at held₁
  rw [loaded'] at held₃
  have sole₂ : m₂.world.words.length ≤ 1 :=
    (run_words_length (sound reached₂) ran).trans
      ((run_words_length (sound reached₃) returned₃.ran).trans sole)
  obtain ⟨earlier, older, early, last⟩ := held₁.published reached returned₁.ran sole₂
  obtain ⟨earlier', newer, early', last'⟩ := held₃.published reached₃ returned₃.ran sole
  -- The moment of the first load comes before that of the second one, and both are in the schedule.
  have before₁ : before ++ earlier <+: before ++ first ++ between ++ earlier' := by
    obtain ⟨rest, rfl⟩ := early
    exact ⟨rest ++ between ++ earlier', by simp⟩
  have before₃ : before ++ first ++ between ++ earlier' <+:
      before ++ first ++ between ++ second := (List.prefix_append_right_inj _).mpr early'
  have sooner : older ++ [id] <+: newer ++ [id'] := by
    rw [← last, ← last']
    exact published_prefix start before₁
  have later : newer ++ [id'] <+: order := by
    rw [← last', ← all]
    exact published_prefix start before₃
  exact idxOf_le_of_prefix once sooner later

/-- The reader sees the first object at an address. Before it has recorded its debt, that object is
destroyed, the third one is created at the same address and put into the slot, and taken out again for
the fourth: the load returns the third one, and the next load the fourth. -/
theorem loads_follow_publications_address_reused :
    ∃ m₁ m₂ m₃ m₄ call₁ call₂ call₃ call₄,
      (ofPrograms [[.mk (.create "s" (.fresh []) false) none, .mk (.store "s" (.fresh [])) none,
          .mk (.store "s" (.fresh [])) none],
        [.mk (.load "s" none) none, .mk (.load "s" none) none],
        [.mk (.store "s" (.fresh [])) none]]).run
          (List.replicate 6 (0, ({} : Choice)) ++ [(1, ({} : Choice))]) = .ok m₁ ∧
      m₁.callAt 1 0 = some call₁ ∧ m₁.world.objectId (m₁.world.word 0) = some 1 ∧
      m₁.Brings ((1, ({} : Choice)) :: List.replicate 12 (0, ({ addr := some 0 } : Choice)) ++
          List.replicate 4 (1, ({} : Choice)) ++ List.replicate 7 (2, ({} : Choice)) ++
          List.replicate 3 (1, ({} : Choice))) 1 0
        [.note (.object .observed), .release .observed] m₂ call₂ ∧
      m₂.run (List.replicate 5 (1, {})) = .ok m₃ ∧ m₃.callAt 1 0 = some call₃ ∧
      m₃.Brings (List.replicate 8 (1, {})) 1 0 [.note (.object .observed), .release .observed] m₄ call₄ ∧
      m₂.world.objectId call₂.registers.observed = some 3 ∧
      m₄.world.objectId call₄.registers.observed = some 4 ∧
      [1, 2, 3, 4].idxOf 3 ≤ [1, 2, 3, 4].idxOf 4 := by
  obtain ⟨m₁, m₂, m₃, m₄, call₁, call₂, call₃, call₄, reached, there₁, seen, returned₁, ran, there₃,
      returned₃, loaded, loaded', code₁, code₃, acts₁, acts₃, sole⟩ :
      ∃ m₁ m₂ m₃ m₄ call₁ call₂ call₃ call₄,
        (ofPrograms [[.mk (.create "s" (.fresh []) false) none, .mk (.store "s" (.fresh [])) none,
            .mk (.store "s" (.fresh [])) none],
          [.mk (.load "s" none) none, .mk (.load "s" none) none],
          [.mk (.store "s" (.fresh [])) none]]).run
            (List.replicate 6 (0, ({} : Choice)) ++ [(1, ({} : Choice))]) = .ok m₁ ∧
        m₁.callAt 1 0 = some call₁ ∧ m₁.world.objectId (m₁.world.word 0) = some 1 ∧
        m₁.Brings ((1, ({} : Choice)) :: List.replicate 12 (0, ({ addr := some 0 } : Choice)) ++
            List.replicate 4 (1, ({} : Choice)) ++ List.replicate 7 (2, ({} : Choice)) ++
            List.replicate 3 (1, ({} : Choice))) 1 0
          [.note (.object .observed), .release .observed] m₂ call₂ ∧
        m₂.run (List.replicate 5 (1, {})) = .ok m₃ ∧ m₃.callAt 1 0 = some call₃ ∧
        m₃.Brings (List.replicate 8 (1, {})) 1 0 [.note (.object .observed), .release .observed] m₄ call₄ ∧
        m₂.world.objectId call₂.registers.observed = some 3 ∧
        m₄.world.objectId call₄.registers.observed = some 4 ∧
        call₁.code = .read .load :: [.note (.object .observed), .release .observed] ∧
        call₃.code = .read .load :: [.note (.object .observed), .release .observed] ∧
        call₁.slot = some 0 ∧ call₃.slot = some 0 ∧ m₄.world.words.length ≤ 1 :=
    ⟨_, _, _, _, _, _, _, _, rfl, rfl, rfl, ⟨rfl, rfl, rfl, first_of_lengths rfl⟩, rfl, rfl,
      ⟨rfl, rfl, rfl, first_of_lengths rfl⟩, rfl, rfl, rfl, rfl, rfl, rfl, Nat.le_of_eq rfl⟩
  have all :
      (ofPrograms [[.mk (.create "s" (.fresh []) false) none, .mk (.store "s" (.fresh [])) none,
          .mk (.store "s" (.fresh [])) none],
        [.mk (.load "s" none) none, .mk (.load "s" none) none],
        [.mk (.store "s" (.fresh [])) none]]).published
          (List.replicate 6 (0, ({} : Choice)) ++ [(1, ({} : Choice))] ++
            ((1, ({} : Choice)) :: List.replicate 12 (0, ({ addr := some 0 } : Choice)) ++
              List.replicate 4 (1, ({} : Choice)) ++ List.replicate 7 (2, ({} : Choice)) ++
              List.replicate 3 (1, ({} : Choice))) ++
            List.replicate 5 (1, ({} : Choice)) ++ List.replicate 8 (1, ({} : Choice))) 0 =
        [1, 2, 3, 4] := by decide +kernel
  have once : [1, 2, 3, 4].Nodup := by decide
  obtain ⟨-, -, follow⟩ := loads_follow_publications reached there₁ code₁ acts₁ returned₁ ran there₃
    code₃ acts₃ returned₃ sole all once
  exact ⟨m₁, m₂, m₃, m₄, call₁, call₂, call₃, call₄, reached, there₁, seen, returned₁, ran, there₃,
    returned₃, loaded, loaded', (follow 3 4 loaded loaded').2.2⟩

end Machine

end SharedCells.Slot
