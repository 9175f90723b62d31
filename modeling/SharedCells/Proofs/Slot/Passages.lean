import SharedCells.Proofs.Slot.Course

/-! The parts of a compare-exchange in a thread that runs alone.

Each part is a run of instructions that the others are made of: recording a debt,
retaining what a slot holds, paying debts of which there are none, giving up a
reference. -/

set_option autoImplicit false

namespace SharedCells.Slot

open Machine Dealing

variable {level : Level} {below : Thread} {w : World} {call : Call} {rest : List Instruction}
  {alone : Prop} {later : List Choice} {purpose : Purpose} {addr : Addr}

section Claim

theorem Turn.claim_above {t turn : Turn} {progress : Registry.Claim} {choice : Choice}
    {inUse : SlotId → Bool} (ran : t.run choice inUse (.claim purpose addr progress) = .ok turn) :
    turn.above = t.above := by
  cases goes_of_run ran with
  | gives_way gives => cases gives
  | claim | recorded => rfl

theorem take_comes (staged : Staged level below w call) (used : w.registry = Registry.sole)
    (head : call.code = .claim purpose addr .start :: rest) :
    Comes level below 3 alone later (fun _ dealings w' call' => dealings = [] ∧
      w' = { w with registry := Registry.soleOwing addr } ∧
      call' = { call with code := .recheck purpose ⟨Registry.origin, addr⟩ :: rest }) w call := by
  obtain ⟨heap, registry, words, slots, handles⟩ := w
  dsimp only at used
  subst used
  refine .next staged head id ⟨heap, .sole, words, slots, handles⟩
    { call with code := .claim purpose addr (.test Registry.origin) :: rest } []
    (fun _ _ => .claim purpose rfl nofun) (fun _ => rfl) fun _ _ _ tests => ?_
  refine .next tests.staged rfl id ⟨heap, .sole, words, slots, handles⟩
    { call with code := .claim purpose addr (.take Registry.origin) :: rest } []
    (fun _ _ => .claim purpose Registry.Claim.step_test_sole nofun) (fun _ => rfl) fun _ _ _ takes => ?_
  refine Comes.goes takes.staged rfl id (fun _ _ _ ran => Turn.claim_above ran)
    fun choice inUse turn more _ ran done => ?_
  obtain rfl := Turn.eq_of_goes ran (.recorded purpose Registry.Claim.step_take_sole)
  exact .here done.staged ⟨rfl, rfl, rfl⟩

/-- A new node is put into the registry as often as that fails for no reason, and once more. -/
theorem link_comes (staged : Staged level below w call) (fresh : w.registry = Registry.empty)
    (head : call.code = .claim purpose addr (.link none) :: rest) :
    Comes level below 1 alone later (fun _ dealings w' call' => dealings = [] ∧
      w' = { w with registry := Registry.soleOwing addr } ∧
      call' = { call with code := .recheck purpose ⟨Registry.origin, addr⟩ :: rest }) w call := by
  obtain ⟨heap, registry, words, slots, handles⟩ := w
  dsimp only at fresh
  subst fresh
  obtain ⟨code⟩ := call
  dsimp only at head
  subst head
  have flat (choice : Choice) (inUse : SlotId → Bool) (t turn : Turn) (above : t.above = none)
      (ran : t.run choice inUse (.claim purpose addr (.link none)) = .ok turn) : turn.above = none :=
    (Turn.claim_above ran).trans above
  induction later with
  | nil =>
    exact .step staged rfl id (fun choice inUse turn ran _ _ => flat choice inUse _ turn rfl ran)
      fun _ _ _ _ _ _ _ same => by contradiction
  | cons choice later ih =>
    refine .step staged rfl id (fun choice inUse turn ran _ _ => flat choice inUse _ turn rfl ran)
      fun choice' inUse turn done more w' call' same ran _ waited segment => ?_
    obtain ⟨rfl, tail⟩ := List.cons.inj same
    cases spurious : choice.spurious with
    | true =>
      obtain rfl := Turn.eq_of_goes ran
        (.claim purpose (Registry.Claim.step_link_of_spurious spurious) nofun)
      obtain ⟨rfl, rfl, rfl⟩ := waited.quiet rfl
      obtain rfl : later = more := tail
      exact ih
    | false =>
      obtain rfl := Turn.eq_of_goes ran
        (.recorded purpose (Registry.Claim.step_link_of_steady spurious))
      obtain ⟨rfl, rfl, rfl⟩ := waited.quiet rfl
      exact .here segment.staged ⟨rfl, rfl, rfl⟩

/-- A lone thread records a debt at the first mark. -/
theorem claim_comes (staged : Staged level below w call)
    (head : call.code = .claim purpose addr .start :: rest) :
    Comes level below 3 alone later (fun _ dealings w' call' => dealings = [] ∧
      w' = { w with registry := Registry.soleOwing addr } ∧
      call' = { call with code := .recheck purpose ⟨Registry.origin, addr⟩ :: rest }) w call := by
  have idle : w.registry.Idle := staged.meets head
  rcases idle with fresh | used
  · obtain ⟨heap, registry, words, slots, handles⟩ := w
    dsimp only at fresh
    subst fresh
    refine .next staged head id ⟨heap, .empty, words, slots, handles⟩
      { call with code := .claim purpose addr .grow :: rest } [] (fun _ _ => .claim purpose rfl nofun)
      (fun _ => rfl) fun _ _ _ grows => ?_
    refine .next grows.staged rfl id ⟨heap, .empty, words, slots, handles⟩
      { call with code := .claim purpose addr (.link none) :: rest } []
      (fun _ _ => .claim purpose rfl nofun) (fun _ => rfl) fun _ _ _ links => ?_
    exact link_comes links.staged rfl rfl
  · exact take_comes staged used head

end Claim

theorem Staged.retains (staged : Staged level below w call) (holds : call.slot.bind w.word = some addr) :
    ∃ heap, w.heap.retain? addr = some heap := by
  obtain ⟨slot, -, word⟩ := Option.bind_eq_some_iff.mp holds
  exact Heap.retain?_of_pos (staged.sound.counted.counts_word slot addr word)

/-- The debt on what the slot holds is settled once a reference is counted. -/
theorem retain_comes (staged : Staged level below w call)
    (head : call.code = .retain purpose (some addr) :: rest)
    (holds : call.slot.bind w.word = some addr) :
    Comes level below 7 alone later (fun _ dealings w' call' =>
      dealings = loads (w.objectId (some addr)) ∧
      (∃ heap, w.heap.retain? addr = some heap ∧ w' = { w with heap, registry := Registry.sole }) ∧
      call' = { call with
        code := Turn.settled purpose ++ rest
        registers := call.registers.set .observed (some addr) }) w call := by
  obtain ⟨heap, retained⟩ := staged.retains holds
  refine .gives_way staged head id [.claim purpose addr .start] [] (fun _ _ => .retain purpose addr)
    (fun _ => rfl) fun _ _ _ claims => ?_
  refine Comes.bind (claim_comes claims.staged rfl) fun _ _ _ w₁ call₁ _ claimed there => ?_
  obtain ⟨rfl, rfl, rfl⟩ := there
  refine .gives_way claimed.staged rfl id [.increment purpose ⟨Registry.origin, addr⟩] []
    (fun _ _ => .recheck_same purpose holds) (fun _ => rfl) fun _ _ _ checks => ?_
  have empty : call.registers.observed = none := checks.staged.tidy.reads rfl trivial
  refine .next checks.staged rfl id { w with heap, registry := Registry.soleOwing addr }
    { call with
      code := .settle purpose ⟨Registry.origin, addr⟩ .withdraw :: rest
      registers := call.registers.set .observed (some addr) } (loads (w.objectId (some addr))) ?_
    (fun _ => if_pos holds) fun _ _ _ counts => ?_
  · intro choice inUse
    refine .of_eq (.increment (Turn.retainInto_of_retain? retained)) ?_
    simp [Turn.assign, Turn.before, Turn.setRegister, Turn.get, Registers.get, empty]
  refine .next counts.staged rfl id { w with heap, registry := Registry.sole }
    { call with
      code := Turn.settled purpose ++ rest
      registers := call.registers.set .observed (some addr) } []
    (fun _ _ => .settle_owed purpose (Turn.settle_step rfl rfl)) (fun _ => rfl) fun _ _ _ settles => ?_
  refine .here settles.staged ⟨?_, ⟨heap, retained, rfl⟩, rfl⟩
  simp only [List.nil_append, List.append_nil]

/-- The debt is withdrawn if the slot is found to hold something else. -/
theorem stale_comes (staged : Staged level below w call)
    (head : call.code = .retain purpose (some addr) :: rest)
    (differs : call.slot.bind w.word ≠ some addr) :
    Comes level below 6 alone later (fun _ dealings w' call' =>
      dealings = [] ∧ w' = { w with registry := Registry.sole } ∧
      call' = { call with code := Turn.look purpose (call.slot.bind w.word) :: rest }) w call := by
  refine .gives_way staged head id [.claim purpose addr .start] [] (fun _ _ => .retain purpose addr)
    (fun _ => rfl) fun _ _ _ claims => ?_
  refine Comes.bind (claim_comes claims.staged rfl) fun _ _ _ w₁ call₁ _ claimed there => ?_
  obtain ⟨rfl, rfl, rfl⟩ := there
  refine .gives_way claimed.staged rfl id
    [.stale purpose ⟨Registry.origin, addr⟩ (call.slot.bind w.word) .withdraw] []
    (fun _ _ => .recheck_differs purpose differs) (fun _ => rfl) fun _ _ _ checks => ?_
  refine .next checks.staged rfl id { w with registry := Registry.sole }
    { call with code := Turn.look purpose (call.slot.bind w.word) :: rest } []
    (fun _ _ => .stale_owed purpose _ (Turn.settle_step rfl rfl)) (fun _ => rfl) fun _ _ _ settles => ?_
  exact .here settles.staged ⟨rfl, rfl, rfl⟩

theorem objectId_of_retained {heap : Heap (List Command)} {registry : Registry}
    (retained : w.heap.retain? addr = some heap) (ref : Ref) :
    World.objectId { w with heap, registry } ref = w.objectId ref := by
  obtain ⟨object, live, rfl⟩ := Heap.retain?_eq_some_iff.mp retained
  cases ref with
  | none => rfl
  | some other =>
    rw [World.objectId, World.objectId, Option.bind_some, Option.bind_some, Heap.find?_set]
    by_cases same : other = addr
    · subst same
      rw [if_pos rfl, (Heap.live?_eq_some_iff.mp live).1]
      rfl
    · rw [if_neg same]

theorem nothing_comes (staged : Staged level below w call)
    (head : call.code = .retain purpose none :: rest) :
    Comes level below 1 alone later (fun _ dealings w' call' =>
      dealings = [] ∧ w' = w ∧ call' = { call with
        code := Turn.settled purpose ++ rest
        registers := call.registers.set .observed none }) w call := by
  have empty : call.registers.observed = none := staged.tidy.reads head trivial
  refine .next staged head id w { call with
      code := Turn.settled purpose ++ rest
      registers := call.registers.set .observed none } [] ?_ (fun _ => rfl) fun _ _ _ ends => ?_
  · intro choice inUse
    refine .of_eq (.retain_nothing purpose) ?_
    simp [Turn.assign, Turn.before, Turn.setRegister, Turn.get, Registers.get, empty]
  exact .here ends.staged ⟨rfl, rfl, rfl⟩

theorem found_comes {seen : Ref} (staged : Staged level below w call)
    (head : call.code = .retain purpose seen :: rest) (holds : call.slot.bind w.word = seen) :
    Comes level below 7 alone later (fun _ dealings w' call' =>
      dealings = loads (w.objectId seen) ∧ w'.words = w.words ∧
      (∀ ref, w'.objectId ref = w.objectId ref) ∧
      call' = { call with
        code := Turn.settled purpose ++ rest
        registers := call.registers.set .observed seen }) w call := by
  cases seen with
  | some addr =>
    refine (retain_comes staged head holds).imp ?_
    rintro _ _ w' _ ⟨dealt, ⟨heap, retained, rfl⟩, rfl⟩
    exact ⟨dealt, rfl, objectId_of_retained retained, rfl⟩
  | none =>
    refine (nothing_comes staged head).mono (by omega) id ?_
    rintro _ _ w' _ ⟨rfl, rfl, rfl⟩
    exact ⟨rfl, rfl, fun _ => rfl, rfl⟩

section Pay

theorem test_comes {index : Fin Registry.breadth} (staged : Staged level below w call)
    (used : w.registry = Registry.sole) (head : call.code = .pay addr (.test ⟨0, index⟩) :: rest) :
    Comes level below (Registry.breadth - index) alone later (fun _ dealings w' call' =>
      dealings = [] ∧ w' = w ∧ call' = { call with code := .pay addr .finished :: rest }) w call := by
  obtain ⟨heap, registry, words, slots, handles⟩ := w
  dsimp only at used
  subst used
  -- No debt is unpaid, so that each test goes on to the next mark.
  have unpaid (p : Registry.Place) : Registry.Payment.step addr (.test p) .sole =
      (Registry.Payment.scan (Registry.sole.after p), .sole) := by
    have free : Registry.sole.read p ≠ some (.owed addr) := fun owed => by
      have := Registry.Idle.read (.inr rfl) owed
      contradiction
    rw [Registry.Payment.step, if_neg free]
  obtain ⟨left, spent⟩ : ∃ left, left = Registry.breadth - 1 - index.val := ⟨_, rfl⟩
  have breadth : Registry.breadth = 8 := rfl
  -- The induction is on how many marks lie behind the one that is tested.
  induction left generalizing index call later with
  | zero =>
    have last : Registry.sole.after ⟨0, index⟩ = none := by
      rw [Registry.after, dif_neg (by dsimp only; omega)]
      rfl
    refine Comes.within (?_ : Comes level below 1 alone later _ _ _) (by omega)
    refine .next staged head id ⟨heap, .sole, words, slots, handles⟩
      { call with code := .pay addr .finished :: rest } [] ?_ (fun _ => rfl) fun _ _ _ ends => ?_
    · intro choice inUse
      refine .of_eq (.pay_test addr ⟨0, index⟩) ?_
      rw [Turn.before, unpaid, last]
      rfl
    exact .here ends.staged ⟨rfl, rfl, rfl⟩
  | succ left ih =>
    have more : index.val + 1 < Registry.breadth := by omega
    have next : Registry.sole.after ⟨0, index⟩ = some ⟨0, ⟨index.val + 1, more⟩⟩ := by
      rw [Registry.after, dif_pos more]
    refine Comes.within
      (?_ : Comes level below (Registry.breadth - (index.val + 1) + 1) alone later _ _ _) (by omega)
    refine .next staged head id ⟨heap, .sole, words, slots, handles⟩
      { call with code := .pay addr (.test ⟨0, ⟨index.val + 1, more⟩⟩) :: rest } [] ?_ (fun _ => rfl)
      fun _ _ _ tests => ?_
    · intro choice inUse
      refine .of_eq (.pay_test addr ⟨0, index⟩) ?_
      rw [Turn.before, unpaid, next]
      rfl
    exact ih rfl tests.staged (by dsimp only; omega)

theorem search_comes (staged : Staged level below w call)
    (head : call.code = .pay addr .start :: rest) :
    Comes level below 9 alone later (fun _ dealings w' call' =>
      dealings = [] ∧ w' = w ∧ call' = { call with code := .pay addr .finished :: rest }) w call := by
  have idle : w.registry.Idle := staged.meets head
  obtain ⟨heap, registry, words, slots, handles⟩ := w
  rcases idle with rfl | rfl
  · exact .next staged head id ⟨heap, .empty, words, slots, handles⟩
      { call with code := .pay addr .finished :: rest } [] (fun _ _ => .pay_start addr) (fun _ => rfl)
      fun _ _ _ ends => .here ends.staged ⟨rfl, rfl, rfl⟩
  · exact .next staged head id ⟨heap, .sole, words, slots, handles⟩
      { call with code := .pay addr (.test ⟨0, 0⟩) :: rest } [] (fun _ _ => .pay_start addr)
      (fun _ => rfl) fun _ _ _ tests => test_comes tests.staged rfl rfl

theorem pay_comes (staged : Staged level below w call)
    (head : call.code = .pay addr .start :: rest) :
    Comes level below 10 alone later (fun _ dealings w' call' =>
      dealings = [] ∧ w' = w ∧ call' = { call with code := rest }) w call := by
  refine Comes.within (?_ : Comes level below (1 + 9) alone later _ _ _) (by omega)
  refine Comes.bind (search_comes staged head) fun _ _ _ w₁ _ _ found there => ?_
  obtain ⟨rfl, rfl, rfl⟩ := there
  exact .gives_way found.staged rfl id [] [] (fun _ _ => .pay_finished addr) (fun _ => rfl)
    fun _ _ _ done => .here done.staged ⟨rfl, rfl, rfl⟩

end Pay

/-- One reference less is counted, if there was one to give up, and no object is freed. -/
structure GivenUp (ref : Ref) (h h' : Heap (List Command)) : Prop where
  counts : ∀ addr, h'.count addr + (if ref = some addr then 1 else 0) = h.count addr
  ids : ∀ addr, (h'.find? addr).map (·.id) = (h.find? addr).map (·.id)

theorem GivenUp.of_release {h h' : Heap (List Command)} {left : Object (List Command)}
    (released : h.release? addr = some (left, h')) : GivenUp (some addr) h h' where
  counts other := by
    simp only [Option.some.injEq]
    exact Heap.count_release released
  ids other := by
    obtain ⟨object, live, rfl, rfl⟩ := Heap.release?_eq_some_iff.mp released
    rw [Heap.find?_set]
    by_cases same : other = addr
    · subst same
      rw [if_pos rfl, (Heap.live?_eq_some_iff.mp live).1]
      rfl
    · rw [if_neg same]

theorem GivenUp.objectId {old ref : Ref} {heap : Heap (List Command)}
    (given : GivenUp old w.heap heap) : World.objectId { w with heap } ref = w.objectId ref := by
  cases ref with
  | none => rfl
  | some addr => exact given.ids addr

section Drop

variable {ref : Ref}

/-- The level of an object's destruction, if no reference to the object is left. -/
def destruction (addr : Addr) (left : Object (List Command)) : Option Level :=
  if left.count = 0 then some { role := .destruction addr, todo := left.onDrop } else none

theorem Turn.run_drop {t turn : Turn} {choice : Choice} {inUse : SlotId → Bool}
    (ran : t.run choice inUse (.drop addr) = .ok turn) :
    ∃ left heap, t.world.heap.release? addr = some (left, heap) ∧
      turn = { t with world.heap := heap, above := destruction addr left } := by
  cases goes_of_run ran with
  | gives_way gives => cases gives
  | drop released => exact ⟨_, _, released, rfl⟩

/-- How a reference is given up: the object's destruction, if it has come to that, is over. -/
def Gave (ref : Ref) (level : Level) (below : Thread) (w : World) (call : Call) (w' : World)
    (call' : Call) : Prop :=
  match ref with
  | none => w' = w ∧ call' = call
  | some addr => ∃ left heap choices, w.heap.release? addr = some (left, heap) ∧
      Waited (destruction addr left).toList level below { w with heap } call choices w' call'

theorem Gave.told {w' : World} {call' : Call} (gave : Gave ref level below w call w' call') :
    ∃ events, call' = { call with events } := by
  cases ref with
  | none => exact ⟨call.events, gave.2⟩
  | some addr =>
    obtain ⟨left, heap, choices, -, waited⟩ := gave
    exact waited.told

theorem Gave.names {w' : World} {call' : Call} (gave : Gave ref level below w call w' call')
    (bounded : w.heap.Bounded) (counts : ∀ register, w.Counts (call.registers.get register))
    (register : Register) :
    w'.objectId (call.registers.get register) = w.objectId (call.registers.get register) := by
  cases ref with
  | none => rw [gave.1]
  | some addr =>
    obtain ⟨left, heap, choices, released, waited⟩ := gave
    exact (waited.names register).trans
      (World.objectId_of_change (.released released) bounded (counts register))

theorem Staged.drop {left : Object (List Command)} {heap : Heap (List Command)}
    (staged : Staged level below w call) (head : call.code = .drop addr :: rest)
    (released : w.heap.release? addr = some (left, heap)) :
    (stage level below w call).step 0 {} = .ok (waiting (destruction addr left).toList level below
      { w with heap } { call with code := rest }) ∧
    (waiting (destruction addr left).toList level below { w with heap } { call with code := rest }).Sound ∧
    Thread.Lone { w with heap } ((destruction addr left).toList ++
      { level with call := some { call with code := rest } } :: below) := by
  obtain ⟨inUse, turn, ran, stepped, sound, lone⟩ := staged.step head {}
  obtain ⟨left', heap', released', rfl⟩ := Turn.run_drop ran
  obtain ⟨rfl, rfl⟩ := Prod.mk.inj (Option.some.inj (released.symm.trans released'))
  exact ⟨stepped, sound, lone⟩

theorem Gave.segment {w' : World} {call' : Call}
    (gave : Gave ref level below w { call with code := rest } w' call')
    (staged : Staged level below w call) (code : call.code = ref.toList.map .drop ++ rest) :
    ∃ choices, Segment level below w call choices w' call' := by
  cases ref with
  | none =>
    obtain ⟨rfl, rfl⟩ := gave
    obtain ⟨code'⟩ := call
    dsimp only at code
    subst code
    exact ⟨[], .refl staged⟩
  | some addr =>
    obtain ⟨left, heap, choices, released, waited⟩ := gave
    obtain ⟨stepped, -, -⟩ := staged.drop code released
    exact ⟨{} :: choices, .of_waited (Call.not_returns code id) stepped waited⟩

/-- At most one reference is given up. No destruction begins if the call owns the object by another
reference. -/
theorem gives_comes (staged : Staged level below w call)
    (code : call.code = ref.toList.map .drop ++ rest)
    (shared : alone → ∀ addr, ref = some addr → ∃ register, call.registers.get register = some addr) :
    Comes level below 1 alone later (fun _ dealings w' call' =>
      dealings = releases (w.objectId ref) ∧ Gave ref level below w { call with code := rest } w' call' ∧
      (alone → ∀ addr left heap, ref = some addr → w.heap.release? addr = some (left, heap) →
        left.count ≠ 0)) w call := by
  cases ref with
  | none =>
    obtain ⟨code'⟩ := call
    dsimp only at code
    subst code
    exact .here staged ⟨rfl, ⟨rfl, rfl⟩, fun _ _ _ _ same => by contradiction⟩
  | some addr =>
    have counted (heap : Heap (List Command)) (left : Object (List Command)) (upper : Thread)
        (released : w.heap.release? addr = some (left, heap))
        (sound : (waiting upper level below { w with heap } { call with code := rest }).Sound)
        (left' : alone) : left.count ≠ 0 := by
      obtain ⟨register, holds⟩ := shared left' addr rfl
      have counted : 0 < heap.count addr :=
        sound.counted.counts_register mem_waiting register addr holds
      rw [Heap.count_of_find? (Heap.find?_release released)] at counted
      exact Nat.ne_of_gt counted
    refine .step staged code id (fun choice inUse turn ran sound left' => ?_)
      fun choice inUse turn done more w' call' _ ran sound waited segment => ?_
    · obtain ⟨left, heap, released, rfl⟩ := Turn.run_drop ran
      exact if_neg (counted heap left _ released sound left')
    · obtain ⟨left, heap, released, rfl⟩ := Turn.run_drop ran
      have gives := counted heap left _ released sound
      refine .here segment.staged ⟨List.append_nil _, ⟨left, heap, done, released, waited⟩, ?_⟩
      rintro left' _ _ _ same released'
      obtain rfl := Option.some.inj same
      obtain ⟨rfl, -⟩ := Prod.mk.inj (Option.some.inj (released.symm.trans released'))
      exact gives left'

/-- At most one reference is given up. Nothing else happens if there is none, or if the call owns the
object by another reference. -/
theorem drops_comes (staged : Staged level below w call)
    (code : call.code = ref.toList.map .drop ++ rest)
    (shared : alone → ∀ addr, ref = some addr → ∃ register, call.registers.get register = some addr) :
    Comes level below 1 alone later (fun _ dealings w' call' =>
      dealings = releases (w.objectId ref) ∧ (∃ events, call' = { call with code := rest, events }) ∧
      (∀ register, w'.objectId (call.registers.get register) =
        w.objectId (call.registers.get register)) ∧
      (alone → call' = { call with code := rest } ∧
        ∃ heap, w' = { w with heap } ∧ GivenUp ref w.heap heap)) w call := by
  refine (gives_comes staged code shared).imp ?_
  rintro _ _ w' call' ⟨dealt, gave, lasts⟩
  refine ⟨dealt, gave.told, gave.names staged.sound.counted.bounded staged.counts, fun left => ?_⟩
  cases ref with
  | none =>
    obtain ⟨rfl, rfl⟩ := gave
    exact ⟨rfl, w'.heap, rfl, ⟨fun _ => rfl, fun _ => rfl⟩⟩
  | some addr =>
    obtain ⟨object, heap, choices, released, waited⟩ := gave
    have goesOn : destruction addr object = none := if_neg (lasts left addr object heap rfl released)
    obtain ⟨-, rfl, same⟩ := waited.quiet (by rw [goesOn]; rfl)
    exact ⟨same, heap, rfl, .of_release released⟩

theorem empties_comes {register : Register} (staged : Staged level below w call)
    (head : call.code = .release register :: rest) :
    Comes level below 1 alone later (fun _ dealings w' call' => dealings = [] ∧ w' = w ∧
      call' = { call with
        code := (call.registers.get register).toList.map .drop ++ rest
        registers := call.registers.set register none }) w call := by
  exact .next staged head id w { call with
      code := (call.registers.get register).toList.map .drop ++ rest
      registers := call.registers.set register none } [] (fun _ _ => .release register) (fun _ => rfl)
    fun _ _ _ drops => .here drops.staged ⟨rfl, rfl, rfl⟩

theorem replaces_comes (staged : Staged level below w call)
    (head : call.code = .move .observed .expected :: rest) :
    Comes level below 1 alone later (fun _ dealings w' call' => dealings = [] ∧ w' = w ∧
      call' = { call with
        code := call.registers.expected.toList.map .drop ++ rest
        registers := { call.registers with
          observed := none
          expected := call.registers.observed } }) w call := by
  exact .next staged head id w { call with
      code := call.registers.expected.toList.map .drop ++ rest
      registers := { call.registers with
        observed := none
        expected := call.registers.observed } } [] (fun _ _ => .move .observed .expected) (fun _ => rfl)
    fun _ _ _ drops => .here drops.staged ⟨rfl, rfl, rfl⟩

theorem release_comes {register : Register} (staged : Staged level below w call)
    (head : call.code = .release register :: rest)
    (shared : alone → ∀ addr, call.registers.get register = some addr →
      ∃ other, (call.registers.set register none).get other = some addr) :
    Comes level below 2 alone later (fun _ dealings w' call' =>
      dealings = releases (w.objectId (call.registers.get register)) ∧
      (∃ events, call' = { call with
        code := rest
        registers := call.registers.set register none
        events }) ∧
      (∀ other, w'.objectId ((call.registers.set register none).get other) =
        w.objectId ((call.registers.set register none).get other)) ∧
      (alone → call' = { call with code := rest, registers := call.registers.set register none } ∧
        ∃ heap, w' = { w with heap } ∧ GivenUp (call.registers.get register) w.heap heap)) w call := by
  refine Comes.bind (empties_comes staged head) fun _ _ _ w₁ _ _ drops there => ?_
  obtain ⟨rfl, rfl, rfl⟩ := there
  exact drops_comes drops.staged rfl shared

theorem move_comes (staged : Staged level below w call)
    (head : call.code = .move .observed .expected :: rest) :
    Comes level below 2 False later (fun _ dealings w' call' =>
      dealings = releases (w.objectId call.registers.expected) ∧
      (∃ events, call' = { call with
        code := rest
        registers := { call.registers with
          observed := none
          expected := call.registers.observed }
        events }) ∧
      ∀ register, w'.objectId (call'.registers.get register) = w.objectId (call'.registers.get register))
      w call := by
  refine Comes.bind (replaces_comes staged head) fun _ _ _ w₁ _ _ drops there => ?_
  obtain ⟨rfl, rfl, rfl⟩ := there
  refine (drops_comes drops.staged rfl False.elim).imp ?_
  rintro _ _ w' _ ⟨dealt, ⟨events, rfl⟩, names, -⟩
  exact ⟨dealt, ⟨events, rfl⟩, names⟩

end Drop

theorem Turn.publish_expected {t : Turn} {slot : SlotId} (empty : t.get .observed = none) :
    ({ t with call.exchanged := true }.before [.release .observed]).publish slot (t.get .expected) =
      { t with
        world := t.world.setWord slot (t.get .desired)
        call := { t.call with
          code := (t.get .expected).toList.map (.pay · .start) ++ .release .observed :: t.call.code
          exchanged := true
          registers := { t.call.registers with desired := none, observed := t.get .expected } } } := by
  have observed : t.call.registers.observed = none := empty
  simp [publish, assign, before, setRegister, get, Registers.get, Registers.set, observed]

section Exchange

variable {t : Turn} {slot : SlotId} {seen : Ref} {choice : Choice} {inUse : SlotId → Bool}

theorem stores_attempt_of_eq (acts : t.call.slot = some slot) (same : seen = t.get .expected)
    (holds : t.world.word slot = t.get .expected) :
    (Instruction.attempt seen).stores choice t = some slot := by
  rw [Instruction.stores, acts, Option.filter_some, if_pos (by simp [same, holds])]

theorem dealings_attempt_of_ne (acts : t.call.slot = some slot) (differs : seen ≠ t.get .expected) :
    (Instruction.attempt seen).dealings choice t = [] := by
  have quiet : (Instruction.attempt seen).stores choice t = none := by
    rw [Instruction.stores, acts, Option.filter_some, if_neg (by simp [differs])]
  have dealt : (Instruction.attempt seen).dealings choice t =
    ((Instruction.attempt seen).stores choice t).toList.map _ := rfl
  rw [dealt, quiet]
  rfl

theorem stores_once_of_eq (acts : t.call.slot = some slot) (same : seen = t.get .expected)
    (holds : t.world.word slot = t.get .expected) (succeeds : choice.spurious = false) :
    (Instruction.once seen).stores choice t = some slot := by
  rw [Instruction.stores, acts, Option.filter_some, if_pos (by simp [same, holds, succeeds])]

theorem dealings_once_of_fails (acts : t.call.slot = some slot)
    (fails : ¬ (seen = t.get .expected ∧ t.world.word slot = t.get .expected ∧ choice.spurious = false)) :
    (Instruction.once seen).dealings choice t = [] := by
  have quiet : (Instruction.once seen).stores choice t = none := by
    rw [Instruction.stores, acts, Option.filter_some, if_neg (by simpa using fails)]
  have dealt : (Instruction.once seen).dealings choice t =
    ((Instruction.once seen).stores choice t).toList.map _ := rfl
  rw [dealt, quiet]
  rfl

end Exchange

/-- The slot's reference to the object that was exchanged is given up; the call still owns the object by
the expected reference. -/
theorem displaced_comes {old : Ref} (staged : Staged level below w call)
    (head : call.code = old.toList.map (.pay · .start) ++ .release .observed :: rest)
    (observed : call.registers.observed = old) (expected : call.registers.expected = old) :
    Comes level below 12 True later (fun _ dealings w' call' =>
      dealings = releases (w.objectId old) ∧
      call' = { call with code := rest, registers := { call.registers with observed := none } } ∧
      ∃ heap, w' = { w with heap } ∧ GivenUp old w.heap heap) w call := by
  have released {call : Call} {later : List Choice} (staged : Staged level below w call)
      (head : call.code = .release .observed :: rest) (observed : call.registers.observed = old)
      (expected : call.registers.expected = old) :
      Comes level below 2 True later (fun _ dealings w' call' =>
        dealings = releases (w.objectId old) ∧
        call' = { call with code := rest, registers := { call.registers with observed := none } } ∧
        ∃ heap, w' = { w with heap } ∧ GivenUp old w.heap heap) w call := by
    have same : call.registers.get .observed = old := observed
    refine (release_comes staged head fun _ addr holds =>
      ⟨.expected, expected.trans (same.symm.trans holds)⟩).imp fun _ _ w' call' there => ?_
    rw [same] at there
    obtain ⟨dealt, -, -, ends⟩ := there
    exact ⟨dealt, ends trivial⟩
  cases old with
  | none => exact (released staged head observed expected).within (by omega)
  | some addr =>
    refine Comes.bind (pay_comes staged head) fun _ _ _ w₁ call₁ _ paid there => ?_
    obtain ⟨rfl, rfl, rfl⟩ := there
    exact released paid.staged rfl observed expected

end SharedCells.Slot
