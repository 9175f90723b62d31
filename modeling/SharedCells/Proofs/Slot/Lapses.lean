import SharedCells.Proofs.Slot.Ownership

/-! A weak compare-exchange that fails.

The value that was passed is released first, and its destruction may change the
slot. What the slot held at the try is then out of date, and may be the address of
another object by now, or of none. -/

set_option autoImplicit false

namespace SharedCells.Slot

open Machine Dealing

variable {level : Level} {below : Thread} {w : World} {call : Call} {rest : List Instruction}
  {later : List Choice} {slot : SlotId} {seen : Ref}

/-- How a call ends its looks at the slot after its one try has failed, when the slot was seen to hold
`seen` at the try. The world `w` is the one in which the value that was passed is gone. -/
inductive Lapsed (slot : SlotId) (seen : Ref) (rest : List Instruction) (w : World) (call : Call) :
    List Dealing → World → Call → Prop where
  /-- The expected object is in the slot again, or the try has failed for no reason. -/
  | same {w' : World} {events : List Event} (looks : Nat) : looks ≤ 2 →
      (seen = none → call.registers.expected = none) →
      (seen = call.registers.expected ∨ w.word slot = call.registers.expected) →
      (∀ register, w'.objectId (call.registers.get register) =
        w.objectId (call.registers.get register)) →
      Lapsed slot seen rest w call (List.replicate looks .looked) w' { call with code := rest, events }
  /-- The slot was empty at the try. -/
  | emptied {w' : World} {events : List Event} : seen = none → call.registers.expected ≠ none →
      (∀ register, w'.objectId ({ call.registers with expected := none }.get register) =
        w.objectId ({ call.registers with expected := none }.get register)) →
      Lapsed slot seen rest w call (.looked :: releases (w.objectId call.registers.expected)) w'
        { call with code := rest, registers := { call.registers with expected := none }, events }
  /-- What the slot holds now takes the place of the expected object. -/
  | found {w' : World} {events : List Event} (looks : Nat) : looks ≤ 2 → seen ≠ none →
      w.word slot ≠ call.registers.expected →
      (∀ register, w'.objectId ({ call.registers with expected := w.word slot }.get register) =
        w.objectId ({ call.registers with expected := w.word slot }.get register)) →
      Lapsed slot seen rest w call (List.replicate looks .looked ++
          loads (w.objectId (w.word slot)) ++ releases (w.objectId call.registers.expected)) w'
        { call with code := rest, registers := { call.registers with expected := w.word slot }, events }

theorem taken_comes (staged : Staged level below w call)
    (head : call.code = .retain .weak seen :: rest) (holds : call.slot.bind w.word = seen) :
    Comes level below 9 False later (fun _ dealings w' call' =>
      dealings = loads (w.objectId seen) ++ releases (w.objectId call.registers.expected) ∧
      (∃ events, call' = { call with
        code := rest
        registers := { call.registers with expected := seen }
        events }) ∧
      ∀ register, w'.objectId ({ call.registers with expected := seen }.get register) =
        w.objectId ({ call.registers with expected := seen }.get register)) w call := by
  have empty : call.registers.observed = none := staged.tidy.reads head trivial
  have registers : { call.registers with observed := none, expected := seen } =
      { call.registers with expected := seen } := by
    rw [← empty]
  refine Comes.bind (found_comes staged head holds) fun _ _ _ w₁ _ _ found there => ?_
  obtain ⟨rfl, -, same, rfl⟩ := there
  refine (move_comes found.staged rfl).imp ?_
  rintro _ _ w' _ ⟨rfl, ⟨events, rfl⟩, names⟩
  refine ⟨?_, ⟨events, ?_⟩, fun register => ?_⟩
  · exact congrArg _ (congrArg releases (same _))
  · exact congrArg (fun registers => { call with code := rest, registers, events }) registers
  · have names := names register
    rw [same] at names
    rw [← registers]
    exact names

theorem kept_comes {alone : Prop} (staged : Staged level below w call)
    (head : call.code = .revisit seen :: rest) (same : seen = call.registers.expected) :
    Comes level below 1 alone later (fun _ dealings w' call' =>
      dealings = [.looked] ∧ w' = w ∧ call' = { call with code := rest }) w call := by
  exact .gives_way staged head id [] [.looked] (fun _ _ => .revisit_same same) (fun _ => rfl)
    fun _ _ _ ends => .here ends.staged ⟨rfl, rfl, rfl⟩

theorem differs_comes {alone : Prop} (staged : Staged level below w call)
    (head : call.code = .revisit seen :: rest) (differs : seen ≠ call.registers.expected) :
    Comes level below 1 alone later (fun _ dealings w' call' => dealings = [.looked] ∧ w' = w ∧
      call' = { call with code := .retain .weak seen :: rest }) w call := by
  exact .gives_way staged head id [.retain .weak seen] [.looked] (fun _ _ => .revisit_differs differs)
    (fun _ => rfl) fun _ _ _ ends => .here ends.staged ⟨rfl, rfl, rfl⟩

/-- The slot is looked at twice at most. -/
theorem revisit_comes (staged : Staged level below w call) (acts : call.slot = some slot)
    (head : call.code = .revisit seen :: rest) :
    Comes level below 17 False later (fun _ dealings w' call' =>
      Lapsed slot seen rest w call dealings w' call') w call := by
  have word : call.slot.bind w.word = w.word slot := by rw [acts, Option.bind_some]
  by_cases same : seen = call.registers.expected
  · refine (kept_comes staged head same).mono (by omega) id ?_
    rintro _ _ w' _ ⟨rfl, rfl, rfl⟩
    exact .same 1 (by omega) (fun empty => same ▸ empty) (.inl same) fun _ => rfl
  refine Comes.bind (differs_comes staged head same) fun _ _ _ w₁ _ _ looked there => ?_
  obtain ⟨rfl, rfl, rfl⟩ := there
  cases seen with
  | none =>
    -- The slot is not looked at again.
    have empty : call.registers.observed = none := staged.tidy.reads head trivial
    have registers : { call.registers with observed := none, expected := none } =
        { call.registers with expected := none } := by
      rw [← empty]
    refine Comes.within (?_ : Comes level below (2 + 1) False _ _ _ _) (by omega)
    refine Comes.bind (nothing_comes looked.staged rfl) fun _ _ _ w₂ _ _ nothing there => ?_
    obtain ⟨rfl, rfl, rfl⟩ := there
    refine (move_comes nothing.staged rfl).imp ?_
    rintro _ _ w' _ ⟨rfl, ⟨events, rfl⟩, names⟩
    have names : ∀ register,
        w'.objectId ({ call.registers with observed := none, expected := none }.get register) =
          w₂.objectId ({ call.registers with observed := none, expected := none }.get register) := names
    rw [registers] at names
    have ends : Lapsed slot none rest w₂ call _ w' { call with
        code := rest
        registers := { call.registers with expected := none }
        events } := .emptied rfl (Ne.symm same) names
    rw [← registers] at ends
    exact ends
  | some addr =>
    by_cases holds : w₁.word slot = some addr
    · refine Comes.within (?_ : Comes level below 9 False _ _ _ _) (by omega)
      refine (taken_comes looked.staged (by rw [holds]) word).imp ?_
      rintro _ _ w' _ ⟨rfl, ⟨events, rfl⟩, names⟩
      exact .found 1 (by omega) nofun (holds ▸ same) names
    · refine Comes.bind (stale_comes looked.staged rfl fun holds' => holds (word.symm.trans holds'))
        fun _ _ _ w₂ _ _ stale there => ?_
      obtain ⟨rfl, rfl, rfl⟩ := there
      -- What the slot holds now is not out of date.
      have held : call.slot.bind (World.word { w₁ with registry := Registry.sole }) = w₁.word slot := word
      by_cases again : w₁.word slot = call.registers.expected
      · refine (kept_comes stale.staged rfl (held.trans again)).mono (by omega) id ?_
        rintro _ _ w' _ ⟨rfl, rfl, rfl⟩
        exact .same 2 (by omega) nofun (.inr again) fun _ => rfl
      refine Comes.within (?_ : Comes level below (9 + 1) False _ _ _ _) (by omega)
      refine Comes.bind (differs_comes stale.staged rfl fun same => again (held.symm.trans same))
        fun _ _ _ w₂ _ _ twice there => ?_
      obtain ⟨rfl, rfl, rfl⟩ := there
      refine (taken_comes twice.staged (by rw [word]) held).imp ?_
      rintro _ _ w' _ ⟨rfl, ⟨events, rfl⟩, names⟩
      exact .found 2 (by omega) nofun again names

/-- The one try fails, and the value that was passed is about to be released. -/
theorem misses_comes {alone : Prop} (staged : Staged level below w call) (acts : call.slot = some slot)
    (head : call.code = .once (w.word slot) :: rest)
    (differs : w.word slot ≠ call.registers.expected) :
    Comes level below 1 alone later (fun _ dealings w' call' => dealings = [] ∧ w' = w ∧
      call' = { call with code := .release .desired :: .revisit (w.word slot) :: rest }) w call := by
  exact .gives_way staged head id [.release .desired, .revisit (w.word slot)] []
    (fun _ _ => .once_differs acts differs)
    (fun _ => dealings_once_of_fails acts fun won => differs won.1) fun _ _ _ lost =>
      .here lost.staged ⟨rfl, rfl, rfl⟩

end SharedCells.Slot
