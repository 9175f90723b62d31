import SharedCells.Proofs.Slot.Lifetimes
import SharedCells.Proofs.Slot.Solitude

/-! What is there at the end of a run and was there at its beginning.

No object is brought back to life, and no node is taken out of the registry. -/

set_option autoImplicit false

namespace SharedCells

namespace Registry

variable {r : Registry}

theorem nodes_replace (r : Registry) (p : Place) (old new : Mark) :
    (r.replace p old new).2.nodes.length = r.nodes.length := by
  unfold replace
  split
  · exact length_write
  · rfl

theorem Claim.nodes_step (claim : Claim) (addr : Addr) (spurious : Bool) :
    r.nodes.length ≤ (claim.step addr spurious r).2.nodes.length := by
  cases claim with
  | take p =>
    have same := nodes_replace r p .free (.owed addr)
    unfold step
    dsimp only
    split <;> next found => rw [found] at same; exact same.ge
  | link next =>
    unfold step
    dsimp only
    split
    · simp [publish]
    · rfl
  | _ => exact Nat.le_refl _

theorem Settle.nodes_step (settle : Settle) (debt : Debt) :
    (settle.step debt r).2.nodes.length = r.nodes.length := by
  cases settle with
  | withdraw =>
    have same := nodes_replace r debt.place (.owed debt.addr) .free
    unfold step
    dsimp only
    split <;> next found => rw [found] at same; exact same
  | clear => exact length_write
  | _ => rfl

theorem Payment.nodes_step (payment : Payment) (addr : Addr) :
    (payment.step addr r).2.nodes.length = r.nodes.length := by
  cases payment with
  | mark p =>
    have same := nodes_replace r p (.owed addr) .paid
    unfold step
    dsimp only
    split <;> next found => rw [found] at same; exact same
  | _ => rfl

end Registry

namespace Slot

variable {t t' : Turn} {choice : Choice} {inUse : SlotId → Bool} {i : Instruction}

/-- No node is taken out of the registry. -/
theorem Turn.run_nodes (ran : t.run choice inUse i = .ok t') :
    t.world.registry.nodes.length ≤ t'.world.registry.nodes.length := by
  cases goes_of_run ran with
  | handle_copy ran | copy ran | peek_kept _ _ ran | increment ran =>
    exact (congrArg (·.nodes.length) (retainInto_registry ran)).ge
  | claim _ step | recorded _ step =>
    exact (Registry.Claim.nodes_step ..).trans_eq (congrArg (·.2.nodes.length) step)
  | settle _ step | settle_owed _ step | settle_paid _ step | stale _ _ step | stale_owed _ _ step
  | stale_paid _ _ step =>
    exact ((Registry.Settle.nodes_step ..).symm.trans (congrArg (·.2.nodes.length) step)).le
  | pay_mark => exact (Registry.Payment.nodes_step ..).ge
  | _ => exact Nat.le_refl _

variable {w w' : World} {thread thread' : Thread}

theorem Thread.Move.nodes (move : Thread.Move choice inUse w thread w' thread') :
    w.registry.nodes.length ≤ w'.registry.nodes.length := by
  cases move with
  | rest | scope | finish => exact Nat.le_refl _
  | instruction _ _ ran | block _ _ ran => exact Turn.run_nodes ran
  | start => rw [Command.start_registry]
  | close => rw [Level.close_registry]

namespace Machine

variable {m m' m'' : Machine} {schedule : List (Nat × Choice)} {ref : Ref}

/-- An object that is alive at the end of a run has been alive since it was created. -/
structure Lasts (m m' : Machine) : Prop where
  created : m.world.heap.created ≤ m'.world.heap.created
  lives : ∀ id ≤ m.world.heap.created, m'.world.heap.Lives id → m.world.heap.Lives id
  nodes : m.world.registry.nodes.length ≤ m'.world.registry.nodes.length

theorem Lasts.refl (m : Machine) : m.Lasts m := ⟨Nat.le_refl _, fun _ _ => id, Nat.le_refl _⟩

theorem Lasts.trans (first : m.Lasts m') (second : m'.Lasts m'') : m.Lasts m'' where
  created := first.created.trans second.created
  lives id old lives := first.lives id old (second.lives id (old.trans first.created) lives)
  nodes := first.nodes.trans second.nodes

theorem step_lasts {i : Nat} (sound : m.Sound) (ran : m.step i choice = .ok m') : m.Lasts m' := by
  rcases step_cases sound ran with ⟨-, rfl⟩ | ⟨thread, w', thread', found, move, rfl⟩
  · exact .refl m'
  · have turnover := move.turnover (sound.counted.perm (perm_flatMap found Thread.calls)
      (perm_flatMap found Thread.graves)) sound.numbered
    generalize (thread.begun thread').bind (fun addr => w'.objectId (some addr)) = ended at turnover
    cases turnover with
    | still created lives => exact ⟨created.ge, fun id _ => (lives id).mp, move.nodes⟩
    | born created lives =>
      refine ⟨Nat.le_of_succ_le created.ge, fun id old later => ?_, move.nodes⟩
      exact ((lives id).mp later).resolve_left (Nat.ne_of_lt (Nat.lt_succ_of_le old))
    | died _ created _ lives => exact ⟨created.ge, fun id _ later => ((lives id).mp later).1, move.nodes⟩

theorem run_lasts (sound : m.Sound) (ran : m.run schedule = .ok m') : m.Lasts m' := by
  induction schedule generalizing m with
  | nil =>
    obtain rfl := Except.ok.inj ran
    exact .refl m
  | cons turn rest ih =>
    obtain ⟨i, choice⟩ := turn
    obtain ⟨next, stepped⟩ := step_ok sound i choice
    exact (step_lasts sound stepped).trans (ih (step_sound sound stepped) (run_cons stepped ▸ ran))

/-- What lives later is counted now, and is still what the reference has named before. -/
theorem Lasts.stays {i : Nat} (lasts : m'.Lasts m'') (sound : m.Sound)
    (ran : m.step i choice = .ok m') (counts : m.world.Counts ref)
    (lives : ∀ id, m.world.objectId ref = some id → m''.world.heap.Lives id) :
    m'.world.Counts ref ∧ m'.world.objectId ref = m.world.objectId ref := by
  have names := step_objectId sound ran counts
  refine ⟨?_, names⟩
  rintro addr rfl
  obtain ⟨old, -, id⟩ := World.objectId_of_counts counts
  obtain ⟨object, found, same⟩ : ∃ object, m'.world.heap.find? addr = some object ∧ object.id = old.id := by
    rw [id, World.objectId, Option.bind_some] at names
    exact Option.map_eq_some_iff.mp names
  have numbered := (step_sound sound ran).numbered
  obtain ⟨place, other, live, same'⟩ :=
    lasts.lives old.id (same ▸ numbered.le addr object found) (lives old.id id)
  have there := (Heap.live?_eq_some_iff.mp live).1
  obtain rfl := numbered.unique place addr other object there found (same'.trans same.symm)
  exact Heap.count_pos_iff.mpr ⟨other, live⟩

theorem run_stays (sound : m.Sound) (ran : m.run schedule = .ok m') (counts : m.world.Counts ref)
    (lives : ∀ id, m.world.objectId ref = some id → m'.world.heap.Lives id) :
    m'.world.Counts ref ∧ m'.world.objectId ref = m.world.objectId ref := by
  induction schedule generalizing m with
  | nil =>
    obtain rfl := Except.ok.inj ran
    exact ⟨counts, rfl⟩
  | cons turn rest ih =>
    obtain ⟨i, choice⟩ := turn
    obtain ⟨next, stepped⟩ := step_ok sound i choice
    have sound' := step_sound sound stepped
    have ran' := (run_cons stepped).symm.trans ran
    obtain ⟨counts', names⟩ := (run_lasts sound' ran').stays sound stepped counts lives
    obtain ⟨last, same⟩ := ih sound' ran' counts' fun id named => lives id (names ▸ named)
    exact ⟨last, same.trans names⟩

end Machine

end Slot

end SharedCells
