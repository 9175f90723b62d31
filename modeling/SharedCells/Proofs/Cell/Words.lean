import Mathlib.Algebra.BigOperators.Group.List.Basic
import Mathlib.Data.Int.ModEq
import SharedCells.Cell.Scalar
import SharedCells.Proofs.Cell.Images

/-! Signed and unsigned numbers are two readings of the same words.

Every operation on integers is one on their bits, whatever the sign of their type. So a cell of
signed numbers runs as one of unsigned numbers of the same width does, each number being read as the
other one with the same bits. -/

set_option autoImplicit false

namespace SharedCells

/-- The number with the same bits, of the type of this width that is signed or not. -/
def Width.recast (w : Width) (s s' : Bool) (x : Int) : Int :=
  (IntType.mk s' w).ofBits ((IntType.mk s w).toBits x)

namespace IntType

variable {w : Width} {s s' : Bool} {t : IntType} {x y : Int}

/-- The numbers of a type. -/
abbrev range (t : IntType) : Set Int := {x | t.Contains x}

theorem modulus_eq (t : IntType) : t.modulus = 2 ^ t.bits := by
  unfold modulus bits
  cases t.width <;> decide

theorem two_dvd_modulus (t : IntType) : 2 ∣ t.modulus := by
  unfold modulus
  cases t.width <;> decide

theorem contains_ofBits (v : BitVec t.bits) : t.Contains (t.ofBits v) := by
  have even := two_dvd_modulus t
  unfold Contains least greatest ofBits
  split
  · have low := BitVec.le_two_mul_toInt (x := v)
    have high := BitVec.two_mul_toInt_lt (x := v)
    have size : (t.modulus : Int) = 2 ^ t.bits := mod_cast modulus_eq t
    omega
  · have high := v.isLt
    rw [← modulus_eq] at high
    omega

theorem wrap_of_contains (inside : t.Contains x) : t.wrap x = x := by
  have even := two_dvd_modulus t
  unfold Contains least greatest at inside
  unfold wrap
  split
  · next signed =>
    rw [if_pos signed, if_pos signed] at inside
    exact Int.bmod_eq_of_le (by omega) (by omega)
  · next unsigned =>
    rw [if_neg unsigned, if_neg unsigned] at inside
    exact Int.emod_eq_of_lt (by omega) (by omega)

theorem ofBits_toBits_of_contains (inside : t.Contains x) : t.ofBits (t.toBits x) = x := by
  rw [ofBits_toBits, wrap_of_contains inside]

theorem toBits_ofBits (v : BitVec w.bits) : (mk s w).toBits ((mk s' w).ofBits v) = v := by
  unfold toBits ofBits
  cases s' with
  | true => exact BitVec.ofInt_toInt
  | false =>
    have natural : BitVec.ofInt w.bits v.toNat = v := by
      rw [BitVec.ofInt_natCast, BitVec.ofNat_toNat, BitVec.setWidth_eq]
    exact natural

end IntType

namespace Width

variable {w : Width} {s s' : Bool} {x y : Int}

theorem toBits_recast (x : Int) :
    (IntType.mk s' w).toBits (w.recast s s' x) = (IntType.mk s w).toBits x :=
  IntType.toBits_ofBits _

theorem contains_recast (x : Int) : (IntType.mk s' w).Contains (w.recast s s' x) :=
  IntType.contains_ofBits _

theorem recast_recast (s' : Bool) (inside : (IntType.mk s w).Contains x) :
    w.recast s' s (w.recast s s' x) = x := by
  rw [recast, toBits_recast]
  exact IntType.ofBits_toBits_of_contains inside

/-- What is computed from the bits is computed from those of the other number. -/
theorem recast_ofBits (v : BitVec w.bits) :
    w.recast s s' ((IntType.mk s w).ofBits v) = (IntType.mk s' w).ofBits v := by
  rw [recast, IntType.toBits_ofBits]

theorem recast_injOn (w : Width) (s s' : Bool) :
    (IntType.range ⟨s, w⟩).InjOn (w.recast s s') := by
  intro x inside y inside' same
  rw [← recast_recast s' inside, same, recast_recast s' inside']

end Width

/-- The operation on bits. -/
def IntOperation.onBits {n : Nat} : IntOperation → BitVec n → BitVec n → BitVec n
  | add => (· + ·)
  | sub => (· - ·)
  | and => (· &&& ·)
  | or => (· ||| ·)
  | xor => (· ^^^ ·)

theorem IntOperation.apply_eq (t : IntType) (operation : IntOperation) (x y : Int) :
    operation.apply t x y = t.ofBits (operation.onBits (t.toBits x) (t.toBits y)) := by
  cases operation with
  | add =>
    simp only [apply, IntType.add, ← IntType.ofBits_toBits, onBits, IntType.toBits, BitVec.ofInt_add]
  | sub =>
    simp only [apply, IntType.sub, ← IntType.ofBits_toBits, onBits, IntType.toBits,
      Int.sub_eq_add_neg, BitVec.ofInt_add, BitVec.ofInt_neg, BitVec.sub_eq_add_neg]
  | and | or | xor => rfl

/-! Programs of integers that are read as those of the other type. -/

def IntUpdate.map (f : Int → Int) : IntUpdate → IntUpdate
  | add k => add (f k)
  | mul k => mul (f k)
  | set k => set (f k)
  | complement => complement
  | same => same

/-- All its numbers are of the type. -/
def IntUpdate.Within (t : IntType) : IntUpdate → Prop
  | add k | mul k | set k => t.Contains k
  | complement | same => True

instance (t : IntType) : DecidablePred (IntUpdate.Within t)
  | .add k | .mul k | .set k => inferInstanceAs (Decidable (t.Contains k))
  | .complement | .same => inferInstanceAs (Decidable True)

def IntAction.map (f : Int → Int) : IntAction → IntAction
  | load => load
  | store v => store (f v)
  | exchange v => exchange (f v)
  | compareExchange strength expected desired success failure =>
    compareExchange strength (f expected) (f desired) success failure
  | compareAndExchange strength expected desired success failure =>
    compareAndExchange strength (f expected) (f desired) success failure
  | fetch operation operand => fetch operation (f operand)
  | update g stores => update (g.map f) (stores.map f)
  | describe layout => describe layout

/-- All its numbers are of the type, and it does not ask for the text of the cell, which names the
type. -/
def IntAction.Within (t : IntType) : IntAction → Prop
  | load => True
  | store v | exchange v => t.Contains v
  | compareExchange _ expected desired _ _ | compareAndExchange _ expected desired _ _ =>
    t.Contains expected ∧ t.Contains desired
  | fetch _ operand => t.Contains operand
  | update g stores => g.Within t ∧ ∀ v ∈ stores, t.Contains v
  | describe _ => False

instance (t : IntType) : DecidablePred (IntAction.Within t)
  | .load => inferInstanceAs (Decidable True)
  | .store v | .exchange v | .fetch _ v => inferInstanceAs (Decidable (t.Contains v))
  | .compareExchange _ expected desired _ _ | .compareAndExchange _ expected desired _ _ =>
    inferInstanceAs (Decidable (t.Contains expected ∧ t.Contains desired))
  | .update g stores => inferInstanceAs (Decidable (g.Within t ∧ ∀ v ∈ stores, t.Contains v))
  | .describe _ => inferInstanceAs (Decidable False)

/-- What the action adds to the number in the cell, if it only adds or subtracts. -/
def IntAction.gain? : IntAction → Option Int
  | fetch .add operand => some operand
  | fetch .sub operand => some (-operand)
  | _ => none

/-- An action with its tries that fail for no reason, and for how many of these an update has calls of
its function to spare. -/
structure IntTrial where
  action : IntAction
  spurious : Nat → Bool
  spare : Nat

namespace IntTrial

def steady (action : IntAction) : IntTrial := ⟨action, fun _ => false, 0⟩

def map (f : Int → Int) (trial : IntTrial) : IntTrial := { trial with action := trial.action.map f }

def toTrial (t : IntType) (trial : IntTrial) : Trial Int :=
  match trial.action with
  | .update g stores =>
    ⟨.update (.interfering (g.apply t) stores) (stores.length + 1 + trial.spare), trial.spurious⟩
  | action => ⟨action.toAction t, trial.spurious⟩

theorem toTrial_steady (t : IntType) (action : IntAction) :
    (steady action).toTrial t = .steady (action.toAction t) := by
  cases action <;> rfl

end IntTrial

section Reading

variable {w : Width} {s s' : Bool} {x : Int}

theorem IntOperation.apply_recast (operation : IntOperation) (x y : Int) :
    operation.apply ⟨s', w⟩ (w.recast s s' x) (w.recast s s' y) =
      w.recast s s' (operation.apply ⟨s, w⟩ x y) := by
  rw [apply_eq, apply_eq, Width.toBits_recast, Width.toBits_recast]
  exact (Width.recast_ofBits _).symm

theorem IntUpdate.apply_recast (update : IntUpdate) (x : Int) :
    (update.map (w.recast s s')).apply ⟨s', w⟩ (w.recast s s' x) =
      w.recast s s' (update.apply ⟨s, w⟩ x) := by
  cases update with
  | add k => exact IntOperation.add.apply_recast x k
  | mul k =>
    have product (t : IntType) (x y : Int) : t.mul x y = t.ofBits (t.toBits x * t.toBits y) := by
      simp only [IntType.mul, ← IntType.ofBits_toBits, IntType.toBits, BitVec.ofInt_mul]
    simp only [map, apply, product, Width.toBits_recast]
    exact (Width.recast_ofBits _).symm
  | complement =>
    simp only [map, apply, IntType.complement, Width.toBits_recast]
    exact (Width.recast_ofBits _).symm
  | set k | same => rfl

theorem IntUpdate.contains_apply {t : IntType} {update : IntUpdate} (within : update.Within t)
    (inside : t.Contains x) : t.Contains (update.apply t x) := by
  cases update with
  | add k | mul k =>
    simp only [apply, IntType.add, IntType.mul, ← IntType.ofBits_toBits]
    exact IntType.contains_ofBits _
  | set k => exact within
  | complement => exact IntType.contains_ofBits _
  | same => exact inside

theorem IntTrial.carried {trial : IntTrial} (within : trial.action.Within ⟨s, w⟩) :
    Trial.Carried (w.recast s s') (IntType.range ⟨s, w⟩) (trial.toTrial ⟨s, w⟩)
      ((trial.map (w.recast s s')).toTrial ⟨s', w⟩) := by
  obtain ⟨action, spurious, spare⟩ := trial
  refine ⟨?_, by cases action <;> rfl⟩
  cases action with
  | load => exact .load
  | store => exact .store within
  | exchange => exact .exchange within
  | compareExchange => exact .compareExchange within.1 within.2
  | compareAndExchange => exact .compareAndExchange within.1 within.2
  | fetch operation operand =>
    refine .modify fun v inside => ⟨?_, operation.apply_recast v operand⟩
    exact IntOperation.apply_eq ⟨s, w⟩ operation v operand ▸ IntType.contains_ofBits _
  | update g stores =>
    have calls : ∀ v ∈ IntType.range ⟨s, w⟩, g.apply ⟨s, w⟩ v ∈ IntType.range ⟨s, w⟩ ∧
        (g.map (w.recast s s')).apply ⟨s', w⟩ (w.recast s s' v) = w.recast s s' (g.apply ⟨s, w⟩ v) :=
      fun v inside => ⟨IntUpdate.contains_apply within.1 inside, g.apply_recast v⟩
    have carried := Closure.carried_interfering calls within.2
    simp only [toTrial, map, IntAction.map, List.length_map]
    exact .update carried
  | describe => exact within.elim

theorem IntTrial.runAll_recast (s' : Bool) (inside : (IntType.mk s w).Contains x)
    (trials : List IntTrial) (within : ∀ trial ∈ trials, trial.action.Within ⟨s, w⟩) :
    let run := Trial.runAll (.plain Int) x (trials.map (toTrial ⟨s, w⟩))
    Trial.runAll (.plain Int) (w.recast s s' x)
        (trials.map fun trial => (trial.map (w.recast s s')).toTrial ⟨s', w⟩) =
          (run.1.map (Action.Line.map (w.recast s s')), w.recast s s' run.2) ∧
      (∀ line ∈ run.1, ∀ v ∈ line.values, (IntType.mk s w).Contains v) ∧
      (IntType.mk s w).Contains run.2 := by
  refine Trial.runAll_carried (w.recast_injOn s s') inside ?_
  rw [List.forall₂_map_left_iff, List.forall₂_map_right_iff, List.forall₂_same]
  exact fun trial member => carried (within trial member)

theorem IntAction.runAll_recast (s' : Bool) (inside : (IntType.mk s w).Contains x)
    {actions : List IntAction} (within : ∀ action ∈ actions, action.Within ⟨s, w⟩) :
    let run := Action.runAll (.plain Int) x (actions.map (toAction ⟨s, w⟩))
    Action.runAll (.plain Int) (w.recast s s' x)
        (actions.map fun action => (action.map (w.recast s s')).toAction ⟨s', w⟩) =
          (run.1.map (Action.Line.map (w.recast s s')), w.recast s s' run.2) ∧
      (∀ line ∈ run.1, ∀ v ∈ line.values, (IntType.mk s w).Contains v) ∧
      (IntType.mk s w).Contains run.2 := by
  have steady := IntTrial.runAll_recast s' inside (actions.map .steady) (by
    intro trial member
    obtain ⟨action, there, rfl⟩ := List.mem_map.mp member
    exact within action there)
  have own (t : IntType) : ∀ list : List IntAction,
      (list.map IntTrial.steady).map (IntTrial.toTrial t) = (list.map (toAction t)).map .steady := by
    intro list
    rw [List.map_map, List.map_map]
    exact List.map_congr_left fun action _ => IntTrial.toTrial_steady t action
  have images : ((actions.map IntTrial.steady).map fun trial =>
      (trial.map (w.recast s s')).toTrial ⟨s', w⟩) =
      (actions.map fun action => (action.map (w.recast s s')).toAction ⟨s', w⟩).map .steady := by
    rw [List.map_map, List.map_map]
    exact List.map_congr_left fun action _ =>
      IntTrial.toTrial_steady ⟨s', w⟩ (action.map (w.recast s s'))
  simpa only [own, images, Trial.runAll_steady] using steady

end Reading

section Sums

variable {t : IntType} {x y : Int}

theorem IntType.wrap_modEq (t : IntType) (x : Int) : t.wrap x ≡ x [ZMOD 2 ^ t.bits] := by
  have size : (2 : Int) ^ t.bits = t.modulus := mod_cast (modulus_eq t).symm
  rw [size, Int.ModEq]
  unfold wrap
  split
  · exact Int.bmod_emod
  · exact Int.emod_emod_of_dvd x (Int.dvd_refl _)

/-- A type has one number of each residue. -/
theorem IntType.eq_of_modEq (inside : t.Contains x) (inside' : t.Contains y)
    (same : x ≡ y [ZMOD 2 ^ t.bits]) : x = y := by
  have bits : t.toBits x = t.toBits y := by
    apply BitVec.eq_of_toNat_eq
    rw [toBits, toBits, BitVec.toNat_ofInt, BitVec.toNat_ofInt]
    congr 1
  rw [← ofBits_toBits_of_contains inside, bits, ofBits_toBits_of_contains inside']

theorem IntAction.run_of_gain {action : IntAction} {gain : Int} (gains : action.gain? = some gain)
    (x : Int) : ((action.toAction t).run (.plain Int) x).2 = t.wrap (x + gain) := by
  unfold gain? at gains
  split at gains
  · obtain rfl := Option.some.inj gains
    rfl
  · obtain rfl := Option.some.inj gains
    rfl
  · contradiction

theorem IntAction.final_modEq {actions : List IntAction} (x : Int)
    (sums : ∀ action ∈ actions, action.gain?.isSome) :
    (Action.runAll (.plain Int) x (actions.map (toAction t))).2 ≡
      x + (actions.filterMap gain?).sum [ZMOD 2 ^ t.bits] := by
  induction actions generalizing x with
  | nil => simp [Action.runAll]
  | cons action rest ih =>
    obtain ⟨first, others⟩ := List.forall_mem_cons.mp sums
    obtain ⟨gain, gains⟩ := Option.isSome_iff_exists.mp first
    rw [List.map_cons, List.filterMap_cons_some gains, List.sum_cons, ← Int.add_assoc]
    simp only [Action.runAll, run_of_gain gains]
    exact (ih (t.wrap (x + gain)) others).trans ((t.wrap_modEq _).add_right _)

/-- The order of additions and subtractions does not matter. -/
theorem IntAction.final_of_perm {actions others : List IntAction} (inside : t.Contains x)
    (within : ∀ action ∈ actions, action.Within t) (sums : ∀ action ∈ actions, action.gain?.isSome)
    (perm : others.Perm actions) :
    (Action.runAll (.plain Int) x (others.map (toAction t))).2 =
      (Action.runAll (.plain Int) x (actions.map (toAction t))).2 := by
  have within' : ∀ action ∈ others, action.Within t := fun a member => within a (perm.mem_iff.mp member)
  have sums' : ∀ action ∈ others, action.gain?.isSome := fun a member => sums a (perm.mem_iff.mp member)
  have total : (others.filterMap gain?).sum = (actions.filterMap gain?).sum :=
    (perm.filterMap gain?).sum_eq
  refine IntType.eq_of_modEq (runAll_recast t.signed inside within').2.2
    (runAll_recast t.signed inside within).2.2 ?_
  exact ((final_modEq x sums').trans (total ▸ Int.ModEq.refl _)).trans (final_modEq x sums).symm

end Sums

/-- A cell of numbers with or without signs answers as one of the other type of its width does, and
keeps the same bits: each number in its run is the other type's number with these bits, whatever the
operations are and whichever weak exchanges fail for no reason. All numbers in a run are of the type
of the cell. Additions and subtractions add up, modulo the count of numbers, in whatever order they
come. -/
theorem signs_are_readings (w : Width) (s s' : Bool) :
    let t : IntType := ⟨s, w⟩
    let t' : IntType := ⟨s', w⟩
    let other := w.recast s s'
    (∀ x, t.Contains x → t'.Contains (other x) ∧ w.recast s' s (other x) = x) ∧
      (∀ x, t.Contains x → ∀ trials : List IntTrial, (∀ trial ∈ trials, trial.action.Within t) →
        let run := Trial.runAll (.plain Int) x (trials.map (IntTrial.toTrial t))
        Trial.runAll (.plain Int) (other x)
            (trials.map fun trial => (trial.map other).toTrial t') =
              (run.1.map (Action.Line.map other), other run.2) ∧
          (∀ line ∈ run.1, ∀ v ∈ line.values, t.Contains v) ∧ t.Contains run.2) ∧
      ∀ x, t.Contains x → ∀ actions : List IntAction, (∀ action ∈ actions, action.Within t) →
        let run := Action.runAll (.plain Int) x (actions.map (IntAction.toAction t))
        Action.runAll (.plain Int) (other x)
            (actions.map fun action => (action.map other).toAction t') =
              (run.1.map (Action.Line.map other), other run.2) ∧
          (∀ line ∈ run.1, ∀ v ∈ line.values, t.Contains v) ∧
          ((∀ action ∈ actions, action.gain?.isSome) →
            run.2 ≡ x + (actions.filterMap IntAction.gain?).sum [ZMOD 2 ^ w.bits] ∧
              ∀ others : List IntAction, others.Perm actions →
                (Action.runAll (.plain Int) x (others.map (IntAction.toAction t))).2 = run.2) := by
  intro t t' other
  refine ⟨fun x inside => ⟨Width.contains_recast x, Width.recast_recast s' inside⟩,
    fun x inside trials within => IntTrial.runAll_recast s' inside trials within,
    fun x inside actions within => ?_⟩
  obtain ⟨image, values, -⟩ := IntAction.runAll_recast s' inside within
  exact ⟨image, values, fun sums => ⟨IntAction.final_modEq x sums,
    fun others perm => IntAction.final_of_perm inside within sums perm⟩⟩

/-- The first sum wraps with signs and without. The weak exchange fails once for no reason, and the
product is taken of what is then a negative number. -/
theorem signs_are_readings_wrapping :
    let w := Width.w8
    let t : IntType := ⟨false, w⟩
    let t' : IntType := ⟨true, w⟩
    let other := w.recast false true
    let trials : List IntTrial := [.steady (.fetch .add 200),
      ⟨.compareExchange .weak 144 1 .seqCst none, fun _ => true, 0⟩, .steady (.update (.mul 253) [7]),
      .steady (.compareAndExchange .strong 235 128 .acqRel none), .steady (.fetch .xor 255)]
    let sums : List IntAction := [.fetch .add 200, .fetch .sub 100, .fetch .add 255]
    let run := Trial.runAll (.plain Int) 200 (trials.map (IntTrial.toTrial t))
    t.Contains 200 ∧ (∀ trial ∈ trials, trial.action.Within t) ∧
      other 200 = -56 ∧ other 144 = -112 ∧ run.2 = 127 ∧
      Trial.runAll (.plain Int) (other 200) (trials.map fun trial => (trial.map other).toTrial t') =
        (run.1.map (Action.Line.map other), other run.2) ∧
      (Action.runAll (.plain Int) 200 (sums.map (IntAction.toAction t))).2 ≡
        200 + (200 + (-100 + (255 + 0))) [ZMOD 2 ^ 8] := by
  intro w t t' other trials sums run
  have inside : t.Contains 200 := by decide
  have within : ∀ trial ∈ trials, trial.action.Within t := by decide
  obtain ⟨-, tried, ran⟩ := signs_are_readings w false true
  have added := (ran 200 inside sums (by decide)).2.2 (by decide)
  exact ⟨inside, within, by decide, by decide, by decide, (tried 200 inside trials within).1, added.1⟩

end SharedCells
