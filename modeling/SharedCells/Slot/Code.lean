import SharedCells.Slot.State

/-! The instructions of each operation.

A compare-exchange with inadmissible orders is refused before it touches its
slot; the values that were passed to it are dropped all the same. -/

set_option autoImplicit false

namespace SharedCells.Slot

/-- Puts a register's reference into a handle, or drops it if no handle is to have it. -/
def deliver (into : Option String) (source : Register) : List Instruction :=
  match into with
  | some handle => [.putHandle handle source]
  | none => [.release source]

def purposeOf : Strength → Purpose
  | .strong => .strong
  | .weak => .weak

/-- Exchanges the desired value for the expected one if the orders admit it. -/
def exchangeCode (strength : Strength) (success : Order) (failure : Option LoadOrder)
    (accepted refused : List Instruction) : List Instruction :=
  match Order.failureOrder success failure with
  | .ok _ => .read (purposeOf strength) :: accepted
  | .error bad => .note (.misordered bad) :: .release .desired :: refused

theorem exchangeCode_cases (strength : Strength) (success : Order) (failure : Option LoadOrder)
    (accepted refused : List Instruction) :
    exchangeCode strength success failure accepted refused =
        .read (purposeOf strength) :: accepted ∨
      ∃ bad, exchangeCode strength success failure accepted refused =
        .note (.misordered bad) :: .release .desired :: refused := by
  unfold exchangeCode
  split
  · exact .inl rfl
  · exact .inr ⟨_, rfl⟩

def Operation.code : Operation → List Instruction
  | set handle v => [.evaluate v .desired, .note (.object .desired), .putHandle handle .desired]
  | create slot v required =>
    .evaluate v .desired :: (if required then [.require] else []) ++
      [.createSlot slot, .swap, .release .observed]
  | drop _ | clear _ => [.swap, .release .observed]
  | intoInner _ into | take _ into =>
    .swap :: .note (.object .observed) :: deliver into .observed
  | load _ into => .read .load :: .note (.object .observed) :: deliver into .observed
  | store _ v => [.evaluate v .desired, .swap, .release .observed]
  | exchange _ v into =>
    .evaluate v .desired :: .swap :: .note (.object .observed) :: deliver into .observed
  | isEmpty _ => [.inspect]
  | compareExchange strength _ expected desired success failure =>
    .evaluate (.take expected) .expected :: .evaluate desired .desired ::
      exchangeCode strength success failure
        [.note .compared, .putHandle expected .expected] [.putHandle expected .expected]
  | compareAndExchange strength _ expected desired success failure into =>
    .evaluate expected .expected :: .evaluate desired .desired ::
      exchangeCode strength success failure
        (.note (.object .expected) :: deliver into .expected) [.release .expected]
  | update _ offers meanwhile into =>
    [.read .load, .move .observed .expected, .consult ⟨offers, meanwhile, into⟩ 0]
  | clone _ target =>
    [.read .load, .move .observed .desired, .createSlot target, .swap, .release .observed]
  | describe _ spread => [.read .load, .note (.described spread), .release .observed]
  | peek _ into =>
    .peek into.isSome :: (into.toList.map fun handle => .putHandle handle .observed)
  | dropAll => [.dropNext]

/-- The slot that must exist for the operation, if it needs one. -/
def Operation.slot? : Operation → Option String
  | set _ _ | create _ _ _ | dropAll => none
  | drop slot | intoInner slot _ | load slot _ | store slot _ | exchange slot _ _ | take slot _
  | clear slot | isEmpty slot | compareExchange _ slot _ _ _ _
  | compareAndExchange _ slot _ _ _ _ _ | update slot _ _ _ | clone slot _ | describe slot _
  | peek slot _ => some slot

/-- The slot that may not be in use, because the operation removes or replaces it. -/
def Operation.removes? : Operation → Option String
  | create slot _ _ | drop slot | intoInner slot _ | clone _ slot => some slot
  | _ => none

/-- Whether the operation takes the name away from its slot before anything else. -/
def Operation.unbinds : Operation → Bool
  | drop _ | intoInner _ _ => true
  | _ => false

end SharedCells.Slot
