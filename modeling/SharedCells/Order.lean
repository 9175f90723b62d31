/-! Memory orders of loads, of stores and of read-modify-writes.

`Order` is the full scale. A load admits four of the orders and a store three;
`toOrder` widens them and `ofOrder?` narrows back. A compare-exchange carries
one order for success and one for failure, and the second may not outrank the
first. -/

set_option autoImplicit false

namespace SharedCells

inductive Order where
  | relaxed | consume | acquire | release | acqRel | seqCst
  deriving DecidableEq, Repr, Inhabited

inductive LoadOrder where
  | relaxed | consume | acquire | seqCst
  deriving DecidableEq, Repr

inductive StoreOrder where
  | relaxed | release | seqCst
  deriving DecidableEq, Repr

namespace LoadOrder

def toOrder : LoadOrder → Order
  | relaxed => .relaxed
  | consume => .consume
  | acquire => .acquire
  | seqCst => .seqCst

def ofOrder? : Order → Option LoadOrder
  | .relaxed => some relaxed
  | .consume => some consume
  | .acquire => some acquire
  | .seqCst => some seqCst
  | .release | .acqRel => none

theorem ofOrder?_eq_some_iff {order : Order} {load : LoadOrder} :
    ofOrder? order = some load ↔ order = load.toOrder := by
  cases order <;> cases load <;> decide

/-- The weakest load order that acquires and is at least as strong. -/
def withAcquire : LoadOrder → LoadOrder
  | seqCst => seqCst
  | _ => acquire

/-- The order of a load that names none. -/
def standard : LoadOrder := seqCst

end LoadOrder

namespace StoreOrder

def toOrder : StoreOrder → Order
  | relaxed => .relaxed
  | release => .release
  | seqCst => .seqCst

def ofOrder? : Order → Option StoreOrder
  | .relaxed => some relaxed
  | .release => some release
  | .seqCst => some seqCst
  | .consume | .acquire | .acqRel => none

theorem ofOrder?_eq_some_iff {order : Order} {store : StoreOrder} :
    ofOrder? order = some store ↔ order = store.toOrder := by
  cases order <;> cases store <;> decide

/-- The order of a store that names none. -/
def standard : StoreOrder := seqCst

end StoreOrder

namespace Order

/-- Position on the scale on which a failure order must not exceed the success order. -/
def rank : Order → Nat
  | relaxed => 0
  | consume => 1
  | acquire => 2
  | release => 3
  | acqRel => 4
  | seqCst => 5

theorem rank_injective {a b : Order} (h : a.rank = b.rank) : a = b := by
  cases a <;> cases b <;> first | rfl | exact absurd h (by decide)

instance : Ord Order := ⟨fun a b => compare a.rank b.rank⟩

/-- The larger by rank, and the second of two equal ones. -/
def strongest (a b : Order) : Order := if b.rank < a.rank then a else b

/-- The smaller by rank, and the first of two equal ones. -/
def weakest (a b : Order) : Order := if b.rank < a.rank then b else a

/-- The order of a read-modify-write that names none. -/
def standard : Order := seqCst

/-- The strongest load order no stronger than this one; releasing says nothing about loads. -/
def strongestLoad : Order → LoadOrder
  | relaxed | release => .relaxed
  | consume => .consume
  | acquire | acqRel => .acquire
  | seqCst => .seqCst

theorem rank_strongestLoad (order : Order) : order.strongestLoad.toOrder.rank ≤ order.rank := by
  cases order <;> decide

def withAcquire : Order → Order
  | relaxed | consume | acquire => acquire
  | release | acqRel => acqRel
  | seqCst => seqCst

def withRelease : Order → Order
  | relaxed | release => release
  | consume | acquire | acqRel => acqRel
  | seqCst => seqCst

/-- Every exchange that publishes a reference both acquires and releases. -/
def publishing (order : Order) : Order := order.withAcquire.withRelease

/-- The order a machine without dependency tracking runs: consuming is done by acquiring. -/
def executed : Order → Order
  | consume => acquire
  | order => order

/-- A failure order that outranks the success order of its compare-exchange. -/
structure Misorder where
  success : Order
  failure : LoadOrder
  deriving DecidableEq, Repr

/-- The failure order of a compare-exchange: the one given if it does not outrank `success`, and
the strongest that `success` admits if none is given. -/
def failureOrder (success : Order) (given : Option LoadOrder) : Except Misorder LoadOrder :=
  let failure := given.getD success.strongestLoad
  if failure.toOrder.rank ≤ success.rank then .ok failure else .error ⟨success, failure⟩

theorem failureOrder_none (success : Order) :
    failureOrder success none = .ok success.strongestLoad := by
  simp [failureOrder, rank_strongestLoad]

theorem failureOrder_some_eq_error_iff {success : Order} {failure : LoadOrder} :
    failureOrder success (some failure) = .error ⟨success, failure⟩ ↔
      success.rank < failure.toOrder.rank := by
  simp only [failureOrder, Option.getD_some]
  split <;> simp <;> omega

end Order

end SharedCells
