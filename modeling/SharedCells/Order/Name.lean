import SharedCells.Order
import SharedCells.Text.Blank

/-! Names of memory orders: canonical text, the accepted spellings, and the errors of reading.

An order is read from its name in any ASCII case, padded by blanks. The load
and the store reader read a full order and then narrow it, so that all three
agree on what is a name. -/

set_option autoImplicit false

namespace SharedCells

namespace Order

def name : Order → String
  | relaxed => "relaxed"
  | consume => "consume"
  | acquire => "acquire"
  | release => "release"
  | acqRel => "acqrel"
  | seqCst => "seqcst"

/-- The name as a heading: capitals begin its words. -/
def title : Order → String
  | relaxed => "Relaxed"
  | consume => "Consume"
  | acquire => "Acquire"
  | release => "Release"
  | acqRel => "AcqRel"
  | seqCst => "SeqCst"

def all : List Order := [relaxed, consume, acquire, release, acqRel, seqCst]

example (order : Order) : order.title.toLower = order.name := by cases order <;> decide +kernel
example (order : Order) : order ∈ all := by cases order <;> decide

/-- Every accepted spelling in small letters; two orders may be written in two words. -/
def spellings : List (String × Order) :=
  [("relaxed", relaxed), ("consume", consume), ("acquire", acquire), ("release", release),
    ("acqrel", acqRel), ("acq_rel", acqRel), ("seqcst", seqCst), ("seq_cst", seqCst)]

example (order : Order) : (order.name, order) ∈ spellings := by cases order <;> decide
example : (spellings.map (·.1)).Nodup := by decide

/-- Why a text or an order was refused. -/
inductive ReadError where
  | unknown (text : String)
  | notForLoads (order : Order)
  | notForStores (order : Order)
  deriving DecidableEq, Repr

def ReadError.message : ReadError → String
  | unknown text => "unknown memory order `" ++ text ++ "`"
  | notForLoads order => "memory order `" ++ order.name ++ "` is not valid for a load"
  | notForStores order => "memory order `" ++ order.name ++ "` is not valid for a store"

/-- The order a text names. `Char.toLower` changes ASCII capitals only. -/
def read (text : String) : Except ReadError Order :=
  match spellings.lookup (String.ofList ((Text.trim text.toList).map Char.toLower)) with
  | some order => .ok order
  | none => .error (.unknown text)

def Misorder.message (bad : Misorder) : String :=
  "CAS failure order `" ++ bad.failure.toOrder.name ++ "` is stronger than success order `" ++
    bad.success.name ++ "`"

end Order

namespace LoadOrder

def name (order : LoadOrder) : String := order.toOrder.name

def title (order : LoadOrder) : String := order.toOrder.title

def ofOrder (order : Order) : Except Order.ReadError LoadOrder :=
  match ofOrder? order with
  | some load => .ok load
  | none => .error (.notForLoads order)

def read (text : String) : Except Order.ReadError LoadOrder := do
  ofOrder (← Order.read text)

end LoadOrder

namespace StoreOrder

def name (order : StoreOrder) : String := order.toOrder.name

def title (order : StoreOrder) : String := order.toOrder.title

def ofOrder (order : Order) : Except Order.ReadError StoreOrder :=
  match ofOrder? order with
  | some store => .ok store
  | none => .error (.notForStores order)

def read (text : String) : Except Order.ReadError StoreOrder := do
  ofOrder (← Order.read text)

end StoreOrder

end SharedCells
