import SharedCells.Cell

/-! Commands over reference slots and handles.

A slot holds an object or nothing, and so does a handle; both have names. An
object carries the commands that its destruction runs. A command names the
values it passes, and may carry a block that runs in the middle of its first
retaining read. -/

set_option autoImplicit false

namespace SharedCells.Slot

mutual

/-- Where a value that is passed comes from. -/
inductive Value where
  | nothing
  /-- One more reference to what the handle holds. -/
  | copy (handle : String)
  /-- What the handle holds; it holds nothing afterwards. -/
  | take (handle : String)
  | fresh (onDrop : List Command)

/-- What a call of an updating function returns. -/
inductive Offer where
  | same
  | value (v : Value)

inductive Operation where
  | set (handle : String) (v : Value)
  /-- A slot that must hold something is not created from nothing. -/
  | create (slot : String) (v : Value) (required : Bool)
  | drop (slot : String)
  /-- Drops the slot and keeps what it held. -/
  | intoInner (slot : String) (into : Option String)
  | load (slot : String) (into : Option String)
  | store (slot : String) (v : Value)
  | exchange (slot : String) (v : Value) (into : Option String)
  | take (slot : String) (into : Option String)
  | clear (slot : String)
  | isEmpty (slot : String)
  /-- The expected object is taken from a handle, and put back there afterwards. -/
  | compareExchange (strength : Strength) (slot expected : String) (desired : Value)
      (success : Order) (failure : Option LoadOrder)
  | compareAndExchange (strength : Strength) (slot : String) (expected desired : Value)
      (success : Order) (failure : Option LoadOrder) (into : Option String)
  /-- The lists say what the calls of the function return, the last for all further calls, and
  what they run before. -/
  | update (slot : String) (offers : List Offer) (meanwhile : List (Option (List Command)))
      (into : Option String)
  | clone (slot target : String)
  | describe (slot : String) (spread : Bool)
  /-- Looks at the object without taking a reference. -/
  | peek (slot : String) (into : Option String)
  /-- Drops every slot that is not in use and then every handle, in the order of their names. -/
  | dropAll

inductive Command where
  | mk (operation : Operation) (during : Option (List Command))

end

end SharedCells.Slot
