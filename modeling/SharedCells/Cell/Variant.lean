import SharedCells.Cell.Program
import SharedCells.Layout

/-! Cells of named variants, each kept as a raw value.

Variants may share a raw value, and a broken one is never read back; the
encoding is lawful exactly when neither happens. -/

set_option autoImplicit false

namespace SharedCells

structure Variant (ρ : Type) where
  name : String
  raw : ρ
  broken : Bool
  deriving DecidableEq, Repr

namespace Variant

variable {ρ : Type}

/-- A variant of a table, by position. -/
abbrev Index (table : List (Variant ρ)) := Fin table.length

/-- Decoding finds the first unbroken variant with the raw value. -/
def encoding [DecidableEq ρ] (table : List (Variant ρ)) : Encoding ρ (Index table) where
  encode i := table[i].raw
  decode raw := table.findFinIdx? fun v => !v.broken && decide (v.raw = raw)

def find? (table : List (Variant ρ)) (name : String) : Option (Index table) :=
  table.findFinIdx? fun v => v.name == name

/-- What an update computes from the current variant. -/
inductive Change (table : List (Variant ρ)) where
  | set (k : Index table)
  | next
  | same

/-- The variant after the last is the first. -/
def Change.apply {table : List (Variant ρ)} : Change table → Index table → Index table
  | set k, _ => k
  | next, i => ⟨(i + 1) % table.length, Nat.mod_lt _ (Nat.zero_lt_of_lt i.isLt)⟩
  | same, i => i

def render (table : List (Variant ρ)) (layout : Layout) (i : Index table) : String :=
  renderVariant layout table[i].name

example : (encoding [⟨"A", 0, false⟩, ⟨"B", 1, false⟩, ⟨"C", (2 : Int), false⟩]).Lawful := by
  unfold Encoding.Lawful; decide

example : (encoding [⟨"A", 0, true⟩, ⟨"B", 1, false⟩, ⟨"C", (1 : Int), false⟩]).decode 1 =
    some 1 := by decide

end Variant

end SharedCells
