/-! Integers of a fixed width, as mathematical integers in a range.

Arithmetic wraps modulo a power of two into the range; bitwise operations act
on the two's complement form. -/

set_option autoImplicit false

namespace SharedCells

/-- The widths an integer may have; a word is as wide as an address. -/
inductive Width where
  | w8 | w16 | w32 | w64 | word
  deriving DecidableEq, Repr

def Width.bits : Width → Nat
  | w8 => 8
  | w16 => 16
  | w32 => 32
  | w64 => 64
  | word => 64

/-- How many numbers there are of a width: two to the power of its bits. -/
def Width.modulus : Width → Nat
  | w8 => 256
  | w16 => 65536
  | w32 => 4294967296
  | w64 | word => 18446744073709551616

example (w : Width) : w.modulus = 2 ^ w.bits := by cases w <;> decide

structure IntType where
  signed : Bool
  width : Width
  deriving DecidableEq, Repr

namespace IntType

def bits (t : IntType) : Nat := t.width.bits

def modulus (t : IntType) : Nat := t.width.modulus

def least (t : IntType) : Int := if t.signed then -(t.modulus / 2 : Nat) else 0

def greatest (t : IntType) : Int := if t.signed then (t.modulus / 2 : Nat) - 1 else t.modulus - 1

def Contains (t : IntType) (x : Int) : Prop := t.least ≤ x ∧ x ≤ t.greatest

instance (t : IntType) (x : Int) : Decidable (t.Contains x) :=
  inferInstanceAs (Decidable (_ ∧ _))

/-- The number of the type with the given bits. -/
def ofBits (t : IntType) (v : BitVec t.bits) : Int := if t.signed then v.toInt else v.toNat

/-- Two's complement. -/
def toBits (t : IntType) (x : Int) : BitVec t.bits := BitVec.ofInt t.bits x

/-- The number of the type that is congruent modulo `modulus`. -/
def wrap (t : IntType) (x : Int) : Int :=
  if t.signed then x.bmod t.modulus else x % t.modulus

theorem ofBits_toBits (t : IntType) (x : Int) : t.ofBits (t.toBits x) = t.wrap x := by
  unfold ofBits toBits wrap
  have size : t.modulus = 2 ^ t.bits := by
    unfold modulus bits
    cases t.width <;> decide
  rw [size]
  split
  · exact BitVec.toInt_ofInt x
  · have positive : (0 : Int) < (2 ^ t.bits : Nat) := mod_cast Nat.two_pow_pos t.bits
    rw [BitVec.toNat_ofInt, Int.toNat_of_nonneg (Int.emod_nonneg _ (Int.ne_of_gt positive))]

def add (t : IntType) (x y : Int) : Int := t.wrap (x + y)
def sub (t : IntType) (x y : Int) : Int := t.wrap (x - y)
def mul (t : IntType) (x y : Int) : Int := t.wrap (x * y)
def and (t : IntType) (x y : Int) : Int := t.ofBits (t.toBits x &&& t.toBits y)
def or (t : IntType) (x y : Int) : Int := t.ofBits (t.toBits x ||| t.toBits y)
def xor (t : IntType) (x y : Int) : Int := t.ofBits (t.toBits x ^^^ t.toBits y)
def complement (t : IntType) (x : Int) : Int := t.ofBits (~~~t.toBits x)

example : (IntType.mk true .w8).add 127 1 = -128 := by decide
example : (IntType.mk true .w8).xor (-1) 5 = -6 := by decide
example : (IntType.mk false .w8).complement 5 = 250 := by decide

end IntType

end SharedCells
