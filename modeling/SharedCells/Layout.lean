import SharedCells.Integer

/-! How a cell and the value in it are written.

A bare layout writes the value alone. A labelled one writes the name of the
cell and its one field, on one line or spread over several, and styles the
value in it. -/

set_option autoImplicit false

namespace SharedCells

inductive Radix where
  | decimal | lowerHex | upperHex
  deriving DecidableEq, Repr

/-- A spread style also marks hexadecimal digits by `0x`. -/
structure Style where
  spread : Bool
  width : Nat
  plus : Bool
  radix : Radix
  deriving DecidableEq, Repr

def Style.plain : Style := ⟨false, 0, false, .decimal⟩

inductive Layout where
  | bare
  | labelled (style : Style)
  deriving DecidableEq, Repr

namespace Layout

/-- The layouts that can be asked for. Width and sign have no effect on a bare value. -/
def named : List (String × Layout) :=
  [("\x7b\x7d", bare), ("\x7b:>8\x7d", bare), ("\x7b:+\x7d", bare), ("\x7b:08\x7d", bare),
    ("\x7b:?\x7d", labelled .plain),
    ("\x7b:#?\x7d", labelled { Style.plain with spread := true }),
    ("\x7b:6?\x7d", labelled { Style.plain with width := 6 }),
    ("\x7b:+?\x7d", labelled { Style.plain with plus := true }),
    ("\x7b:x?\x7d", labelled { Style.plain with radix := .lowerHex }),
    ("\x7b:#X?\x7d", labelled { Style.plain with spread := true, radix := .upperHex })]

/-- Every line moved right by four columns. -/
def indent (text : String) : String :=
  "\n".intercalate ((text.splitOn "\n").map ("    " ++ ·))

/-- A name with parts in brackets: on one line, or each part on lines of its own. -/
def bracketed (spread : Bool) (opening closing gap : String) (part : String) : String :=
  if spread then opening ++ "\n" ++ indent (part ++ ",") ++ "\n" ++ closing
  else opening ++ gap ++ part ++ gap ++ closing

/-- A named cell with its value. -/
def cell (spread : Bool) (name value : String) : String :=
  bracketed spread (name ++ " \x7b") "\x7d" " " ("value: " ++ value)

/-- A present optional value. -/
def present (spread : Bool) (value : String) : String :=
  bracketed spread "Some(" ")" "" value

end Layout

namespace Style

/-- Numbers stand at the right of their column. -/
def number (style : Style) (text : String) : String :=
  String.ofList (text.toList.leftpad style.width ' ')

/-- Words stand at the left of their column. -/
def word (style : Style) (text : String) : String :=
  String.ofList (text.toList.rightpad style.width ' ')

def hexDigits (style : Style) (n : Nat) : String :=
  let digits := Nat.toDigits 16 n
  let digits := if style.radix = .upperHex then digits.map Char.toUpper else digits
  (if style.spread then "0x" else "") ++ String.ofList digits

/-- Hexadecimal digits are those of the two's complement form, without a sign. -/
def integer (style : Style) (t : IntType) (x : Int) : String :=
  style.number <|
    match style.radix with
    | .decimal => (if style.plus && decide (0 ≤ x) then "+" else "") ++ toString x
    | .lowerHex | .upperHex => style.hexDigits (t.toBits x).toNat

def truth (style : Style) (b : Bool) : String := style.word (toString b)

end Style

namespace IntType

/-- The name of a cell that holds integers of this type. -/
def cellName (t : IntType) : String :=
  "Atomic" ++ (if t.signed then "I" else "U") ++
    (match t.width with
      | .word => "size"
      | width => toString width.bits)

def render (t : IntType) (layout : Layout) (x : Int) : String :=
  match layout with
  | .bare => toString x
  | .labelled style => Layout.cell style.spread t.cellName (style.integer t x)

example : (IntType.mk false .w16).render (.labelled { Style.plain with width := 6 }) 7 =
    "AtomicU16 \x7b value:      7 \x7d" := by cbv

end IntType

/-- The text of a cell that holds a truth value. -/
def renderTruth (layout : Layout) (b : Bool) : String :=
  match layout with
  | .bare => toString b
  | .labelled style => Layout.cell style.spread "AtomicBool" (style.truth b)

/-- The text of a cell that holds a named variant. Names take no width and no sign. -/
def renderVariant (layout : Layout) (name : String) : String :=
  match layout with
  | .bare => name
  | .labelled style => Layout.cell style.spread "AtomicEnum" name

end SharedCells
