import RegisterMachine.Text.Blank
import RegisterMachine.Text.DecimalDigit
import RegisterMachine.Text.HexBytes

/-! Integers as people write them: a sign, digits of any script, and single underscores between the
    digits. Hexadecimal numbers may have `0x` in front, and an underscore behind it. -/

namespace RegisterMachine.Text

/-- Goes on with a number behind the digits that are worth `value`. -/
def digitsFrom (digit? : Char → Option Nat) (base value : Nat) : List Char → Option Nat
  | [] => some value
  | '_' :: c :: cs => (digit? c).bind fun d => digitsFrom digit? base (value * base + d) cs
  | c :: cs => (digit? c).bind fun d => digitsFrom digit? base (value * base + d) cs

/-- A number without a sign: it starts and ends with a digit. -/
def natural? (digit? : Char → Option Nat) (base : Nat) : List Char → Option Nat
  | [] => none
  | c :: cs => (digit? c).bind fun d => digitsFrom digit? base d cs

/-- A number with or without a sign. -/
def signed? (magnitude? : List Char → Option Nat) : List Char → Option Int
  | '+' :: cs => (magnitude? cs).map Int.ofNat
  | '-' :: cs => (magnitude? cs).map fun n => -Int.ofNat n
  | cs => (magnitude? cs).map Int.ofNat

/-- The digits of a hexadecimal number, without what may stand in front of them. -/
def dropHexMark : List Char → List Char
  | '0' :: x :: '_' :: cs => if x = 'x' ∨ x = 'X' then cs else '0' :: x :: '_' :: cs
  | '0' :: x :: cs => if x = 'x' ∨ x = 'X' then cs else '0' :: x :: cs
  | cs => cs

/-- The integer that a text spells in base sixteen. -/
def hexInt? (cs : List Char) : Option Int :=
  signed? (fun ds => natural? hexValue? 16 (dropHexMark ds)) (cs.map plainDigit)

/-- The greatest number of digits of a decimal number. -/
def decimalLimit : Nat := 4300

/-- The blanks that may surround a decimal number: those of ASCII, without the information
    separators, and all others. -/
def isMargin (c : Char) : Bool := isBlank c && ! (0x1C ≤ c.toNat && c.toNat ≤ 0x1F)

/-- The integer that a text spells in base ten. -/
def decimalInt? (cs : List Char) : Option Int :=
  let ds := (trim isMargin cs).map plainDigit
  if ds.countP Char.isDigit > decimalLimit then none
  else signed? (natural? (fun c => if c.isDigit then hexValue? c else none) 10) ds

end RegisterMachine.Text
