/-! Bytes as pairs of hexadecimal digits. -/

namespace RegisterMachine.Text

/-- The digit for a value below sixteen, in small letters. -/
def hexDigitLower (n : Nat) : Char := n.digitChar

/-- The digit for a value below sixteen, in capitals. -/
def hexDigit (n : Nat) : Char := (hexDigitLower n).toUpper

/-- A byte as two capital digits. -/
def hexByte (b : UInt8) : String := String.ofList [hexDigit (b.toNat / 16), hexDigit (b.toNat % 16)]

/-- A byte as two small digits. -/
def hexByteLower (b : UInt8) : String :=
  String.ofList [hexDigitLower (b.toNat / 16), hexDigitLower (b.toNat % 16)]

/-- Bytes in capital digits, parted by single spaces. -/
def hexRow (bytes : List UInt8) : String := " ".intercalate (bytes.map hexByte)

/-- Bytes in small digits, parted by single spaces. -/
def hexRowLower (bytes : List UInt8) : String := " ".intercalate (bytes.map hexByteLower)

/-- Bytes in small digits without separators. -/
def hexDump (bytes : List UInt8) : String := String.join (bytes.map hexByteLower)

/-- The value of a hexadecimal digit in either case. -/
def hexValue? (c : Char) : Option Nat :=
  if '0' ≤ c ∧ c ≤ '9' then some (c.toNat - '0'.toNat)
  else if 'a' ≤ c ∧ c ≤ 'f' then some (c.toNat - 'a'.toNat + 10)
  else if 'A' ≤ c ∧ c ≤ 'F' then some (c.toNat - 'A'.toNat + 10)
  else none

end RegisterMachine.Text
