import RegisterMachine.Text.HexBytes
import RegisterMachine.Text.Printable

/-! Text in quotes. Single quotes are taken, unless the text holds one of them and no double quote.
    The quote and the backslash get a backslash in front, and characters that cannot be shown are
    written as escapes of the shortest of three lengths. -/

namespace RegisterMachine.Text

/-- A number in small hexadecimal digits, with zeros in front up to the given length. -/
def hexPadded (length n : Nat) : List Char :=
  (List.range length).reverse.map fun i => hexDigitLower (n / Nat.pow 16 i % 16)

/-- A character inside the given quotes. -/
def quotedChar (quote c : Char) : List Char :=
  let n := c.toNat
  if c = quote ∨ c = '\\' then ['\\', c]
  else if c = '\t' then ['\\', 't']
  else if c = '\n' then ['\\', 'n']
  else if c = '\r' then ['\\', 'r']
  else if isPrintable c then [c]
  else if n < 0x100 then '\\' :: 'x' :: hexPadded 2 n
  else if n < 0x10000 then '\\' :: 'u' :: hexPadded 4 n
  else '\\' :: 'U' :: hexPadded 8 n

def singleQuote : Char := '\x27'
def doubleQuote : Char := '\x22'

/-- A text in quotes. -/
def quoted (text : String) : String :=
  let cs := text.toList
  let quote := if cs.contains singleQuote && ! cs.contains doubleQuote then doubleQuote
    else singleQuote
  String.ofList (quote :: cs.flatMap (quotedChar quote) ++ [quote])

end RegisterMachine.Text
