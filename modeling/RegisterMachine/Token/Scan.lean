import RegisterMachine.Text.Tabs
import RegisterMachine.Token

/-! From text to tokens. The text, with its tabs expanded, is cut into slices: layout characters
    part slices, and a slice is as long as its first character allows. A sigil takes the digits
    behind it, a letter the letters behind it, and every other character stands alone. A slice is
    then read as one token; a number of too many digits is not read at all. -/

namespace RegisterMachine

/-- A piece of the text and its position. -/
structure Slice where
  position : Nat
  chars : List Char
  deriving DecidableEq

namespace Slice

/-- The characters between tokens. -/
def isLayout (c : Char) : Bool := c == ' ' || c == '\t' || c == '\n' || c == '\r'

/-- The characters of words: ASCII letters and the underscore. -/
def isLetter (c : Char) : Bool := c.isAlpha || c == '_'

/-- The characters that may stand behind `c` in a slice that starts with it. -/
def mayFollow (c : Char) : Char → Bool :=
  if c = Token.registerSigil ∨ c = Token.integerSigil then Char.isDigit
  else if isLetter c then isLetter
  else fun _ => false

/-- The slices of a text that starts at the given position. -/
def split (position : Nat) : List Char → List Slice
  | [] => []
  | c :: cs =>
    if isLayout c then split (position + 1) cs
    else
      let tail := cs.takeWhile (mayFollow c)
      ⟨position, c :: tail⟩ :: split (position + 1 + tail.length) (cs.dropWhile (mayFollow c))
termination_by cs => cs.length
decreasing_by
  · simp
  · have := (List.dropWhile_sublist (l := cs) (mayFollow c)).length_le
    simp only [List.length_cons]; omega

end Slice

/-- What a slice is read as. -/
inductive Lexeme where
  | token (t : Token)
  | tooLong (digits : Nat)
  deriving DecidableEq

namespace Lexeme

/-- The greatest number of digits that is read as a number. -/
def digitLimit : Nat := 4300

/-- What is said of a number with too many digits. -/
def tooLongMessage (digits : Nat) : String :=
  s!"Exceeds the limit ({digitLimit} digits) for integer string conversion: value has {digits} "
    ++ "digits; use sys.set_int_max_str_digits() to increase the limit"

/-- The value of a row of decimal digits. -/
def decimal (digits : List Char) : Nat :=
  digits.foldl (fun n c => 10 * n + (c.toNat - '0'.toNat)) 0

/-- A number behind a sigil. -/
def number (make : Int → Token) (digits : List Char) : Lexeme :=
  if digits.length > digitLimit then .tooLong digits.length else .token (make (decimal digits))

/-- Reads the characters of a slice; a sigil without digits is no operator of the language. -/
def ofChars : List Char → Lexeme
  | c :: d :: ds =>
    if c = Token.registerSigil then number .register (d :: ds)
    else if c = Token.integerSigil then number .integer (d :: ds)
    else .token (.operator (Opcode.ofMnemonic (String.ofList (c :: d :: ds))))
  | cs => .token (.operator (Opcode.ofMnemonic (String.ofList cs)))

end Lexeme

/-- A lexeme and where it was found, if it was read from a text. -/
structure Located where
  lexeme : Lexeme
  position : Option Nat := none
  deriving DecidableEq

namespace Located

/-- The lexemes of a text; positions count the characters of the text with its tabs expanded. -/
def ofText (text : String) : List Located :=
  (Slice.split 0 (Text.expandTabs 0 text.toList)).map fun s =>
    { lexeme := Lexeme.ofChars s.chars, position := some s.position }

/-- Tokens that were not read from a text. -/
def ofTokens (tokens : List Token) : List Located := tokens.map fun t => { lexeme := .token t }

/-- The tokens of a row of lexemes, or the length of the first number that is too long. -/
def tokens : List Located → Except Nat (List Token)
  | [] => .ok []
  | x :: xs =>
    match x.lexeme with
    | .token t => (tokens xs).map (t :: ·)
    | .tooLong digits => .error digits

end Located

end RegisterMachine
