import RegisterMachine.Opcode

/-! The tokens of the assembly language. -/

namespace RegisterMachine

/-- A token. Operand values are integers of any size; what fits into an instruction is decided by
    the assembler. -/
inductive Token where
  | operator (op : Opcode)
  | register (index : Int)
  | integer (value : Int)
  | endOfInput
  deriving DecidableEq

namespace Token

/-- The character in front of a register index. -/
def registerSigil : Char := '$'

/-- The character in front of an integer. -/
def integerSigil : Char := '#'

/-- How a token is written. A number of any length is written in full: a limit on the digits of what
    is written, like the 4300 of what is read, is left out here. -/
def text : Token → String
  | .operator op => op.mnemonic
  | .register index => s!"{registerSigil}{index}"
  | .integer value => s!"{integerSigil}{value}"
  | .endOfInput => "<end>"

/-- What kind of token it is; a missing token counts as the end of input. -/
def describe : Option Token → String
  | some (.register _) => "register"
  | some (.integer _) => "integer"
  | some (.operator _) => "operator"
  | some .endOfInput | none => "end of input"

end Token

end RegisterMachine
