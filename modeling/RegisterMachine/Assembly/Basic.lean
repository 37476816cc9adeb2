import RegisterMachine.Assembly.Error
import RegisterMachine.Instruction
import RegisterMachine.Text.HexBytes
import RegisterMachine.Token.Lexer
import RegisterMachine.Word

/-! The assembler. It takes tokens from the front of a source, one instruction at a time, and never
    looks further than the token it has to decide about. An error leaves the source behind the
    token that caused it. -/

namespace RegisterMachine

/-- A reading that takes tokens from a source. -/
abbrev Assembly := EStateM AssemblyError (List Located)

namespace Assembly

/-- The greatest register index that has a byte. -/
def maxRegister : Nat := 0xFF

/-- The greatest integer that fits into two bytes. -/
def maxInteger : Nat := 0xFFFF

/-- The least integer that fits into two bytes. -/
def minInteger : Int := -0x8000

/-- Complains of a token. -/
def refuse {α : Type} (complaint : Complaint) (found : Token) : Assembly α :=
  throw (.refused { complaint, found := some found })

/-- The next token. A used up source gives the end of input for ever, and so does one in which a
    number had too many digits. -/
def token : Assembly Token := do
  match ← get with
  | [] => return .endOfInput
  | x :: rest =>
    match x.lexeme with
    | .token t => set rest; return t
    | .tooLong digits => set ([] : List Located); throw (.tooLong digits)

/-- The index of a register. Negative indices are let through. -/
def register : Assembly Int := do
  match ← token with
  | .register index =>
    if index > maxRegister then refuse .operandRange (.register index) else return index
  | .endOfInput => refuse .unexpectedEnd .endOfInput
  | t => refuse .expectedRegister t

/-- A two-byte integer; negative ones are taken modulo `65536`. -/
def integer : Assembly UInt16 := do
  match ← token with
  | .integer value =>
    if value > maxInteger ∨ value < minInteger then refuse .operandRange (.integer value)
    else return UInt16.ofInt value
  | .endOfInput => refuse .unexpectedEnd .endOfInput
  | t => refuse .expectedInteger t

/-- The byte of a register index. -/
def byte (index : Int) : Assembly UInt8 :=
  match Word.byte? index with
  | some b => return b
  | none => throw .unencodable

/-- The operands of an instruction. All of them are read before the first is encoded. -/
def operands : (s : Shape) → Assembly (Operands s)
  | .nullary => return .nullary
  | .integer => do
    let dest ← register
    let value ← integer
    return .integer (← byte dest) value
  | .binary => do
    let left ← register
    let right ← register
    let dest ← register
    return .binary (← byte left) (← byte right) (← byte dest)
  | .compare => do
    let left ← register
    let right ← register
    return .compare (← byte left) (← byte right)
  | .unary => do
    let r ← register
    return .unary (← byte r)

/-- The instruction that begins with a token; none at the end of input. -/
def instructionFrom : Token → Assembly (Option Instruction)
  | .endOfInput => return none
  | .operator .illegal => refuse .unknownOperator (.operator .illegal)
  | .operator op => return some { op, operands := ← operands op.shape }
  | t => refuse .expectedOperator t

/-- The next instruction. -/
def instruction : Assembly (Option Instruction) := token >>= instructionFrom

end Assembly

end RegisterMachine
