import RegisterMachine.Token

/-! What can be wrong with a source. -/

namespace RegisterMachine

/-- What the assembler complains of. -/
inductive Complaint where
  | unspecified
  | expectedRegister
  | expectedInteger
  | expectedOperator
  | unknownOperator
  | unexpectedEnd
  | operandRange
  deriving DecidableEq

/-- A complaint in general, without the token it is about. -/
def Complaint.reason : Complaint → String
  | .unspecified => "syntax error"
  | .expectedRegister => "expected register"
  | .expectedInteger => "expected integer"
  | .expectedOperator => "operand in operator position"
  | .unknownOperator => "unknown operator"
  | .unexpectedEnd => "unexpected end of input"
  | .operandRange => "operand out of range"

/-- A complaint and the token it is about. -/
structure SyntaxError where
  complaint : Complaint
  found : Option Token := none
  deriving DecidableEq

def SyntaxError.message (e : SyntaxError) : String :=
  let kind := Token.describe e.found
  let operand := (e.found.map Token.text).getD "None"
  match e.complaint with
  | .expectedRegister => s!"syntax error: expected register, found {kind}"
  | .expectedInteger => s!"syntax error: expected integer, found {kind}"
  | .operandRange => s!"syntax error: operand {operand} out of range"
  | complaint => s!"syntax error: {complaint.reason}"

/-- Why a source cannot be assembled: it is refused, a register index is negative and so has no
    byte, or a number has too many digits to be read. -/
inductive AssemblyError where
  | refused (e : SyntaxError)
  | unencodable
  | tooLong (digits : Nat)
  deriving DecidableEq

end RegisterMachine
