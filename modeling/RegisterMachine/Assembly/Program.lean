import RegisterMachine.Assembly.Progress

/-! Whole sources. The instructions of a source are read one after the other until the end of input
    or the first error; a text is assembled only if no error is met. -/

namespace RegisterMachine

/-- What reading all instructions of a source has given: the instructions in front of the end of
    input or of the error, and what is left of the source. -/
structure Assembled where
  instructions : List Instruction
  error : Option AssemblyError
  rest : List Located
  deriving DecidableEq

namespace Assembly

/-- Reads instructions until the end of input or the first error. -/
def all (source : List Located) : Assembled :=
  match h : instruction.run source with
  | .ok (some i) rest =>
    have := length_lt_of_instruction h
    let following := all rest
    { following with instructions := i :: following.instructions }
  | .ok none rest => { instructions := [], error := none, rest }
  | .error e rest => { instructions := [], error := some e, rest }
termination_by source.length

/-- The instructions of a text, if all of it can be assembled. -/
def program (text : String) : Except AssemblyError (List Instruction) :=
  let assembled := all (Located.ofText text)
  match assembled.error with
  | none => .ok assembled.instructions
  | some e => .error e

/-- The bytes of the instructions of a text. -/
def bytes (text : String) : Except AssemblyError (List UInt8) :=
  (program text).map Instruction.encodeAll

/-! ### Log -/

/-- The entry for an instruction. -/
def issued (i : Instruction) : Log.Entry :=
  let code := Text.hexRowLower i.encode
  Log.debug s!"Issuing {i.op.mnemonic}: {code}"

/-- The log of reading all instructions of a source. -/
def log (source : List Located) : List Log.Entry :=
  match h : instruction.run source with
  | .ok (some i) rest =>
    have := length_lt_of_instruction h
    Located.logBetween source rest ++ issued i :: log rest
  | .ok none rest => Located.logBetween source rest
  | .error _ rest => Located.logBetween source rest
termination_by source.length

/-- The log of assembling a text: what was read and issued, and in the end how many instructions
    there are. -/
def programLog (text : String) : List Log.Entry :=
  let source := Located.ofText text
  let assembled := all source
  log source ++ match assembled.error with
    | none => [Log.info s!"Assembled {assembled.instructions.length} instruction(s)"]
    | some _ => []

end Assembly

end RegisterMachine
