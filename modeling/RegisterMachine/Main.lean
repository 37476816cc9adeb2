import RegisterMachine.CommandLine.Outcome

/-! The command line. The first argument names the tool and the others are its arguments. -/

namespace RegisterMachine

/-- More steps than any run can make. -/
def stepBound : Nat := Nat.pow 10 18

/-- All that is left of a stream. -/
partial def readAll (stream : IO.FS.Stream) (text : String) : IO String := do
  let line ← stream.getLine
  if line.isEmpty then return text else readAll stream (text ++ line)

/-- Calls a tool and writes what it has to say. The input is read only if it is needed. -/
def callTool (tool : CommandLine.Tool) (args : List String) : IO UInt32 := do
  let readsInput := match tool.request args with
    | .ok request => request.readsInput
    | .error _ => false
  let input ← if readsInput then readAll (← IO.getStdin) "" else pure ""
  match tool.call? stepBound args input with
  | none => return 1
  | some outcome =>
    IO.print outcome.out
    IO.eprint outcome.err
    if let some (.tooLong digits) := outcome.failure then
      IO.eprintln (Lexeme.tooLongMessage digits)
    return UInt32.ofNat outcome.exitCode

end RegisterMachine

def main (args : List String) : IO UInt32 := do
  let names := ", ".intercalate
    ([.assembler, .runner, .console].map RegisterMachine.CommandLine.Tool.name)
  match args with
  | name :: rest =>
    match RegisterMachine.CommandLine.Tool.ofName? name with
    | some tool => RegisterMachine.callTool tool rest
    | none => IO.eprintln s!"no such tool, expected one of {names}"; return 2
  | [] => IO.eprintln s!"no tool given, expected one of {names}"; return 2
