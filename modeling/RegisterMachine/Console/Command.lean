/-! The commands of the console. -/

namespace RegisterMachine.Console

/-- What a line asks for. -/
inductive Command where
  | quit
  | history
  | program
  | registers
  | heap
  | run
  | queue (text : String)
  | evaluate (line : String)
  deriving DecidableEq

/-- Reads a line: the part in front of the first space may name a command, and then the part behind
    it is its argument. A line that names no command is code. -/
def Command.ofLine (line : String) : Command :=
  let name := String.ofList (line.toList.takeWhile (· ≠ ' '))
  let argument := String.ofList ((line.toList.dropWhile (· ≠ ' ')).drop 1)
  match name with
  | ":quit" | ":q" => .quit
  | ":history" | ":h" => .history
  | ":program" | ":p" => .program
  | ":registers" | ":r" => .registers
  | ":heap" => .heap
  | ":run" => .run
  | ":asm" => .queue argument
  | _ => .evaluate line

end RegisterMachine.Console
