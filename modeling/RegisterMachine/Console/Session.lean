import RegisterMachine.Assembly.Program
import RegisterMachine.Console.Command
import RegisterMachine.Console.HexLine
import RegisterMachine.Listing
import RegisterMachine.Machine.Report
import RegisterMachine.Text.ControlSequence
import RegisterMachine.Text.Lines

/-! Sessions at the console. A session owns one machine: lines of code are added to its program and
    executed at once, commands show parts of the session or run the machine. -/

namespace RegisterMachine.Console

/-- How lines of code are read. -/
inductive Mode where | hex | assembly
  deriving DecidableEq

/-- What a line leaves on the screen and in the log. -/
structure Transcript where
  echoed : List String := []
  log : List Log.Entry := []
  deriving DecidableEq

def Transcript.append (a b : Transcript) : Transcript :=
  ⟨a.echoed ++ b.echoed, a.log ++ b.log⟩

instance : Append Transcript := ⟨Transcript.append⟩

/-- The text on the screen: each line without its control sequences, and a line feed. -/
def Transcript.screen (t : Transcript) : String :=
  String.join (t.echoed.map fun line => String.ofList (Text.dropControls line.toList) ++ "\n")

/-- The state of a session. -/
structure Session where
  mode : Mode
  machine : Machine := .fresh
  history : List String := []
  deriving DecidableEq

/-- What has become of a line: the session, what was shown, whether the line ends the session, and
    the error that broke it off, if there was one. -/
structure Reply where
  session : Session
  transcript : Transcript
  quits : Bool := false
  failure : Option AssemblyError := none
  deriving DecidableEq

/-! ### Listings -/

/-- A list with a headline and a closing line. -/
def listing (title closing : String) (items : List String) : Transcript :=
  { echoed := [s!"Listing {title}:"] ++ items ++ [s!"End of {closing} Listing"] }

def showHistory (s : Session) : Transcript := listing "command history" "Command" s.history

def showProgram (m : Machine) : Transcript :=
  listing "program instructions" "Instruction" (Listing.program m.program.toList)

def showRegisters (m : Machine) : Transcript :=
  listing "registers and all contents" "Register"
    (m.indexedRegisters.map fun p => Machine.registerLine p.1 p.2)

def showHeap (m : Machine) : Transcript := { echoed := [s!"heap: {m.heap.size} byte(s)"] }

/-! ### Execution -/

/-- The word for a stop that is worth a line. -/
def stopWord : Stop → Option String
  | .halt => some "halt!"
  | .illegal => some "unknown opcode"
  | .fault => some "fault"
  | .ended | .stepLimit => none

/-- The line for the stop of a machine, with its diagnosis. -/
def stopLine (m : Machine) : Option String :=
  (m.stop.bind stopWord).map fun word =>
    match m.diagnosis with
    | some trap => s!"{word}: {trap.message}"
    | none => word

/-- What is shown after a step or run: the stop, if it is worth a line, and the last result. -/
def results (m : Machine) : List String := (stopLine m).toList ++ [toString m.output]

/-- Makes one step. -/
def step (m : Machine) : Machine × Transcript :=
  let m' := m.step.2
  (m', { echoed := results m', log := m'.stepLog })

/-- Makes up to `n` steps and shows the result of each; the first stop is the end of it. -/
def steps : Nat → Machine → Machine × Transcript
  | 0, m => (m, {})
  | n + 1, m =>
    let (m', shown) := step m
    if m'.stop.isSome then (m', shown)
    else
      let (last, more) := steps n m'
      (last, shown ++ more)

/-! ### Code -/

/-- What adding a line of assembly has come to. -/
inductive Loaded where
  | added (machine : Machine) (count : Nat)
  | refused (e : SyntaxError)
  | failed (e : AssemblyError)

/-- Adds the instructions of a text to the program, if all of it can be assembled. -/
def load (m : Machine) (text : String) : Loaded :=
  match Assembly.program text with
  | .ok is => .added (m.appendInstructions is) is.length
  | .error (.refused e) => .refused e
  | .error e => .failed e

/-- Adds instructions without executing them. -/
def queue (s : Session) (text : String) : Reply :=
  let log := Assembly.programLog text
  match load s.machine text with
  | .added machine count =>
    { session := { s with machine },
      transcript := { echoed := [s!"queued {count} instruction(s)"], log } }
  | .refused e =>
    { session := s, transcript := { echoed := [e.message, "queued 0 instruction(s)"], log } }
  | .failed e => { session := s, transcript := { log }, failure := some e }

/-- Adds instructions and makes as many steps. -/
def evaluateAssembly (s : Session) (line : String) : Reply :=
  let log := Assembly.programLog line
  match load s.machine line with
  | .added machine count =>
    let (machine, shown) := steps count machine
    { session := { s with machine }, transcript := { log : Transcript } ++ shown }
  | .refused e => { session := s, transcript := { echoed := [e.message], log } }
  | .failed e => { session := s, transcript := { log }, failure := some e }

/-- Adds bytes and makes one step. -/
def evaluateHex (s : Session) (line : String) : Reply :=
  match HexLine.bytes line with
  | [] =>
    { session := s,
      transcript := { echoed :=
        ["Unable to decode hex string. Please enter 4 groups of 2 hex characters."] } }
  | bytes =>
    let (machine, shown) := step (s.machine.append bytes)
    { session := { s with machine }, transcript := shown }

def evaluate (s : Session) (line : String) : Reply :=
  match s.mode with
  | .assembly => evaluateAssembly s line
  | .hex => evaluateHex s line

/-! ### Lines -/

/-- Carries out a command; none if a run takes more than `fuel` steps. -/
def perform? (fuel : Nat) (s : Session) : Command → Option Reply
  | .quit => some { session := s, transcript := {}, quits := true }
  | .history => some { session := s, transcript := showHistory s }
  | .program => some { session := s, transcript := showProgram s.machine }
  | .registers => some { session := s, transcript := showRegisters s.machine }
  | .heap => some { session := s, transcript := showHeap s.machine }
  | .run => (s.machine.run? fuel).map fun machine =>
    { session := { s with machine },
      transcript := { echoed := results machine, log := machine.runLog none } }
  | .queue text => some (queue s text)
  | .evaluate line => some (evaluate s line)

/-- Takes a line into the history and carries it out. -/
def handle? (fuel : Nat) (s : Session) (line : String) : Option Reply :=
  perform? fuel { s with history := s.history ++ [line] } (Command.ofLine line)

/-! ### Whole sessions -/

/-- What stands in front of every line that is read. -/
def prompt : String := ">>> "

/-- What has become of a session: as of a line, with the whole screen. -/
structure Ending where
  session : Session
  screen : String
  log : List Log.Entry
  failure : Option AssemblyError := none
  deriving DecidableEq

/-- Puts a screen and log in front of what follows. -/
def Ending.after (screen : String) (log : List Log.Entry) (e : Ending) : Ending :=
  { e with screen := screen ++ e.screen, log := log ++ e.log }

/-- Handles lines until one ends or breaks off the session; blank lines are passed over, and the
    others are handled without the white space around them. -/
def loop? (fuel : Nat) (s : Session) : List String → Option Ending
  | [] => some { session := s, screen := prompt ++ "\n", log := [] }
  | raw :: rest =>
    let line := Text.strip raw
    if line = "" then (loop? fuel s rest).map (Ending.after prompt [])
    else do
      let reply ← handle? fuel s line
      let screen := prompt ++ reply.transcript.screen
      if reply.quits || reply.failure.isSome then
        return { session := reply.session, screen, log := reply.transcript.log,
                 failure := reply.failure }
      else
        return (← loop? fuel reply.session rest).after screen reply.transcript.log

/-- Handles the lines of a text. -/
def loopText? (fuel : Nat) (s : Session) (text : String) : Option Ending :=
  loop? fuel s ((Text.lines text.toList).map String.ofList)

end RegisterMachine.Console
