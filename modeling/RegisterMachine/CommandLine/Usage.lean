import RegisterMachine.Text.ControlSequence
import RegisterMachine.Text.Quoted

/-! The three tools, their options, and what they say of their use. -/

namespace RegisterMachine.CommandLine

/-- The tools: the assembler, the runner and the console. -/
inductive Tool where | assembler | runner | console
  deriving DecidableEq

/-- The options. -/
inductive Switch where | verbose | maxSteps | assembly | help
  deriving DecidableEq

namespace Tool

def name : Tool → String
  | .assembler => "regvm-asm"
  | .runner => "regvm-run"
  | .console => "regvm-repl"

/-- The tool of a given name. -/
def ofName? (text : String) : Option Tool := [assembler, runner, console].find? (·.name == text)

/-- The options of a tool, in the order of its help. -/
def switches : Tool → List Switch
  | .assembler => [.verbose, .help]
  | .runner => [.verbose, .maxSteps, .help]
  | .console => [.verbose, .assembly, .help]

/-- The line that shows how a tool is called. -/
def usage (t : Tool) : String :=
  match t with
  | .console => s!"Usage: {t.name} [OPTIONS]"
  | _ => s!"Usage: {t.name} [OPTIONS] [SOURCE]..."

end Tool

namespace Switch

/-- The name of an option with its two dashes. -/
def longName : Switch → String
  | .verbose => "--verbose"
  | .maxSteps => "--max-steps"
  | .assembly => "--asm"
  | .help => "--help"

/-- The letter behind one dash, for an option that has one. -/
def letter? : Switch → Option Char
  | .verbose => some 'v'
  | _ => none

/-- How the help names an option. -/
def label : Switch → String
  | .verbose => "-v, --verbose"
  | .maxSteps => "--max-steps INTEGER RANGE"
  | .assembly => "--asm"
  | .help => "--help"

def explanation : Switch → String
  | .verbose => "Sets logging level to debug"
  | .maxSteps => "Stop after this many steps  [x>=1]"
  | .assembly => "Read assembly instead of hex bytes"
  | .help => "Show this message and exit."

end Switch

/-- The help of a tool: the explanations stand in one column. -/
def Tool.help (t : Tool) : String :=
  let width := (t.switches.map fun s => s.label.length).foldl max 0
  let row (s : Switch) : String :=
    let gap := String.ofList (List.replicate (width - s.label.length) ' ')
    s!"  {s.label}{gap}  {s.explanation}"
  String.join (([t.usage, "", "Options:"] ++ t.switches.map row).map (· ++ "\n"))

/-- What is wrong with a call. -/
inductive UsageError where
  | noSuchOption (name : String)
  | valueNotTaken (name : String)
  | valueMissing (name : String)
  | notAnInteger (name value : String)
  | outOfRange (name : String) (value : Int)
  | extraArguments (words : List String)
  deriving DecidableEq

namespace UsageError

def message : UsageError → String
  | .noSuchOption name =>
    let quoted := Text.quoted name
    s!"No such option {quoted}."
  | .valueNotTaken name =>
    let quoted := Text.quoted name
    s!"Option {quoted} does not take a value."
  | .valueMissing name =>
    let quoted := Text.quoted name
    s!"Option {quoted} requires an argument."
  | .notAnInteger name value =>
    let quotedName := Text.quoted name
    let quotedValue := Text.quoted value
    s!"Invalid value for {quotedName}: {quotedValue} is not a valid integer range."
  | .outOfRange name value =>
    let quoted := Text.quoted name
    s!"Invalid value for {quoted}: {value} is not in the range x>=1."
  | .extraArguments words =>
    let noun := if words.length = 1 then "argument" else "arguments"
    let list := " ".intercalate words
    s!"Got unexpected extra {noun} ({list})"

/-- Errors about the value of an option are told without a hint on the use of the tool. -/
def isTerse : UsageError → Bool
  | .valueNotTaken _ | .valueMissing _ => true
  | _ => false

/-- What is shown to the user of a tool. -/
def report (t : Tool) (e : UsageError) : String :=
  let hint := if e.isTerse then "" else s!"{t.usage}\nTry '{t.name} --help' for help.\n\n"
  hint ++ String.ofList (Text.dropControls ("Error: " ++ e.message).toList) ++ "\n"

end UsageError

end RegisterMachine.CommandLine
