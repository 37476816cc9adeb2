import RegisterMachine.CommandLine.Request

/-! What the tools do: their exit code and what they write. -/

namespace RegisterMachine.CommandLine

/-- The result of a call. `failure` is an error that the tool does not handle. -/
structure Outcome where
  exitCode : Nat
  out : String := ""
  err : String := ""
  failure : Option AssemblyError := none
  deriving DecidableEq

/-- Log entries as lines of the error stream. -/
def logLines (least : Log.Level) (entries : List Log.Entry) : String :=
  String.join ((Log.visible least entries).map fun e => s!"{e.level.name}:root:{e.text}\n")

/-- The least level that is shown. -/
def leastLevel (verbose : Bool) (usual : Log.Level) : Log.Level := if verbose then .debug else usual

/-- Lines as text. -/
def textOfLines (lines : List String) : String := String.join (lines.map (· ++ "\n"))

/-- The source text: the one given, or the whole input. -/
def sourceText (source : Option String) (input : String) : String :=
  source.getD (String.ofList (Text.unifyLineEnds input.toList))

/-- The log of a tool before it looks at its source. -/
def opening (title : String) (source : Option String) : List Log.Entry :=
  Log.info title :: if source.isNone then [Log.debug "Reading source from stdin"] else []

/-- The result of a call whose source cannot be assembled. -/
def rejection (log : String) : AssemblyError → Outcome
  | .refused e => { exitCode := 1, err := log ++ e.message ++ "\n" }
  | e => { exitCode := 1, err := log, failure := some e }

/-- The exit code that tells how a run stopped. -/
def exitCode : Option Stop → Nat
  | some .halt | some .ended | none => 0
  | some .illegal => 2
  | some .fault => 3
  | some .stepLimit => 4

/-- Assembles a source and prints its instructions. -/
def callAssembler (verbose : Bool) (source : Option String) (input : String) : Outcome :=
  let text := sourceText source input
  let log := logLines (leastLevel verbose .info)
    (opening "REGVM ASM" source ++ Assembly.programLog text)
  match Assembly.program text with
  | .ok is =>
    { exitCode := 0, out := textOfLines (is.map fun i => Text.hexRow i.encode), err := log }
  | .error e => rejection log e

/-- Assembles a source, runs it and prints the report; none if the run takes more than `fuel`
    steps. -/
def callRunner? (fuel : Nat) (verbose : Bool) (limit : Option Nat) (source : Option String)
    (input : String) : Option Outcome := do
  let text := sourceText source input
  let result ← executeText? fuel limit text
  let log := logLines (leastLevel verbose .info)
    (opening "REGVM" source ++ executionLog limit text result)
  match result with
  | .ok m => return { exitCode := exitCode m.stop, out := textOfLines m.report, err := log }
  | .error e => return rejection log e

/-- A session over the lines of the input. -/
def callConsole? (fuel : Nat) (verbose : Bool) (mode : Console.Mode) (input : String) :
    Option Outcome := do
  let lines := String.ofList (Text.unifyLineEnds input.toList)
  let ending ← Console.loopText? fuel { mode } lines
  return { exitCode := if ending.failure.isSome then 1 else 0, out := ending.screen,
           err := logLines (leastLevel verbose .warning) ending.log, failure := ending.failure }

/-- Meets a request. -/
def Request.perform? (fuel : Nat) (t : Tool) (input : String) : Request → Option Outcome
  | .help => some { exitCode := 0, out := t.help }
  | .assemble verbose source => some (callAssembler verbose source input)
  | .run verbose limit source => callRunner? fuel verbose limit source input
  | .console verbose mode => callConsole? fuel verbose mode input

/-- The result of calling a tool with the given arguments and input. -/
def Tool.call? (fuel : Nat) (t : Tool) (args : List String) (input : String) : Option Outcome :=
  match t.request args with
  | .ok request => request.perform? fuel t input
  | .error e => some { exitCode := 2, err := e.report t }

end RegisterMachine.CommandLine
