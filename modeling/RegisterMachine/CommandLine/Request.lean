import RegisterMachine.CommandLine.Usage
import RegisterMachine.Console.Session
import RegisterMachine.Execution
import RegisterMachine.Text.Numeral

/-! From the arguments of a call to what it asks for. Options and words may be mixed; two dashes
    alone end the options. An option with a value takes it from behind an equals sign, or else takes
    the next argument, whatever that is. -/

namespace RegisterMachine.CommandLine

/-- What a call asks for. A source that is not given is read from the input. -/
inductive Request where
  | help
  | assemble (verbose : Bool) (source : Option String)
  | run (verbose : Bool) (limit : Option Nat) (source : Option String)
  | console (verbose : Bool) (mode : Console.Mode)
  deriving DecidableEq

/-- The arguments of a call by what they mean. -/
structure Arguments where
  flags : List Switch := []
  steps : Option String := none
  words : List String := []
  deriving DecidableEq

/-- What one argument says. -/
inductive Argument where
  | word
  | endOfOptions
  | flags (switches : List Switch)
  | valued (s : Switch) (value : Option String)
  deriving DecidableEq

namespace Tool

/-- The option with a given long name. -/
def long? (t : Tool) (name : String) : Option Switch := t.switches.find? (·.longName == name)

/-- The option with a given letter. -/
def short? (t : Tool) (c : Char) : Option Switch := t.switches.find? (·.letter? == some c)

/-- The options of a cluster of letters. -/
def cluster (t : Tool) (letters : List Char) : Except UsageError (List Switch) :=
  letters.mapM fun c =>
    match t.short? c with
    | some s => .ok s
    | none => .error (.noSuchOption (String.ofList ['-', c]))

/-- Reads one argument. Only what starts with a dash and goes on is an option; if its name is not
    known and it has but one dash, it is a cluster of letters. -/
def argument (t : Tool) (text : String) : Except UsageError Argument :=
  if text = "--" then .ok .endOfOptions
  else
    match text.toList with
    | '-' :: c :: cs =>
      let name := String.ofList (text.toList.takeWhile (· ≠ '='))
      let value := match text.toList.dropWhile (· ≠ '=') with
        | [] => none
        | _ :: value => some (String.ofList value)
      match t.long? name, value with
      | some .maxSteps, value => .ok (.valued .maxSteps value)
      | some s, none => .ok (.flags [s])
      | some s, some _ => .error (.valueNotTaken s.longName)
      | none, _ =>
        if c = '-' then .error (.noSuchOption name)
        else (t.cluster (c :: cs)).map .flags
    | _ => .ok .word

/-- Reads the arguments from left to right. -/
def arguments (t : Tool) (seen : Arguments) : List String → Except UsageError Arguments
  | [] => .ok seen
  | text :: rest => do
    match ← t.argument text with
    | .word => t.arguments { seen with words := seen.words ++ [text] } rest
    | .endOfOptions => .ok { seen with words := seen.words ++ rest }
    | .flags switches => t.arguments { seen with flags := seen.flags ++ switches } rest
    | .valued _ (some value) => t.arguments { seen with steps := some value } rest
    | .valued s none =>
      match rest with
      | value :: rest => t.arguments { seen with steps := some value } rest
      | [] => .error (.valueMissing s.longName)

/-- The number of steps allowed, which is at least one. -/
def limit (value : String) : Except UsageError Nat :=
  match Text.decimalInt? value.toList with
  | none => .error (.notAnInteger Switch.maxSteps.longName value)
  | some n =>
    if n < 1 then .error (.outOfRange Switch.maxSteps.longName n) else .ok n.toNat

/-- The words of a source, with single spaces between them. -/
def source (words : List String) : Option String :=
  if words.isEmpty then none else some (" ".intercalate words)

/-- What a call asks for. A plea for help comes before all that could be wrong with values and
    words, but after what is wrong with the options themselves. -/
def request (t : Tool) (args : List String) : Except UsageError Request := do
  let a ← t.arguments {} args
  let verbose := a.flags.contains .verbose
  if a.flags.contains .help then return .help
  match t with
  | .assembler => return .assemble verbose (source a.words)
  | .runner => return .run verbose (← a.steps.mapM limit) (source a.words)
  | .console =>
    if a.words.isEmpty then
      return .console verbose (if a.flags.contains .assembly then .assembly else .hex)
    else .error (.extraArguments a.words)

end Tool

/-- The request can only be met after reading the input. -/
def Request.readsInput : Request → Bool
  | .help => false
  | .assemble _ source => source.isNone
  | .run _ _ source => source.isNone
  | .console .. => true

end RegisterMachine.CommandLine
