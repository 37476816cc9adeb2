/-! Log entries. What a call has to tell is a list of entries, a value like any other result; who
    shows them and from which level on is for the caller to decide. -/

namespace RegisterMachine.Log

/-- How much an entry matters, from the least. -/
inductive Level where | debug | info | warning
  deriving DecidableEq

namespace Level

def name : Level → String
  | .debug => "DEBUG"
  | .info => "INFO"
  | .warning => "WARNING"

/-- Rank in the order of the levels. -/
def rank : Level → Nat
  | .debug => 0
  | .info => 1
  | .warning => 2

end Level

/-- One message and its level. -/
structure Entry where
  level : Level
  text : String
  deriving DecidableEq

def debug (text : String) : Entry := ⟨.debug, text⟩
def info (text : String) : Entry := ⟨.info, text⟩
def warning (text : String) : Entry := ⟨.warning, text⟩

/-- The entries that matter at least as much as `least`. -/
def visible (least : Level) (entries : List Entry) : List Entry :=
  entries.filter fun e => least.rank ≤ e.level.rank

end RegisterMachine.Log
