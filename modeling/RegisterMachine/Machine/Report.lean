import RegisterMachine.Machine.Run
import RegisterMachine.Log

/-! What a machine has to tell: the report after a run, the one-line dump of its state, and the log
    entries of its steps and runs. A step or run logs only how it stopped, so its entries can be
    read off the machine it leaves. -/

namespace RegisterMachine.Machine

/-- The registers with their indices. -/
def indexedRegisters (m : Machine) : List (Nat × Int) :=
  (List.range registerCount).zip m.registers.toList

/-- The line that shows a register. -/
def registerLine (index : Nat) (value : Int) : String := s!"${index} = {value}"

/-- The lines of the report; registers that hold zero are left out. -/
def report (m : Machine) : List String :=
  let stop := (m.stop.map Stop.name).getD "running"
  let flag := if m.flag then "true" else "false"
  [s!"stop: {stop}"]
    ++ (m.diagnosis.map fun t => s!"reason: {t.message}").toList
    ++ [s!"output: {m.output}", s!"remainder: {m.remainder}", s!"flag: {flag}"]
    ++ (m.indexedRegisters.filter fun p => p.2 ≠ 0).map fun p => registerLine p.1 p.2

/-- The whole state apart from the contents of heap and program, in one line. A number of
    more than 4300 digits, which no run comes to, is written in full, as in `Token.text`. -/
def dump (m : Machine) : String :=
  let flag := if m.flag then 1 else 0
  " ".intercalate
    ([s!"PC:{m.pc}", s!"FL:{flag}", s!"RM:{m.remainder}", s!"HP:{m.heap.size}"]
      ++ m.indexedRegisters.map fun p => s!"{p.1}:{p.2}")

/-- The log of a step that left the machine `m`. A halt has moved the counter by one byte and a
    fault has taken it back, so both tell where the instruction starts. -/
def stepLog (m : Machine) : List Log.Entry :=
  let reason := (m.diagnosis.map Trap.message).getD ""
  match m.stop with
  | some .halt => [Log.info s!"Execution halted at {m.pc - 1}", Log.debug m.dump]
  | some .illegal => [Log.warning s!"Execution stopped: {reason}"]
  | some .fault => [Log.warning s!"Execution fault at {m.pc}: {reason}"]
  | _ => []

/-- The log of a run with the given limit that left the machine `m`. -/
def runLog (limit : Option Nat) (m : Machine) : List Log.Entry :=
  match m.stop, limit with
  | some .stepLimit, some limit => [Log.info s!"Execution paused after {limit} step(s)"]
  | _, _ => m.stepLog

end RegisterMachine.Machine
