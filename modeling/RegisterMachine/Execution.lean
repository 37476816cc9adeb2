import RegisterMachine.Assembly.Program
import RegisterMachine.Machine.Report

/-! Running programs from the start: bytes, or a text that is assembled first. Nothing reaches a
    machine unless the whole text can be assembled. -/

namespace RegisterMachine

/-- Runs a program on a fresh machine; none if a run without a limit takes more than `fuel`
    steps. -/
def execute? (fuel : Nat) (limit : Option Nat) (program : List UInt8) : Option Machine :=
  (Machine.fresh.append program).runWithin? fuel limit

/-- Assembles a text and runs it on a fresh machine. -/
def executeText? (fuel : Nat) (limit : Option Nat) (text : String) :
    Option (Except AssemblyError Machine) :=
  match Assembly.program text with
  | .ok is => ((Machine.fresh.appendInstructions is).runWithin? fuel limit).map .ok
  | .error e => some (.error e)

/-- The log of assembling a text and running it. -/
def executionLog (limit : Option Nat) (text : String) (result : Except AssemblyError Machine) :
    List Log.Entry :=
  Assembly.programLog text ++ match result with
    | .ok m => m.runLog limit
    | .error _ => []

end RegisterMachine
