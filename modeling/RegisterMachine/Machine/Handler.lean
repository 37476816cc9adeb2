import RegisterMachine.Machine.Fetch

/-! What the instructions do. A handler works on the machine in place: it fetches its operands one
    after the other, and what it has written stays written where it is broken off. -/

namespace RegisterMachine

/-- Work on a machine in place. -/
abbrev Handler := EStateM Trap Machine

namespace Handler

/-- Reads from the counter on and moves it. -/
def fetch {α : Type} (f : Fetch α) : Handler α := fun m =>
  match m.fetch f with
  | (.ok a, m') => .ok a m'
  | (.error t, m') => .error t m'

instance : MonadLift Fetch Handler := ⟨fetch⟩

/-- Writes the register that the next byte names. -/
def writeNext (value : Int) : Handler Unit := do
  let dest ← Fetch.register
  modify (·.write dest value)

/-! ### Operations -/

def load : Handler Unit := do
  let dest ← Fetch.register
  let value ← Fetch.signedHalf
  modify (·.write dest value)

/-- Two sources and a destination, which receives their combination. -/
def arithmetic (f : Int → Int → Int) : Handler Unit := do
  let a ← Fetch.source
  let b ← Fetch.source
  writeNext (f a b)

/-- Division checks the divisor before it looks for a destination. -/
def division : Handler Unit := do
  let a ← Fetch.source
  let b ← Fetch.source
  match Word.quotient? a b with
  | none => Fetch.fail .divisionByZero
  | some q =>
    writeNext q
    modify fun m => { m with remainder := Word.unsigned (a - q * b) }

/-- Two sources and a byte of padding. -/
def comparison (f : Int → Int → Bool) : Handler Unit := do
  let a ← Fetch.source
  let b ← Fetch.source
  let _ ← Fetch.byte
  modify fun m => { m with flag := f a b, out := .flag }

/-- A jump whose target is found from the address behind the register and the register's value;
    the padding is not read. -/
def branch (f : Int → Int → Int) : Handler Unit := do
  let offset ← Fetch.source
  modify fun m => { m with pc := f m.pc offset }

/-- A jump if the flag is set; only the other case reads the padding. -/
def conditional : Handler Unit := do
  let target ← Fetch.source
  if (← get).flag then
    modify fun m => { m with pc := target }
  else
    let _ ← Fetch.half

/-- An allocation checks its size before it reads the padding. -/
def allocation : Handler Unit := do
  let size ← Fetch.source
  if size < 0 then Fetch.fail (.negativeAllocation size)
  if (← get).heap.size + size > heapLimit then Fetch.fail (.heapExceeded size)
  let _ ← Fetch.half
  modify fun m => { m with heap := m.heap ++ Array.replicate size.toNat 0 }

/-- What is no operation is found right before the counter. -/
def illegal (code : UInt8) : Handler Unit := do
  let address := (← get).pc - 1
  throw (.illegal code address)

/-- The handler of an operation whose code byte has just been read. -/
def operation (code : UInt8) : Opcode → Handler Unit
  | .hlt => throw .halt
  | .load => load
  | .add => arithmetic (· + ·)
  | .sub => arithmetic (· - ·)
  | .mul => arithmetic (· * ·)
  | .div => division
  | .jmp => branch fun _ target => target
  | .jmpf => branch (· + ·)
  | .jmpb => branch (· - ·)
  | .eq => comparison fun a b => decide (a = b)
  | .neq => comparison fun a b => decide (a ≠ b)
  | .gt => comparison fun a b => decide (a > b)
  | .lt => comparison fun a b => decide (a < b)
  | .gteq => comparison fun a b => decide (a ≥ b)
  | .lteq => comparison fun a b => decide (a ≤ b)
  | .jeq => conditional
  | .alloc => allocation
  | .illegal => illegal code

/-- The instruction at the counter. -/
def instruction : Handler Unit := do
  let code ← Fetch.byte
  operation code (Opcode.ofByte code)

end Handler

namespace Machine

/-- Lets a handler work on the machine and tells the trap, if there was one. -/
def carryOut (m : Machine) (h : Handler Unit) : Option Trap × Machine :=
  match h.run m with
  | .ok _ m' => (none, m')
  | .error t m' => (some t, m')

/-- Writes the register that the next byte names. -/
def writeNext (m : Machine) (value : Int) : Option Trap × Machine :=
  m.carryOut (Handler.writeNext value)

/-- Executes the instruction at the counter and tells the trap, if there was one. The counter is
    not taken back. -/
def execNext (m : Machine) : Option Trap × Machine := m.carryOut Handler.instruction

end Machine

end RegisterMachine
