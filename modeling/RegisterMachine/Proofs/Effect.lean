import RegisterMachine.Machine.Run

/-! Instructions told before they are carried out. The operands are read without anything being
    written, and what the instruction will change is the result of the reading, an `Effect`. -/

namespace RegisterMachine

/-- What an instruction changes once its operands are read. -/
inductive Effect where
  | nothing
  | write (dest : Register) (value : Int)
  | divide (dest : Register) (quotient remainder : Int)
  | compare (result : Bool)
  | jump (target : Int)
  | grow (size : Nat)
  deriving DecidableEq

namespace Fetch

def load : Fetch Effect := do
  let dest ← register
  return .write dest (← signedHalf)

def arithmetic (f : Int → Int → Int) : Fetch Effect := do
  let a ← source
  let b ← source
  return .write (← register) (f a b)

def division : Fetch Effect := do
  let a ← source
  let b ← source
  match Word.quotient? a b with
  | none => fail .divisionByZero
  | some q => return .divide (← register) q (a - q * b)

def comparison (f : Int → Int → Bool) : Fetch Effect := do
  let a ← source
  let b ← source
  let _ ← byte
  return .compare (f a b)

def branch (f : Int → Int → Int) : Fetch Effect := do
  let offset ← source
  return .jump (f (← counter) offset)

def conditional : Fetch Effect := do
  let target ← source
  if (← read).flag then return .jump target
  let _ ← half
  return .nothing

def allocation : Fetch Effect := do
  let size ← source
  if size < 0 then fail (.negativeAllocation size)
  if (← read).heap.size + size > heapLimit then fail (.heapExceeded size)
  let _ ← half
  return .grow size.toNat

/-- The operands of an operation whose code byte has just been read at the given address. -/
def operands (address : Int) (code : UInt8) : Opcode → Fetch Effect
  | .hlt => throw .halt
  | .load => load
  | .add => arithmetic (· + ·)
  | .sub => arithmetic (· - ·)
  | .mul => arithmetic (· * ·)
  | .div => division
  | .jmp => branch fun _ target => target
  | .jmpf => branch (· + ·)
  | .jmpb => branch (· - ·)
  | .eq => comparison fun a b => decide (a = b)
  | .neq => comparison fun a b => decide (a ≠ b)
  | .gt => comparison fun a b => decide (a > b)
  | .lt => comparison fun a b => decide (a < b)
  | .gteq => comparison fun a b => decide (a ≥ b)
  | .lteq => comparison fun a b => decide (a ≤ b)
  | .jeq => conditional
  | .alloc => allocation
  | .illegal => throw (.illegal code address)

/-- The instruction at the counter. -/
def instruction : Fetch Effect := do
  let address ← counter
  let code ← byte
  operands address code (Opcode.ofByte code)

end Fetch

/-- Carries out the effect of an instruction behind which the counter already stands. -/
def Machine.apply (m : Machine) : Effect → Machine
  | .nothing => m
  | .write dest value => m.write dest value
  | .divide dest quotient remainder =>
    { m.write dest quotient with remainder := Word.unsigned remainder }
  | .compare result => { m with flag := result, out := .flag }
  | .jump target => { m with pc := target }
  | .grow size => { m with heap := m.heap ++ Array.replicate size 0 }

end RegisterMachine
