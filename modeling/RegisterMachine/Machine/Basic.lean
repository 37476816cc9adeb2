import RegisterMachine.Word
import RegisterMachine.Instruction
import RegisterMachine.Text.HexBytes

/-! The machine: thirty-two registers, a comparison flag, the remainder of the last division, a
    heap that only grows, and a program of bytes with a counter into it. The counter is an integer
    of any size, since jumps may leave the program on either side. -/

namespace RegisterMachine

/-- The number of registers. -/
abbrev registerCount : Nat := 32

/-- The greatest size of the heap, in bytes. -/
def heapLimit : Nat := 0x100000

/-- The index of a register. -/
abbrev Register := Fin registerCount

/-- Where the last result stands: in a register or in the comparison flag. -/
inductive Output where
  | register (r : Register)
  | flag
  deriving DecidableEq

/-- The number that stands for the comparison flag among the register indices. -/
def Output.flagIndex : Int := -1

/-- An output as a number. -/
def Output.index : Output → Int
  | .register r => r.val
  | .flag => flagIndex

/-- The output that a number stands for. -/
def Output.ofIndex? (n : Int) : Option Output :=
  if n = flagIndex then some .flag
  else if h : 0 ≤ n ∧ n.toNat < registerCount then some (.register ⟨n.toNat, h.2⟩)
  else none

/-- Why a machine does not go on. -/
inductive Stop where
  | halt        -- a halt instruction
  | illegal     -- a byte that is no operation
  | fault       -- an instruction that cannot be carried out
  | ended       -- the counter is outside the program
  | stepLimit   -- the steps allowed to a run are used up
  deriving DecidableEq

def Stop.name : Stop → String
  | .halt => "halt"
  | .illegal => "illegal"
  | .fault => "fault"
  | .ended => "end"
  | .stepLimit => "step-limit"

/-- What is wrong with an instruction that cannot be carried out. -/
inductive Fault where
  | pastEnd (address : Int)
  | noRegister (index : UInt8)
  | divisionByZero
  | negativeAllocation (size : Int)
  | heapExceeded (size : Int)
  deriving DecidableEq

/-- What is said of a fault; addresses and sizes are written in full, whatever their length. -/
def Fault.message : Fault → String
  | .pastEnd address => s!"Operand fetch past end of program at {address}"
  | .noRegister index => s!"Register ${index.toNat} out of range"
  | .divisionByZero => "Division by zero"
  | .negativeAllocation size => s!"Negative allocation of {size} bytes"
  | .heapExceeded size => s!"Allocation of {size} bytes exceeds heap limit"

/-- Why an instruction did not complete. -/
inductive Trap where
  | halt
  | illegal (byte : UInt8) (address : Int)
  | fault (cause : Fault)
  deriving DecidableEq

def Trap.message : Trap → String
  | .halt => ""
  | .illegal byte address => s!"Illegal opcode 0x{Text.hexByte byte} at {address}"
  | .fault cause => cause.message

/-- The state of a machine. `stop` tells why the last step or run stopped, if it did, and
    `diagnosis` what was wrong if that was an illegal byte or a fault. -/
structure Machine where
  pc : Int := 0
  registers : Vector Int registerCount := Vector.replicate registerCount 0
  flag : Bool := false
  remainder : Int := 0
  out : Output := .register 0
  heap : Array UInt8 := #[]
  program : Array UInt8 := #[]
  stop : Option Stop := none
  diagnosis : Option Trap := none
  deriving DecidableEq

/-- What of a state the instructions work on; the program and the stop fields stay out. -/
structure Snapshot where
  pc : Int
  registers : Vector Int registerCount
  flag : Bool
  remainder : Int
  out : Output
  heap : Array UInt8
  deriving DecidableEq

/-- Bytes that cannot be loaded. -/
inductive LoadError where
  | notAByte
  | wrongSize (bytes : List UInt8)
  deriving DecidableEq

def LoadError.message : LoadError → String
  | .notAByte => "byte must be in range(0, 256)"
  | .wrongSize bytes => s!"Instruction {Text.hexRowLower bytes} is not {Instruction.size} bytes"

namespace Machine

/-- A machine that has done nothing, with an empty program. -/
def fresh : Machine := {}

def snapshot (m : Machine) : Snapshot :=
  { pc := m.pc, registers := m.registers, flag := m.flag, remainder := m.remainder, out := m.out,
    heap := m.heap }

/-- The counter is inside the program. -/
def inBounds (m : Machine) : Bool := decide (0 ≤ m.pc ∧ m.pc < m.program.size)

/-- The program byte at an address. -/
def byteAt? (m : Machine) (address : Int) : Option UInt8 :=
  if 0 ≤ address then m.program[address.toNat]? else none

/-- The last result. -/
def output (m : Machine) : Int :=
  match m.out with
  | .register r => m.registers[r]
  | .flag => if m.flag then 1 else 0

/-- Writes a register: the value is wrapped to a signed word, and the register becomes the
    output. -/
def write (m : Machine) (r : Register) (value : Int) : Machine :=
  { m with registers := m.registers.set r (Word.signed value), out := .register r }

/-! ### Loading -/

/-- Adds bytes at the end of the program. -/
def append (m : Machine) (bytes : List UInt8) : Machine :=
  { m with program := m.program ++ bytes }

/-- Adds bytes given as integers; if one of them is no byte, nothing is added. -/
def appendInts (m : Machine) (values : List Int) : Except LoadError Machine :=
  match values.mapM Word.byte? with
  | some bytes => .ok (m.append bytes)
  | none => .error .notAByte

/-- Adds groups of bytes up to the first one that has not the size of an instruction. -/
def appendGroups (m : Machine) : List (List UInt8) → Option LoadError × Machine
  | [] => (none, m)
  | g :: gs =>
    if g.length = Instruction.size then (m.append g).appendGroups gs
    else (some (.wrongSize g), m)

/-- Adds the encoded instructions. -/
def appendInstructions (m : Machine) (is : List Instruction) : Machine :=
  m.append (Instruction.encodeAll is)

end Machine

end RegisterMachine
