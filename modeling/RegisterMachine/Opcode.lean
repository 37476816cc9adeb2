/-! The operations of the machine. Each operation has one code byte, one mnemonic and a shape that
    says how its three operand bytes are laid out. Bytes and mnemonics that name no operation are
    read as `illegal`, which has a code byte of its own but no mnemonic that could be written. -/

namespace RegisterMachine

/-- Layout of the three bytes behind the code byte. -/
inductive Shape where
  | nullary   -- three zero bytes
  | integer   -- a register and a two-byte integer
  | binary    -- two sources and a destination
  | compare   -- two sources and a zero byte
  | unary     -- a register and two zero bytes
  deriving DecidableEq

/-- The operations, in the order of their code bytes. -/
inductive Opcode where
  | hlt | load
  | add | sub | mul | div
  | jmp | jmpf | jmpb
  | eq | neq | gt | lt | gteq | lteq
  | jeq | alloc
  | illegal
  deriving DecidableEq

def Shape.name : Shape → String
  | .nullary => "nullary"
  | .integer => "integer"
  | .binary => "binary"
  | .compare => "compare"
  | .unary => "unary"

namespace Opcode

/-- The operations that a program may use. -/
def legal : List Opcode :=
  [.hlt, .load, .add, .sub, .mul, .div, .jmp, .jmpf, .jmpb,
    .eq, .neq, .gt, .lt, .gteq, .lteq, .jeq, .alloc]

/-- The code byte of an operation. -/
def byte : Opcode → UInt8
  | .hlt => 0x00
  | .load => 0x01
  | .add => 0x02
  | .sub => 0x03
  | .mul => 0x04
  | .div => 0x05
  | .jmp => 0x06
  | .jmpf => 0x07
  | .jmpb => 0x08
  | .eq => 0x09
  | .neq => 0x0A
  | .gt => 0x0B
  | .lt => 0x0C
  | .gteq => 0x0D
  | .lteq => 0x0E
  | .jeq => 0x0F
  | .alloc => 0x10
  | .illegal => 0xFF

/-- The word that stands for an operation in a source text. -/
def mnemonic : Opcode → String
  | .hlt => "hlt"
  | .load => "load"
  | .add => "add"
  | .sub => "sub"
  | .mul => "mul"
  | .div => "div"
  | .jmp => "jmp"
  | .jmpf => "jmpf"
  | .jmpb => "jmpb"
  | .eq => "eq"
  | .neq => "neq"
  | .gt => "gt"
  | .lt => "lt"
  | .gteq => "gteq"
  | .lteq => "lteq"
  | .jeq => "jeq"
  | .alloc => "alloc"
  | .illegal => "ilgl"

/-- How the operands of an operation are laid out. -/
def shape : Opcode → Shape
  | .hlt | .illegal => .nullary
  | .load => .integer
  | .add | .sub | .mul | .div => .binary
  | .eq | .neq | .gt | .lt | .gteq | .lteq => .compare
  | .jmp | .jmpf | .jmpb | .jeq | .alloc => .unary

/-- The name under which tables list an operation: its mnemonic in capitals. -/
def name : Opcode → String
  | .illegal => "ILLEGAL"
  | op => op.mnemonic.toUpper

/-- The operation with a given code byte. -/
def ofByte (b : UInt8) : Opcode := (legal.find? (·.byte == b)).getD .illegal

/-- The operation with a given mnemonic. -/
def ofMnemonic (text : String) : Opcode := (legal.find? (·.mnemonic == text)).getD .illegal

/-- The operation whose code is exactly `n`, `illegal` included. -/
def ofCode? (n : Int) : Option Opcode := (legal ++ [illegal]).find? fun op => op.byte.toNat == n

/-- The operation that an integer of any size stands for. -/
def ofCode (n : Int) : Opcode := (ofCode? n).getD .illegal

end Opcode

end RegisterMachine
