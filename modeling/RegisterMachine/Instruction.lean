import RegisterMachine.Opcode

/-! Instructions and their four-byte encoding. The operands are indexed by the shape of the
    operation, so that an instruction always has exactly the operands its operation takes. -/

namespace RegisterMachine

/-- The operands of an instruction of the given shape. -/
inductive Operands : Shape → Type where
  | nullary : Operands .nullary
  | integer (dest : UInt8) (value : UInt16) : Operands .integer
  | binary (left right dest : UInt8) : Operands .binary
  | compare (left right : UInt8) : Operands .compare
  | unary (register : UInt8) : Operands .unary
  deriving DecidableEq

/-- The three operand bytes: integers are big-endian and unused bytes are zero. -/
def Operands.bytes {s : Shape} : Operands s → List UInt8
  | .nullary => [0, 0, 0]
  | .integer dest value => [dest, (value >>> 8).toUInt8, value.toUInt8]
  | .binary left right dest => [left, right, dest]
  | .compare left right => [left, right, 0]
  | .unary register => [register, 0, 0]

/-- An operation with its operands. -/
structure Instruction where
  op : Opcode
  operands : Operands op.shape
  deriving DecidableEq

namespace Instruction

/-- The number of bytes of every instruction. -/
def size : Nat := 4

/-- The code byte followed by the operand bytes. -/
def encode (i : Instruction) : List UInt8 := i.op.byte :: i.operands.bytes

theorem length_encode (i : Instruction) : i.encode.length = size := by
  obtain ⟨op, operands⟩ := i
  cases op <;> cases operands <;> rfl

/-- The bytes of a sequence of instructions. -/
def encodeAll (is : List Instruction) : List UInt8 := is.flatMap encode

end Instruction

end RegisterMachine
