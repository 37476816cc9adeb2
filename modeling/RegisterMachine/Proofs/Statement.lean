import RegisterMachine.Assembly.Program

/-! Statements: instructions as they are written. A statement is an operation and its operands,
    which are integers of any size; it is spelled as a row of tokens and, if its operands fit,
    stands for a word of four bytes. -/

namespace RegisterMachine

/-- The operands of an operation of the given shape as they are written. -/
inductive Arguments : Shape → Type where
  | nullary : Arguments .nullary
  | integer (dest value : Int) : Arguments .integer
  | binary (left right dest : Int) : Arguments .binary
  | compare (left right : Int) : Arguments .compare
  | unary (register : Int) : Arguments .unary
  deriving DecidableEq

/-- A register index that has a byte. -/
def FitsByte (index : Int) : Prop := 0 ≤ index ∧ index ≤ 0xFF

/-- An integer that has two bytes, signed or unsigned. -/
def FitsHalf (value : Int) : Prop := -0x8000 ≤ value ∧ value ≤ 0xFFFF

namespace Arguments

variable {s : Shape}

/-- How the operands are spelled. -/
def tokens : Arguments s → List Token
  | .nullary => []
  | .integer dest value => [.register dest, .integer value]
  | .binary left right dest => [.register left, .register right, .register dest]
  | .compare left right => [.register left, .register right]
  | .unary register => [.register register]

/-- All operands have a place in the word. -/
def Fit : Arguments s → Prop
  | .nullary => True
  | .integer dest value => FitsByte dest ∧ FitsHalf value
  | .binary left right dest => FitsByte left ∧ FitsByte right ∧ FitsByte dest
  | .compare left right => FitsByte left ∧ FitsByte right
  | .unary register => FitsByte register

/-- The three bytes behind the code byte, as numbers. -/
def bytes : Arguments s → List Int
  | .nullary => [0, 0, 0]
  | .integer dest value => [dest, value % 65536 / 256, value % 65536 % 256]
  | .binary left right dest => [left, right, dest]
  | .compare left right => [left, right, 0]
  | .unary register => [register, 0, 0]

/-- The operands of the instruction that is meant. -/
def operands : Arguments s → Operands s
  | .nullary => .nullary
  | .integer dest value => .integer (UInt8.ofNat dest.toNat) (UInt16.ofInt value)
  | .binary left right dest =>
    .binary (UInt8.ofNat left.toNat) (UInt8.ofNat right.toNat) (UInt8.ofNat dest.toNat)
  | .compare left right => .compare (UInt8.ofNat left.toNat) (UInt8.ofNat right.toNat)
  | .unary register => .unary (UInt8.ofNat register.toNat)

end Arguments

/-- An operation with its operands as they are written. -/
structure Statement where
  op : Opcode
  arguments : Arguments op.shape
  deriving DecidableEq

namespace Statement

/-- How a statement is spelled. -/
def tokens (s : Statement) : List Token := .operator s.op :: s.arguments.tokens

/-- The statement can be assembled. -/
def Fits (s : Statement) : Prop := s.op ≠ .illegal ∧ s.arguments.Fit

/-- The four bytes that a statement stands for, as numbers. -/
def word (s : Statement) : List Int := s.op.byte.toNat :: s.arguments.bytes

/-- The instruction that a statement stands for. -/
def instruction (s : Statement) : Instruction := ⟨s.op, s.arguments.operands⟩

end Statement

/-! ### Words -/

theorem FitsByte.toNat {index : Int} (h : FitsByte index) :
    ((UInt8.ofNat index.toNat).toNat : Int) = index := by
  obtain ⟨nonneg, small⟩ := h
  rw [UInt8.toNat_ofNat']
  omega

theorem toNat_ofInt_half (value : Int) : ((UInt16.ofInt value).toNat : Int) = value % 65536 := by
  rw [UInt16.ofInt, UInt16.toNat_ofNat']
  omega

theorem high_byte (half : UInt16) : ((half >>> 8).toUInt8.toNat : Int) = half.toNat / 256 := by
  have small := half.toNat_lt
  rw [UInt16.toNat_toUInt8, UInt16.toNat_shiftRight, Nat.shiftRight_eq_div_pow]
  simp only [UInt16.reduceToNat, Nat.reduceMod, Nat.reducePow]
  omega

theorem low_byte (half : UInt16) : (half.toUInt8.toNat : Int) = half.toNat % 256 := by
  rw [UInt16.toNat_toUInt8]
  omega

theorem Arguments.Fit.bytes_operands {s : Shape} {a : Arguments s} (h : a.Fit) :
    a.operands.bytes.map (fun b => (b.toNat : Int)) = a.bytes := by
  cases a with
  | nullary => rfl
  | integer dest value =>
    obtain ⟨dest_fits, -⟩ := h
    simp only [operands, Operands.bytes, List.map_cons, List.map_nil, bytes]
    rw [dest_fits.toNat, high_byte, low_byte, toNat_ofInt_half]
  | binary left right dest =>
    obtain ⟨left_fits, right_fits, dest_fits⟩ := h
    simp only [operands, Operands.bytes, List.map_cons, List.map_nil, bytes]
    rw [left_fits.toNat, right_fits.toNat, dest_fits.toNat]
  | compare left right =>
    obtain ⟨left_fits, right_fits⟩ := h
    simp only [operands, Operands.bytes, List.map_cons, List.map_nil, bytes]
    rw [left_fits.toNat, right_fits.toNat]; rfl
  | unary register =>
    have fits : FitsByte register := h
    simp only [operands, Operands.bytes, List.map_cons, List.map_nil, bytes]
    rw [fits.toNat]; rfl

/-- The instruction of a statement is encoded as the bytes that the statement stands for. -/
theorem Statement.Fits.encode_instruction {s : Statement} (h : s.Fits) :
    s.instruction.encode.map (fun b => (b.toNat : Int)) = s.word := by
  rw [instruction, Instruction.encode, List.map_cons, h.2.bytes_operands, word]

/-! ### Spelling -/

theorem Arguments.endOfInput_not_mem_tokens {s : Shape} (a : Arguments s) :
    Token.endOfInput ∉ a.tokens := by
  cases a <;> simp [tokens]

theorem Statement.endOfInput_not_mem_tokens (s : Statement) : Token.endOfInput ∉ s.tokens := by
  simp [tokens, s.arguments.endOfInput_not_mem_tokens]

theorem Statement.endOfInput_not_mem_flatMap (ss : List Statement) :
    Token.endOfInput ∉ ss.flatMap tokens := by
  simp [endOfInput_not_mem_tokens]

end RegisterMachine
