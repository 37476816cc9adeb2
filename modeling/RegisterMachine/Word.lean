/-! Thirty-two bit words, written as integers. Registers hold the signed reading of a word and the
    remainder of a division the unsigned one. Both readings are the member of their range that is
    congruent to the given integer modulo `2 ^ 32`. -/

namespace RegisterMachine.Word

/-- The greatest unsigned word. -/
def mask : Nat := 0xFFFFFFFF

/-- The number of words. -/
def modulus : Nat := mask + 1

/-- The unsigned word congruent to `x`, in `[0, 2 ^ 32)`. -/
def unsigned (x : Int) : Int := x % (modulus : Int)

/-- The signed word congruent to `x`, in `[-2 ^ 31, 2 ^ 31)`: an unsigned word with the highest bit
    set stands for a negative number. -/
def signed (x : Int) : Int :=
  if unsigned x < 0x80000000 then unsigned x else unsigned x - modulus

/-- A signed word of thirty-two bits. -/
def IsSigned (x : Int) : Prop := -0x80000000 ≤ x ∧ x < 0x80000000

/-- An unsigned word of thirty-two bits. -/
def IsUnsigned (x : Int) : Prop := 0 ≤ x ∧ x < 0x100000000

theorem isUnsigned_unsigned (x : Int) : IsUnsigned (unsigned x) := by
  rw [IsUnsigned, unsigned, modulus, mask]
  omega

theorem isSigned_signed (x : Int) : IsSigned (signed x) := by
  rw [IsSigned, signed, unsigned, modulus, mask]
  split <;> omega

theorem signed_of_isSigned {x : Int} (h : IsSigned x) : signed x = x := by
  obtain ⟨lower, upper⟩ := h
  rw [signed, unsigned, modulus, mask]
  split <;> omega

theorem signed_eq_bmod (x : Int) : signed x = x.bmod modulus := by
  have half : ((modulus : Int) + 1) / 2 = 0x80000000 := by decide
  rw [Int.bmod_def, half]
  rfl

/-- The quotient of two integers of any size, rounded toward zero; none for a zero divisor. -/
def quotient? (a b : Int) : Option Int :=
  if b = 0 then none
  else
    let q : Int := (a.natAbs / b.natAbs : Nat)
    some (if decide (a < 0) != decide (b < 0) then -q else q)

theorem quotient?_eq_none_iff {a b : Int} : quotient? a b = none ↔ b = 0 := by
  simp [quotient?]

/-- Dividing the absolute values and choosing the sign rounds toward zero. -/
theorem quotient?_of_ne_zero (a : Int) {b : Int} (nonzero : b ≠ 0) :
    quotient? a b = some (a.tdiv b) := by
  have abs_eq (x : Int) : (x.natAbs : Int) = if x < 0 then -x else x := by split <;> omega
  rw [quotient?, if_neg nonzero, Int.ofNat_tdiv, abs_eq, abs_eq]
  by_cases ha : a < 0 <;> by_cases hb : b < 0 <;> simp [ha, hb]

/-- The byte that an integer stands for. -/
def byte? (n : Int) : Option UInt8 := if 0 ≤ n ∧ n < 256 then some (UInt8.ofNat n.toNat) else none

end RegisterMachine.Word
