import Mathlib.Data.Int.ModEq
import RegisterMachine.Proofs.Invariant

/-! Division. Rounding toward zero is told by the law of quotient and remainder, which leaves one
    pair of numbers only, and wrapping to a word loses a quotient of words only where the least
    number is divided by minus one. Main statement (`division_exact`): a division that completes
    has the quotient in its destination and the remainder, read as an unsigned word, in the place
    of remainders, whatever registers it names. -/

namespace RegisterMachine

namespace Word

/-! ### Words and the integers they stand for -/

theorem signed_modEq (x : Int) : signed x ≡ x [ZMOD 0x100000000] := by
  rw [signed_eq_bmod]
  exact Int.bmod_emod

theorem signed_unsigned (x : Int) : signed (unsigned x) = signed x := by
  rw [signed_eq_bmod, signed_eq_bmod]
  exact Int.emod_bmod x modulus

/-! ### Rounding toward zero -/

/-- The law of division: `a` is `q` times `b`, and `r` is left over, which is smaller than the
    divisor and has the sign of `a` unless it is zero. -/
structure Truncated (a b q r : Int) : Prop where
  sum : a = q * b + r
  small : r.natAbs < b.natAbs
  sign : r = 0 ∨ r.sign = a.sign

theorem truncated_tdiv {a b : Int} (nonzero : b ≠ 0) :
    Truncated a b (a.tdiv b) (a.tmod b) where
  sum := (Int.tdiv_mul_add_tmod a b).symm
  small := by
    rw [Int.natAbs_tmod]
    exact Nat.mod_lt _ (Int.natAbs_pos.2 nonzero)
  sign := by
    have sign_eq := Int.sign_tmod a b
    split at sign_eq
    · exact .inl (Int.sign_eq_zero_iff_zero.1 sign_eq)
    · exact .inr sign_eq

theorem Truncated.nonzero {a b q r : Int} (h : Truncated a b q r) : b ≠ 0 := by
  rintro rfl
  exact Nat.not_lt_zero _ h.small

/-- The law leaves no choice. -/
theorem Truncated.tdiv_eq {a b q r : Int} (h : Truncated a b q r) : a.tdiv b = q := by
  have nonzero := h.nonzero
  have sum : r + b * q = a := by rw [h.sum, Int.mul_comm]; omega
  have small := h.small
  -- The sign of the remainder decides which of the two uniqueness lemmas applies.
  rcases Int.le_total 0 a with nonneg | nonpos
  · have rest_nonneg : 0 ≤ r := by
      rcases h.sign with rfl | sign
      · rfl
      · rw [← Int.sign_nonneg_iff, sign, Int.sign_nonneg_iff]; exact nonneg
    exact ((Int.tdiv_tmod_unique nonneg nonzero).2 ⟨sum, rest_nonneg, by omega⟩).1
  · have rest_nonpos : r ≤ 0 := by
      rcases h.sign with rfl | sign
      · rfl
      · rw [← Int.sign_nonpos_iff, sign, Int.sign_nonpos_iff]; exact nonpos
    exact ((Int.tdiv_tmod_unique' nonpos nonzero).2 ⟨sum, by omega, rest_nonpos⟩).1

/-- The quotient of two integers of any size is the one that satisfies the law. -/
theorem truncated_iff {a b q r : Int} :
    Truncated a b q r ↔ quotient? a b = some q ∧ r = a - q * b := by
  constructor
  · intro h
    rw [quotient?_of_ne_zero a h.nonzero, h.tdiv_eq]
    exact ⟨rfl, by have := h.sum; omega⟩
  · rintro ⟨found, rfl⟩
    by_cases zero : b = 0
    · rw [quotient?_eq_none_iff.2 zero] at found
      cases found
    · rw [quotient?_of_ne_zero a zero] at found
      cases found
      have rest_eq := Int.tmod_def a b
      rw [Int.mul_comm] at rest_eq
      rw [← rest_eq]
      exact truncated_tdiv zero

/-- The quotient of words is a word, but for the one that is too great by one. -/
theorem Truncated.isSigned {a b q r : Int} (h : Truncated a b q r) (word : IsSigned a)
    (regular : ¬ (a = -0x80000000 ∧ b = -1)) : IsSigned q := by
  obtain ⟨lower, upper⟩ := word
  rw [IsSigned]
  have quotient_eq := h.tdiv_eq
  by_cases unit : b.natAbs = 1
  · rcases (by omega : b = 1 ∨ b = -1) with rfl | rfl
    · rw [Int.tdiv_one] at quotient_eq; omega
    · rw [Int.tdiv_neg, Int.tdiv_one] at quotient_eq; omega
  · have nonzero := h.nonzero
    have half : q.natAbs ≤ a.natAbs / 2 := by
      rw [← quotient_eq, Int.natAbs_tdiv]
      exact Nat.div_le_div_left (by omega) (by decide)
    omega

theorem Truncated.extreme {q r : Int} (h : Truncated (-0x80000000) (-1) q r) :
    signed q = -0x80000000 ∧ r = 0 := by
  have small := h.small
  rw [← h.tdiv_eq]
  exact ⟨rfl, by omega⟩

/-- What is left over is a word, and its unsigned reading says which. -/
theorem Truncated.signed_unsigned {a b q r : Int} (h : Truncated a b q r) (word : IsSigned b) :
    signed (unsigned r) = r := by
  obtain ⟨lower, upper⟩ := word
  have small := h.small
  rw [Word.signed_unsigned, signed_of_isSigned (by rw [IsSigned]; omega)]

end Word

/-! ### Operands -/

/-- The byte at the address is the index of the register. -/
def Machine.Names (m : Machine) (address : Int) (r : Register) : Prop :=
  ∃ b, m.byteAt? address = some b ∧ b.toNat = r

namespace Fetch

variable {m : Machine} {address behind : Int}

theorem names_of_register {r : Register} (h : register.result m address = .ok r behind) :
    m.Names address r ∧ behind = address + 1 := by
  rw [register, result_bind_eq_ok] at h
  obtain ⟨index, mid, read, named⟩ := h
  rw [result_byte] at read
  split at read
  · rename_i at_address
    cases read
    split at named
    · cases named
      exact ⟨⟨_, at_address, rfl⟩, rfl⟩
    · cases named
  · cases read

theorem names_of_source {value : Int} (h : source.result m address = .ok value behind) :
    ∃ r, value = m.registers.get r ∧ m.Names address r ∧ behind = address + 1 := by
  rw [source, result_bind_eq_ok] at h
  obtain ⟨r, mid, named, looked_up⟩ := h
  rw [result_read_bind] at looked_up
  cases looked_up
  exact ⟨r, rfl, names_of_register named⟩

/-- A division that is read to its end names three registers, and its result satisfies the law. -/
theorem exists_operands_of_division {e : Effect} (h : division.result m address = .ok e behind) :
    ∃ left right dest q r, m.Names address left ∧ m.Names (address + 1) right ∧
      m.Names (address + 2) dest ∧
      Word.Truncated (m.registers.get left) (m.registers.get right) q r ∧
      e = .divide dest q r := by
  simp only [division, result_bind_eq_ok] at h
  obtain ⟨a, _, first, b, _, second, h⟩ := h
  obtain ⟨left, rfl, names_left, rfl⟩ := names_of_source first
  obtain ⟨right, rfl, names_right, rfl⟩ := names_of_source second
  split at h
  · cases h
  · rename_i q found
    obtain ⟨dest, _, third, h⟩ := result_bind_eq_ok.1 h
    obtain ⟨names_dest, rfl⟩ := names_of_register third
    cases h
    rw [Int.add_assoc] at names_dest
    have law := Word.truncated_iff.2 ⟨found, rfl⟩
    exact ⟨left, right, dest, q, _, names_left, names_right, names_dest, law, rfl⟩

end Fetch

namespace Machine

/-- What a division that completes writes satisfies the law, up to wrapping. -/
theorem Completes.exists_division {m m' : Machine} (done : m.Completes m')
    (at_pc : m.byteAt? m.pc = some Opcode.div.byte) : ∃ left right dest q r,
      m.Names (m.pc + 1) left ∧ m.Names (m.pc + 2) right ∧ m.Names (m.pc + 3) dest ∧
      Word.Truncated (m.registers.get left) (m.registers.get right) q r ∧
      m'.registers = m.registers.set dest (Word.signed q) dest.isLt ∧
      m'.remainder = Word.unsigned r := by
  obtain ⟨e, pc, fetched, rfl⟩ := done.exists_effect
  have read := Fetch.result_instruction (m := m.cleared) at_pc
  have op_eq : Opcode.ofByte Opcode.div.byte = .div := by decide
  rw [op_eq] at read
  obtain ⟨left, right, dest, q, r, names_left, names_right, names_dest, law, rfl⟩ :=
    Fetch.exists_operands_of_division (read.symm.trans fetched)
  rw [Int.add_assoc] at names_right names_dest
  exact ⟨left, right, dest, q, r, names_left, names_right, names_dest, law, rfl, rfl⟩

/-- Division is exact: quotient and rest satisfy the law of division, and wrapping loses something
    only where the least number is divided by minus one. -/
theorem division_exact {m m' : Machine} (words : m.HoldsWords)
    (at_pc : m.byteAt? m.pc = some Opcode.div.byte) (done : m.Completes m') :
    (∃ left right dest q r,
      m.Names (m.pc + 1) left ∧ m.Names (m.pc + 2) right ∧ m.Names (m.pc + 3) dest ∧
      let a := m.registers.get left
      let b := m.registers.get right
      Word.Truncated a b q r ∧
      m'.registers.get dest = Word.signed q ∧
      (¬ (a = -0x80000000 ∧ b = -1) → Word.signed q = q) ∧
      (a = -0x80000000 ∧ b = -1 → Word.signed q = -0x80000000 ∧ m'.remainder = 0) ∧
      (∀ other ≠ dest, m'.registers.get other = m.registers.get other) ∧
      m'.remainder = r % 0x100000000 ∧ Word.signed m'.remainder = r ∧
      m'.registers.get dest * b + Word.signed m'.remainder ≡ a [ZMOD 0x100000000]) ∧
    m.step.2.snapshot = m'.snapshot ∧
    (∀ a b q r : Int, Word.Truncated a b q r ↔ Word.quotient? a b = some q ∧ r = a - q * b) ∧
    ∀ a b : Int, Word.quotient? a b = none ↔ b = 0 := by
  refine ⟨?_, ?_, fun a b q r => Word.truncated_iff, fun a b => Word.quotient?_eq_none_iff⟩
  · obtain ⟨left, right, dest, q, r, names_left, names_right, names_dest, law, registers_eq,
      remainder_eq⟩ := done.exists_division at_pc
    have dest_eq : m'.registers.get dest = Word.signed q := by
      rw [registers_eq]
      exact Vector.getElem_set_self dest.isLt
    have rest_eq : Word.signed m'.remainder = r := by
      rw [remainder_eq, law.signed_unsigned (words right)]
    refine ⟨left, right, dest, q, r, names_left, names_right, names_dest, law, dest_eq, ?_, ?_, ?_,
      remainder_eq, rest_eq, ?_⟩
    · intro regular
      exact Word.signed_of_isSigned (law.isSigned (words left) regular)
    · rintro ⟨a_eq, b_eq⟩
      rw [a_eq, b_eq] at law
      obtain ⟨quotient_eq, rfl⟩ := law.extreme
      exact ⟨quotient_eq, remainder_eq⟩
    · intro other different
      have apart : (dest : Nat) ≠ other := fun same => different (Fin.ext same.symm)
      rw [registers_eq]
      exact Vector.getElem_set_ne dest.isLt other.isLt apart
    · rw [dest_eq, rest_eq]
      calc Word.signed q * m.registers.get right + r
          ≡ q * m.registers.get right + r [ZMOD 0x100000000] :=
            ((Word.signed_modEq q).mul_right _).add_right r
        _ = m.registers.get left := law.sum.symm
  · rw [step_of_completes done]
    split <;> rfl

/-- The least number divided by minus one, with the divisor's own register as the destination. -/
theorem division_exact_least :
    let m : Machine := { fresh with
      registers := (fresh.registers.set 1 (-0x80000000)).set 2 (-1),
      program := #[Opcode.div.byte, 1, 2, 2] }
    let m' : Machine := { m with
      pc := 4, registers := m.registers.set 2 (-0x80000000), out := .register 2 }
    m.HoldsWords ∧ m.byteAt? m.pc = some Opcode.div.byte ∧ m.Completes m' ∧
      m'.registers.get 2 * -1 + Word.signed m'.remainder ≡ -0x80000000 [ZMOD 0x100000000] := by
  intro m m'
  have words : m.HoldsWords := by
    have words : ∀ r, -0x80000000 ≤ m.registers.get r ∧ m.registers.get r < 0x80000000 := by
      decide
    exact words
  have at_pc : m.byteAt? m.pc = some Opcode.div.byte := by decide
  have done : m.Completes m' := ⟨by decide, by decide⟩
  obtain ⟨⟨left, right, dest, q, r, ⟨_, at_left, left_eq⟩, ⟨_, at_right, right_eq⟩,
    ⟨_, at_dest, dest_eq⟩, -, -, -, -, -, -, -, congruent⟩, -⟩ :=
    division_exact words at_pc done
  cases at_left
  cases at_right
  cases at_dest
  obtain rfl : left = 1 := Fin.ext left_eq.symm
  obtain rfl : right = 2 := Fin.ext right_eq.symm
  obtain rfl : dest = 2 := Fin.ext dest_eq.symm
  exact ⟨words, at_pc, done, congruent⟩

end Machine

end RegisterMachine
