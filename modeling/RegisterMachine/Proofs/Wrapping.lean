import RegisterMachine.Proofs.Division
import RegisterMachine.Proofs.StraightLine

/-! Wrapping. Registers are wrapped whenever they are written, and the operands of the next sum,
    difference or product are what the wrapping has left. Since wrapping goes together with these
    operations, nothing is lost on the way: main statement (`wraps_once`), a program of loads, sums,
    differences and products leaves what one gets from integers of any size by wrapping the last
    result alone. -/

namespace RegisterMachine

/-- The operations with which wrapping goes together. -/
inductive Arithmetic where | add | sub | mul
  deriving DecidableEq

def Arithmetic.combine : Arithmetic → Int → Int → Int
  | .add, a, b => a + b
  | .sub, a, b => a - b
  | .mul, a, b => a * b

theorem Arithmetic.signed_combine (op : Arithmetic) (a b : Int) :
    Word.signed (op.combine (Word.signed a) (Word.signed b)) = Word.signed (op.combine a b) := by
  cases op with
  | add => simp only [combine, Word.signed_eq_bmod, Int.add_bmod_bmod, Int.bmod_add_bmod]
  | sub => simp only [combine, Word.signed_eq_bmod, Int.sub_bmod_bmod, Int.bmod_sub_bmod]
  | mul => simp only [combine, Word.signed_eq_bmod, Int.mul_bmod_bmod, Int.bmod_mul_bmod]

/-- A load of two bytes, read as a signed integer, or a combination of two registers. -/
inductive Assignment where
  | load (dest : Register) (immediate : Int16)
  | combine (op : Arithmetic) (left right dest : Register)
  deriving DecidableEq

namespace Assignment

/-- The assignment as it is written. -/
def statement : Assignment → Statement
  | .load dest immediate => ⟨.load, .integer dest immediate.toInt⟩
  | .combine .add left right dest => ⟨.add, .binary left right dest⟩
  | .combine .sub left right dest => ⟨.sub, .binary left right dest⟩
  | .combine .mul left right dest => ⟨.mul, .binary left right dest⟩

def dest : Assignment → Register
  | .load dest _ => dest
  | .combine _ _ _ dest => dest

/-! ### Integers of any size -/

/-- The value that is assigned, with integers of any size in the registers. -/
def value (file : Vector Int registerCount) : Assignment → Int
  | .load _ immediate => immediate.toInt
  | .combine op left right _ => op.combine (file.get left) (file.get right)

/-- The registers after an assignment, with nothing wrapped. -/
def perform (file : Vector Int registerCount) (a : Assignment) : Vector Int registerCount :=
  file.set a.dest (a.value file) a.dest.isLt

/-- The registers after a row of assignments, with nothing wrapped at any of them. -/
def performAll (file : Vector Int registerCount) (as : List Assignment) :
    Vector Int registerCount :=
  as.foldl perform file

/-- It makes no difference to the word assigned if the operands are wrapped before. -/
theorem signed_value (a : Assignment) (file : Vector Int registerCount) :
    Word.signed (a.value (file.map Word.signed)) = Word.signed (a.value file) := by
  cases a with
  | load dest immediate => rfl
  | combine op left right dest =>
    have get_map (r : Register) : (file.map Word.signed).get r = Word.signed (file.get r) :=
      Vector.getElem_map ..
    rw [value, get_map, get_map, op.signed_combine, value]

/-- Wrapping the registers before an assignment or after it comes to the same. -/
theorem map_perform (a : Assignment) (file : Vector Int registerCount) :
    (a.perform file).map Word.signed = (file.map Word.signed).set a.dest
      (Word.signed (a.value (file.map Word.signed))) a.dest.isLt := by
  rw [perform, Vector.map_set, signed_value]

end Assignment

/-! ### The machine -/

namespace Statement

theorem named_register (r : Register) : named r = .ok r := by
  have index : 0 ≤ ((r : Nat) : Int) ∧ ((r : Nat) : Int) < registerCount := by omega
  rw [named, dif_pos index]
  rfl

theorem valueOf_register (m : Machine) (r : Register) :
    valueOf m r = .ok (m.registers.get r) := by
  rw [valueOf, named_register]; rfl

theorem combine_registers (f : Int → Int → Int) (m : Machine) (left right dest : Register) :
    combine f m left right dest = .ok (setRegister (following m) dest
      (Word.signed (f (m.registers.get left) (m.registers.get right)))) := by
  rw [combine, valueOf_register, valueOf_register, named_register]; rfl

end Statement

namespace Assignment

/-- A machine writes the wrapped value and goes on to the next word. -/
theorem effect_statement (a : Assignment) (m : Machine) :
    a.statement.effect m = .ok (Statement.setRegister (Statement.following m) a.dest
      (Word.signed (a.value m.registers))) := by
  cases a with
  | load dest immediate =>
    have lower := immediate.le_toInt
    have upper := immediate.toInt_lt
    have word : Word.IsSigned immediate.toInt := by rw [Word.IsSigned]; omega
    have small : ¬ immediate.toInt ≥ 0x8000 := by omega
    rw [value, Word.signed_of_isSigned word, statement, Statement.effect,
      Statement.named_register, if_neg small]
    rfl
  | combine op left right dest => cases op <;> exact Statement.combine_registers _ m left right dest

theorem straight_statement (a : Assignment) : a.statement.Straight := by
  have fits (r : Register) : FitsByte r := by
    have small : (r : Nat) < 32 := r.isLt
    rw [FitsByte]; omega
  cases a with
  | load dest immediate =>
    have lower := immediate.le_toInt
    have upper := immediate.toInt_lt
    have half : FitsHalf immediate.toInt := by rw [FitsHalf]; omega
    exact ⟨⟨by simp [statement], fits dest, half⟩, by simp [statement, Opcode.jumps]⟩
  | combine op left right dest =>
    cases op <;> exact ⟨⟨by simp [statement], fits left, fits right, fits dest⟩,
      by simp [statement, Opcode.jumps]⟩

variable {m : Machine} {file : Vector Int registerCount}

/-- An assignment completes. If the registers are the given integers wrapped, they are so again
    behind it. -/
theorem exists_effect (a : Assignment) (wrapped : m.registers = file.map Word.signed) :
    ∃ m', a.statement.effect m = .ok m' ∧ m'.registers = (a.perform file).map Word.signed ∧
      m'.pc = m.pc + 4 := by
  refine ⟨_, a.effect_statement m, ?_, rfl⟩
  rw [map_perform, ← wrapped]
  rfl

theorem exists_effects (as : List Assignment) (wrapped : m.registers = file.map Word.signed) :
    ∃ m', Statement.effects m (as.map statement) = .ok m' ∧
      m'.registers = (performAll file as).map Word.signed ∧ m'.pc = m.pc + 4 * as.length := by
  induction as generalizing m file with
  | nil => exact ⟨m, Statement.effects_nil m, wrapped, by simp⟩
  | cons a as ih =>
    obtain ⟨mid, done, wrapped_mid, pc_mid⟩ := a.exists_effect wrapped
    obtain ⟨m', rest, wrapped', pc_eq⟩ := ih wrapped_mid
    refine ⟨m', ?_, wrapped', ?_⟩
    · rw [List.map_cons, Statement.effects_cons, done]
      exact rest
    · rw [pc_eq, pc_mid, List.length_cons]
      omega

end Assignment

namespace Machine

/-- Wrapping at every write equals wrapping once: loads, sums, differences and products leave the
    words for what integers of any size would have given. -/
theorem wraps_once {m : Machine} {as : List Assignment} {behind : List UInt8}
    {limit : Option Int} (words : m.HoldsWords)
    (faces : m.Faces (as.map Assignment.statement) behind)
    (through : limit = some (as.length : Int) ∨
      behind = [] ∧ ∀ n ∈ limit, (as.length : Int) ≤ n) :
    ∃ m', m.Runs limit m' ∧ m'.pc = m.pc + 4 * as.length ∧
      ∀ r, m'.registers.get r = Word.signed ((Assignment.performAll m.registers as).get r) := by
  have wrapped : m.cleared.registers = m.registers.map Word.signed := by
    refine Vector.ext fun i hi => ?_
    rw [Vector.getElem_map]
    exact (Word.signed_of_isSigned (words ⟨i, hi⟩)).symm
  obtain ⟨after, done, registers_eq, pc_eq⟩ := Assignment.exists_effects as wrapped
  have straight : ∀ s ∈ as.map Assignment.statement, s.Straight := by
    intro s hs
    obtain ⟨a, -, rfl⟩ := List.mem_map.1 hs
    exact a.straight_statement
  rw [← List.length_map Assignment.statement] at through
  obtain ⟨m', runs, snapshot_eq⟩ := faces.exists_runs straight done through
  have pc_eq' : m'.pc = after.pc := congrArg Snapshot.pc snapshot_eq
  have registers_eq' : m'.registers = after.registers := congrArg Snapshot.registers snapshot_eq
  refine ⟨m', runs, pc_eq'.trans pc_eq, ?_⟩
  intro r
  rw [registers_eq', registers_eq]
  exact Vector.getElem_map ..

/-- A fourth power and a difference in place, between a byte that is not met and a halt. -/
theorem wraps_once_power :
    let as : List Assignment :=
      [.load 2 (-1), .combine .mul 1 1 1, .combine .mul 1 1 1, .combine .sub 1 2 1]
    let m : Machine := { fresh with
      pc := 1, registers := fresh.registers.set 1 (-0x12345677),
      program := #[0xFF, 1, 2, 0xFF, 0xFF, 4, 1, 1, 1, 4, 1, 1, 1, 3, 1, 2, 1, 0],
      stop := some .ended }
    m.HoldsWords ∧ m.Faces (as.map Assignment.statement) [0] ∧
      ∃ m', m.Runs (some 4) m' ∧ m'.pc = 17 ∧ m'.registers.get 1 = -101953630 := by
  intro as m
  have words : m.HoldsWords := by
    have words : ∀ r, -0x80000000 ≤ m.registers.get r ∧ m.registers.get r < 0x80000000 := by
      decide
    exact words
  have faces : m.Faces (as.map Assignment.statement) [0] := ⟨[0xFF], by decide, rfl⟩
  obtain ⟨m', runs, pc_eq, registers_eq⟩ := wraps_once words faces (.inl rfl)
  have power : (Assignment.performAll m.registers as).get 1 = (-0x12345677) ^ 4 + 1 := by decide
  have wrapped : Word.signed ((-0x12345677) ^ 4 + 1) = -101953630 := by decide
  refine ⟨words, faces, m', runs, pc_eq, ?_⟩
  rw [registers_eq, power, wrapped]

end Machine

end RegisterMachine
