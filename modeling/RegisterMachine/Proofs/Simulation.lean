import RegisterMachine.Proofs.Grammar
import RegisterMachine.Proofs.Meaning

/-! Assembler and machine agree. The bytes of a statement, read as an instruction, come to what the
    statement means; so a step at the place of the `k`-th statement of an assembled text has exactly
    the effect of that statement, whatever stands behind the program. -/

namespace RegisterMachine

namespace Fetch

variable {α β γ δ : Type}

/-- A reading and a computation come to the same: both give values, which are related, or the same
    trap breaks off both. -/
inductive Agree (R : α → Int → β → Prop) : EStateM.Result Trap Int α → Except Trap β → Prop where
  | value {x : α} {behind : Int} {y : β} (related : R x behind y) : Agree R (.ok x behind) (.ok y)
  | trap (t : Trap) (behind : Int) : Agree R (.error t behind) (.error t)

variable {m : Machine} {address : Int} {R : α → Int → β → Prop}

theorem Agree.bind {f : Fetch α} {g : α → Fetch γ} {e : Except Trap β} {k : β → Except Trap δ}
    {Q : γ → Int → δ → Prop} (hf : Agree R (f.result m address) e)
    (hg : ∀ x behind y, R x behind y → Agree Q ((g x).result m behind) (k y)) :
    Agree Q ((f >>= g).result m address) (e >>= k) := by
  rw [result_bind]
  generalize f.result m address = r at hf
  cases hf with
  | value related => exact hg _ _ _ related
  | trap t behind => exact .trap t behind

/-- A check that both make. -/
theorem Agree.check {c : Prop} [Decidable c] {cause : Fault} {rest : PUnit → Fetch α}
    {k : PUnit → Except Trap β} (h : ¬ c → Agree R ((rest ⟨⟩).result m address) (k ⟨⟩)) :
    Agree R ((if c then fail cause >>= rest else rest ⟨⟩ : Fetch α).result m address)
      (if c then throw (.fault cause) >>= k else k ⟨⟩) := by
  by_cases hc : c
  · rw [if_pos hc, if_pos hc]
    exact .trap (.fault cause) address
  · rw [if_neg hc, if_neg hc]
    exact h hc

/-- The operand with the given index is held by the byte at an address. -/
structure OperandAt (m : Machine) (address index : Int) : Prop where
  fits : FitsByte index
  held : m.byteAt? address = some (UInt8.ofNat index.toNat)

/-- The value is the one meant, and one byte was read. -/
def OneByte (address : Int) (x : α) (behind : Int) (y : α) : Prop := x = y ∧ behind = address + 1

theorem agree_register {index : Int} (h : OperandAt m address index) :
    Agree (OneByte address) (register.result m address) (Statement.named index) := by
  have read_byte : byte.result m address = .ok (UInt8.ofNat index.toNat) (address + 1) := by
    rw [result_byte, h.held]
  have index_eq : (UInt8.ofNat index.toNat).toNat = index.toNat := by
    have := h.fits.toNat; omega
  rw [Fetch.register, result_bind_of_ok read_byte, Statement.named]
  have nonneg : 0 ≤ index := h.fits.1
  by_cases small : index < registerCount
  · have small' : (UInt8.ofNat index.toNat).toNat < registerCount := by omega
    rw [dif_pos small', dif_pos ⟨nonneg, small⟩]
    exact .value ⟨Fin.ext index_eq, rfl⟩
  · have large : ¬ (UInt8.ofNat index.toNat).toNat < registerCount := by omega
    rw [dif_neg large, dif_neg fun h => small h.2]
    exact .trap _ _

theorem agree_source {index : Int} (h : OperandAt m address index) :
    Agree (OneByte address) (source.result m address) (Statement.valueOf m index) := by
  refine (agree_register h).bind ?_
  rintro r _ _ ⟨rfl, rfl⟩
  exact .value ⟨rfl, rfl⟩

/-! ### Operands of each operation -/

/-- The effect makes `m'` of the machine that stands behind the bytes read. -/
def EffectLeaves (m : Machine) (effect : Effect) (behind : Int) (m' : Machine) : Prop :=
  m' = { m with pc := behind }.apply effect

theorem following_eq (m : Machine) :
    Statement.following m = { m with pc := m.pc + 1 + 1 + 1 + 1 } := by
  have four : m.pc + 4 = m.pc + 1 + 1 + 1 + 1 := by omega
  rw [Statement.following, four]

variable {left right dest register : Int}

theorem agree_arithmetic (f : Int → Int → Int) (first : OperandAt m (m.pc + 1) left)
    (second : OperandAt m (m.pc + 1 + 1) right) (third : OperandAt m (m.pc + 1 + 1 + 1) dest) :
    Agree (EffectLeaves m) ((arithmetic f).result m (m.pc + 1))
      (Statement.combine f m left right dest) := by
  refine (agree_source first).bind ?_
  rintro a _ _ ⟨rfl, rfl⟩
  refine (agree_source second).bind ?_
  rintro b _ _ ⟨rfl, rfl⟩
  refine (agree_register third).bind ?_
  rintro d _ _ ⟨rfl, rfl⟩
  rw [following_eq]
  exact .value rfl

theorem agree_division (first : OperandAt m (m.pc + 1) left)
    (second : OperandAt m (m.pc + 1 + 1) right) (third : OperandAt m (m.pc + 1 + 1 + 1) dest) :
    Agree (EffectLeaves m) (division.result m (m.pc + 1)) (Statement.divide m left right dest) := by
  refine (agree_source first).bind ?_
  rintro a _ _ ⟨rfl, rfl⟩
  refine (agree_source second).bind ?_
  rintro b _ _ ⟨rfl, rfl⟩
  by_cases zero : b = 0
  · rw [Word.quotient?_eq_none_iff.2 zero, if_pos zero]
    exact .trap _ _
  · rw [Word.quotient?_of_ne_zero a zero, if_neg zero]
    refine (agree_register third).bind ?_
    rintro d _ _ ⟨rfl, rfl⟩
    rw [following_eq]
    exact .value rfl

theorem agree_comparison (f : Int → Int → Bool) {padding : UInt8}
    (first : OperandAt m (m.pc + 1) left) (second : OperandAt m (m.pc + 1 + 1) right)
    (third : m.byteAt? (m.pc + 1 + 1 + 1) = some padding) :
    Agree (EffectLeaves m) ((comparison f).result m (m.pc + 1))
      (Statement.test f m left right) := by
  refine (agree_source first).bind ?_
  rintro a _ _ ⟨rfl, rfl⟩
  refine (agree_source second).bind ?_
  rintro b _ _ ⟨rfl, rfl⟩
  have read_padding : byte.result m (m.pc + 1 + 1 + 1) = .ok padding (m.pc + 1 + 1 + 1 + 1) := by
    rw [result_byte, third]
  rw [result_bind_of_ok read_padding, following_eq]
  exact .value rfl

theorem agree_branch (f : Int → Int → Int) (first : OperandAt m (m.pc + 1) register) :
    Agree (EffectLeaves m) ((branch f).result m (m.pc + 1))
      (Statement.jump (f (m.pc + 2)) m register) := by
  refine (agree_source first).bind ?_
  rintro offset _ _ ⟨rfl, rfl⟩
  have two : m.pc + 2 = m.pc + 1 + 1 := by omega
  rw [two]
  exact .value rfl

theorem result_half_of_bytes {high low : UInt8} (first : m.byteAt? address = some high)
    (second : m.byteAt? (address + 1) = some low) :
    half.result m address = .ok (high.toNat * 256 + low.toNat) (address + 1 + 1) := by
  have two : address + 2 = address + 1 + 1 := by omega
  rw [result_half, first, second, two]

theorem agree_conditional {high low : UInt8} (first : OperandAt m (m.pc + 1) register)
    (second : m.byteAt? (m.pc + 1 + 1) = some high)
    (third : m.byteAt? (m.pc + 1 + 1 + 1) = some low) :
    Agree (EffectLeaves m) (conditional.result m (m.pc + 1)) (Statement.jumpIf m register) := by
  refine (agree_source first).bind ?_
  rintro target _ _ ⟨rfl, rfl⟩
  rw [result_read_bind]
  split
  · exact .value rfl
  · rw [result_bind_of_ok (result_half_of_bytes second third), following_eq]
    exact .value rfl

theorem agree_allocation {high low : UInt8} (first : OperandAt m (m.pc + 1) register)
    (second : m.byteAt? (m.pc + 1 + 1) = some high)
    (third : m.byteAt? (m.pc + 1 + 1 + 1) = some low) :
    Agree (EffectLeaves m) (allocation.result m (m.pc + 1)) (Statement.allocate m register) := by
  refine (agree_source first).bind ?_
  rintro size _ _ ⟨rfl, rfl⟩
  refine Agree.check fun _ => ?_
  rw [result_read_bind]
  refine Agree.check fun _ => ?_
  rw [result_bind_of_ok (result_half_of_bytes second third), following_eq]
  exact .value rfl

/-- Two bytes read as a signed integer are what a load is meant to write. -/
theorem bmod_half {value : Int} (h : FitsHalf value) :
    (((UInt16.ofInt value).toNat : Nat) : Int).bmod 65536 =
      if value ≥ 0x8000 then value - 0x10000 else value := by
  obtain ⟨lower, upper⟩ := h
  rw [toNat_ofInt_half, Int.bmod_def]
  split <;> split <;> omega

theorem signed_half {value : Int} (h : FitsHalf value) :
    Word.signed (if value ≥ 0x8000 then value - 0x10000 else value) =
      if value ≥ 0x8000 then value - 0x10000 else value := by
  obtain ⟨lower, upper⟩ := h
  refine Word.signed_of_isSigned ?_
  rw [Word.IsSigned]
  split <;> omega

theorem agree_load {value : Int} (fits : FitsHalf value) (first : OperandAt m (m.pc + 1) dest)
    (second : m.byteAt? (m.pc + 1 + 1) = some (UInt16.ofInt value >>> 8).toUInt8)
    (third : m.byteAt? (m.pc + 1 + 1 + 1) = some (UInt16.ofInt value).toUInt8) :
    Agree (EffectLeaves m) ((operands address code .load).result m (m.pc + 1))
      (Statement.effect m ⟨.load, .integer dest value⟩) := by
  refine (agree_register first).bind ?_
  rintro d _ _ ⟨rfl, rfl⟩
  have half_eq : (UInt16.ofInt value >>> 8).toUInt8.toNat * 256 +
      (UInt16.ofInt value).toUInt8.toNat = (UInt16.ofInt value).toNat := by
    have high := high_byte (UInt16.ofInt value)
    have low := low_byte (UInt16.ofInt value)
    omega
  have read_half : signedHalf.result m (m.pc + 1 + 1) =
      .ok (if value ≥ 0x8000 then value - 0x10000 else value) (m.pc + 1 + 1 + 1 + 1) := by
    rw [signedHalf, result_bind_of_ok (result_half_of_bytes second third), half_eq, result_pure,
      bmod_half fits]
  rw [result_bind_of_ok read_half, following_eq]
  refine .value ?_
  rw [EffectLeaves, Machine.apply, Machine.write, signed_half fits]
  rfl

/-- The operands of a statement behind the counter come to what the statement means. -/
theorem agree_operands {s : Statement} (fit : s.arguments.Fit)
    (first : m.byteAt? (m.pc + 1) = s.arguments.operands.bytes[0]?)
    (second : m.byteAt? (m.pc + 1 + 1) = s.arguments.operands.bytes[1]?)
    (third : m.byteAt? (m.pc + 1 + 1 + 1) = s.arguments.operands.bytes[2]?) :
    Agree (EffectLeaves m) ((operands m.pc s.op.byte s.op).result m (m.pc + 1)) (s.effect m) := by
  obtain ⟨op, arguments⟩ := s
  cases op with
  | hlt | illegal => cases arguments; exact .trap _ _
  | load =>
    cases arguments
    exact agree_load fit.2 ⟨fit.1, first⟩ second third
  | add | sub | mul =>
    cases arguments
    exact agree_arithmetic _ ⟨fit.1, first⟩ ⟨fit.2.1, second⟩ ⟨fit.2.2, third⟩
  | div =>
    cases arguments
    exact agree_division ⟨fit.1, first⟩ ⟨fit.2.1, second⟩ ⟨fit.2.2, third⟩
  | eq | neq | gt | lt | gteq | lteq =>
    cases arguments
    exact agree_comparison _ ⟨fit.1, first⟩ ⟨fit.2, second⟩ third
  | jmp | jmpf | jmpb =>
    cases arguments
    exact agree_branch _ ⟨fit, first⟩
  | jeq =>
    cases arguments
    exact agree_conditional ⟨fit, first⟩ second third
  | alloc =>
    cases arguments
    exact agree_allocation ⟨fit, first⟩ second third

end Fetch

theorem Opcode.ofByte_byte (op : Opcode) : Opcode.ofByte op.byte = op := by
  cases op <;> decide

namespace Machine

/-- The machine stands at the word of the statement. -/
def StandsAt (m : Machine) (s : Statement) : Prop :=
  ∀ j < Instruction.size, m.byteAt? (m.pc + j) = s.instruction.encode[j]?

theorem StandsAt.cleared {m : Machine} {s : Statement} (h : m.StandsAt s) : m.cleared.StandsAt s :=
  h

theorem StandsAt.agree {m : Machine} {s : Statement} (h : m.StandsAt s) (fit : s.arguments.Fit) :
    Fetch.Agree (Fetch.EffectLeaves m) (Fetch.instruction.result m m.pc) (s.effect m) := by
  have code : m.byteAt? m.pc = some s.op.byte := by
    have h0 := h 0 (by decide)
    rwa [Int.natCast_zero, Int.add_zero] at h0
  rw [Fetch.result_instruction code, Opcode.ofByte_byte]
  have two : m.pc + 1 + 1 = m.pc + (2 : Nat) := by omega
  have three : m.pc + 1 + 1 + 1 = m.pc + (3 : Nat) := by omega
  refine Fetch.agree_operands fit (h 1 (by decide)) ?_ ?_
  · rw [two]; exact h 2 (by decide)
  · rw [three]; exact h 3 (by decide)

/-- A step that starts at the word of a statement has the effect of the statement. -/
theorem StandsAt.step_eq {m : Machine} {s : Statement} (h : m.StandsAt s)
    (fit : s.arguments.Fit) : m.step = s.step m := by
  have inside : m.inBounds := by
    have h0 := h 0 (by decide)
    rw [Int.natCast_zero, Int.add_zero] at h0
    rw [inBounds_eq_isSome, h0]; rfl
  have agree := h.cleared.agree fit
  rw [Statement.step]
  generalize hr : Fetch.instruction.result m.cleared m.cleared.pc = r at agree
  generalize s.effect m.cleared = e at agree
  cases agree with
  | value related =>
    have done : m.Completes _ := ⟨inside, execNext_of_ok hr⟩
    rw [step_of_completes done, related]
  | trap t behind =>
    rcases Fetch.result_instruction_trap hr with ⟨cause, rfl⟩ | rfl
    · exact step_of_fault inside hr
    · cases t with
      | fault cause => exact step_of_fault inside hr
      | halt => rw [step_of_inBounds inside, execNext_of_error hr]; rfl
      | illegal byte address => rw [step_of_inBounds inside, execNext_of_error hr]; rfl

end Machine

/-! ### Programs -/

/-- The bytes of the `k`-th instruction start at `4 * k`. -/
theorem Instruction.getElem?_encodeAll {is : List Instruction} {k : Nat} {i : Instruction}
    (h : is[k]? = some i) (behind : List UInt8) {j : Nat} (hj : j < size) :
    (encodeAll is ++ behind)[4 * k + j]? = i.encode[j]? := by
  induction is generalizing k with
  | nil => simp at h
  | cons head is ih =>
    have four : head.encode.length = 4 := length_encode head
    rw [encodeAll, List.flatMap_cons, List.append_assoc]
    cases k with
    | zero =>
      obtain rfl : head = i := by simpa using h
      have short : j < head.encode.length := by rwa [length_encode]
      rw [Nat.mul_zero, Nat.zero_add, List.getElem?_append_left short]
    | succ k =>
      rw [List.getElem?_cons_succ] at h
      have past : head.encode.length ≤ 4 * (k + 1) + j := by omega
      have shift : 4 * (k + 1) + j - head.encode.length = 4 * k + j := by omega
      rw [List.getElem?_append_right past, shift]
      exact ih h

theorem Machine.byteAt?_natCast (m : Machine) (n : Nat) :
    m.byteAt? n = m.program.toList[n]? := by
  rw [byteAt?, if_pos (Int.natCast_nonneg n), Int.toNat_natCast, Array.getElem?_toList]

theorem Machine.standsAt_of_program {m : Machine} {ss : List Statement} {behind : List UInt8}
    (loaded : m.program.toList = Instruction.encodeAll (ss.map Statement.instruction) ++ behind)
    {k : Nat} (hk : k < ss.length) (pc_eq : m.pc = 4 * k) : m.StandsAt ss[k] := by
  intro j hj
  have place : m.pc + j = ((4 * k + j : Nat) : Int) := by omega
  have kth : (ss.map Statement.instruction)[k]? = some ss[k].instruction := by simp [hk]
  rw [place, byteAt?_natCast, loaded, Instruction.getElem?_encodeAll kth behind hj]

/-! ### Texts -/

theorem Arguments.tokens_append_inj {s : Shape} {a b : Arguments s} {ts us : List Token}
    (h : a.tokens ++ ts = b.tokens ++ us) : a = b ∧ ts = us := by
  cases a <;> cases b <;> simp_all [tokens]

/-- A row of tokens can be taken for statements in one way only. -/
theorem Statement.eq_of_flatMap_tokens_eq {ss ss' : List Statement}
    (h : ss.flatMap tokens = ss'.flatMap tokens) : ss = ss' := by
  induction ss generalizing ss' with
  | nil =>
    cases ss' with
    | nil => rfl
    | cons s' ss' => simp [tokens] at h
  | cons s ss ih =>
    cases ss' with
    | nil => simp [tokens] at h
    | cons s' ss' =>
      obtain ⟨op, arguments⟩ := s
      obtain ⟨op', arguments'⟩ := s'
      simp only [List.flatMap_cons, tokens, List.cons_append, List.cons.injEq,
        Token.operator.injEq] at h
      obtain ⟨rfl, h⟩ := h
      obtain ⟨rfl, rest⟩ := Arguments.tokens_append_inj h
      rw [ih rest]

namespace Located

theorem tokens_eq_ok_iff {front : List Located} {ts : List Token} :
    tokens front = .ok ts ↔ Spell front ts := by
  induction front generalizing ts with
  | nil => cases ts <;> simp [tokens, Spell]
  | cons x front ih =>
    obtain ⟨⟨t⟩ | ⟨digits⟩, position⟩ := x
    · rw [tokens]
      dsimp only
      constructor
      · intro h
        cases read : tokens front with
        | error digits => rw [read] at h; cases h
        | ok us =>
          rw [read] at h
          cases h
          exact congrArg (Lexeme.token t :: ·) (ih.1 read)
      · intro spelled
        cases ts with
        | nil => cases spelled
        | cons u us =>
          obtain ⟨_, _, ⟨⟩, ⟨⟩, rest⟩ := spell_cons.1 spelled
          rw [ih.2 rest]; rfl
    · cases ts <;> simp [tokens, Spell]

/-- The end of input is nowhere written in a text. -/
theorem lexeme_ne_endOfInput {text : String} {x : Located} (h : x ∈ ofText text) :
    x.lexeme ≠ .token .endOfInput := by
  obtain ⟨slice, -, rfl⟩ := List.mem_map.1 h
  show Lexeme.ofChars slice.chars ≠ _
  rw [Lexeme.ofChars.eq_def]
  split
  · split
    · rw [Lexeme.number]; split <;> simp
    · split
      · rw [Lexeme.number]; split <;> simp
      · simp
  · simp

theorem endOfInput_not_mem {text : String} {ts : List Token}
    (read : tokens (ofText text) = .ok ts) : Token.endOfInput ∉ ts := by
  intro mem
  have spelled := tokens_eq_ok_iff.1 read
  have standing : Lexeme.token .endOfInput ∈ (ofText text).map lexeme := by
    rw [spelled]
    exact List.mem_map_of_mem mem
  obtain ⟨x, hx, is_end⟩ := List.mem_map.1 standing
  exact lexeme_ne_endOfInput hx is_end

end Located

namespace Assembly

/-- A text that can be assembled is spelled by statements that fit, whose instructions it gives. -/
theorem exists_statements {text : String} {is : List Instruction} (h : program text = .ok is) :
    ∃ ss : List Statement, (∀ s ∈ ss, s.Fits) ∧ is = ss.map Statement.instruction ∧
      Located.Spell (Located.ofText text) (ss.flatMap Statement.tokens) := by
  rw [program] at h
  split at h
  · rename_i no_error
    cases h
    obtain ⟨ss, fit, consists⟩ := exists_consists_of_all _ no_error
    refine ⟨ss, fit, (all_of_consists fit consists).2, ?_⟩
    obtain ⟨front, back, split, spelled, ended⟩ := consists
    rcases ended with rfl | ⟨x, tail, rfl, is_end⟩
    · rw [split, List.append_nil]; exact spelled
    · have mem : x ∈ Located.ofText text := by rw [split]; simp
      exact absurd is_end (Located.lexeme_ne_endOfInput mem)
  · cases h

/-- Assembler and machine agree: a step at the `k`-th word of an assembled text has exactly the
    effect of the `k`-th statement, and the text spells one row of statements only. -/
theorem step_of_assembled {text : String} {is : List Instruction}
    (assembled : program text = .ok is) :
    ∃ (ss : List Statement) (code : List UInt8),
      Located.tokens (Located.ofText text) = .ok (ss.flatMap Statement.tokens) ∧
      (∀ ss' : List Statement,
        Located.tokens (Located.ofText text) = .ok (ss'.flatMap Statement.tokens) → ss' = ss) ∧
      ss.length = is.length ∧ bytes text = .ok code ∧
      ∀ (k : Nat) (hk : k < ss.length) (m : Machine) (behind : List UInt8),
        m.program.toList = code ++ behind → m.pc = 4 * k → m.step = ss[k].step m := by
  obtain ⟨ss, fit, rfl, spelled⟩ := exists_statements assembled
  have read := Located.tokens_eq_ok_iff.2 spelled
  have bytes_eq : bytes text = .ok (Instruction.encodeAll (ss.map Statement.instruction)) := by
    rw [bytes, assembled]; rfl
  refine ⟨ss, _, read, ?_, by simp, bytes_eq, ?_⟩
  · intro ss' read'
    rw [read] at read'
    exact (Statement.eq_of_flatMap_tokens_eq (Except.ok.inj read')).symm
  · intro k hk m behind loaded pc_eq
    have stands := Machine.standsAt_of_program loaded hk pc_eq
    exact stands.step_eq (fit _ (List.getElem_mem hk)).2

/-- The second word of a program that jumps back by minus one, with a byte behind it. -/
theorem step_of_assembled_jump :
    let m : Machine := { Machine.fresh with
      pc := 4, registers := Machine.fresh.registers.set 1 (-1),
      program := #[1, 1, 0xFF, 0xFF, 8, 1, 0, 0, 7] }
    program "load $1 #65535 jmpb $1" = .ok [⟨.load, .integer 1 0xFFFF⟩, ⟨.jmpb, .unary 1⟩] ∧
      m.step = (⟨.jmpb, .unary 1⟩ : Statement).step m := by
  intro m
  let text := "load $1 #65535 jmpb $1"
  have all_eq : all (Located.ofText text) =
      { instructions := [⟨.load, .integer 1 0xFFFF⟩, ⟨.jmpb, .unary 1⟩],
        error := none, rest := [] } := by decide +kernel
  have assembled : program text = .ok [⟨.load, .integer 1 0xFFFF⟩, ⟨.jmpb, .unary 1⟩] := by
    rw [program, all_eq]
  obtain ⟨ss, code, read, unique, -, bytes_eq, steps⟩ := step_of_assembled assembled
  obtain rfl : [⟨.load, .integer 1 65535⟩, ⟨.jmpb, .unary 1⟩] = ss :=
    unique _ (Located.tokens_eq_ok_iff.2 (by rw [Located.Spell]; decide +kernel))
  obtain rfl : [1, 1, 0xFF, 0xFF, 8, 1, 0, 0] = code := by
    rw [bytes, assembled] at bytes_eq
    exact Except.ok.inj bytes_eq
  exact ⟨assembled, steps 1 (by decide) m [7] rfl rfl⟩

end Assembly

end RegisterMachine
