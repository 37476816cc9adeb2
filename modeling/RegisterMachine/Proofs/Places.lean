import Mathlib.Data.List.Forall2
import RegisterMachine.Proofs.Grammar

/-! What the assembler expects, place by place. A statement has a place for its operator and one for
    each of its operands. The assembler takes a token for each place in turn and breaks off at the
    first one that does not belong there; only when all places are filled does it find that an index
    has no byte. Main statement (`run_instruction_read`): these are the ways in which an instruction
    is read from a row of tokens, and each of them is told by the tokens alone. -/

namespace RegisterMachine

/-- What the next token is expected to be. -/
inductive Place where | operator | register | integer
  deriving DecidableEq

/-- The places behind the operator of a statement. -/
def Shape.places : Shape → List Place
  | .nullary => []
  | .integer => [.register, .integer]
  | .binary => [.register, .register, .register]
  | .compare => [.register, .register]
  | .unary => [.register]

theorem Shape.operator_not_mem_places (s : Shape) : Place.operator ∉ s.places := by
  cases s <;> decide

namespace Place

/-- The tokens that are taken at a place. An index is bounded from above only. -/
def Admits : Place → Token → Prop
  | .operator, .operator op => op ≠ .illegal
  | .register, .register index => index ≤ 0xFF
  | .integer, .integer value => FitsHalf value
  | _, _ => False

/-- The tokens that do not belong to a place. In front of an operator a source may end. -/
def Refuses (p : Place) (t : Token) : Prop := ¬ p.Admits t ∧ (p = .operator → t ≠ .endOfInput)

/-- What is said of a token that does not belong to a place. -/
def complaint : Place → Token → Complaint
  | .operator, .operator _ => .unknownOperator
  | .operator, _ => .expectedOperator
  | .register, .register _ | .integer, .integer _ => .operandRange
  | .register, .endOfInput | .integer, .endOfInput => .unexpectedEnd
  | .register, _ => .expectedRegister
  | .integer, _ => .expectedInteger

/-- The error that such a token causes. -/
def refusal (p : Place) (found : Token) : AssemblyError :=
  .refused { complaint := p.complaint found, found := some found }

theorem admits_register_iff {t : Token} :
    register.Admits t ↔ ∃ index, t = .register index ∧ index ≤ 0xFF := by
  cases t <;> simp [Admits]

theorem admits_integer_iff {t : Token} :
    integer.Admits t ↔ ∃ value, t = .integer value ∧ FitsHalf value := by
  cases t <;> simp [Admits]

end Place

/-- The tokens are taken one by one at the places. -/
def Filled : List Place → List Token → Prop := List.Forall₂ Place.Admits

/-- The tokens are taken as the beginning of a statement, and `place` is where the next one comes
    to stand. -/
inductive Begun : List Token → Place → Prop where
  | operator : Begun [] .operator
  | operand {op : Opcode} {us : List Token} {filled later : List Place} {place : Place}
      (legal : op ≠ .illegal) (places : op.shape.places = filled ++ place :: later)
      (taken : Filled filled us) : Begun (.operator op :: us) place

/-- All tokens of a statement are taken, also if one of its indices is negative. -/
def Statement.Taken (s : Statement) : Prop :=
  s.op ≠ .illegal ∧ Filled s.op.shape.places s.arguments.tokens

/-! ### Filled places -/

/-- Either the places are filled by the tokens in front, or some places are and the token behind
    does not belong to the next one. -/
theorem filled_or_misfit : ∀ (ps : List Place) (ts : List Token),
    (∃ us behind, ts = us ++ behind ∧ Filled ps us) ∨
    ∃ us behind filled p later, ts = us ++ behind ∧ ps = filled ++ p :: later ∧ Filled filled us ∧
      ¬ p.Admits (behind.headD .endOfInput)
  | [], ts => .inl ⟨[], ts, rfl, .nil⟩
  | p :: ps, ts => by
    by_cases taken : p.Admits (ts.headD .endOfInput)
    · cases ts with
      | nil => cases p <;> exact taken.elim
      | cons t ts =>
        rcases filled_or_misfit ps ts with
          ⟨us, behind, rfl, filled⟩ | ⟨us, behind, ps', q, later, rfl, rfl, filled, misfit⟩
        · exact .inl ⟨t :: us, behind, rfl, .cons taken filled⟩
        · exact .inr ⟨t :: us, behind, p :: ps', q, later, rfl, rfl, .cons taken filled, misfit⟩
    · exact .inr ⟨[], ts, [], p, ps, rfl, rfl, .nil, taken⟩

theorem filled_register_cons {ps : List Place} {ts : List Token} :
    Filled (.register :: ps) ts ↔ ∃ index us, index ≤ 0xFF ∧ Filled ps us ∧
      ts = .register index :: us := by
  simp only [Filled, List.forall₂_cons_left_iff, Place.admits_register_iff]
  constructor
  · rintro ⟨_, us, ⟨index, rfl, small⟩, filled, rfl⟩
    exact ⟨index, us, small, filled, rfl⟩
  · rintro ⟨index, us, small, filled, rfl⟩
    exact ⟨_, us, ⟨index, rfl, small⟩, filled, rfl⟩

theorem filled_integer_cons {ps : List Place} {ts : List Token} :
    Filled (.integer :: ps) ts ↔ ∃ value us, FitsHalf value ∧ Filled ps us ∧
      ts = .integer value :: us := by
  simp only [Filled, List.forall₂_cons_left_iff, Place.admits_integer_iff]
  constructor
  · rintro ⟨_, us, ⟨value, rfl, fits⟩, filled, rfl⟩
    exact ⟨value, us, fits, filled, rfl⟩
  · rintro ⟨value, us, fits, filled, rfl⟩
    exact ⟨_, us, ⟨value, rfl, fits⟩, filled, rfl⟩

theorem filled_nil {ts : List Token} : Filled [] ts ↔ ts = [] := by
  simp [Filled]

theorem exists_arguments_of_filled {s : Shape} {us : List Token} (h : Filled s.places us) :
    ∃ a : Arguments s, a.tokens = us := by
  cases s <;> simp only [Shape.places, filled_register_cons, filled_integer_cons, filled_nil] at h
  case nullary => exact ⟨.nullary, h.symm⟩
  case integer =>
    obtain ⟨dest, _, -, ⟨value, _, -, rfl, rfl⟩, rfl⟩ := h
    exact ⟨.integer dest value, rfl⟩
  case binary =>
    obtain ⟨left, _, -, ⟨right, _, -, ⟨dest, _, -, rfl, rfl⟩, rfl⟩, rfl⟩ := h
    exact ⟨.binary left right dest, rfl⟩
  case compare =>
    obtain ⟨left, _, -, ⟨right, _, -, rfl, rfl⟩, rfl⟩ := h
    exact ⟨.compare left right, rfl⟩
  case unary =>
    obtain ⟨register, _, -, rfl, rfl⟩ := h
    exact ⟨.unary register, rfl⟩

/-- Operands that are taken fit, but for negative indices. -/
theorem Arguments.fit_iff_filled {s : Shape} {a : Arguments s} : a.Fit ↔
    Filled s.places a.tokens ∧ ∀ index, Token.register index ∈ a.tokens → 0 ≤ index := by
  cases a <;>
    simp [Fit, Filled, Shape.places, tokens, Place.Admits, FitsByte, and_assoc, and_comm,
      and_left_comm]

/-- A statement fits if it is taken and none of its indices is negative. -/
theorem Statement.fits_iff_taken {s : Statement} : s.Fits ↔
    s.Taken ∧ ∀ index, Token.register index ∈ s.tokens → 0 ≤ index := by
  simp [Fits, Taken, tokens, Arguments.fit_iff_filled, and_assoc]

/-! ### Readings that go from place to place -/

theorem Located.ofTokens_append (us ts : List Token) :
    ofTokens (us ++ ts) = ofTokens us ++ ofTokens ts :=
  List.map_append

namespace Assembly

variable {α : Type}

/-- The reading takes a token for each of the places, and then either gives a value or finds that
    an index has no byte. -/
inductive Follows : List Place → Assembly α → Prop where
  | done {a : Assembly α} (h : ∀ source, (∃ v, a.run source = .ok v source) ∨
      a.run source = .error .unencodable source) : Follows [] a
  | register {ps : List Place} {k : Int → Assembly α} (h : ∀ index, Follows ps (k index)) :
    Follows (.register :: ps) (register >>= k)
  | integer {ps : List Place} {k : UInt16 → Assembly α} (h : ∀ half, Follows ps (k half)) :
    Follows (.integer :: ps) (integer >>= k)

theorem follows_pure (v : α) : Follows [] (pure v) := .done fun _ => .inl ⟨v, rfl⟩

theorem follows_byte (index : Int) {k : UInt8 → Assembly α} (h : ∀ b, Follows [] (k b)) :
    Follows [] (byte index >>= k) := by
  refine .done fun source => ?_
  rw [byte]
  cases Word.byte? index with
  | none => exact .inr rfl
  | some b =>
    cases h b with
    | done h => exact h source

theorem follows_operands : ∀ s : Shape, Follows s.places (operands s)
  | .nullary => follows_pure _
  | .integer => .register fun _ => .integer fun _ => follows_byte _ fun _ => follows_pure _
  | .binary => .register fun _ => .register fun _ => .register fun _ => follows_byte _ fun _ =>
      follows_byte _ fun _ => follows_byte _ fun _ => follows_pure _
  | .compare => .register fun _ => .register fun _ => follows_byte _ fun _ =>
      follows_byte _ fun _ => follows_pure _
  | .unary => .register fun _ => follows_byte _ fun _ => follows_pure _

theorem run_token_ofTokens (ts : List Token) :
    token.run (Located.ofTokens ts) = .ok (ts.headD .endOfInput) (Located.ofTokens ts.tail) := by
  cases ts <;> rfl

theorem run_register_of_misfit {ts : List Token}
    (misfit : ¬ Place.register.Admits (ts.headD .endOfInput)) :
    register.run (Located.ofTokens ts) =
      .error (Place.register.refusal (ts.headD .endOfInput)) (Located.ofTokens ts.tail) := by
  rw [register, run_bind_of_ok (run_token_ofTokens ts)]
  generalize ts.headD .endOfInput = t at misfit
  cases t with
  | register index =>
    have large : index > (maxRegister : Int) := by
      simpa [Place.Admits, maxRegister] using misfit
    simp only [if_pos large]; rfl
  | operator _ | integer _ | endOfInput => rfl

theorem run_integer_of_misfit {ts : List Token}
    (misfit : ¬ Place.integer.Admits (ts.headD .endOfInput)) :
    integer.run (Located.ofTokens ts) =
      .error (Place.integer.refusal (ts.headD .endOfInput)) (Located.ofTokens ts.tail) := by
  rw [integer, run_bind_of_ok (run_token_ofTokens ts)]
  generalize ts.headD .endOfInput = t at misfit
  cases t with
  | integer value =>
    have outside : value > (maxInteger : Int) ∨ value < minInteger := by
      simp only [Place.Admits, FitsHalf] at misfit
      rw [maxInteger, minInteger]; omega
    simp only [if_pos outside]; rfl
  | operator _ | register _ | endOfInput => rfl

/-- A reading whose first places are filled goes on as one of the places that are left. -/
theorem Follows.exists_rest {filled later : List Place} {us : List Token}
    (taken : Filled filled us) {a : Assembly α} (h : Follows (filled ++ later) a) :
    ∃ b, Follows later b ∧ ∀ source, a.run (Located.ofTokens us ++ source) = b.run source := by
  induction taken generalizing a with
  | nil => exact ⟨a, h, fun _ => rfl⟩
  | cons admitted _ ih =>
    cases h with
    | register h =>
      obtain ⟨index, rfl, small⟩ := Place.admits_register_iff.1 admitted
      obtain ⟨b, follows, goes_on⟩ := ih (h index)
      refine ⟨b, follows, fun source => ?_⟩
      exact (run_bind_of_ok (run_register_eq_ok.2 ⟨_, rfl, rfl, small⟩) _).trans (goes_on source)
    | integer h =>
      obtain ⟨value, rfl, fits⟩ := Place.admits_integer_iff.1 admitted
      obtain ⟨b, follows, goes_on⟩ := ih (h (UInt16.ofInt value))
      refine ⟨b, follows, fun source => ?_⟩
      exact (run_bind_of_ok (run_integer_eq_ok.2 ⟨_, value, rfl, rfl, fits, rfl⟩) _).trans
        (goes_on source)

/-- A reading breaks off at the first token that does not belong to its place. -/
theorem Follows.run_of_misfit {ps : List Place} {a : Assembly α} (h : Follows ps a)
    {filled later : List Place} {p : Place} (places : ps = filled ++ p :: later)
    {us : List Token} (taken : Filled filled us) {ts : List Token}
    (misfit : ¬ p.Admits (ts.headD .endOfInput)) :
    a.run (Located.ofTokens (us ++ ts)) =
      .error (p.refusal (ts.headD .endOfInput)) (Located.ofTokens ts.tail) := by
  subst places
  obtain ⟨b, follows, goes_on⟩ := exists_rest taken h
  rw [Located.ofTokens_append, goes_on]
  cases follows with
  | register _ => exact run_bind_of_error (run_register_of_misfit misfit) _
  | integer _ => exact run_bind_of_error (run_integer_of_misfit misfit) _

/-- A reading whose places are filled takes the tokens that fill them and no more. -/
theorem Follows.run_of_filled {ps : List Place} {a : Assembly α} (h : Follows ps a)
    {us : List Token} (taken : Filled ps us) (ts : List Token) :
    (∃ v, a.run (Located.ofTokens (us ++ ts)) = .ok v (Located.ofTokens ts)) ∨
      a.run (Located.ofTokens (us ++ ts)) = .error .unencodable (Located.ofTokens ts) := by
  rw [← List.append_nil ps] at h
  obtain ⟨b, follows, goes_on⟩ := exists_rest taken h
  rw [Located.ofTokens_append, goes_on]
  cases follows with
  | done h => exact h _

/-! ### Instructions -/

theorem run_instruction_of_operator {op : Opcode} (legal : op ≠ .illegal) (ts : List Token) :
    instruction.run (Located.ofTokens (.operator op :: ts)) =
      (do return some { op, operands := ← operands op.shape } : Assembly _).run
        (Located.ofTokens ts) := by
  rw [instruction, run_bind_of_ok (run_token_ofTokens _), ← instructionFrom_operator legal]
  rfl

theorem run_instruction_of_fits {s : Statement} (fits : s.Fits) (behind : List Token) :
    instruction.run (Located.ofTokens (s.tokens ++ behind)) =
      .ok (some s.instruction) (Located.ofTokens behind) := by
  refine run_instruction_eq_some.2 ⟨s, Located.ofTokens s.tokens, fits, rfl, ?_, ?_⟩
  · simp [Located.ofTokens]
  · simp [Located.Spell, Located.ofTokens]

/-- An instruction breaks off at the first token that does not belong to its place. -/
theorem run_instruction_of_misfit {begun behind : List Token} {place : Place}
    (h : Begun begun place) (misfit : place.Refuses (behind.headD .endOfInput)) :
    instruction.run (Located.ofTokens (begun ++ behind)) =
      .error (place.refusal (behind.headD .endOfInput)) (Located.ofTokens behind.tail) := by
  obtain ⟨outside, inside⟩ := misfit
  cases h with
  | operator =>
    rw [List.nil_append, instruction, run_bind_of_ok (run_token_ofTokens behind)]
    generalize behind.headD .endOfInput = t at outside inside
    cases t with
    | operator op =>
      obtain rfl : op = .illegal := by simpa [Place.Admits] using outside
      rfl
    | register _ | integer _ => rfl
    | endOfInput => exact absurd rfl (inside rfl)
  | operand legal places taken =>
    rw [List.cons_append, run_instruction_of_operator legal]
    exact run_bind_of_error ((follows_operands _).run_of_misfit places taken outside) _

/-- An index that has no byte is found when all operands are read. -/
theorem run_instruction_of_negative {s : Statement} (taken : s.Taken) {index : Int}
    (negative : index < 0) (mem : .register index ∈ s.tokens) (behind : List Token) :
    instruction.run (Located.ofTokens (s.tokens ++ behind)) =
      .error .unencodable (Located.ofTokens behind) := by
  obtain ⟨op, a⟩ := s
  obtain ⟨legal, filled⟩ := taken
  rw [Statement.tokens, List.cons_append, run_instruction_of_operator legal]
  rcases (follows_operands op.shape).run_of_filled filled behind with ⟨o, read⟩ | unencodable
  · -- what is read is spelled by operands that fit, and so by none with a negative index
    obtain ⟨a', front, fit, -, split, spelled⟩ := exists_arguments_of_run_operands read
    have tokens_eq : a'.tokens = a.tokens := by
      rw [Located.ofTokens, List.map_append] at split
      rw [← List.append_cancel_right split, Located.Spell, List.map_map] at spelled
      exact ((List.map_inj_right fun _ _ => Lexeme.token.inj).1 spelled).symm
    have nonneg := (Arguments.fit_iff_filled.1 fit).2 index
    simp only [tokens_eq, Statement.tokens, List.mem_cons, reduceCtorEq, false_or] at nonneg mem
    have := nonneg mem
    omega
  · exact run_bind_of_error unencodable _

/-- The ways in which an instruction is read from a row of tokens. -/
inductive Read :
    List Token → EStateM.Result AssemblyError (List Located) (Option Instruction) → Prop where
  | statement {s : Statement} (fits : s.Fits) (behind : List Token) :
    Read (s.tokens ++ behind) (.ok (some s.instruction) (Located.ofTokens behind))
  | ended {ts : List Token} (ended : ts.headD .endOfInput = .endOfInput) :
    Read ts (.ok none (Located.ofTokens ts.tail))
  | misfit {begun : List Token} {place : Place} (h : Begun begun place) {behind : List Token}
      (misfit : place.Refuses (behind.headD .endOfInput)) :
    Read (begun ++ behind)
      (.error (place.refusal (behind.headD .endOfInput)) (Located.ofTokens behind.tail))
  | negative {s : Statement} (taken : s.Taken) {index : Int} (negative : index < 0)
      (mem : .register index ∈ s.tokens) (behind : List Token) :
    Read (s.tokens ++ behind) (.error .unencodable (Located.ofTokens behind))

theorem run_instruction_read (ts : List Token) :
    Read ts (instruction.run (Located.ofTokens ts)) := by
  by_cases ended : ts.headD .endOfInput = .endOfInput
  · have read : instruction.run (Located.ofTokens ts) = .ok none (Located.ofTokens ts.tail) := by
      rw [instruction, run_bind_of_ok (run_token_ofTokens ts), ended]; rfl
    rw [read]
    exact .ended ended
  by_cases admitted : Place.operator.Admits (ts.headD .endOfInput)
  · obtain ⟨op, us, rfl, legal⟩ : ∃ op us, ts = .operator op :: us ∧ op ≠ .illegal := by
      cases ts with
      | nil => exact absurd rfl ended
      | cons t us =>
        cases t with
        | operator op => exact ⟨op, us, rfl, admitted⟩
        | register _ | integer _ | endOfInput => exact admitted.elim
    rcases filled_or_misfit op.shape.places us with
      ⟨us, behind, rfl, filled⟩ | ⟨us, behind, ps, p, later, rfl, places, filled, misfit⟩
    · obtain ⟨a, rfl⟩ := exists_arguments_of_filled filled
      let s : Statement := ⟨op, a⟩
      have taken : s.Taken := ⟨legal, filled⟩
      show Read (s.tokens ++ behind) (instruction.run (Located.ofTokens (s.tokens ++ behind)))
      by_cases negative : ∃ index < 0, Token.register index ∈ s.tokens
      · obtain ⟨index, negative, mem⟩ := negative
        rw [run_instruction_of_negative taken negative mem]
        exact .negative taken negative mem behind
      · have nonneg : ∀ index, Token.register index ∈ s.tokens → 0 ≤ index :=
          fun index mem => Int.not_lt.1 fun below => negative ⟨index, below, mem⟩
        have fits : s.Fits := Statement.fits_iff_taken.2 ⟨taken, nonneg⟩
        rw [run_instruction_of_fits fits]
        exact .statement fits behind
    · have operand : p ≠ .operator := by
        rintro rfl
        exact op.shape.operator_not_mem_places (by simp [places])
      have begun : Begun (.operator op :: us) p := .operand legal places filled
      have refused : p.Refuses (behind.headD .endOfInput) := ⟨misfit, fun h => absurd h operand⟩
      rw [← List.cons_append, run_instruction_of_misfit begun refused]
      exact .misfit begun refused
  · have refused : Place.operator.Refuses (ts.headD .endOfInput) := ⟨admitted, fun _ => ended⟩
    rw [← List.nil_append ts, run_instruction_of_misfit .operator refused]
    exact .misfit .operator refused

/-! ### Rows of statements -/

/-- Statements that fit are read, and reading goes on behind them. -/
theorem all_of_statements {ss : List Statement} (fit : ∀ s ∈ ss, s.Fits) (ts : List Token) :
    all (Located.ofTokens (ss.flatMap Statement.tokens ++ ts)) = { all (Located.ofTokens ts) with
      instructions :=
        ss.map Statement.instruction ++ (all (Located.ofTokens ts)).instructions } := by
  induction ss with
  | nil => rfl
  | cons s ss ih =>
    have read := run_instruction_of_fits (fit s (List.mem_cons_self ..))
      (ss.flatMap Statement.tokens ++ ts)
    rw [List.flatMap_cons, List.append_assoc, all_of_some read,
      ih fun s hs => fit s (List.mem_cons_of_mem _ hs)]
    rfl

theorem error_of_statements {ss : List Statement} (fit : ∀ s ∈ ss, s.Fits) :
    (all (Located.ofTokens (ss.flatMap Statement.tokens))).error = none := by
  have ended : instruction.run (Located.ofTokens []) = .ok none [] := rfl
  rw [← List.append_nil (ss.flatMap Statement.tokens), all_of_statements fit, all_of_none ended]

/-- A row of tokens that is not assembled has an instruction that is not read, behind statements
    that fit. -/
theorem exists_statements_of_error {ts : List Token} {e : AssemblyError}
    (h : (all (Located.ofTokens ts)).error = some e) :
    ∃ (ss : List Statement) (us : List Token) (rest : List Located), (∀ s ∈ ss, s.Fits) ∧
      ts = ss.flatMap Statement.tokens ++ us ∧
      instruction.run (Located.ofTokens us) = .error e rest := by
  generalize source_eq : Located.ofTokens ts = source at h
  induction source using all.induct generalizing ts with
  | case1 source i rest read shorter ih =>
    subst source_eq
    rw [all_of_some read] at h
    have reads := run_instruction_read ts
    rw [read] at reads
    cases reads with
    | @statement s fits behind =>
      obtain ⟨ss, us, rest, fit, rfl, failed⟩ := ih rfl h
      refine ⟨s :: ss, us, rest, ?_, by simp, failed⟩
      simpa using ⟨fits, fit⟩
  | case2 source rest read =>
    rw [all_of_none read] at h
    cases h
  | case3 source e' rest read =>
    subst source_eq
    rw [all_of_error read] at h
    cases h
    exact ⟨[], ts, rest, nofun, rfl, read⟩

end Assembly

end RegisterMachine
