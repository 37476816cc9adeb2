import RegisterMachine.Proofs.Statement

/-! What the assembler accepts. Reading succeeds exactly on statements that fit: each reading is
    told by the lexemes it takes from the front of the source, and from these the instructions of a
    whole source follow. Main statement (`assembles_iff`): a row of tokens is assembled if and only
    if its tokens in front of the end of input are statements that fit, and the instructions are
    those of the statements. -/

namespace RegisterMachine

/-- The lexemes are the given tokens, wherever they were found. -/
def Located.Spell (front : List Located) (ts : List Token) : Prop :=
  front.map Located.lexeme = ts.map Lexeme.token

namespace Located

theorem spell_nil {front : List Located} : Spell front [] ↔ front = [] := by
  simp [Spell]

theorem spell_cons {front : List Located} {t : Token} {ts : List Token} :
    Spell front (t :: ts) ↔ ∃ x tail, front = x :: tail ∧ x.lexeme = .token t ∧ Spell tail ts := by
  simp only [Spell, List.map_cons, List.map_eq_cons_iff]

theorem spell_append {front : List Located} {ts us : List Token} : Spell front (ts ++ us) ↔
    ∃ first second, front = first ++ second ∧ Spell first ts ∧ Spell second us := by
  simp only [Spell, List.map_append, List.map_eq_append_iff]

end Located

namespace Assembly

variable {α β : Type} {source rest : List Located}

theorem run_bind_eq_ok {a : Assembly α} {f : α → Assembly β} {y : β} :
    (a >>= f).run source = .ok y rest ↔
      ∃ x mid, a.run source = .ok x mid ∧ (f x).run mid = .ok y rest := by
  simp only [EStateM.run, bind, EStateM.bind]
  cases a source with
  | ok x mid =>
    constructor
    · exact fun h => ⟨x, mid, rfl, h⟩
    · rintro ⟨_, _, ⟨⟩, h⟩
      exact h
  | error e mid => simp

theorem run_bind_of_ok {a : Assembly α} {x : α} (h : a.run source = .ok x rest)
    (f : α → Assembly β) : (a >>= f).run source = (f x).run rest := by
  simp only [EStateM.run, bind, EStateM.bind] at h ⊢
  rw [h]

theorem run_bind_of_error {a : Assembly α} {e : AssemblyError} (h : a.run source = .error e rest)
    (f : α → Assembly β) : (a >>= f).run source = .error e rest := by
  simp only [EStateM.run, bind, EStateM.bind] at h ⊢
  rw [h]

theorem run_pure_eq_ok {x y : α} :
    (pure x : Assembly α).run source = .ok y rest ↔ x = y ∧ source = rest := by
  simp [EStateM.run, pure, EStateM.pure]

theorem run_token_eq_ok {t : Token} : token.run source = .ok t rest ↔
    (source = [] ∧ rest = [] ∧ t = .endOfInput) ∨
      ∃ x, source = x :: rest ∧ x.lexeme = .token t := by
  rcases source with _ | ⟨⟨lexeme, position⟩, tail⟩
  · constructor
    · rintro ⟨⟩
      exact .inl ⟨rfl, rfl, rfl⟩
    · rintro (⟨-, rfl, rfl⟩ | ⟨x, h, -⟩)
      · rfl
      · cases h
  · cases lexeme with
    | token t' =>
      constructor
      · rintro ⟨⟩
        exact .inr ⟨_, rfl, rfl⟩
      · rintro (⟨h, -⟩ | ⟨x, ⟨⟩, ⟨⟩⟩)
        · cases h
        · rfl
    | tooLong digits =>
      constructor
      · rintro ⟨⟩
      · rintro (⟨h, -⟩ | ⟨x, ⟨⟩, h⟩)
        · cases h
        · cases h

theorem run_register_eq_ok {index : Int} : register.run source = .ok index rest ↔
    ∃ x, source = x :: rest ∧ x.lexeme = .token (.register index) ∧ index ≤ 0xFF := by
  rw [register, run_bind_eq_ok]
  constructor
  · rintro ⟨t, mid, taken, h⟩
    cases t with
    | register i =>
      rcases run_token_eq_ok.1 taken with ⟨-, -, ht⟩ | ⟨x, rfl, hx⟩
      · cases ht
      · dsimp only at h
        split at h
        · cases h
        · rename_i small
          obtain ⟨rfl, rfl⟩ := run_pure_eq_ok.1 h
          exact ⟨x, rfl, hx, by simpa [maxRegister] using small⟩
    | operator _ | integer _ | endOfInput => cases h
  · rintro ⟨x, rfl, hx, small⟩
    refine ⟨_, _, run_token_eq_ok.2 (.inr ⟨x, rfl, hx⟩), ?_⟩
    have fits : ¬ index > (maxRegister : Int) := by simpa [maxRegister] using small
    simp only [if_neg fits]; rfl

theorem run_integer_eq_ok {half : UInt16} : integer.run source = .ok half rest ↔
    ∃ x value, source = x :: rest ∧ x.lexeme = .token (.integer value) ∧ FitsHalf value ∧
      half = UInt16.ofInt value := by
  have fits_iff : ∀ value : Int,
      ¬ (value > (maxInteger : Int) ∨ value < minInteger) ↔ FitsHalf value := by
    intro value
    rw [FitsHalf, maxInteger, minInteger]; omega
  rw [integer, run_bind_eq_ok]
  constructor
  · rintro ⟨t, mid, taken, h⟩
    cases t with
    | integer value =>
      rcases run_token_eq_ok.1 taken with ⟨-, -, ht⟩ | ⟨x, rfl, hx⟩
      · cases ht
      · dsimp only at h
        split at h
        · cases h
        · rename_i fits
          obtain ⟨rfl, rfl⟩ := run_pure_eq_ok.1 h
          exact ⟨x, value, rfl, hx, (fits_iff value).1 fits, rfl⟩
    | operator _ | register _ | endOfInput => cases h
  · rintro ⟨x, value, rfl, hx, fits, rfl⟩
    refine ⟨_, _, run_token_eq_ok.2 (.inr ⟨x, rfl, hx⟩), ?_⟩
    simp only [if_neg ((fits_iff value).2 fits)]; rfl

theorem run_byte_eq_ok {index : Int} {b : UInt8} : (byte index).run source = .ok b rest ↔
    source = rest ∧ FitsByte index ∧ b = UInt8.ofNat index.toNat := by
  rw [byte, Word.byte?]
  by_cases fits : 0 ≤ index ∧ index < 256
  · have fits' : FitsByte index := ⟨fits.1, by omega⟩
    rw [if_pos fits]
    dsimp only
    rw [run_pure_eq_ok]
    constructor
    · rintro ⟨rfl, rfl⟩
      exact ⟨rfl, fits', rfl⟩
    · rintro ⟨rfl, -, rfl⟩
      exact ⟨rfl, rfl⟩
  · rw [if_neg fits]
    constructor
    · rintro ⟨⟩
    · rintro ⟨-, ⟨nonneg, small⟩, -⟩
      exact absurd ⟨nonneg, by omega⟩ fits

/-- What is read as operands is spelled by arguments that fit. -/
theorem exists_arguments_of_run_operands {s : Shape} {o : Operands s}
    (h : (operands s).run source = .ok o rest) :
    ∃ (a : Arguments s) (front : List Located), a.Fit ∧ o = a.operands ∧ source = front ++ rest ∧
      Located.Spell front a.tokens := by
  cases s with
  | nullary =>
    obtain ⟨rfl, rfl⟩ := run_pure_eq_ok.1 h
    exact ⟨.nullary, [], trivial, rfl, rfl, rfl⟩
  | integer =>
    simp only [operands, run_bind_eq_ok, run_register_eq_ok, run_integer_eq_ok, run_byte_eq_ok,
      run_pure_eq_ok] at h
    obtain ⟨d, _, ⟨x, rfl, hx, -⟩, v, _, ⟨y, value, rfl, hy, value_fits, rfl⟩, _, _,
      ⟨rfl, dest_fits, rfl⟩, rfl, rfl⟩ := h
    exact ⟨.integer d value, [x, y], ⟨dest_fits, value_fits⟩, rfl, rfl,
      by simp [Located.Spell, Arguments.tokens, hx, hy]⟩
  | binary =>
    simp only [operands, run_bind_eq_ok, run_register_eq_ok, run_byte_eq_ok,
      run_pure_eq_ok] at h
    obtain ⟨l, _, ⟨x, rfl, hx, -⟩, r, _, ⟨y, rfl, hy, -⟩, d, _, ⟨z, rfl, hz, -⟩, _, _,
      ⟨rfl, left_fits, rfl⟩, _, _, ⟨rfl, right_fits, rfl⟩, _, _, ⟨rfl, dest_fits, rfl⟩,
      rfl, rfl⟩ := h
    exact ⟨.binary l r d, [x, y, z], ⟨left_fits, right_fits, dest_fits⟩, rfl, rfl,
      by simp [Located.Spell, Arguments.tokens, hx, hy, hz]⟩
  | compare =>
    simp only [operands, run_bind_eq_ok, run_register_eq_ok, run_byte_eq_ok,
      run_pure_eq_ok] at h
    obtain ⟨l, _, ⟨x, rfl, hx, -⟩, r, _, ⟨y, rfl, hy, -⟩, _, _, ⟨rfl, left_fits, rfl⟩, _, _,
      ⟨rfl, right_fits, rfl⟩, rfl, rfl⟩ := h
    exact ⟨.compare l r, [x, y], ⟨left_fits, right_fits⟩, rfl, rfl,
      by simp [Located.Spell, Arguments.tokens, hx, hy]⟩
  | unary =>
    simp only [operands, run_bind_eq_ok, run_register_eq_ok, run_byte_eq_ok,
      run_pure_eq_ok] at h
    obtain ⟨r, _, ⟨x, rfl, hx, -⟩, _, _, ⟨rfl, fits, rfl⟩, rfl, rfl⟩ := h
    exact ⟨.unary r, [x], fits, rfl, rfl, by simp [Located.Spell, Arguments.tokens, hx]⟩

/-- Arguments that fit are read where they are spelled. -/
theorem run_operands_of_spell {s : Shape} {a : Arguments s} {front : List Located} (fit : a.Fit)
    (spelled : Located.Spell front a.tokens) :
    (operands s).run (front ++ rest) = .ok a.operands rest := by
  cases a with
  | nullary =>
    obtain rfl := Located.spell_nil.1 spelled
    rfl
  | integer d value =>
    obtain ⟨x, _, rfl, hx, spelled⟩ := Located.spell_cons.1 spelled
    obtain ⟨y, _, rfl, hy, spelled⟩ := Located.spell_cons.1 spelled
    obtain rfl := Located.spell_nil.1 spelled
    obtain ⟨dest_fits, value_fits⟩ := fit
    simp only [operands, run_bind_eq_ok, run_register_eq_ok, run_integer_eq_ok, run_byte_eq_ok,
      run_pure_eq_ok]
    exact ⟨d, _, ⟨x, rfl, hx, dest_fits.2⟩, _, _, ⟨y, value, rfl, hy, value_fits, rfl⟩, _, _,
      ⟨rfl, dest_fits, rfl⟩, rfl, rfl⟩
  | binary l r d =>
    obtain ⟨x, _, rfl, hx, spelled⟩ := Located.spell_cons.1 spelled
    obtain ⟨y, _, rfl, hy, spelled⟩ := Located.spell_cons.1 spelled
    obtain ⟨z, _, rfl, hz, spelled⟩ := Located.spell_cons.1 spelled
    obtain rfl := Located.spell_nil.1 spelled
    obtain ⟨left_fits, right_fits, dest_fits⟩ := fit
    simp only [operands, run_bind_eq_ok, run_register_eq_ok, run_byte_eq_ok, run_pure_eq_ok]
    exact ⟨l, _, ⟨x, rfl, hx, left_fits.2⟩, r, _, ⟨y, rfl, hy, right_fits.2⟩, d, _,
      ⟨z, rfl, hz, dest_fits.2⟩, _, _, ⟨rfl, left_fits, rfl⟩, _, _, ⟨rfl, right_fits, rfl⟩,
      _, _, ⟨rfl, dest_fits, rfl⟩, rfl, rfl⟩
  | compare l r =>
    obtain ⟨x, _, rfl, hx, spelled⟩ := Located.spell_cons.1 spelled
    obtain ⟨y, _, rfl, hy, spelled⟩ := Located.spell_cons.1 spelled
    obtain rfl := Located.spell_nil.1 spelled
    obtain ⟨left_fits, right_fits⟩ := fit
    simp only [operands, run_bind_eq_ok, run_register_eq_ok, run_byte_eq_ok, run_pure_eq_ok]
    exact ⟨l, _, ⟨x, rfl, hx, left_fits.2⟩, r, _, ⟨y, rfl, hy, right_fits.2⟩, _, _,
      ⟨rfl, left_fits, rfl⟩, _, _, ⟨rfl, right_fits, rfl⟩, rfl, rfl⟩
  | unary r =>
    obtain ⟨x, _, rfl, hx, spelled⟩ := Located.spell_cons.1 spelled
    obtain rfl := Located.spell_nil.1 spelled
    have fits : FitsByte r := fit
    simp only [operands, run_bind_eq_ok, run_register_eq_ok, run_byte_eq_ok, run_pure_eq_ok]
    exact ⟨r, _, ⟨x, rfl, hx, fits.2⟩, _, _, ⟨rfl, fits, rfl⟩, rfl, rfl⟩

/-! ### Instructions -/

theorem instructionFrom_operator {op : Opcode} (legal : op ≠ .illegal) :
    instructionFrom (.operator op) = do return some { op, operands := ← operands op.shape } := by
  cases op with
  | illegal => exact absurd rfl legal
  | _ => rfl

/-- An instruction is read exactly where a statement that fits is spelled. -/
theorem run_instruction_eq_some {i : Instruction} : instruction.run source = .ok (some i) rest ↔
    ∃ (s : Statement) (front : List Located), s.Fits ∧ i = s.instruction ∧
      source = front ++ rest ∧ Located.Spell front s.tokens := by
  rw [instruction, run_bind_eq_ok]
  constructor
  · rintro ⟨t, mid, taken, h⟩
    cases t with
    | operator op =>
      by_cases legal : op = .illegal
      · subst legal; cases h
      rw [instructionFrom_operator legal] at h
      obtain ⟨o, _, read, h⟩ := run_bind_eq_ok.1 h
      obtain ⟨⟨⟩, rfl⟩ := run_pure_eq_ok.1 h
      obtain ⟨a, front, fit, rfl, rfl, spelled⟩ := exists_arguments_of_run_operands read
      rcases run_token_eq_ok.1 taken with ⟨-, -, ht⟩ | ⟨x, rfl, hx⟩
      · cases ht
      · exact ⟨⟨op, a⟩, x :: front, ⟨legal, fit⟩, rfl, rfl,
          Located.spell_cons.2 ⟨x, front, rfl, hx, spelled⟩⟩
    | register _ | integer _ | endOfInput => cases h
  · rintro ⟨⟨op, a⟩, _, ⟨legal, fit⟩, rfl, rfl, spelled⟩
    obtain ⟨x, front, rfl, hx, spelled⟩ := Located.spell_cons.1 spelled
    refine ⟨_, front ++ rest, run_token_eq_ok.2 (.inr ⟨x, rfl, hx⟩), ?_⟩
    rw [instructionFrom_operator legal, run_bind_eq_ok]
    exact ⟨_, rest, run_operands_of_spell fit spelled, rfl⟩

/-- The source is used up, or the end of input stands in front. -/
def AtEnd (source : List Located) : Prop :=
  source = [] ∨ ∃ x tail, source = x :: tail ∧ x.lexeme = .token .endOfInput

theorem atEnd_of_run_instruction (h : instruction.run source = .ok none rest) : AtEnd source := by
  rw [instruction, run_bind_eq_ok] at h
  obtain ⟨t, mid, taken, h⟩ := h
  cases t with
  | endOfInput =>
    rcases run_token_eq_ok.1 taken with ⟨rfl, -, -⟩ | ⟨x, rfl, hx⟩
    · exact .inl rfl
    · exact .inr ⟨x, mid, rfl, hx⟩
  | operator op =>
    by_cases legal : op = .illegal
    · subst legal; cases h
    rw [instructionFrom_operator legal] at h
    obtain ⟨o, _, -, h⟩ := run_bind_eq_ok.1 h
    cases h
  | register _ | integer _ => cases h

theorem run_instruction_of_atEnd (h : AtEnd source) :
    ∃ rest, instruction.run source = .ok none rest := by
  rcases h with rfl | ⟨x, tail, rfl, hx⟩
  · exact ⟨[], rfl⟩
  · refine ⟨tail, ?_⟩
    rw [instruction, run_bind_eq_ok]
    exact ⟨_, tail, run_token_eq_ok.2 (.inr ⟨x, rfl, hx⟩), rfl⟩

/-! ### Whole sources -/

theorem all_eq (source : List Located) : all source = match instruction.run source with
    | .ok (some i) rest => { all rest with instructions := i :: (all rest).instructions }
    | .ok none rest => { instructions := [], error := none, rest }
    | .error e rest => { instructions := [], error := some e, rest } := by
  rw [all]
  split <;> rename_i h <;> simp only [h]

theorem all_of_some {i : Instruction} (h : instruction.run source = .ok (some i) rest) :
    all source = { all rest with instructions := i :: (all rest).instructions } := by
  rw [all_eq, h]

theorem all_of_none (h : instruction.run source = .ok none rest) :
    all source = { instructions := [], error := none, rest } := by
  rw [all_eq, h]

theorem all_of_error {e : AssemblyError} (h : instruction.run source = .error e rest) :
    all source = { instructions := [], error := some e, rest } := by
  rw [all_eq, h]

/-- The source consists of the given statements, up to its end. -/
def Consists (source : List Located) (ss : List Statement) : Prop :=
  ∃ front back, source = front ++ back ∧ Located.Spell front (ss.flatMap Statement.tokens) ∧
    AtEnd back

/-- Statements that fit are assembled. -/
theorem all_of_consists {ss : List Statement} {source : List Located}
    (fit : ∀ s ∈ ss, s.Fits) (consists : Consists source ss) :
    (all source).error = none ∧ (all source).instructions = ss.map Statement.instruction := by
  induction ss generalizing source with
  | nil =>
    obtain ⟨front, back, h, spelled, ended⟩ := consists
    obtain rfl := Located.spell_nil.1 spelled
    rw [List.nil_append] at h
    obtain ⟨rest, read⟩ := run_instruction_of_atEnd (h ▸ ended)
    rw [all_of_none read]
    exact ⟨rfl, rfl⟩
  | cons s ss ih =>
    obtain ⟨front, back, h, spelled, ended⟩ := consists
    rw [List.flatMap_cons] at spelled
    obtain ⟨first, second, rfl, first_spelled, second_spelled⟩ := Located.spell_append.1 spelled
    rw [List.append_assoc] at h
    have read := run_instruction_eq_some.2
      ⟨s, first, fit s (List.mem_cons_self ..), rfl, h, first_spelled⟩
    have fit_rest : ∀ s ∈ ss, s.Fits := fun s hs => fit s (List.mem_cons_of_mem _ hs)
    have rest := ih fit_rest ⟨second, back, rfl, second_spelled, ended⟩
    rw [all_of_some read]
    exact ⟨rest.1, by rw [rest.2, List.map_cons]⟩

/-- What is assembled consists of statements that fit. -/
theorem exists_consists_of_all (source : List Located) (h : (all source).error = none) :
    ∃ ss : List Statement, (∀ s ∈ ss, s.Fits) ∧ Consists source ss := by
  fun_induction all source with
  | case1 source i rest read shorter following ih =>
    obtain ⟨ss, fit, front, back, rfl, spelled, ended⟩ := ih h
    obtain ⟨s, first, fits, -, rfl, first_spelled⟩ := run_instruction_eq_some.1 read
    refine ⟨s :: ss, ?_, first ++ front, back, (List.append_assoc ..).symm, ?_, ended⟩
    · intro s' hs'
      rcases List.mem_cons.1 hs' with rfl | hs'
      · exact fits
      · exact fit s' hs'
    · rw [List.flatMap_cons]
      exact Located.spell_append.2 ⟨first, front, rfl, first_spelled, spelled⟩
  | case2 source rest read =>
    exact ⟨[], nofun, [], source, rfl, rfl, atEnd_of_run_instruction read⟩
  | case3 source e rest read => cases h

/-! ### Behind the end of input -/

/-- A reading that takes no notice of what stands behind the end of input. -/
def Bounded (a : Assembly α) : Prop :=
  ∀ (front : List Located) (x : Located) (back : List Located), x.lexeme = .token .endOfInput →
    (∃ v left, a.run front = .ok v left ∧ a.run (front ++ x :: back) = .ok v (left ++ x :: back)) ∨
      ∃ e left left', a.run front = .error e left ∧ a.run (front ++ x :: back) = .error e left'

theorem bounded_pure (v : α) : Bounded (pure v) := fun _ _ _ _ => .inl ⟨_, _, rfl, rfl⟩

theorem bounded_throw (e : AssemblyError) : Bounded (throw e : Assembly α) :=
  fun _ _ _ _ => .inr ⟨_, _, _, rfl, rfl⟩

theorem bounded_bind {a : Assembly α} {f : α → Assembly β} (ha : Bounded a)
    (hf : ∀ v, Bounded (f v)) : Bounded (a >>= f) := by
  intro front x back hx
  simp only [EStateM.run, bind, EStateM.bind]
  rcases ha front x back hx with ⟨v, left, h, h'⟩ | ⟨e, left, left', h, h'⟩
  · simp only [EStateM.run] at h h'
    rw [h, h']
    exact hf v left x back hx
  · simp only [EStateM.run] at h h'
    rw [h, h']
    exact .inr ⟨e, left, left', rfl, rfl⟩

/-- An operand may not be the end of input, so nothing behind it is read. -/
theorem bounded_operand {f : Token → Assembly α} (hf : ∀ t, Bounded (f t))
    (refused : f .endOfInput = refuse .unexpectedEnd .endOfInput) : Bounded (token >>= f) := by
  rintro front ⟨_, position⟩ back rfl
  match front with
  | [] =>
    refine .inr ⟨.refused ⟨.unexpectedEnd, some .endOfInput⟩, [], back, ?_, ?_⟩
    · show (f .endOfInput).run [] = _
      rw [refused]; rfl
    · show (f .endOfInput).run back = _
      rw [refused]; rfl
  | ⟨.tooLong _, _⟩ :: _ => exact .inr ⟨_, _, _, rfl, rfl⟩
  | ⟨.token t, _⟩ :: tail => exact hf t tail _ back rfl

theorem bounded_compositional : Compositional @Bounded where
  pure := bounded_pure
  error := bounded_throw
  bind := bounded_bind
  operand := bounded_operand

/-- The next instruction is the same whatever stands behind the end of input. -/
theorem instruction_append_end (front : List Located) (x : Located) (back : List Located)
    (hx : x.lexeme = .token .endOfInput) :
    (∃ i left, instruction.run front = .ok (some i) left ∧
      instruction.run (front ++ x :: back) = .ok (some i) (left ++ x :: back)) ∨
    (∃ left left', instruction.run front = .ok none left ∧
      instruction.run (front ++ x :: back) = .ok none left') ∨
    ∃ e left left', instruction.run front = .error e left ∧
      instruction.run (front ++ x :: back) = .error e left' := by
  obtain ⟨_, position⟩ := x
  obtain rfl : _ = Lexeme.token .endOfInput := hx
  match front with
  | [] => exact .inr (.inl ⟨_, _, rfl, rfl⟩)
  | ⟨.tooLong _, _⟩ :: _ => exact .inr (.inr ⟨_, _, _, rfl, rfl⟩)
  | ⟨.token .endOfInput, _⟩ :: _ => exact .inr (.inl ⟨_, _, rfl, rfl⟩)
  | ⟨.token (.register _), _⟩ :: _ => exact .inr (.inr ⟨_, _, _, rfl, rfl⟩)
  | ⟨.token (.integer _), _⟩ :: _ => exact .inr (.inr ⟨_, _, _, rfl, rfl⟩)
  | ⟨.token (.operator op), _⟩ :: tail =>
    by_cases legal : op = .illegal
    · subst legal; exact .inr (.inr ⟨_, _, _, rfl, rfl⟩)
    have run_eq : ∀ source position, instruction.run (⟨.token (.operator op), position⟩ :: source) =
        (do return some { op, operands := ← operands op.shape } : Assembly _).run source := by
      intro source position
      rw [← instructionFrom_operator legal]; rfl
    rw [List.cons_append, run_eq, run_eq]
    rcases bounded_compositional.operands op.shape tail ⟨.token .endOfInput, position⟩ back rfl with
      ⟨o, left, h, h'⟩ | ⟨e, left, left', h, h'⟩
    · exact .inl ⟨_, left, run_bind_eq_ok.2 ⟨o, left, h, rfl⟩,
        run_bind_eq_ok.2 ⟨o, left ++ _ :: back, h', rfl⟩⟩
    · exact .inr (.inr ⟨e, left, left', run_bind_of_error h _, run_bind_of_error h' _⟩)

/-- What stands behind the end of input has no effect. -/
theorem all_append_end (front : List Located) (x : Located) (back : List Located)
    (hx : x.lexeme = .token .endOfInput) :
    (all (front ++ x :: back)).instructions = (all front).instructions ∧
      (all (front ++ x :: back)).error = (all front).error := by
  fun_induction all front with
  | case1 front i rest read shorter following ih =>
    rcases instruction_append_end front x back hx with
      ⟨i', left, h, h'⟩ | ⟨_, _, h, -⟩ | ⟨_, _, _, h, -⟩
    · rw [read] at h
      cases h
      rw [all_of_some h']
      exact ⟨congrArg (i :: ·) ih.1, ih.2⟩
    · rw [read] at h; cases h
    · rw [read] at h; cases h
  | case2 front rest read =>
    rcases instruction_append_end front x back hx with
      ⟨_, _, h, -⟩ | ⟨_, _, _, h'⟩ | ⟨_, _, _, h, -⟩
    · rw [read] at h; cases h
    · rw [all_of_none h']; exact ⟨rfl, rfl⟩
    · rw [read] at h; cases h
  | case3 front e rest read =>
    rcases instruction_append_end front x back hx with
      ⟨_, _, h, -⟩ | ⟨_, _, h, -⟩ | ⟨_, _, _, h, h'⟩
    · rw [read] at h; cases h
    · rw [read] at h; cases h
    · rw [read] at h
      cases h
      rw [all_of_error h']; exact ⟨rfl, rfl⟩

/-! ### Rows of tokens -/

theorem consists_ofTokens_iff {ts : List Token} {ss : List Statement} :
    Consists (Located.ofTokens ts) ss ↔
      ts.takeWhile (· ≠ .endOfInput) = ss.flatMap Statement.tokens := by
  constructor
  · rintro ⟨front, back, split, spelled, ended⟩
    obtain ⟨us, vs, rfl, rfl, rfl⟩ := List.map_eq_append_iff.1 split
    have us_eq : us = ss.flatMap Statement.tokens := by
      rw [Located.Spell, List.map_map] at spelled
      exact (List.map_inj_right fun _ _ => Lexeme.token.inj).1 spelled
    have kept : ∀ t ∈ us, decide (t ≠ .endOfInput) = true := by
      intro t ht
      rw [us_eq] at ht
      have not_end : t ≠ .endOfInput := fun h =>
        Statement.endOfInput_not_mem_flatMap ss (h ▸ ht)
      simp [not_end]
    have none_behind : vs.takeWhile (· ≠ .endOfInput) = [] := by
      rcases ended with h | ⟨x, tail, h, hx⟩
      · rw [List.map_eq_nil_iff.1 h]; rfl
      · obtain ⟨v, vs, rfl, rfl, -⟩ := List.map_eq_cons_iff.1 h
        cases hx
        simp
    rw [List.takeWhile_append_of_pos kept, none_behind, List.append_nil, us_eq]
  · intro h
    refine ⟨Located.ofTokens (ts.takeWhile (· ≠ .endOfInput)),
      Located.ofTokens (ts.dropWhile (· ≠ .endOfInput)), ?_, ?_, ?_⟩
    · rw [Located.ofTokens, Located.ofTokens, Located.ofTokens, ← List.map_append,
        List.takeWhile_append_dropWhile]
    · rw [h]
      simp [Located.Spell, Located.ofTokens]
    · have stopped := List.head?_dropWhile_not (fun t : Token => decide (t ≠ .endOfInput)) ts
      cases hd : ts.dropWhile (· ≠ .endOfInput) with
      | nil => exact .inl rfl
      | cons t tail =>
        rw [hd] at stopped
        have is_end : t = .endOfInput := by simpa using stopped
        exact .inr ⟨_, _, rfl, by rw [is_end]⟩

/-- The assembler accepts exactly its grammar: statements that fit, in front of the first end of
    input, whatever stands behind it. -/
theorem assembles_iff (ts : List Token) :
    ((all (Located.ofTokens ts)).error = none ↔ ∃ ss : List Statement, (∀ s ∈ ss, s.Fits) ∧
      ts.takeWhile (· ≠ .endOfInput) = ss.flatMap Statement.tokens) ∧
    (∀ ss : List Statement, (∀ s ∈ ss, s.Fits) →
      ts.takeWhile (· ≠ .endOfInput) = ss.flatMap Statement.tokens →
      (all (Located.ofTokens ts)).instructions.map
        (fun i => i.encode.map fun b => (b.toNat : Int)) = ss.map Statement.word) ∧
    (∀ behind : List Token,
      (all (Located.ofTokens (ts ++ .endOfInput :: behind))).instructions =
        (all (Located.ofTokens ts)).instructions ∧
      (all (Located.ofTokens (ts ++ .endOfInput :: behind))).error =
        (all (Located.ofTokens ts)).error) := by
  refine ⟨⟨?_, ?_⟩, ?_, ?_⟩
  · intro h
    obtain ⟨ss, fit, consists⟩ := exists_consists_of_all _ h
    exact ⟨ss, fit, consists_ofTokens_iff.1 consists⟩
  · rintro ⟨ss, fit, h⟩
    exact (all_of_consists fit (consists_ofTokens_iff.2 h)).1
  · intro ss fit h
    rw [(all_of_consists fit (consists_ofTokens_iff.2 h)).2, List.map_map]
    exact List.map_congr_left fun s hs => (fit s hs).encode_instruction
  · intro behind
    have split : Located.ofTokens (ts ++ .endOfInput :: behind) =
        Located.ofTokens ts ++ { lexeme := .token .endOfInput } :: Located.ofTokens behind := by
      simp [Located.ofTokens]
    rw [split]
    exact all_append_end _ _ _ rfl

end Assembly

end RegisterMachine
