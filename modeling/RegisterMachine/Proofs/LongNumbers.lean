import RegisterMachine.Console.Session
import RegisterMachine.Execution
import RegisterMachine.Proofs.Pulls
import RegisterMachine.Proofs.Refusal
import RegisterMachine.Proofs.RoundTrip
import RegisterMachine.Proofs.Viability

/-! Numbers that are too long to be read. A text is scanned while it is assembled, and so such a
    number is met only when the assembler comes to it. An error in front of it is found first,
    unless it is that the tokens in front end within a statement, for then the assembler asks for
    one more. Main statement (`outcomes_of_text`): apart from refusals, to meet such a number is the
    only error of a text, and whatever the error is, nothing is loaded. -/

namespace RegisterMachine

/-! ### The first number that is too long -/

namespace Text

/-- The text is `front`, a sigil with all the `digits` behind it, too many to be read, and `back`;
    and in front there is no other such number. -/
structure FirstLongNumber (cs front : List Char) (sigil : Char) (digits back : List Char) :
    Prop where
  text_eq : cs = front ++ sigil :: (digits ++ back)
  is_sigil : sigil = '$' ∨ sigil = '#'
  are_digits : ∀ d ∈ digits, d.isDigit
  maximal : ∀ d ∈ back.head?, ¬ d.isDigit
  long : 4300 < digits.length
  first : ¬ HasLongNumber front

theorem hasLongNumber_cons_iff {c : Char} {cs : List Char} : HasLongNumber (c :: cs) ↔
    (c = '$' ∨ c = '#') ∧ 4300 < (cs.takeWhile Char.isDigit).length ∨ HasLongNumber cs := by
  constructor
  · rintro ⟨sigil, digits, is_sigil, are_digits, long, inside⟩
    rcases List.infix_cons_iff.1 inside with here | later
    · obtain ⟨rfl, ⟨back, rfl⟩⟩ := List.cons_prefix_cons.1 here
      rw [List.takeWhile_append_of_pos are_digits, List.length_append]
      exact .inl ⟨is_sigil, by omega⟩
    · exact .inr ⟨sigil, digits, is_sigil, are_digits, long, later⟩
  · rintro (⟨is_sigil, long⟩ | later)
    · have inside : c :: cs.takeWhile Char.isDigit <:+: c :: cs :=
        ((List.prefix_cons_inj c).2 (List.takeWhile_prefix _)).isInfix
      exact ⟨c, _, is_sigil, List.all_eq_true.1 List.all_takeWhile, long, inside⟩
    · exact later.mono (List.suffix_cons c cs).isInfix

theorem HasLongNumber.exists_first {cs : List Char} (h : HasLongNumber cs) :
    ∃ front sigil digits back, FirstLongNumber cs front sigil digits back := by
  induction cs with
  | nil => exact absurd h (not_hasLongNumber_of_length (by simp))
  | cons c cs ih =>
    by_cases here : (c = '$' ∨ c = '#') ∧ 4300 < (cs.takeWhile Char.isDigit).length
    · refine ⟨[], c, cs.takeWhile Char.isDigit, cs.dropWhile Char.isDigit, ?_⟩
      refine ⟨?_, here.1, List.all_eq_true.1 List.all_takeWhile, ?_, here.2, ?_⟩
      · simp
      · exact fun d hd => Slice.head?_dropWhile hd
      · exact not_hasLongNumber_of_length (by simp)
    · have later := (hasLongNumber_cons_iff.1 h).resolve_left here
      obtain ⟨front, sigil, digits, back, first⟩ := ih later
      refine ⟨c :: front, sigil, digits, back, { first with text_eq := ?_, first := ?_ }⟩
      · rw [first.text_eq, List.cons_append]
      · intro long
        rcases hasLongNumber_cons_iff.1 long with number | long
        · -- the digits behind `c` end in front of the sigil, if not before
          have stop : sigil.isDigit = false := by
            rcases first.is_sigil with rfl | rfl <;> rfl
          rw [first.text_eq, (takeWhile_append_stop stop _ _).1] at here
          exact here number
        · exact first.first long

end Text

/-- No piece goes on with a sigil. -/
theorem Slice.mayFollow_of_sigil {d : Char} (h : d = '$' ∨ d = '#') (c : Char) :
    mayFollow c d = false := by
  rw [mayFollow]
  rcases h with rfl | rfl <;> split <;> try split
  all_goals rfl

theorem Lexeme.ofChars_of_long {sigil : Char} {digits : List Char}
    (is_sigil : sigil = '$' ∨ sigil = '#') (long : 4300 < digits.length) :
    ofChars (sigil :: digits) = .tooLong digits.length := by
  have nonempty : digits ≠ [] := by
    rintro rfl
    simp at long
  obtain ⟨register, integer⟩ := ofChars_number nonempty
  rcases is_sigil with rfl | rfl
  · rw [register]
    exact if_pos long
  · rw [integer]
    exact if_pos long

/-- A number of too many digits. -/
def Located.long (digits : Nat) : Located := { lexeme := .tooLong digits }

/-- The lexemes of a text with a number that is too long: the tokens in front of the first such
    number, the number, and what stands behind it. -/
theorem Text.FirstLongNumber.exists_lexemes {text : String} {front digits back : List Char}
    {sigil : Char} (h : FirstLongNumber text.toList front sigil digits back) :
    ∃ ts behind, Located.tokens (Located.ofText (String.ofList front)) = .ok ts ∧
      (Located.ofText text).map Located.lexeme =
        (Located.ofTokens ts ++ Located.long digits.length :: behind).map Located.lexeme := by
  obtain ⟨ts, read⟩ : ∃ ts, Located.tokens (Located.ofText (String.ofList front)) = .ok ts := by
    refine Located.exists_tokens ?_
    rw [String.toList_ofList]
    exact h.first
  have spelled := Located.tokens_eq_ok_iff.1 read
  rw [Located.Spell, Located.map_lexeme_ofText, String.toList_ofList] at spelled
  have plain : Slice.isLayout sigil = false := by
    rcases h.is_sigil with rfl | rfl <;> rfl
  have follow : ∀ d ∈ digits, Slice.mayFollow sigil d := by
    rw [Slice.mayFollow_sigil h.is_sigil]
    exact h.are_digits
  have stop : ∀ d ∈ back.head?, ¬ Slice.mayFollow sigil d := by
    rw [Slice.mayFollow_sigil h.is_sigil]
    exact h.maximal
  refine ⟨ts, (Slice.pieces back).map fun piece => { lexeme := Lexeme.ofChars piece }, read, ?_⟩
  rw [Located.map_lexeme_ofText, h.text_eq,
    Slice.pieces_append_of_parts (Slice.mayFollow_of_sigil h.is_sigil), ← List.cons_append,
    Slice.pieces_append_of_stop plain follow stop, List.map_append, List.map_cons, spelled,
    Lexeme.ofChars_of_long h.is_sigil h.long, List.map_append, List.map_cons, Located.ofTokens,
    List.map_map, List.map_map]
  rfl

/-! ### Coming to a number that is too long -/

namespace Assembly

variable {α : Type}

/-- An operand that is too long breaks off the reading. -/
theorem Follows.run_of_tooLong {p : Place} {later : List Place} {a : Assembly α}
    (h : Follows (p :: later) a) (n : Nat) (behind : List Located) :
    a.run (Located.long n :: behind) = .error (.tooLong n) [] := by
  cases h with
  | register _ => rfl
  | integer _ => rfl

/-- The number is asked for whatever is begun of a statement. -/
theorem run_instruction_of_tooLong {begun : List Token} {place : Place} (h : Begun begun place)
    (n : Nat) (behind : List Located) :
    instruction.run (Located.ofTokens begun ++ Located.long n :: behind) =
      .error (.tooLong n) [] := by
  cases h with
  | operator => rfl
  | @operand op us filled later place legal places taken =>
    have follows : Follows (filled ++ place :: later) (operands op.shape) :=
      places ▸ follows_operands op.shape
    obtain ⟨b, rest, goes_on⟩ := follows.exists_rest taken
    have operator (source : List Located) :
        instruction.run (Located.ofTokens (.operator op :: us) ++ source) =
          (instructionFrom (.operator op)).run (Located.ofTokens us ++ source) := rfl
    rw [operator, instructionFrom_operator legal]
    exact run_bind_of_error ((goes_on _).trans (rest.run_of_tooLong n behind)) _

theorem ne_endOfInput_of_mem {ts : List Token} (no_end : Token.endOfInput ∉ ts) :
    ∀ x ∈ Located.ofTokens ts, x.lexeme ≠ .token .endOfInput := by
  intro x hx is_end
  obtain ⟨t, mem, rfl⟩ := List.mem_map.1 hx
  cases is_end
  exact no_end mem

/-- The number is met if the tokens in front of it are assembled or end within a statement. -/
theorem error_of_tooLong {ts : List Token} (no_end : Token.endOfInput ∉ ts)
    (early : ∀ e, (all (Located.ofTokens ts)).error = some e →
      ∃ found, e = .refused ⟨.unexpectedEnd, found⟩) (n : Nat) (behind : List Located) :
    (all (Located.ofTokens ts ++ Located.long n :: behind)).error = some (.tooLong n) := by
  have meets {begun : List Token} {place : Place} (expects : Begun begun place) :
      (all (Located.ofTokens begun ++ Located.long n :: behind)).error = some (.tooLong n) := by
    rw [all_of_error (run_instruction_of_tooLong expects n behind)]
  cases error_eq : (all (Located.ofTokens ts)).error with
  | none =>
    obtain ⟨complete, -⟩ := all_append (ne_endOfInput_of_mem no_end) (Located.long n :: behind)
    rw [(complete error_eq).2]
    exact meets .operator
  | some e =>
    obtain ⟨found, is_early⟩ := early e error_eq
    obtain ⟨ss, us, rest, fit, rfl, broken⟩ := exists_statements_of_error error_eq
    have reads := run_instruction_read us
    rw [broken] at reads
    cases reads with
    | @misfit begun place expects tail misfit =>
      have at_end : tail.headD .endOfInput = .endOfInput := by
        injection is_early with same
        injection same with complaint_eq
        exact misfit.complaint_eq_unexpectedEnd.1 complaint_eq
      -- the end of input is no token of the row, so the row ends here
      obtain rfl : tail = [] := by
        cases tail with
        | nil => rfl
        | cons t tail =>
          obtain rfl : t = .endOfInput := at_end
          exact absurd (by simp) no_end
      have no_end_front := ne_endOfInput_of_mem (Statement.endOfInput_not_mem_flatMap ss)
      obtain ⟨complete, -⟩ :=
        all_append no_end_front (Located.ofTokens begun ++ Located.long n :: behind)
      rw [List.append_nil, Located.ofTokens_append, List.append_assoc,
        (complete (error_of_statements fit)).2]
      exact meets expects
    | negative _ _ _ _ => cases is_early

/-! ### Texts -/

/-- The tokens stand in front of the first number of the text that is too long, and this has `n`
    digits. -/
def Precede (ts : List Token) (text : String) (n : Nat) : Prop :=
  ∃ front sigil digits back, Text.FirstLongNumber text.toList front sigil digits back ∧
    digits.length = n ∧ Located.tokens (Located.ofText (String.ofList front)) = .ok ts

/-- A text fails at the first number that is too long if the tokens in front of it are assembled or
    end within a statement, and otherwise with an error of these tokens. -/
theorem program_eq_tooLong_iff (text : String) (n : Nat) : program text = .error (.tooLong n) ↔
    ∃ ts, Precede ts text n ∧ ∀ e, (all (Located.ofTokens ts)).error = some e →
      ∃ found, e = .refused ⟨.unexpectedEnd, found⟩ := by
  constructor
  · intro failed
    have long : Text.HasLongNumber text.toList := by
      refine Classical.byContradiction fun short => ?_
      obtain ⟨_, ⟨⟩⟩ := exists_refusal short failed
    obtain ⟨front, sigil, digits, back, first⟩ := long.exists_first
    obtain ⟨ts, behind, read, same⟩ := first.exists_lexemes
    have no_end := Located.endOfInput_not_mem read
    have whole : (all (Located.ofTokens ts ++ Located.long digits.length :: behind)).error =
        some (.tooLong n) := (all_congr same).2.symm.trans (program_eq_error_iff.1 failed)
    have early : ∀ e, (all (Located.ofTokens ts)).error = some e →
        ∃ found, e = .refused ⟨.unexpectedEnd, found⟩ := by
      intro e broken
      by_cases is_early : e = tooEarly
      · exact ⟨_, is_early⟩
      · -- any other error of the tokens would be that of the text, and tokens are never too long
        obtain ⟨-, faulty⟩ := all_append (ne_endOfInput_of_mem no_end)
          (Located.long digits.length :: behind)
        have again := whole.symm.trans (faulty e broken is_early)
        rcases error_cases broken with ⟨refusal, rfl⟩ | ⟨rfl, -⟩
        · cases again
        · cases again
    have digits_eq : digits.length = n := by
      have met := whole.symm.trans (error_of_tooLong no_end early digits.length behind)
      injection met with met
      injection met with met
      exact met.symm
    exact ⟨ts, ⟨front, sigil, digits, back, first, digits_eq, read⟩, early⟩
  · rintro ⟨ts, ⟨front, sigil, digits, back, first, rfl, read⟩, early⟩
    obtain ⟨ts', behind, read', same⟩ := first.exists_lexemes
    obtain rfl : ts = ts' := Except.ok.inj (read.symm.trans read')
    rw [program_eq_error_iff, (all_congr same).2]
    exact error_of_tooLong (Located.endOfInput_not_mem read) early _ _

/-- A text is assembled or refused, or a number in it is too long, and this is met only if the
    tokens in front of it have no error but that they may end too early. -/
theorem outcomes_of_text (text : String) :
    ((∃ is, program text = .ok is ∧ ∀ i ∈ is, i.encode.length = 4) ∨
      (∃ refusal, program text = .error (.refused refusal)) ∨
      ∃ n, program text = .error (.tooLong n)) ∧
    (∀ n, program text = .error (.tooLong n) ↔
      ∃ ts, Precede ts text n ∧ ∀ e, (all (Located.ofTokens ts)).error = some e →
        ∃ found, e = .refused ⟨.unexpectedEnd, found⟩) ∧
    (∀ e, program text = .error e →
      (∀ fuel limit, executeText? fuel limit text = some (.error e)) ∧
      ∀ s, (Console.queue s text).session = s ∧ (Console.evaluateAssembly s text).session = s) := by
  refine ⟨?_, program_eq_tooLong_iff text, ?_⟩
  · cases read : program text with
    | ok is => exact .inl ⟨is, rfl, fun i _ => i.length_encode⟩
    | error e =>
      cases e with
      | refused refusal => exact .inr (.inl ⟨refusal, rfl⟩)
      | unencodable => exact absurd read (program_ne_unencodable text)
      | tooLong n => exact .inr (.inr ⟨n, rfl⟩)
  · intro e failed
    refine ⟨fun fuel limit => by rw [executeText?, failed], fun s => ?_⟩
    rw [Console.queue, Console.evaluateAssembly, Console.load, failed]
    cases e with
    | refused _ | unencodable | tooLong _ => exact ⟨rfl, rfl⟩

end Assembly

end RegisterMachine
