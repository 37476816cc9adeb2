import RegisterMachine.Proofs.Places

/-! Errors are found at the earliest token. A row of tokens is viable if statements that fit begin
    with it. What the assembler has taken when it breaks off is viable, since the places that are
    left can be filled; with the token at which it breaks off it is not, since the assembler would
    break off at that token whatever stands behind it, and it does not break off within statements
    that fit. Main statement (`breaksOff_of_error`). -/

namespace RegisterMachine

theorem Place.Refuses.complaint_eq_unexpectedEnd {p : Place} {t : Token} (h : p.Refuses t) :
    p.complaint t = .unexpectedEnd ↔ t = .endOfInput := by
  obtain ⟨-, inside⟩ := h
  cases p <;> cases t <;> simp_all [complaint]

/-- Some row of statements that fit begins with the tokens. -/
def Viable (ts : List Token) : Prop :=
  ∃ ss : List Statement, (∀ s ∈ ss, s.Fits) ∧ ts <+: ss.flatMap Statement.tokens

/-! ### Statements that are begun can be finished -/

/-- A token that fits at a place. -/
def Place.sample : Place → Token
  | .operator => .operator .hlt
  | .register => .register 0
  | .integer => .integer 0

theorem Place.admits_sample (p : Place) : p.Admits p.sample := by
  cases p <;> simp [Admits, sample, FitsHalf]

theorem filled_sample (ps : List Place) : Filled ps (ps.map Place.sample) := by
  rw [Filled, List.forall₂_map_right_iff, List.forall₂_same]
  exact fun p _ => p.admits_sample

/-- Unless an index is negative, a statement that is begun is the beginning of one that fits. -/
theorem Begun.exists_statement {begun : List Token} {place : Place} (h : Begun begun place)
    (nonneg : ∀ index, Token.register index ∈ begun → 0 ≤ index) :
    ∃ s : Statement, s.Fits ∧ begun <+: s.tokens := by
  cases h with
  | operator => exact ⟨⟨.hlt, .nullary⟩, ⟨by decide, trivial⟩, List.nil_prefix⟩
  | @operand op us filled later place legal places taken =>
    have all_filled : Filled op.shape.places (us ++ (place :: later).map Place.sample) := by
      rw [places]
      exact List.rel_append taken (filled_sample _)
    obtain ⟨a, tokens_eq⟩ := exists_arguments_of_filled all_filled
    refine ⟨⟨op, a⟩, Statement.fits_iff_taken.2 ⟨⟨legal, tokens_eq ▸ all_filled⟩, ?_⟩, ?_⟩
    · intro index mem
      simp only [Statement.tokens, tokens_eq, List.mem_cons, List.mem_append, List.mem_map] at mem
      rcases mem with h | h | ⟨p, -, h⟩
      · cases h
      · exact nonneg index (List.mem_cons_of_mem _ h)
      · cases p <;> cases h
        decide
    · rw [Statement.tokens, tokens_eq, ← List.cons_append]
      exact List.prefix_append _ _

theorem viable_of_begun {ss : List Statement} (fit : ∀ s ∈ ss, s.Fits) {begun : List Token}
    {place : Place} (h : Begun begun place)
    (nonneg : ∀ index, Token.register index ∈ begun → 0 ≤ index) :
    Viable (ss.flatMap Statement.tokens ++ begun) := by
  obtain ⟨s, fits, more, tokens_eq⟩ := h.exists_statement nonneg
  refine ⟨ss ++ [s], ?_, more, by simp [tokens_eq]⟩
  intro s' hs'
  rcases List.mem_append.1 hs' with hs' | hs'
  · exact fit s' hs'
  · rwa [List.mem_singleton.1 hs']

/-- Nothing that fits goes on with a token that does not belong to its place. -/
theorem not_viable_of_misfit {ss : List Statement} (fit : ∀ s ∈ ss, s.Fits) {begun : List Token}
    {place : Place} (h : Begun begun place) {found : Token} (misfit : place.Refuses found) :
    ¬ Viable (ss.flatMap Statement.tokens ++ begun ++ [found]) := by
  rintro ⟨ss', fit', more, tokens_eq⟩
  have accepted := Assembly.error_of_statements fit'
  have refused : place.Refuses ((found :: more).headD .endOfInput) := misfit
  have broken := Assembly.run_instruction_of_misfit h refused
  rw [← tokens_eq, List.append_assoc, List.append_assoc, List.singleton_append,
    Assembly.all_of_statements fit, Assembly.all_of_error broken] at accepted
  cases accepted

namespace Assembly

/-- What `n` calls for an instruction answer, one after the other, whether or not one fails. -/
def answers : Nat → List Located → List (Except AssemblyError (Option Instruction))
  | 0, _ => []
  | n + 1, source =>
    match instruction.run source with
    | .ok i rest => .ok i :: answers n rest
    | .error e rest => .error e :: answers n rest

theorem answers_of_error {source rest : List Located} {e : AssemblyError}
    (h : instruction.run source = .error e rest) (n : Nat) :
    answers (n + 1) source = .error e :: answers n rest := by
  rw [answers, h]

theorem answers_of_statements {ss : List Statement} (fit : ∀ s ∈ ss, s.Fits) (ts : List Token)
    (n : Nat) : answers (ss.length + n) (Located.ofTokens (ss.flatMap Statement.tokens ++ ts)) =
      ss.map (fun s => .ok (some s.instruction)) ++ answers n (Located.ofTokens ts) := by
  induction ss with
  | nil => simp
  | cons s ss ih =>
    have read := run_instruction_of_fits (fit s (List.mem_cons_self ..))
      (ss.flatMap Statement.tokens ++ ts)
    have count : (s :: ss).length + n = ss.length + n + 1 := by
      rw [List.length_cons]; omega
    rw [List.flatMap_cons, List.append_assoc, count, answers, read]
    exact congrArg (_ :: ·) (ih fun s hs => fit s (List.mem_cons_of_mem _ hs))

/-- The assembler breaks off with `e` at `found`, behind the first `i` tokens: these are the
    statements `ss` and what is `begun` of another one, which is continued at `place`. -/
structure BreaksOff (ts : List Token) (e : AssemblyError) (ss : List Statement)
    (begun : List Token) (place : Place) (i : Nat) (found : Token) : Prop where
  within : i ≤ ts.length
  front : ts.take i = ss.flatMap Statement.tokens ++ begun
  found_eq : found = ts[i]?.getD .endOfInput
  fit : ∀ s ∈ ss, s.Fits
  words : (all (Located.ofTokens ts)).instructions.map
    (fun i => i.encode.map fun b => (b.toNat : Int)) = ss.map Statement.word
  expects : Begun begun place
  misfit : place.Refuses found
  error : e = .refused { complaint := place.complaint found, found := some found }
  viable : Viable (ts.take i)
  not_viable : ¬ Viable (ts.take i ++ [found])
  ended : place.complaint found = .unexpectedEnd ↔ found = .endOfInput
  inside : found = .endOfInput → begun ≠ []
  rest : (all (Located.ofTokens ts)).rest = Located.ofTokens (ts.drop (i + 1))
  further : ∀ n, answers (ss.length + 1 + n) (Located.ofTokens ts) =
    ss.map (fun s => .ok (some s.instruction)) ++
      .error e :: answers n (Located.ofTokens (ts.drop (i + 1)))

/-- Behind statements that fit, a token that does not belong to its place is where the assembler
    breaks off. -/
theorem breaksOff_of_misfit {ss : List Statement} (fit : ∀ s ∈ ss, s.Fits) {begun : List Token}
    {place : Place} (expects : Begun begun place) {behind : List Token}
    (misfit : place.Refuses (behind.headD .endOfInput))
    (nonneg : ∀ index, Token.register index ∈ begun → 0 ≤ index) :
    let front := ss.flatMap Statement.tokens ++ begun
    let found := behind.headD .endOfInput
    BreaksOff (front ++ behind) (place.refusal found) ss begun place front.length found := by
  intro front found
  have broken := run_instruction_of_misfit expects misfit
  have front_eq : (front ++ behind).take front.length = front := List.take_left
  have drop_eq : (front ++ behind).drop (front.length + 1) = behind.tail := by
    rw [List.drop_append, List.drop_eq_nil_of_le (Nat.le_succ _), List.nil_append,
      Nat.add_sub_cancel_left, List.drop_one]
  have split : front ++ behind = ss.flatMap Statement.tokens ++ (begun ++ behind) :=
    List.append_assoc ..
  have all_eq := all_of_statements fit (begun ++ behind)
  rw [all_of_error broken, ← split] at all_eq
  refine ⟨by simp, front_eq, ?_, fit, ?_, expects, misfit, rfl, ?_, ?_, ?_, ?_, ?_, ?_⟩
  · rw [List.getElem?_append_right (Nat.le_refl _), Nat.sub_self, ← List.head?_eq_getElem?,
      ← List.headD_eq_head?_getD]
  · rw [all_eq, List.append_nil, List.map_map]
    exact List.map_congr_left fun s hs => (fit s hs).encode_instruction
  · rw [front_eq]
    exact viable_of_begun fit expects nonneg
  · rw [front_eq]
    exact not_viable_of_misfit fit expects misfit
  · exact misfit.complaint_eq_unexpectedEnd
  · rintro is_end rfl
    cases expects
    exact misfit.2 rfl is_end
  · rw [all_eq, drop_eq]
  · intro n
    rw [split, Nat.add_assoc, answers_of_statements fit, Nat.add_comm 1 n, answers_of_error broken,
      ← split, drop_eq]

/-- Errors are found at the earliest token: some row of statements that fit begins with what stands
    in front of it, and none with the offending token as well. -/
theorem breaksOff_of_error {ts : List Token}
    (nonneg : ∀ index, Token.register index ∈ ts → 0 ≤ index) {e : AssemblyError}
    (failed : (all (Located.ofTokens ts)).error = some e) :
    ∃ ss begun place i found, BreaksOff ts e ss begun place i found := by
  obtain ⟨ss, us, rest, fit, rfl, broken⟩ := exists_statements_of_error failed
  have reads := run_instruction_read us
  rw [broken] at reads
  cases reads with
  | @misfit begun place expects behind misfit =>
    have nonneg_begun : ∀ index, Token.register index ∈ begun → 0 ≤ index :=
      fun index mem => nonneg index (by simp [mem])
    rw [← List.append_assoc]
    exact ⟨_, _, _, _, _, breaksOff_of_misfit fit expects misfit nonneg_begun⟩
  | @negative s taken index negative mem behind =>
    have := nonneg index (by simp [mem])
    omega

/-- A subtraction whose second source is an integer, behind a halt. -/
theorem breaksOff_of_error_sub :
    let ts : List Token := [.operator .hlt, .operator .sub, .register 0, .integer 9, .register 1]
    (∀ index, Token.register index ∈ ts → 0 ≤ index) ∧
      ∃ ss begun place i found, BreaksOff ts (.refused ⟨.expectedRegister, some (.integer 9)⟩)
        ss begun place i found := by
  intro ts
  have nonneg : ∀ index, Token.register index ∈ ts → 0 ≤ index := by simp [ts]
  have failed : (all (Located.ofTokens ts)).error =
      some (.refused ⟨.expectedRegister, some (.integer 9)⟩) := by decide +kernel
  exact ⟨nonneg, breaksOff_of_error nonneg failed⟩

end Assembly

end RegisterMachine
