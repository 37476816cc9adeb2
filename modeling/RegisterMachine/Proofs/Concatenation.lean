import RegisterMachine.CommandLine.Outcome
import RegisterMachine.Proofs.Scanning
import RegisterMachine.Proofs.Simulation

/-! Sources that are put together. The assembler takes no notice of positions, and it decides about
    a token when it comes to it: what stands further behind changes nothing, unless the source ends
    within an instruction. So a text with a gap in it is assembled as its two parts are, one after
    the other. Main statement (`program_of_parts`). -/

namespace RegisterMachine

namespace Assembly

variable {α β : Type}

/-! ### Positions -/

/-- Two readings come to the same, and what they leave differs in positions at most. -/
inductive Alike : EStateM.Result AssemblyError (List Located) α →
    EStateM.Result AssemblyError (List Located) α → Prop where
  | value (v : α) {left left' : List Located}
      (same : left.map Located.lexeme = left'.map Located.lexeme) : Alike (.ok v left) (.ok v left')
  | error (e : AssemblyError) (left left' : List Located) : Alike (.error e left) (.error e left')

theorem Alike.exists_ok {v : α} {left : List Located}
    {r : EStateM.Result AssemblyError (List Located) α} (h : Alike (.ok v left) r) :
    ∃ left', r = .ok v left' ∧ left.map Located.lexeme = left'.map Located.lexeme := by
  cases h with
  | value _ same => exact ⟨_, rfl, same⟩

theorem Alike.exists_error {e : AssemblyError} {left : List Located}
    {r : EStateM.Result AssemblyError (List Located) α} (h : Alike (.error e left) r) :
    ∃ left', r = .error e left' := by
  cases h with
  | error _ _ left' => exact ⟨left', rfl⟩

/-- A reading that takes no notice of positions. -/
def Blind (a : Assembly α) : Prop := ∀ source source' : List Located,
  source.map Located.lexeme = source'.map Located.lexeme → Alike (a.run source) (a.run source')

theorem blind_pure (v : α) : Blind (pure v) := fun _ _ same => .value v same

theorem blind_throw (e : AssemblyError) : Blind (throw e : Assembly α) :=
  fun _ _ _ => .error e _ _

theorem blind_bind {a : Assembly α} {f : α → Assembly β} (ha : Blind a) (hf : ∀ v, Blind (f v)) :
    Blind (a >>= f) := by
  intro source source' same
  have alike := ha source source' same
  cases hr : a.run source with
  | ok v left =>
    rw [hr] at alike
    obtain ⟨left', hr', same⟩ := alike.exists_ok
    rw [run_bind_of_ok hr, run_bind_of_ok hr']
    exact hf v left left' same
  | error e left =>
    rw [hr] at alike
    obtain ⟨left', hr'⟩ := alike.exists_error
    rw [run_bind_of_error hr, run_bind_of_error hr']
    exact .error e left left'

theorem blind_token : Blind token := by
  intro source source' same
  match source, source' with
  | [], [] => exact .value _ rfl
  | [], _ :: _ => simp at same
  | _ :: _, [] => simp at same
  | ⟨lexeme, _⟩ :: tail, ⟨lexeme', _⟩ :: tail' =>
    obtain ⟨rfl, behind⟩ := List.cons.inj same
    cases lexeme with
    | token t => exact .value t behind
    | tooLong digits => exact .error _ _ _

theorem blind_compositional : Compositional @Blind where
  pure := blind_pure
  error := blind_throw
  bind := blind_bind
  operand hf _ := blind_bind blind_token hf

theorem blind_instruction : Blind instruction := by
  refine blind_bind blind_token fun t => ?_
  rw [instructionFrom.eq_def]
  split
  · exact blind_pure _
  · exact blind_throw _
  · exact blind_bind (blind_compositional.operands _) fun _ => blind_pure _
  · exact blind_throw _

/-- What a source gives does not depend on positions. -/
theorem all_congr {source source' : List Located}
    (same : source.map Located.lexeme = source'.map Located.lexeme) :
    (all source).instructions = (all source').instructions ∧
      (all source).error = (all source').error := by
  induction source using all.induct generalizing source' with
  | case1 source i rest read shorter ih =>
    have alike := blind_instruction source source' same
    rw [read] at alike
    obtain ⟨rest', read', same⟩ := alike.exists_ok
    obtain ⟨instructions_eq, error_eq⟩ := ih same
    rw [all_of_some read, all_of_some read']
    exact ⟨congrArg (i :: ·) instructions_eq, error_eq⟩
  | case2 source rest read =>
    have alike := blind_instruction source source' same
    rw [read] at alike
    obtain ⟨rest', read', -⟩ := alike.exists_ok
    rw [all_of_none read, all_of_none read']
    exact ⟨rfl, rfl⟩
  | case3 source e rest read =>
    have alike := blind_instruction source source' same
    rw [read] at alike
    obtain ⟨rest', read'⟩ := alike.exists_error
    rw [all_of_error read, all_of_error read']
    exact ⟨rfl, rfl⟩

/-! ### Lexemes behind the source -/

/-- The source has come to an end where an operand was expected. -/
def tooEarly : AssemblyError := .refused { complaint := .unexpectedEnd, found := some .endOfInput }

/-- A reading that lexemes behind the source do not change, unless the source ends too early. -/
def Settled (a : Assembly α) : Prop := ∀ front back : List Located,
  (∃ v left, a.run front = .ok v left ∧ a.run (front ++ back) = .ok v (left ++ back)) ∨
  (∃ e left left', a.run front = .error e left ∧ a.run (front ++ back) = .error e left') ∨
  ∃ left, a.run front = .error tooEarly left

theorem settled_pure (v : α) : Settled (pure v) := fun _ _ => .inl ⟨v, _, rfl, rfl⟩

theorem settled_throw (e : AssemblyError) : Settled (throw e : Assembly α) :=
  fun _ _ => .inr (.inl ⟨e, _, _, rfl, rfl⟩)

theorem settled_bind {a : Assembly α} {f : α → Assembly β} (ha : Settled a)
    (hf : ∀ v, Settled (f v)) : Settled (a >>= f) := by
  intro front back
  rcases ha front back with ⟨v, left, h, h'⟩ | ⟨e, left, left', h, h'⟩ | ⟨left, h⟩
  · rw [run_bind_of_ok h, run_bind_of_ok h']
    exact hf v left back
  · exact .inr (.inl ⟨e, left, left', run_bind_of_error h f, run_bind_of_error h' f⟩)
  · exact .inr (.inr ⟨left, run_bind_of_error h f⟩)

theorem settled_operand {f : Token → Assembly α} (hf : ∀ t, Settled (f t))
    (refused : f .endOfInput = refuse .unexpectedEnd .endOfInput) : Settled (token >>= f) := by
  intro front back
  match front with
  | [] =>
    refine .inr (.inr ⟨[], ?_⟩)
    show (f .endOfInput).run [] = _
    rw [refused]; rfl
  | ⟨.tooLong _, _⟩ :: _ => exact .inr (.inl ⟨_, _, _, rfl, rfl⟩)
  | ⟨.token t, _⟩ :: tail => exact hf t tail back

theorem settled_compositional : Compositional @Settled where
  pure := settled_pure
  error := settled_throw
  bind := settled_bind
  operand := settled_operand

theorem settled_instructionFrom (t : Token) : Settled (instructionFrom t) := by
  rw [instructionFrom.eq_def]
  split
  · exact settled_pure _
  · exact settled_throw _
  · exact settled_bind (settled_compositional.operands _) fun _ => settled_pure _
  · exact settled_throw _

/-- An error that is not the end of the source is met again, whatever stands behind. -/
theorem run_instruction_append_of_error {front left : List Located} {e : AssemblyError}
    (h : instruction.run front = .error e left) (inside : e ≠ tooEarly) (back : List Located) :
    ∃ left', instruction.run (front ++ back) = .error e left' := by
  match front with
  | [] => cases h
  | ⟨.tooLong _, _⟩ :: _ =>
    cases h
    exact ⟨_, rfl⟩
  | ⟨.token t, _⟩ :: tail =>
    have read : (instructionFrom t).run tail = .error e left := h
    rcases settled_instructionFrom t tail back with ⟨v, _, h, -⟩ | ⟨e', _, left', h, h'⟩ | ⟨_, h⟩
    · rw [read] at h; cases h
    · rw [read] at h
      cases h
      exact ⟨left', h'⟩
    · rw [read] at h
      cases h
      exact absurd rfl inside

/-- A source with no end of input in it, and more behind it, is assembled part by part. -/
theorem all_append {front : List Located}
    (no_end : ∀ x ∈ front, x.lexeme ≠ .token .endOfInput) (back : List Located) :
    ((all front).error = none →
      (all (front ++ back)).instructions = (all front).instructions ++ (all back).instructions ∧
      (all (front ++ back)).error = (all back).error) ∧
    (∀ e, (all front).error = some e → e ≠ tooEarly → (all (front ++ back)).error = some e) := by
  fun_induction all front with
  | case1 front i rest read shorter following ih =>
    obtain ⟨s, first, fits, i_eq, rfl, spelled⟩ := run_instruction_eq_some.1 read
    have read' : instruction.run (first ++ rest ++ back) = .ok (some i) (rest ++ back) :=
      run_instruction_eq_some.2 ⟨s, first, fits, i_eq, List.append_assoc .., spelled⟩
    obtain ⟨complete, faulty⟩ := ih fun x hx => no_end x (List.mem_append_right _ hx)
    rw [all_of_some read']
    refine ⟨fun no_error => ?_, faulty⟩
    obtain ⟨instructions_eq, error_eq⟩ := complete no_error
    exact ⟨congrArg (i :: ·) instructions_eq, error_eq⟩
  | case2 front rest read =>
    rcases atEnd_of_run_instruction read with rfl | ⟨x, tail, rfl, is_end⟩
    · exact ⟨fun _ => ⟨rfl, rfl⟩, by simp⟩
    · exact absurd is_end (no_end x (List.mem_cons_self ..))
  | case3 front e rest read =>
    refine ⟨by simp, ?_⟩
    intro e' same inside
    obtain rfl := Option.some.inj same
    obtain ⟨left', read'⟩ := run_instruction_append_of_error read inside back
    rw [all_of_error read']

/-! ### Texts -/

theorem program_eq_ok_iff {text : String} {is : List Instruction} : program text = .ok is ↔
    (all (Located.ofText text)).error = none ∧ (all (Located.ofText text)).instructions = is := by
  rw [program]
  cases (all (Located.ofText text)).error <;> simp

theorem program_eq_error_iff {text : String} {e : AssemblyError} :
    program text = .error e ↔ (all (Located.ofText text)).error = some e := by
  rw [program]
  cases (all (Located.ofText text)).error <;> simp

/-- A text is assembled as any source with the same lexemes. -/
theorem program_eq {text : String} {source : List Located}
    (same : (Located.ofText text).map Located.lexeme = source.map Located.lexeme) :
    program text = match (all source).error with
      | none => .ok (all source).instructions
      | some e => .error e := by
  obtain ⟨instructions_eq, error_eq⟩ := all_congr same
  cases h : (all source).error with
  | none => exact program_eq_ok_iff.2 ⟨error_eq.trans h, instructions_eq⟩
  | some e => exact program_eq_error_iff.2 (error_eq.trans h)

theorem program_congr {text text' : String}
    (same : Slice.pieces text.toList = Slice.pieces text'.toList) :
    program text = program text' := by
  have lexemes_eq : (Located.ofText text).map Located.lexeme =
      (Located.ofText text').map Located.lexeme := by
    rw [Located.map_lexeme_ofText, Located.map_lexeme_ofText, same]
  exact (program_eq lexemes_eq).trans (program_eq rfl).symm

/-- The lexemes of a text with a gap in it are those in front of the gap and those behind it. -/
theorem map_lexeme_of_gap {a gap b : String} (nonempty : gap ≠ "")
    (layout : Slice.IsLayout gap.toList) : (Located.ofText (a ++ gap ++ b)).map Located.lexeme =
      (Located.ofText a ++ Located.ofText b).map Located.lexeme := by
  have not_nil : gap.toList ≠ [] := by simpa using nonempty
  rw [List.map_append, Located.map_lexeme_ofText, Located.map_lexeme_ofText,
    Located.map_lexeme_ofText, String.toList_append, String.toList_append,
    Slice.pieces_append_gap not_nil layout, List.map_append]

/-- The words of a command line are assembled as any text in which they stand with layout between
    them. -/
theorem program_of_laidOut {words : List String} {text : String}
    (laid_out : Slice.LaidOut words text.toList) (input : String) :
    program (CommandLine.sourceText (CommandLine.Tool.source words) input) = program text := by
  obtain ⟨word, words, rfl⟩ := laid_out.exists_cons
  refine program_congr ?_
  rw [laid_out.pieces_eq]
  exact (Slice.laidOut_intercalate word words).pieces_eq

/-- Assembling distributes over texts with a gap between them, so it makes no difference into which
    words a source is split, or how it is laid out over lines. -/
theorem program_of_parts {a gap b : String} (nonempty : gap ≠ "")
    (layout : Slice.IsLayout gap.toList) :
    (¬ Text.HasLongNumber a.toList → ¬ Text.HasLongNumber b.toList → ∃ ts us,
      Located.tokens (Located.ofText a) = .ok ts ∧ Located.tokens (Located.ofText b) = .ok us ∧
      Located.tokens (Located.ofText (a ++ gap ++ b)) = .ok (ts ++ us)) ∧
    (∀ is, program a = .ok is → program (a ++ gap ++ b) = (program b).map (is ++ ·)) ∧
    (∀ e, program a = .error e → (∀ found, e ≠ .refused ⟨.unexpectedEnd, found⟩) →
      program (a ++ gap ++ b) = .error e) ∧
    (∀ words text input, Slice.LaidOut words text.toList →
      program (CommandLine.sourceText (CommandLine.Tool.source words) input) = program text ∧
      program (CommandLine.sourceText none text) = program text) := by
  have lexemes_eq := map_lexeme_of_gap (a := a) (b := b) nonempty layout
  have whole := program_eq lexemes_eq
  have no_end : ∀ x ∈ Located.ofText a, x.lexeme ≠ .token .endOfInput :=
    fun x hx => Located.lexeme_ne_endOfInput hx
  obtain ⟨complete, faulty⟩ := all_append no_end (Located.ofText b)
  refine ⟨?_, ?_, ?_, ?_⟩
  · intro short short'
    obtain ⟨ts, read⟩ := Located.exists_tokens short
    obtain ⟨us, read'⟩ := Located.exists_tokens short'
    refine ⟨ts, us, read, read', Located.tokens_eq_ok_iff.2 ?_⟩
    rw [Located.Spell, lexemes_eq]
    exact Located.spell_append.2
      ⟨_, _, rfl, Located.tokens_eq_ok_iff.1 read, Located.tokens_eq_ok_iff.1 read'⟩
  · intro is assembled
    obtain ⟨no_error, rfl⟩ := program_eq_ok_iff.1 assembled
    obtain ⟨instructions_eq, error_eq⟩ := complete no_error
    rw [whole, instructions_eq, error_eq, program]
    cases (all (Located.ofText b)).error <;> rfl
  · intro e refused inside
    rw [whole, faulty e (program_eq_error_iff.1 refused) (inside _)]
  · intro words text input laid_out
    refine ⟨program_of_laidOut laid_out input, program_congr ?_⟩
    rw [CommandLine.sourceText, Option.getD_none, String.toList_ofList]
    exact (Slice.relaid_unifyLineEnds text.toList).cut_eq.1.symm

/-- A load on one line, and on the next an addition that breaks off; and the load in two words. -/
theorem program_of_parts_two_lines :
    let gap := "\r\n\t"
    gap ≠ "" ∧ Slice.IsLayout gap.toList ∧
      program ("load $1 #7" ++ gap ++ "add $1") = .error tooEarly ∧
      program (CommandLine.sourceText (CommandLine.Tool.source ["load", "$1 #7"]) "") =
        program "load\n$1 #7" := by
  intro gap
  have nonempty : gap ≠ "" := by decide
  have layout : Slice.IsLayout gap.toList := by
    have chars : gap.toList = ['\r', '\n', '\t'] := by decide
    simp [chars, Slice.IsLayout, Slice.isLayout]
  have first : program "load $1 #7" = .ok [⟨.load, .integer 1 7⟩] :=
    program_eq_ok_iff.2 (by decide +kernel)
  have second : program "add $1" = .error tooEarly := program_eq_error_iff.2 (by decide +kernel)
  have laid_out : Slice.LaidOut ["load", "$1 #7"]
      ([] ++ "load".toList ++ ['\n'] ++ ([] ++ "$1 #7".toList ++ [])) := by
    have nothing : Slice.IsLayout [] := by simp [Slice.IsLayout]
    have line_feed : Slice.IsLayout ['\n'] := by simp [Slice.IsLayout, Slice.isLayout]
    exact .cons "load" nothing (List.cons_ne_nil _ _) line_feed (.last "$1 #7" nothing nothing)
  obtain ⟨-, complete, -, words⟩ := program_of_parts (a := "load $1 #7") (b := "add $1")
    nonempty layout
  refine ⟨nonempty, layout, ?_, (words _ _ "" laid_out).1⟩
  rw [complete _ first, second]
  rfl

end Assembly

end RegisterMachine
