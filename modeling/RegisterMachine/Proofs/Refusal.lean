import RegisterMachine.Proofs.Encoding

/-! What assembling can fail with. Nearly all errors are refusals; the others are due to something
    that stands in the source, a number with too many digits or a negative register index. Readings
    take nothing but what stands there, so this is shown reading by reading. Main statement
    (`exists_refusal`): a text in which no sigil has too many digits behind it is assembled or
    refused. -/

namespace RegisterMachine

/-- The error is a refusal, or what it is due to stands in the source. -/
def AssemblyError.DueTo (source : List Located) : AssemblyError → Prop
  | .refused _ => True
  | .unencodable => ∃ x ∈ source, ∃ index < 0, x.lexeme = .token (.register index)
  | .tooLong digits => ∃ x ∈ source, x.lexeme = .tooLong digits

namespace Assembly

variable {α β : Type} {S : List Located} {Q : α → Prop} {R : β → Prop}

/-- A reading of lexemes from `S`: it leaves such lexemes, its values satisfy `Q`, and its errors
    are due to `S`. -/
def DrawsFrom (S : List Located) (Q : α → Prop) (a : Assembly α) : Prop :=
  ∀ source ⊆ S, (∀ v rest, a.run source = .ok v rest → Q v ∧ rest ⊆ S) ∧
    ∀ e rest, a.run source = .error e rest → e.DueTo S

theorem drawsFrom_pure {v : α} (h : Q v) : DrawsFrom S Q (pure v) := by
  intro source within
  constructor
  · rintro _ _ ⟨⟩
    exact ⟨h, within⟩
  · rintro _ _ ⟨⟩

theorem drawsFrom_throw {e : AssemblyError} (h : e.DueTo S) :
    DrawsFrom S Q (throw e : Assembly α) := by
  intro source _
  constructor
  · rintro _ _ ⟨⟩
  · rintro _ _ ⟨⟩
    exact h

theorem DrawsFrom.bind {a : Assembly α} {f : α → Assembly β} (ha : DrawsFrom S Q a)
    (hf : ∀ v, Q v → DrawsFrom S R (f v)) : DrawsFrom S R (a >>= f) := by
  intro source within
  obtain ⟨values, errors⟩ := ha source within
  cases read : a.run source with
  | ok v rest =>
    obtain ⟨hv, within⟩ := values v rest read
    rw [run_bind_of_ok read]
    exact hf v hv rest within
  | error e rest =>
    rw [run_bind_of_error read]
    refine ⟨nofun, ?_⟩
    rintro _ _ ⟨⟩
    exact errors e rest read

/-- A token is the end of input or stands in the source. -/
theorem drawsFrom_token :
    DrawsFrom S (fun t => t = .endOfInput ∨ ∃ x ∈ S, x.lexeme = .token t) token := by
  intro source within
  match source with
  | [] =>
    refine ⟨?_, nofun⟩
    rintro _ _ ⟨⟩
    exact ⟨.inl rfl, within⟩
  | ⟨.token t, position⟩ :: rest =>
    refine ⟨?_, nofun⟩
    rintro _ _ ⟨⟩
    exact ⟨.inr ⟨_, within List.mem_cons_self, rfl⟩,
      List.Subset.trans (List.subset_cons_self _ _) within⟩
  | ⟨.tooLong digits, position⟩ :: rest =>
    refine ⟨nofun, ?_⟩
    rintro _ _ ⟨⟩
    exact ⟨_, within List.mem_cons_self, rfl⟩

theorem drawsFrom_register : DrawsFrom S
    (fun index => index ≤ 0xFF ∧ ∃ x ∈ S, x.lexeme = .token (.register index)) register := by
  refine drawsFrom_token.bind fun t ht => ?_
  cases t with
  | register index =>
    dsimp only
    split
    · exact drawsFrom_throw trivial
    · rename_i small
      have standing := ht.resolve_left nofun
      refine drawsFrom_pure ⟨?_, standing⟩
      rw [maxRegister] at small
      omega
  | operator _ | integer _ | endOfInput => exact drawsFrom_throw trivial

theorem drawsFrom_integer : DrawsFrom S (fun _ => True) integer := by
  refine drawsFrom_token.bind fun t _ => ?_
  cases t with
  | integer value =>
    dsimp only
    split
    · exact drawsFrom_throw trivial
    · exact drawsFrom_pure trivial
  | operator _ | register _ | endOfInput => exact drawsFrom_throw trivial

/-- An index that was read as a register has no byte only if it is negative. -/
theorem drawsFrom_byte {index : Int}
    (h : index ≤ 0xFF ∧ ∃ x ∈ S, x.lexeme = .token (.register index)) :
    DrawsFrom S (fun _ => True) (byte index) := by
  obtain ⟨small, x, hx, standing⟩ := h
  rw [byte, Word.byte?]
  by_cases fits : 0 ≤ index ∧ index < 256
  · rw [if_pos fits]
    exact drawsFrom_pure trivial
  · rw [if_neg fits]
    exact drawsFrom_throw ⟨x, hx, index, by omega, standing⟩

theorem drawsFrom_operands : ∀ s : Shape, DrawsFrom S (fun _ => True) (operands s)
  | .nullary => drawsFrom_pure trivial
  | .integer =>
    drawsFrom_register.bind fun _ dest => drawsFrom_integer.bind fun _ _ =>
      (drawsFrom_byte dest).bind fun _ _ => drawsFrom_pure trivial
  | .binary =>
    drawsFrom_register.bind fun _ left => drawsFrom_register.bind fun _ right =>
      drawsFrom_register.bind fun _ dest => (drawsFrom_byte left).bind fun _ _ =>
        (drawsFrom_byte right).bind fun _ _ => (drawsFrom_byte dest).bind fun _ _ =>
          drawsFrom_pure trivial
  | .compare =>
    drawsFrom_register.bind fun _ left => drawsFrom_register.bind fun _ right =>
      (drawsFrom_byte left).bind fun _ _ => (drawsFrom_byte right).bind fun _ _ =>
        drawsFrom_pure trivial
  | .unary =>
    drawsFrom_register.bind fun _ r => (drawsFrom_byte r).bind fun _ _ => drawsFrom_pure trivial

theorem drawsFrom_instruction : DrawsFrom S (fun _ => True) instruction := by
  refine drawsFrom_token.bind fun t _ => ?_
  rw [instructionFrom.eq_def]
  split
  · exact drawsFrom_pure trivial
  · exact drawsFrom_throw trivial
  · exact (drawsFrom_operands _).bind fun _ _ => drawsFrom_pure trivial
  · exact drawsFrom_throw trivial

/-- What a whole source fails with is a refusal or due to what stands in it. -/
theorem dueTo_of_all {source : List Located} (within : source ⊆ S) {e : AssemblyError}
    (h : (all source).error = some e) : e.DueTo S := by
  fun_induction all source with
  | case1 source i rest read shorter following ih =>
    exact ih ((drawsFrom_instruction source within).1 _ _ read).2 h
  | case2 source rest read => cases h
  | case3 source e' rest read =>
    cases h
    exact (drawsFrom_instruction source within).2 _ _ read

/-- No text has a negative index in it, and so every index of a text that is read has its byte. -/
theorem program_ne_unencodable (text : String) : program text ≠ .error .unencodable := by
  intro h
  obtain ⟨x, hx, index, negative, standing⟩ :=
    dueTo_of_all (List.Subset.refl _) (program_eq_error_iff.1 h)
  have mem : Lexeme.token (.register index) ∈ (Located.ofText text).map Located.lexeme :=
    standing ▸ List.mem_map_of_mem hx
  have nonneg : 0 ≤ index := Located.unsigned_of_mem mem
  omega

/-- A text in which no sigil has too many digits behind it fails with a refusal, if at all. -/
theorem exists_refusal {text : String} {e : AssemblyError}
    (short : ¬ Text.HasLongNumber text.toList) (h : program text = .error e) :
    ∃ refusal, e = .refused refusal := by
  cases e with
  | refused refusal => exact ⟨refusal, rfl⟩
  | unencodable => exact absurd h (program_ne_unencodable text)
  | tooLong digits =>
    obtain ⟨x, hx, too_long⟩ := dueTo_of_all (List.Subset.refl _) (program_eq_error_iff.1 h)
    exact absurd too_long (Located.ne_tooLong short hx digits)

end Assembly

end RegisterMachine
