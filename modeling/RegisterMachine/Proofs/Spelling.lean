import RegisterMachine.Proofs.Scanning

/-! Tokens as they are written. The text of a token that can be written is one piece, and the piece
    is read as the token; so tokens that are written with spaces between them are read back
    (`map_lexeme_of_written`). -/

namespace RegisterMachine

namespace Token

/-- The token has a text of its own that can be read: it is an operation of the language, or an
    operand that is no negative number and has not too many digits. -/
def Writable : Token → Prop
  | .operator op => op ≠ .illegal
  | .register index => ∃ n : Nat, index = n ∧ (Nat.toDigits 10 n).length ≤ Lexeme.digitLimit
  | .integer value => ∃ n : Nat, value = n ∧ (Nat.toDigits 10 n).length ≤ Lexeme.digitLimit
  | .endOfInput => False

theorem toList_text_register (n : Nat) :
    (Token.register n).text.toList = registerSigil :: Nat.toDigits 10 n := by
  have sigil : (toString registerSigil).toList = [registerSigil] := rfl
  have digits : toString (n : Int) = toString n := rfl
  simp [text, sigil, digits]

theorem toList_text_integer (n : Nat) :
    (Token.integer n).text.toList = integerSigil :: Nat.toDigits 10 n := by
  have sigil : (toString integerSigil).toList = [integerSigil] := rfl
  have digits : toString (n : Int) = toString n := rfl
  simp [text, sigil, digits]

/-- A sigil and the digits behind it are one piece. -/
theorem pieces_number {sigil : Char} (h : sigil = registerSigil ∨ sigil = integerSigil) (n : Nat) :
    Slice.pieces (sigil :: Nat.toDigits 10 n) = [sigil :: Nat.toDigits 10 n] := by
  refine Slice.pieces_single (by rcases h with rfl | rfl <;> decide) (List.all_eq_true.2 ?_)
  intro d hd
  rw [Slice.mayFollow, if_pos h]
  exact Nat.isDigit_of_mem_toDigits (by decide) (by decide) hd

theorem decimal_toDigits (n : Nat) : Lexeme.decimal (Nat.toDigits 10 n) = n := by
  rw [Lexeme.decimal, ← Nat.ofDigitChars_eq_foldl]
  exact Nat.ofDigitChars_ten_toDigits

theorem number_toDigits (make : Int → Token) {n : Nat}
    (short : (Nat.toDigits 10 n).length ≤ Lexeme.digitLimit) :
    Lexeme.number make (Nat.toDigits 10 n) = .token (make n) := by
  rw [Lexeme.number, if_neg (by omega), decimal_toDigits]

theorem pieces_text {t : Token} (h : t.Writable) :
    Slice.pieces t.text.toList = [t.text.toList] := by
  cases t with
  | operator op =>
    cases op with
    | illegal => exact absurd rfl h
    | _ => exact Slice.pieces_single (by decide) (by decide)
  | register index =>
    obtain ⟨n, rfl, -⟩ := h
    rw [toList_text_register, pieces_number (.inl rfl)]
  | integer value =>
    obtain ⟨n, rfl, -⟩ := h
    rw [toList_text_integer, pieces_number (.inr rfl)]
  | endOfInput => exact h.elim

theorem ofChars_text {t : Token} (h : t.Writable) : Lexeme.ofChars t.text.toList = .token t := by
  cases t with
  | operator op =>
    cases op with
    | illegal => exact absurd rfl h
    | _ => decide
  | register index =>
    obtain ⟨n, rfl, short⟩ := h
    obtain ⟨d, ds, digits⟩ := List.exists_cons_of_ne_nil (Nat.toDigits_ne_nil (n := n) (b := 10))
    rw [toList_text_register, digits, Lexeme.ofChars, if_pos rfl, ← digits,
      number_toDigits _ short]
  | integer value =>
    obtain ⟨n, rfl, short⟩ := h
    obtain ⟨d, ds, digits⟩ := List.exists_cons_of_ne_nil (Nat.toDigits_ne_nil (n := n) (b := 10))
    rw [toList_text_integer, digits, Lexeme.ofChars, if_neg (by decide), if_pos rfl, ← digits,
      number_toDigits _ short]
  | endOfInput => exact h.elim

/-- The tokens with single spaces between them. -/
def written (ts : List Token) : String := " ".intercalate (ts.map text)

theorem pieces_written {ts : List Token} (h : ∀ t ∈ ts, t.Writable) :
    Slice.pieces (written ts).toList = ts.map fun t => t.text.toList := by
  cases ts with
  | nil => exact Slice.pieces_nil
  | cons t ts =>
    rw [written, List.map_cons, (Slice.laidOut_intercalate _ _).pieces_eq, ← List.map_cons]
    generalize t :: ts = us at h
    induction us with
    | nil => rfl
    | cons u us ih =>
      have first := pieces_text (h u (by simp))
      have rest := ih fun t ht => h t (by simp [ht])
      rw [List.map_cons, List.flatMap_cons, first, rest, List.map_cons, List.singleton_append]

/-- Tokens that are written are read back. -/
theorem map_lexeme_of_written {ts : List Token} (h : ∀ t ∈ ts, t.Writable) :
    (Located.ofText (written ts)).map Located.lexeme = ts.map Lexeme.token := by
  rw [Located.map_lexeme_ofText, pieces_written h, List.map_map]
  exact List.map_congr_left fun t ht => ofChars_text (h t ht)

end Token

end RegisterMachine
