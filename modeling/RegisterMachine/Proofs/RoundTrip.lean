import Mathlib.Data.List.Chain
import RegisterMachine.Proofs.Partition
import RegisterMachine.Proofs.Spelling

/-! Tokens that are printed and read again. A row of tokens is printed with layout in front of it
    and behind each token, and most of the layout may be empty: a number ends at the next sigil or
    letter, and a word at the next sigil. Only two words would run together. Main statement
    (`yields_printed_iff`): the lexer gives the tokens back if and only if there is some layout
    between any two words that are neighbours. -/

namespace RegisterMachine

namespace Slice

/-- A piece ends in front of a character that may not follow its first one. -/
theorem pieces_append_of_stop {c : Char} {cs rest : List Char} (plain : isLayout c = false)
    (follow : ∀ d ∈ cs, mayFollow c d) (stop : ∀ d ∈ rest.head?, ¬ mayFollow c d) :
    pieces (c :: cs ++ rest) = (c :: cs) :: pieces rest := by
  have taken : (cs ++ rest).takeWhile (mayFollow c) = cs := takeWhile_of_head? follow stop
  have dropped : (cs ++ rest).dropWhile (mayFollow c) = rest := by
    rw [List.dropWhile_append_of_pos follow]
    cases rest with
    | nil => rfl
    | cons d rest => simp [stop d rfl]
  rw [List.cons_append, pieces_cons plain, taken, dropped]

end Slice

theorem Opcode.mnemonic_ofMnemonic {text : String} (h : ofMnemonic text ≠ .illegal) :
    (ofMnemonic text).mnemonic = text := by
  rw [ofMnemonic] at h ⊢
  cases found : legal.find? (·.mnemonic == text) with
  | none => rw [found] at h; exact absurd rfl h
  | some op => simpa using List.find?_some found

namespace Token

/-- The token is written in letters, without a sigil. -/
def isWord : Token → Bool
  | .operator _ => true
  | .register _ | .integer _ | .endOfInput => false

/-- The text of the tokens, with the given layout in front of them and each with the layout that
    stands behind it. -/
def printed (front : String) : List (Token × String) → String
  | [] => front
  | (t, gap) :: row => front ++ t.text ++ printed gap row

/-- Two neighbours in a row do not run together. -/
def Apart (p q : Token × String) : Prop := p.1.isWord → q.1.isWord → p.2 ≠ ""

instance : DecidableRel Apart := fun p q =>
  inferInstanceAs (Decidable (p.1.isWord → q.1.isWord → p.2 ≠ ""))

/-! ### The first character of a token -/

/-- The text of the token is a piece of the given characters, and the first of them tells what
    kind of token it is. -/
structure Begins (t : Token) (c : Char) (cs : List Char) : Prop where
  text_eq : t.text.toList = c :: cs
  plain : Slice.isLayout c = false
  follow : ∀ d ∈ cs, Slice.mayFollow c d
  kind : (t.isWord ∧ Slice.isLetter c) ∨ (¬ t.isWord ∧ (c = '$' ∨ c = '#'))

theorem begins_number {t : Token} {sigil : Char} {n : Nat} (is_sigil : sigil = '$' ∨ sigil = '#')
    (text_eq : t.text.toList = sigil :: Nat.toDigits 10 n) (number : ¬ t.isWord) :
    Begins t sigil (Nat.toDigits 10 n) where
  text_eq := text_eq
  plain := by rcases is_sigil with rfl | rfl <;> rfl
  follow := by
    intro d hd
    rw [Slice.mayFollow_sigil is_sigil]
    exact Nat.isDigit_of_mem_toDigits (by decide) (by decide) hd
  kind := .inr ⟨number, is_sigil⟩

theorem Writable.exists_begins {t : Token} (h : t.Writable) : ∃ c cs, Begins t c cs := by
  cases t with
  | operator op =>
    have letters : ∀ c ∈ op.mnemonic.toList, Slice.isLetter c :=
      List.all_eq_true.1 (by cases op <;> decide)
    obtain ⟨c, cs, text_eq⟩ : ∃ c cs, op.mnemonic.toList = c :: cs :=
      List.exists_cons_of_ne_nil (by cases op <;> decide)
    rw [text_eq] at letters
    obtain ⟨first, others⟩ := List.forall_mem_cons.1 letters
    refine ⟨c, cs, text_eq, ?_, ?_, .inl ⟨rfl, first⟩⟩
    · exact eq_false_of_ne_true fun layout => Slice.not_isLetter_of_isLayout layout first
    · rw [Slice.mayFollow_letter first]; exact others
  | register index =>
    obtain ⟨n, rfl, -⟩ := h
    exact ⟨_, _, begins_number (.inl rfl) (toList_text_register n) nofun⟩
  | integer value =>
    obtain ⟨n, rfl, -⟩ := h
    exact ⟨_, _, begins_number (.inr rfl) (toList_text_integer n) nofun⟩
  | endOfInput => exact h.elim

/-- A token goes on into the next one only if both are words. -/
theorem Begins.mayFollow_iff {t u : Token} {c d : Char} {cs ds : List Char} (ht : Begins t c cs)
    (hu : Begins u d ds) : Slice.mayFollow c d ↔ t.isWord ∧ u.isWord := by
  rcases ht.kind with ⟨word, letter⟩ | ⟨number, sigil⟩
  · rw [Slice.mayFollow_letter letter]
    rcases hu.kind with ⟨word', letter'⟩ | ⟨number', rfl | rfl⟩
    · exact ⟨fun _ => ⟨word, word'⟩, fun _ => letter'⟩
    · exact ⟨nofun, fun h => absurd h.2 number'⟩
    · exact ⟨nofun, fun h => absurd h.2 number'⟩
  · rw [Slice.mayFollow_sigil sigil]
    refine ⟨fun digit => ?_, fun h => absurd h.1 number⟩
    rcases hu.kind with ⟨-, letter'⟩ | ⟨-, rfl | rfl⟩
    · exact absurd letter' (Slice.not_isLetter_of_isDigit digit)
    · cases digit
    · cases digit

/-! ### Rows of tokens -/

/-- The tokens of the row can be written, and what stands behind them is layout. -/
def Printable (row : List (Token × String)) : Prop :=
  ∀ p ∈ row, p.1.Writable ∧ Slice.IsLayout p.2.toList

theorem printed_toList (front : String) (row : List (Token × String)) :
    (printed front row).toList = front.toList ++ (printed "" row).toList := by
  cases row with
  | nil => simp [printed]
  | cons p row => simp [printed]

/-- What is printed behind a token goes on with it only if two words run together. -/
theorem Begins.stops_iff {t : Token} {c : Char} {cs : List Char} {gap : String}
    {row : List (Token × String)} (ht : Begins t c cs) (layout : Slice.IsLayout gap.toList)
    (printable : Printable row) :
    (∀ d ∈ (printed gap row).toList.head?, ¬ Slice.mayFollow c d) ↔
      ∀ q ∈ row.head?, Apart (t, gap) q := by
  rw [printed_toList]
  cases gap_eq : gap.toList with
  | cons d gap' =>
    -- Layout stops every piece, and a gap that is not empty keeps all neighbours apart.
    have stop := Slice.mayFollow_layout (layout d (by simp [gap_eq])) c
    have nonempty : gap ≠ "" := by rintro rfl; cases gap_eq
    simp [stop, Apart, nonempty]
  | nil =>
    obtain rfl : gap = "" := String.toList_inj.1 gap_eq
    cases row with
    | nil => simp [printed]
    | cons q row =>
      obtain ⟨u, gap'⟩ := q
      obtain ⟨d, ds, hu⟩ := (printable (u, gap') (by simp)).1.exists_begins
      have head : (printed "" ((u, gap') :: row)).toList.head? = some d := by
        simp [printed, hu.text_eq]
      simp only [List.nil_append, head, List.head?_cons, Option.mem_some_iff, forall_eq',
        ht.mayFollow_iff hu, Apart, ne_eq, not_true_eq_false, imp_false, not_and]

/-- A word that runs on is not read as the token it begins with. -/
theorem Begins.head_ne {t : Token} {c d : Char} {cs rest : List Char} (ht : Begins t c cs)
    (writable : t.Writable) (word : t.isWord) (next : d ∈ rest.head?)
    (runs : Slice.mayFollow c d) :
    ((Slice.pieces (c :: cs ++ rest)).map Lexeme.ofChars).head? ≠ some (.token t) := by
  obtain ⟨op, rfl⟩ : ∃ op, t = .operator op := by
    cases t with
    | operator op => exact ⟨op, rfl⟩
    | register _ | integer _ | endOfInput => cases word
  have letter : Slice.isLetter c := by
    rcases ht.kind with ⟨-, letter⟩ | ⟨number, -⟩
    · exact letter
    · exact absurd word number
  obtain ⟨rest, rfl⟩ : ∃ tail, rest = d :: tail := List.head?_eq_some_iff.1 next
  rw [List.cons_append, Slice.pieces_cons ht.plain, List.takeWhile_append_of_pos ht.follow,
    List.takeWhile_cons_of_pos runs, List.map_cons, List.head?_cons, Lexeme.ofChars_word letter]
  intro read
  cases read
  have text_eq := ht.text_eq
  rw [text, Opcode.mnemonic_ofMnemonic writable, String.toList_ofList] at text_eq
  simp at text_eq

/-- The pieces of a printed row are read as its tokens exactly if no two words run together. -/
theorem ofChars_pieces_printed_iff {front : String} {row : List (Token × String)}
    (layout : Slice.IsLayout front.toList) (printable : Printable row) :
    (Slice.pieces (printed front row).toList).map Lexeme.ofChars =
      (row.map Prod.fst).map Lexeme.token ↔ row.IsChain Apart := by
  induction row generalizing front with
  | nil =>
    have blank : Slice.pieces (front.toList ++ []) = [] := by
      rw [Slice.pieces_layout_append layout, Slice.pieces_nil]
    rw [List.append_nil] at blank
    simp [printed, blank]
  | cons p row ih =>
    obtain ⟨t, gap⟩ := p
    obtain ⟨⟨writable, gap_layout⟩, rest⟩ := List.forall_mem_cons.1 printable
    obtain ⟨c, cs, ht⟩ := writable.exists_begins
    have stops_iff := ht.stops_iff gap_layout rest
    rw [printed, String.toList_append, String.toList_append, List.append_assoc,
      Slice.pieces_layout_append layout, ht.text_eq, List.isChain_cons, ← ih gap_layout rest]
    by_cases apart : ∀ q ∈ row.head?, Apart (t, gap) q
    · have read : Lexeme.ofChars (c :: cs) = .token t := by
        rw [← ht.text_eq, ofChars_text writable]
      rw [Slice.pieces_append_of_stop ht.plain ht.follow (stops_iff.2 apart), List.map_cons, read,
        List.map_cons, List.map_cons, List.cons_inj_right, and_iff_right apart]
    · refine iff_of_false (fun read => ?_) fun h => apart h.1
      obtain ⟨d, next, runs⟩ : ∃ d ∈ (printed gap row).toList.head?, Slice.mayFollow c d := by
        simpa using mt stops_iff.1 apart
      have word : t.isWord := by
        by_contra number
        exact apart fun _ _ word => absurd word number
      exact ht.head_ne writable word next runs (by rw [read]; rfl)

end Token

namespace Lexer

theorem Yields.eq_nil {l : Lexer} {ts : List Token} (h : l.Yields ts) (is_done : l.isDone) :
    ts = [] := by
  cases h with
  | done _ => rfl
  | next not_done _ _ => exact absurd is_done not_done

/-- What a lexer gives in front of the end of input is what is spelled. -/
theorem spell_of_yields {xs : List Located} {ts : List Token}
    (h : (reading xs).Yields (ts ++ [.endOfInput])) : Located.Spell xs ts := by
  induction ts generalizing xs with
  | nil =>
    cases h with
    | next _ read rest =>
      cases rest with
      | done is_done =>
        rcases xs with _ | ⟨⟨⟨t⟩ | ⟨digits⟩, position⟩, xs⟩
        · exact Located.spell_nil.2 rfl
        · cases read
          cases is_done
        · cases read
  | cons t ts ih =>
    cases h with
    | next _ read rest =>
      rcases xs with _ | ⟨⟨⟨u⟩ | ⟨digits⟩, position⟩, xs⟩
      · -- The end of input is the last token that is given.
        cases read
        exact absurd (rest.eq_nil rfl) (List.append_ne_nil_of_right_ne_nil _ (by simp))
      · cases read
        exact Located.spell_cons.2 ⟨_, xs, rfl, rfl, ih rest⟩
      · cases read

/-- Tokens that are printed are read back, and nothing else is, if and only if the layout between
    any two operators that are neighbours is not empty. -/
theorem yields_printed_iff {front : String} {row : List (Token × String)}
    (layout : Slice.IsLayout front.toList) (printable : Token.Printable row) :
    (ofText (Token.printed front row)).Yields (row.map Prod.fst ++ [.endOfInput]) ↔
      row.IsChain Token.Apart := by
  rw [← Token.ofChars_pieces_printed_iff layout printable, ← Located.map_lexeme_ofText]
  exact ⟨spell_of_yields, yields_of_spell⟩

/-- A row with layout between two words only, one of which begins with the other. -/
theorem yields_printed_neighbours :
    let row : List (Token × String) := [(.operator .load, ""), (.register 12, ""), (.integer 7, ""),
      (.operator .jmp, "\n\t"), (.operator .jmpf, ""), (.register 0, " \r")]
    Slice.IsLayout "\t".toList ∧ Token.Printable row ∧ row.IsChain Token.Apart ∧
      Token.printed "\t" row = "\tload$12#7jmp\n\tjmpf$0 \r" ∧
      (ofText (Token.printed "\t" row)).Yields [.operator .load, .register 12, .integer 7,
        .operator .jmp, .operator .jmpf, .register 0, .endOfInput] := by
  intro row
  have register_12 : (Token.register 12).Writable := ⟨12, rfl, by decide⟩
  have integer_7 : (Token.integer 7).Writable := ⟨7, rfl, by decide⟩
  have register_0 : (Token.register 0).Writable := ⟨0, rfl, by decide⟩
  have printable : Token.Printable row := by
    simp only [Token.Printable, row, List.forall_mem_cons, register_12, integer_7, register_0]
    simp [Token.Writable, Slice.IsLayout, Slice.isLayout]
  have layout : Slice.IsLayout "\t".toList := by simp [Slice.IsLayout, Slice.isLayout]
  have apart : row.IsChain Token.Apart := by decide
  exact ⟨layout, printable, apart, by decide, (yields_printed_iff layout printable).2 apart⟩

end Lexer

end RegisterMachine
