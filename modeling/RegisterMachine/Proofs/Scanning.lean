import RegisterMachine.Text.Lines
import RegisterMachine.Token.Scan

/-! Layout and pieces. Cutting a text depends on where layout stands and not on what it is: a piece
    never reaches over layout, so that gaps may be widened, narrowed and written otherwise, as the
    expansion of tabs and the unification of line ends do. A text with a gap in it is cut into the
    pieces in front of the gap and those behind it (`pieces_append_gap`), and the lexemes of a text
    are those of its pieces (`map_lexeme_ofText`). -/

namespace RegisterMachine

/-- What is taken from the front of a text does not reach over a character that is not taken. -/
theorem Text.takeWhile_append_stop {p : Char → Bool} {d : Char} (stop : p d = false)
    (cs ds : List Char) : (cs ++ d :: ds).takeWhile p = cs.takeWhile p ∧
      (cs ++ d :: ds).dropWhile p = cs.dropWhile p ++ d :: ds := by
  induction cs with
  | nil => simp [stop]
  | cons c cs ih =>
    by_cases taken : p c = true
    · simp [taken, ih]
    · simp [taken]

theorem Text.takeWhile_of_forall {p : Char → Bool} {cs : List Char} (h : ∀ c ∈ cs, p c = true) :
    cs.takeWhile p = cs ∧ cs.dropWhile p = [] := by
  have taken : (cs ++ []).takeWhile p = cs ++ [] := List.takeWhile_append_of_pos h
  have dropped : (cs ++ []).dropWhile p = [] := List.dropWhile_append_of_pos h
  rw [List.append_nil] at taken dropped
  exact ⟨taken, dropped⟩

namespace Slice

/-- The pieces into which a text is cut. -/
def pieces (cs : List Char) : List (List Char) := (split 0 cs).map chars

/-- Induction along the cuts: over a character of layout, or over a whole piece. -/
theorem cut_induction {motive : List Char → Prop} (nil : motive [])
    (layout : ∀ c cs, isLayout c = true → motive cs → motive (c :: cs))
    (piece : ∀ c cs, isLayout c = false → motive (cs.dropWhile (mayFollow c)) → motive (c :: cs))
    (cs : List Char) : motive cs := by
  induction 0, cs using split.induct with
  | case1 => exact nil
  | case2 _ c cs h ih => exact layout c cs h ih
  | case3 _ c cs h tail ih => exact piece c cs (eq_false_of_ne_true h) ih

theorem map_chars_split (position : Nat) (cs : List Char) :
    (split position cs).map chars = pieces cs := by
  induction cs using cut_induction generalizing position with
  | nil => simp [pieces, split]
  | layout c cs h ih =>
    rw [pieces, split, split, if_pos h, if_pos h, ih, ih]
  | piece c cs h ih =>
    rw [pieces, split, split, if_neg (ne_true_of_eq_false h), if_neg (ne_true_of_eq_false h)]
    simp only [List.map_cons, ih]

@[simp] theorem pieces_nil : pieces [] = [] := by simp [pieces, split]

theorem pieces_layout {c : Char} (h : isLayout c = true) (cs : List Char) :
    pieces (c :: cs) = pieces cs := by
  rw [pieces, split, if_pos h, map_chars_split]

theorem pieces_cons {c : Char} (h : isLayout c = false) (cs : List Char) :
    pieces (c :: cs) =
      (c :: cs.takeWhile (mayFollow c)) :: pieces (cs.dropWhile (mayFollow c)) := by
  rw [pieces, split, if_neg (ne_true_of_eq_false h)]
  simp only [List.map_cons, map_chars_split]

/-- Layout ends every piece. -/
theorem mayFollow_layout {d : Char} (h : isLayout d = true) (c : Char) : mayFollow c d = false := by
  have named : d = ' ' ∨ d = '\t' ∨ d = '\n' ∨ d = '\r' := by simpa [isLayout, or_assoc] using h
  rw [mayFollow]
  rcases named with rfl | rfl | rfl | rfl <;> split <;> try split
  all_goals decide

/-- A piece that is alone in its text. -/
theorem pieces_single {c : Char} {cs : List Char} (h : isLayout c = false)
    (follow : cs.all (mayFollow c) = true) : pieces (c :: cs) = [c :: cs] := by
  obtain ⟨taken, dropped⟩ := Text.takeWhile_of_forall (List.all_eq_true.1 follow)
  rw [pieces_cons h, taken, dropped, pieces_nil]

/-! ### Gaps -/

/-- Characters of layout only, or none at all. -/
def IsLayout (cs : List Char) : Prop := ∀ c ∈ cs, isLayout c = true

theorem pieces_layout_append {gap : List Char} (h : IsLayout gap) (cs : List Char) :
    pieces (gap ++ cs) = pieces cs := by
  induction gap with
  | nil => rfl
  | cons c gap ih =>
    rw [List.cons_append, pieces_layout (h c (by simp))]
    exact ih fun d hd => h d (by simp [hd])

/-- A text is cut in front of a character that goes on with no piece. -/
theorem pieces_append_of_parts {d : Char} (parts : ∀ c, mayFollow c d = false) (cs ds : List Char) :
    pieces (cs ++ d :: ds) = pieces cs ++ pieces (d :: ds) := by
  induction cs using cut_induction with
  | nil => simp
  | layout c cs hc ih => rw [List.cons_append, pieces_layout hc, pieces_layout hc, ih]
  | piece c cs hc ih =>
    obtain ⟨taken, dropped⟩ := Text.takeWhile_append_stop (parts c) cs ds
    rw [List.cons_append, pieces_cons hc, pieces_cons hc, taken, dropped, ih, List.cons_append]

theorem pieces_append_layout {d : Char} (h : isLayout d = true) (cs ds : List Char) :
    pieces (cs ++ d :: ds) = pieces cs ++ pieces ds := by
  rw [pieces_append_of_parts (mayFollow_layout h), pieces_layout h]

/-- A text with a gap in it is cut at the gap. -/
theorem pieces_append_gap {gap : List Char} (nonempty : gap ≠ []) (h : IsLayout gap)
    (cs ds : List Char) : pieces (cs ++ gap ++ ds) = pieces cs ++ pieces ds := by
  obtain ⟨c, gap, rfl⟩ := List.exists_cons_of_ne_nil nonempty
  have rest : IsLayout gap := fun d hd => h d (by simp [hd])
  rw [List.append_assoc, List.cons_append, pieces_append_layout (h c (by simp)),
    pieces_layout_append rest]

theorem pieces_append_layout_right {gap : List Char} (h : IsLayout gap) (cs : List Char) :
    pieces (cs ++ gap) = pieces cs := by
  cases gap with
  | nil => rw [List.append_nil]
  | cons c gap =>
    have cut := pieces_append_gap (List.cons_ne_nil c gap) h cs []
    rwa [List.append_nil, pieces_nil, List.append_nil] at cut

/-! ### Layout that is written otherwise -/

/-- The texts are the same but for what stands in their gaps. -/
inductive Relaid : List Char → List Char → Prop where
  | nil : Relaid [] []
  | char {c : Char} {cs ds : List Char} (h : isLayout c = false) (rest : Relaid cs ds) :
    Relaid (c :: cs) (c :: ds)
  | gap {c d : Char} (gap gap' : List Char) {cs ds : List Char} (h : IsLayout (c :: gap))
      (h' : IsLayout (d :: gap')) (rest : Relaid cs ds) :
    Relaid (c :: gap ++ cs) (d :: gap' ++ ds)

/-- A character that both texts have, whatever it is. -/
theorem Relaid.same (c : Char) {cs ds : List Char} (rest : Relaid cs ds) :
    Relaid (c :: cs) (c :: ds) := by
  by_cases layout : isLayout c = true
  · have alone : IsLayout [c] := by simpa [IsLayout] using layout
    exact .gap [] [] alone alone rest
  · exact .char (eq_false_of_ne_true layout) rest

/-- Texts that differ in their gaps only are cut alike, also behind the rest of a piece. -/
theorem Relaid.cut_eq {cs ds : List Char} (h : Relaid cs ds) : pieces cs = pieces ds ∧
    ∀ c, cs.takeWhile (mayFollow c) = ds.takeWhile (mayFollow c) ∧
      pieces (cs.dropWhile (mayFollow c)) = pieces (ds.dropWhile (mayFollow c)) := by
  induction h with
  | nil => exact ⟨rfl, fun _ => ⟨rfl, rfl⟩⟩
  | @char e cs ds plain rest ih =>
    have cut : pieces (e :: cs) = pieces (e :: ds) := by
      obtain ⟨taken, dropped⟩ := ih.2 e
      rw [pieces_cons plain, pieces_cons plain, taken, dropped]
    refine ⟨cut, fun c => ?_⟩
    by_cases follows : mayFollow c e = true
    · simpa [follows] using ih.2 c
    · simpa [follows] using cut
  | @gap d d' gap gap' cs ds h h' rest ih =>
    have cut : pieces (d :: gap ++ cs) = pieces (d' :: gap' ++ ds) := by
      rw [pieces_layout_append h, pieces_layout_append h', ih.1]
    refine ⟨cut, fun c => ?_⟩
    have stop := mayFollow_layout (h d (by simp)) c
    have stop' := mayFollow_layout (h' d' (by simp)) c
    simpa [stop, stop'] using cut

theorem relaid_expandTabs (column : Nat) (cs : List Char) :
    Relaid cs (Text.expandTabs column cs) := by
  induction cs generalizing column with
  | nil => exact .nil
  | cons c cs ih =>
    rw [Text.expandTabs]
    by_cases tab : c = '\t'
    · subst tab
      obtain ⟨width, wide⟩ : ∃ width, Text.tabWidth - column % Text.tabWidth = width + 1 :=
        ⟨Text.tabWidth - column % Text.tabWidth - 1, by rw [Text.tabWidth]; omega⟩
      simp only [if_pos, wide, List.replicate_succ]
      refine Relaid.gap [] (List.replicate width ' ') ?_ ?_ (ih _)
      · simp [IsLayout, isLayout]
      · simp [IsLayout, isLayout]
    · rw [if_neg tab]
      exact .same c (ih _)

theorem relaid_unifyLineEnds (cs : List Char) : Relaid cs (Text.unifyLineEnds cs) := by
  have line_feed : IsLayout ['\n'] := by simp [IsLayout, isLayout]
  fun_induction Text.unifyLineEnds cs with
  | case1 => exact .nil
  | case2 cs ih => exact .gap ['\n'] [] (by simp [IsLayout, isLayout]) line_feed ih
  | case3 cs _ ih => exact .gap [] [] (by simp [IsLayout, isLayout]) line_feed ih
  | case4 c cs _ _ ih => exact .same c ih

/-! ### Words with gaps between them -/

/-- The text is made of the given words, in their order, with layout around them and at least one
    character of it between any two. The words themselves may hold layout. -/
inductive LaidOut : List String → List Char → Prop where
  | last {front back : List Char} (word : String) (h : IsLayout front) (h' : IsLayout back) :
    LaidOut [word] (front ++ word.toList ++ back)
  | cons {front gap cs : List Char} {words : List String} (word : String) (h : IsLayout front)
      (nonempty : gap ≠ []) (h' : IsLayout gap) (rest : LaidOut words cs) :
    LaidOut (word :: words) (front ++ word.toList ++ gap ++ cs)

theorem LaidOut.exists_cons {words : List String} {cs : List Char} (h : LaidOut words cs) :
    ∃ word rest, words = word :: rest := by
  cases h with
  | last word _ _ => exact ⟨word, [], rfl⟩
  | cons word _ _ _ _ => exact ⟨word, _, rfl⟩

theorem LaidOut.pieces_eq {words : List String} {cs : List Char} (h : LaidOut words cs) :
    pieces cs = words.flatMap fun word => pieces word.toList := by
  induction h with
  | last word h h' =>
    rw [pieces_append_layout_right h', pieces_layout_append h]
    simp
  | cons word h nonempty h' rest ih =>
    rw [pieces_append_gap nonempty h', pieces_layout_append h, ih, List.flatMap_cons]

theorem laidOut_intercalate (word : String) (words : List String) :
    LaidOut (word :: words) (" ".intercalate (word :: words)).toList := by
  have nothing : IsLayout [] := by simp [IsLayout]
  have space : IsLayout [' '] := by simp [IsLayout, isLayout]
  induction words generalizing word with
  | nil => simpa using LaidOut.last word nothing nothing
  | cons next words ih =>
    rw [String.intercalate_cons_cons, String.toList_append, String.toList_append]
    simpa using LaidOut.cons word nothing (List.cons_ne_nil ' ' []) space (ih next)

/-! ### Pieces as parts of the text -/

/-- A piece stands in the text as it is, and each of its characters may follow the first. -/
theorem infix_of_mem_pieces {piece cs : List Char} (h : piece ∈ pieces cs) :
    ∃ c tail, piece = c :: tail ∧ piece <:+: cs ∧ ∀ d ∈ tail, mayFollow c d = true := by
  induction cs using cut_induction with
  | nil => simp at h
  | layout c cs hc ih =>
    rw [pieces_layout hc] at h
    obtain ⟨e, tail, rfl, inside, follow⟩ := ih h
    exact ⟨e, tail, rfl, inside.trans (List.suffix_cons c cs).isInfix, follow⟩
  | piece c cs hc ih =>
    rw [pieces_cons hc] at h
    rcases List.mem_cons.1 h with rfl | h
    · refine ⟨c, _, rfl, ?_, List.all_eq_true.1 List.all_takeWhile⟩
      exact ((List.prefix_cons_inj c).2 (List.takeWhile_prefix _)).isInfix
    · obtain ⟨e, tail, rfl, inside, follow⟩ := ih h
      have suffix : cs.dropWhile (mayFollow c) <:+ c :: cs :=
        (List.dropWhile_suffix _).trans (List.suffix_cons c cs)
      exact ⟨e, tail, rfl, inside.trans suffix.isInfix, follow⟩

end Slice

/-! ### Lexemes -/

/-- A sigil in the text has more digits behind it than are read as a number. -/
def Text.HasLongNumber (cs : List Char) : Prop :=
  ∃ sigil digits, (sigil = '$' ∨ sigil = '#') ∧ (∀ d ∈ digits, d.isDigit = true) ∧
    4300 < digits.length ∧ sigil :: digits <:+: cs

theorem Text.HasLongNumber.mono {cs ds : List Char} (h : HasLongNumber cs)
    (inside : cs <:+: ds) : HasLongNumber ds := by
  obtain ⟨sigil, digits, is_sigil, are_digits, long, stands⟩ := h
  exact ⟨sigil, digits, is_sigil, are_digits, long, stands.trans inside⟩

theorem Text.not_hasLongNumber_of_length {cs : List Char} (h : cs.length ≤ 4300) :
    ¬ HasLongNumber cs := by
  rintro ⟨sigil, digits, -, -, long, inside⟩
  have fits := inside.length_le
  rw [List.length_cons] at fits
  omega

namespace Lexeme

theorem number_eq_tooLong {make : Int → Token} {digits : List Char} {n : Nat}
    (h : number make digits = .tooLong n) : 4300 < digits.length := by
  rw [number] at h
  split at h
  · assumption
  · cases h

/-- Only a sigil can have too many digits behind it. -/
theorem sigil_of_tooLong {c : Char} {cs : List Char} {n : Nat}
    (h : ofChars (c :: cs) = .tooLong n) : (c = '$' ∨ c = '#') ∧ 4300 < cs.length := by
  cases cs with
  | nil => cases h
  | cons d ds =>
    rw [ofChars] at h
    split at h
    · exact ⟨.inl ‹_›, number_eq_tooLong h⟩
    · split at h
      · exact ⟨.inr ‹_›, number_eq_tooLong h⟩
      · cases h

end Lexeme

namespace Located

/-- Positions and tabs aside, the lexemes of a text are read from its pieces. -/
theorem map_lexeme_ofText (text : String) :
    (ofText text).map lexeme = (Slice.pieces text.toList).map Lexeme.ofChars := by
  rw [(Slice.relaid_expandTabs 0 text.toList).cut_eq.1, Slice.pieces, ofText, List.map_map,
    List.map_map]
  rfl

theorem exists_tokens_of_forall {xs : List Located}
    (h : ∀ x ∈ xs, ∀ n, x.lexeme ≠ .tooLong n) : ∃ ts, tokens xs = .ok ts := by
  induction xs with
  | nil => exact ⟨[], rfl⟩
  | cons x xs ih =>
    obtain ⟨ts, read⟩ := ih fun y hy => h y (List.mem_cons_of_mem x hy)
    rw [tokens]
    cases lexeme_eq : x.lexeme with
    | token t => exact ⟨t :: ts, by rw [read]; rfl⟩
    | tooLong n => exact absurd lexeme_eq (h x (List.mem_cons_self ..) n)

/-- A number is too long only where a sigil of the text has too many digits behind it. -/
theorem ne_tooLong {text : String} (short : ¬ Text.HasLongNumber text.toList) {x : Located}
    (hx : x ∈ ofText text) (n : Nat) : x.lexeme ≠ .tooLong n := by
  intro too_long
  have mem : x.lexeme ∈ (ofText text).map lexeme := List.mem_map_of_mem hx
  rw [map_lexeme_ofText] at mem
  obtain ⟨piece, hp, read⟩ := List.mem_map.1 mem
  obtain ⟨c, digits, rfl, inside, follow⟩ := Slice.infix_of_mem_pieces hp
  obtain ⟨sigil, long⟩ := Lexeme.sigil_of_tooLong (read.trans too_long)
  have digit : Slice.mayFollow c = Char.isDigit := if_pos sigil
  rw [digit] at follow
  exact short ⟨c, digits, sigil, follow, long, inside⟩

/-- All of a text is read if no sigil in it has too many digits behind it. -/
theorem exists_tokens {text : String} (short : ¬ Text.HasLongNumber text.toList) :
    ∃ ts, tokens (ofText text) = .ok ts :=
  exists_tokens_of_forall fun _ hx n => ne_tooLong short hx n

end Located

end RegisterMachine
