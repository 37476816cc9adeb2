import Mathlib.Data.List.Forall2
import RegisterMachine.Proofs.Scanning
import RegisterMachine.Proofs.Simulation
import RegisterMachine.Token.Lexer

/-! The scan of a text, told without saying how it goes. The slices are parts of the text that do
    not overlap and leave nothing over but layout; a number is a sigil with all the digits behind
    it, a word cannot be made longer on either side, and any other character is a slice of its own
    only where neither begins. There is only one way to cut a text so. Main statement
    (`partition_of_text`): the tokens of a text, with the positions in its log, are the scan of the
    text with its tabs expanded, and they are also the tokens of the scan of the text as it is. -/

namespace RegisterMachine

theorem Opcode.ofMnemonic_singleton (c : Char) : ofMnemonic (String.ofList [c]) = .illegal := by
  have longer : ∀ op ∈ legal, op.mnemonic.toList.length ≠ 1 := by decide
  have none_found : legal.find? (·.mnemonic == String.ofList [c]) = none := by
    refine List.find?_eq_none.2 fun op mem same => longer op mem ?_
    rw [eq_of_beq same, String.toList_ofList, List.length_singleton]
  rw [ofMnemonic, none_found, Option.getD_none]

namespace Lexeme

theorem ofChars_singleton (c : Char) : ofChars [c] = .token (.operator .illegal) := by
  rw [ofChars, Opcode.ofMnemonic_singleton]
  simp

theorem ofChars_word {c : Char} (h : Slice.isLetter c) (cs : List Char) : ofChars (c :: cs) =
    .token (.operator (Opcode.ofMnemonic (String.ofList (c :: cs)))) := by
  cases cs with
  | nil => rfl
  | cons d ds =>
    rw [ofChars, if_neg (by rintro rfl; cases h), if_neg (by rintro rfl; cases h)]

theorem number_eq_token {make : Int → Token} {digits : List Char} {t : Token}
    (h : number make digits = .token t) : t = make (Nat.ofDigitChars 10 digits 0) := by
  rw [number] at h
  split at h
  · cases h
  · cases h
    rw [decimal, Nat.ofDigitChars_eq_foldl]

theorem ofChars_number {digits : List Char} (nonempty : digits ≠ []) :
    ofChars ('$' :: digits) = number .register digits ∧
      ofChars ('#' :: digits) = number .integer digits := by
  obtain ⟨d, ds, rfl⟩ := List.exists_cons_of_ne_nil nonempty
  constructor
  · rw [ofChars, if_pos (by decide)]
  · rw [ofChars, if_neg (by decide), if_pos (by decide)]

end Lexeme

namespace Slice

/-- The position behind a slice. -/
def behind (s : Slice) : Nat := s.position + s.chars.length

/-- What a slice is read as, by its characters and those in front of it and behind it. -/
inductive Reads (front back : List Char) : List Char → Token → Prop where
  | register {digits : List Char} (nonempty : digits ≠ []) (are_digits : ∀ d ∈ digits, d.isDigit)
      (maximal : ∀ d ∈ back.head?, ¬ d.isDigit) :
    Reads front back ('$' :: digits) (.register (Nat.ofDigitChars 10 digits 0))
  | integer {digits : List Char} (nonempty : digits ≠ []) (are_digits : ∀ d ∈ digits, d.isDigit)
      (maximal : ∀ d ∈ back.head?, ¬ d.isDigit) :
    Reads front back ('#' :: digits) (.integer (Nat.ofDigitChars 10 digits 0))
  | word {letters : List Char} (nonempty : letters ≠ []) (are_letters : ∀ c ∈ letters, isLetter c)
      (maximal_left : ∀ c ∈ front.getLast?, ¬ isLetter c)
      (maximal_right : ∀ c ∈ back.head?, ¬ isLetter c) :
    Reads front back letters (.operator (Opcode.ofMnemonic (String.ofList letters)))
  | other {c : Char} (no_letter : ¬ isLetter c)
      (no_number : c = '$' ∨ c = '#' → ∀ d ∈ back.head?, ¬ d.isDigit) :
    Reads front back [c] (.operator .illegal)

/-- The slice stands in the text at its position, without layout, and is read as the token. -/
structure Found (cs : List Char) (s : Slice) (t : Token) : Prop where
  nonempty : s.chars ≠ []
  no_layout : ∀ c ∈ s.chars, ¬ isLayout c
  stands : ∃ front back, cs = front ++ s.chars ++ back ∧ front.length = s.position ∧
    Reads front back s.chars t

/-- The slices of a text and their tokens: one behind the other, and no character outside them but
    layout. -/
structure Scan (cs : List Char) (slices : List Slice) (ts : List Token) : Prop where
  found : List.Forall₂ (Found cs) slices ts
  apart : slices.Pairwise fun s s' => s.behind ≤ s'.position
  covered : ∀ (i : Nat) (c : Char), cs[i]? = some c → ¬ isLayout c →
    ∃ s ∈ slices, s.position ≤ i ∧ i < s.behind

theorem split_layout {c : Char} (h : isLayout c = true) (position : Nat) (cs : List Char) :
    split position (c :: cs) = split (position + 1) cs := by
  rw [split, if_pos h]

theorem split_cons {c : Char} (h : isLayout c = false) (position : Nat) (cs : List Char) :
    split position (c :: cs) = ⟨position, c :: cs.takeWhile (mayFollow c)⟩ ::
      split (position + 1 + (cs.takeWhile (mayFollow c)).length) (cs.dropWhile (mayFollow c)) := by
  rw [split, if_neg (ne_true_of_eq_false h)]

/-! ### The order of the slices -/

theorem le_position_of_mem_split {position : Nat} {cs : List Char} {s : Slice}
    (h : s ∈ split position cs) : position ≤ s.position := by
  induction cs using cut_induction generalizing position with
  | nil => simp [split] at h
  | layout c cs hc ih =>
    rw [split_layout hc] at h
    have later := ih h
    omega
  | piece c cs hc ih =>
    rw [split_cons hc] at h
    rcases List.mem_cons.1 h with rfl | h
    · exact Nat.le_refl _
    · have later := ih h
      omega

theorem pairwise_split (position : Nat) (cs : List Char) :
    (split position cs).Pairwise fun s s' => s.behind ≤ s'.position := by
  induction cs using cut_induction generalizing position with
  | nil => simp [split]
  | layout c cs hc ih => rw [split_layout hc]; exact ih _
  | piece c cs hc ih =>
    rw [split_cons hc]
    refine List.pairwise_cons.2 ⟨fun s mem => ?_, ih _⟩
    have later := le_position_of_mem_split mem
    simp only [behind, List.length_cons]
    omega

theorem getElem?_dropWhile (p : Char → Bool) (cs : List Char) (i : Nat) :
    (cs.dropWhile p)[i]? = cs[(cs.takeWhile p).length + i]? := by
  have parts := List.takeWhile_append_dropWhile (p := p) (l := cs)
  generalize cs.takeWhile p = front at parts ⊢
  rw [← parts, List.getElem?_append_right (Nat.le_add_right ..), Nat.add_sub_cancel_left, parts]

theorem covered_split (position : Nat) {i : Nat} {cs : List Char} {c : Char}
    (at_i : cs[i]? = some c) (no_layout : ¬ isLayout c) :
    ∃ s ∈ split position cs, s.position ≤ position + i ∧ position + i < s.behind := by
  induction cs using cut_induction generalizing position i with
  | nil => simp at at_i
  | layout d cs hd ih =>
    rw [split_layout hd]
    cases i with
    | zero => cases at_i; exact absurd hd no_layout
    | succ i =>
      rw [List.getElem?_cons_succ] at at_i
      obtain ⟨s, mem, lower, upper⟩ := ih (position + 1) at_i
      exact ⟨s, mem, by omega, by omega⟩
  | piece d cs hd ih =>
    rw [split_cons hd]
    -- The place is in the first slice or behind all of it.
    by_cases inside : i < 1 + (cs.takeWhile (mayFollow d)).length
    · refine ⟨_, List.mem_cons_self .., Nat.le_add_right .., ?_⟩
      simp only [behind, List.length_cons]
      omega
    · obtain ⟨j, rfl⟩ := Nat.exists_eq_add_of_le (Nat.le_of_not_lt inside)
      have at_j : (cs.dropWhile (mayFollow d))[j]? = some c := by
        rwa [Nat.add_comm 1, Nat.add_right_comm, List.getElem?_cons_succ,
          ← getElem?_dropWhile] at at_i
      obtain ⟨s, mem, lower, upper⟩ :=
        ih (position + 1 + (cs.takeWhile (mayFollow d)).length) at_j
      exact ⟨s, List.mem_cons_of_mem _ mem, by omega, by omega⟩

/-! ### Cuts -/

/-- No word goes on from the one part of the text to the other. -/
def Parted (front back : List Char) : Prop :=
  ∀ c ∈ front.getLast?, ∀ d ∈ back.head?, isLetter c → ¬ isLetter d

/-- The slice is what its first character allows, and no word reaches into it from the left. -/
def Cut (cs : List Char) (s : Slice) : Prop :=
  ∃ front c rest, cs = front ++ c :: rest ∧ front.length = s.position ∧ isLayout c = false ∧
    s.chars = c :: rest.takeWhile (mayFollow c) ∧ Parted front (c :: rest)

theorem not_isLetter_of_isDigit {c : Char} (h : c.isDigit) : ¬ isLetter c := by
  intro letter
  rw [isLetter, Bool.or_eq_true, beq_iff_eq] at letter
  rcases letter with alpha | rfl
  · obtain ⟨-, at_most⟩ := Char.isDigit_iff_toNat.1 h
    -- The code of a letter is greater than that of every digit.
    have large : 'A'.toNat ≤ c.toNat := by
      rcases (Bool.or_eq_true _ _).mp alpha with upper | lower
      · exact (of_decide_eq_true upper).1
      · have from_a : 'a'.toNat ≤ c.toNat :=
          of_decide_eq_true (Bool.and_eq_true_iff.1 lower).1
        exact Nat.le_trans (by decide) from_a
    exact absurd (Nat.le_trans large at_most) (by decide)
  · cases h

theorem mayFollow_sigil {c : Char} (h : c = '$' ∨ c = '#') : mayFollow c = Char.isDigit := if_pos h

theorem mayFollow_letter {c : Char} (h : isLetter c) : mayFollow c = isLetter := by
  have no_sigil : ¬ (c = Token.registerSigil ∨ c = Token.integerSigil) := by
    rintro (rfl | rfl) <;> cases h
  rw [mayFollow, if_neg no_sigil, if_pos h]

theorem not_isLetter_of_isLayout {c : Char} (h : isLayout c) : ¬ isLetter c := by
  have stops := mayFollow_layout h 'a'
  rw [mayFollow_letter (by decide)] at stops
  exact ne_true_of_eq_false stops

theorem mayFollow_other {c : Char} (no_sigil : ¬ (c = '$' ∨ c = '#')) (no_letter : ¬ isLetter c) :
    mayFollow c = fun _ => false :=
  (if_neg no_sigil).trans (if_neg no_letter)

/-- A slice with a letter in it begins with a letter. -/
theorem isLetter_of_mayFollow {c d : Char} (h : mayFollow c d) (letter : isLetter d) :
    isLetter c := by
  by_cases sigil : c = '$' ∨ c = '#'
  · rw [mayFollow_sigil sigil] at h
    exact absurd letter (not_isLetter_of_isDigit h)
  · refine Decidable.byContradiction fun no_letter => ?_
    rw [mayFollow_other sigil no_letter] at h
    cases h

theorem parted_layout {c : Char} (h : isLayout c = true) (front back : List Char) :
    Parted (front ++ [c]) back := by
  intro d last e _ letter
  rw [List.getLast?_concat, Option.mem_some_iff] at last
  subst last
  exact absurd letter (not_isLetter_of_isLayout h)

theorem head?_dropWhile {p : Char → Bool} {cs : List Char} {d : Char}
    (h : d ∈ (cs.dropWhile p).head?) : ¬ p d := by
  have stop := List.head?_dropWhile_not p cs
  rw [Option.mem_def.1 h] at stop
  simpa using stop

theorem parted_piece (front : List Char) (c : Char) (cs : List Char) :
    Parted (front ++ c :: cs.takeWhile (mayFollow c)) (cs.dropWhile (mayFollow c)) := by
  intro d last e next letter
  have mem : d ∈ c :: cs.takeWhile (mayFollow c) := by
    rw [List.getLast?_append_of_ne_nil _ (List.cons_ne_nil _ _)] at last
    exact List.mem_of_getLast? last
  -- Only a word can end with a letter, and a word takes all the letters there are.
  have first : isLetter c := by
    rcases List.mem_cons.1 mem with rfl | mem
    · exact letter
    · exact isLetter_of_mayFollow (List.all_eq_true.1 List.all_takeWhile d mem) letter
  rw [← mayFollow_letter first]
  exact head?_dropWhile next

/-- All slices of a text are cut so. -/
theorem cut_of_mem_split {front cs : List Char} (parted : Parted front cs) {s : Slice}
    (h : s ∈ split front.length cs) : Cut (front ++ cs) s := by
  -- What has been passed is added to the front, which stays parted from the rest.
  induction cs using cut_induction generalizing front with
  | nil => simp [split] at h
  | layout c cs hc ih =>
    rw [split_layout hc] at h
    have rest := ih (parted_layout hc front cs) (by simpa using h)
    rwa [List.append_assoc] at rest
  | piece c cs hc ih =>
    rw [split_cons hc] at h
    rcases List.mem_cons.1 h with rfl | h
    · exact ⟨front, c, cs, rfl, rfl, hc, rfl, parted⟩
    · have length_eq : (front ++ c :: cs.takeWhile (mayFollow c)).length =
          front.length + 1 + (cs.takeWhile (mayFollow c)).length := by
        rw [List.length_append, List.length_cons]; omega
      rw [← length_eq] at h
      have rest := ih (parted_piece front c cs) h
      rwa [List.append_assoc, List.cons_append, List.takeWhile_append_dropWhile] at rest

theorem reads_of_parted {front rest : List Char} {c : Char} {t : Token}
    (parted : Parted front (c :: rest))
    (read : Lexeme.ofChars (c :: rest.takeWhile (mayFollow c)) = .token t) :
    Reads front (rest.dropWhile (mayFollow c)) (c :: rest.takeWhile (mayFollow c)) t := by
  by_cases letter : isLetter c
  · rw [Lexeme.ofChars_word letter] at read
    cases read
    refine .word (List.cons_ne_nil _ _) ?_ ?_ ?_
    · intro d mem
      rcases List.mem_cons.1 mem with rfl | mem
      · exact letter
      · rw [mayFollow_letter letter] at mem
        exact List.all_eq_true.1 List.all_takeWhile d mem
    · exact fun d last before => parted d last c rfl before letter
    · rw [mayFollow_letter letter]
      exact fun d => head?_dropWhile
  by_cases sigil : c = '$' ∨ c = '#'
  · rw [mayFollow_sigil sigil] at read ⊢
    have maximal : ∀ d ∈ (rest.dropWhile Char.isDigit).head?, ¬ d.isDigit :=
      fun d => head?_dropWhile
    have are_digits := List.all_eq_true.1 (List.all_takeWhile (p := Char.isDigit) (l := rest))
    by_cases bare : rest.takeWhile Char.isDigit = []
    · rw [bare, Lexeme.ofChars_singleton] at read
      cases read
      rw [bare]
      exact .other letter fun _ => maximal
    · obtain ⟨as_register, as_integer⟩ := Lexeme.ofChars_number bare
      rcases sigil with rfl | rfl
      · rw [Lexeme.number_eq_token (as_register.symm.trans read)]
        exact .register bare are_digits maximal
      · rw [Lexeme.number_eq_token (as_integer.symm.trans read)]
        exact .integer bare are_digits maximal
  · have alone : rest.takeWhile (fun _ => false) = [] := by cases rest <;> rfl
    rw [mayFollow_other sigil letter, alone] at read ⊢
    rw [Lexeme.ofChars_singleton] at read
    cases read
    exact .other letter fun is_sigil => absurd is_sigil sigil

theorem Cut.found {cs : List Char} {s : Slice} {t : Token} (h : Cut cs s)
    (read : Lexeme.ofChars s.chars = .token t) : Found cs s t := by
  obtain ⟨front, c, rest, rfl, position_eq, no_layout, chars_eq, parted⟩ := h
  rw [chars_eq] at read
  refine ⟨by simp [chars_eq], ?_, front, rest.dropWhile (mayFollow c), ?_, position_eq, ?_⟩
  · intro d mem layout
    rw [chars_eq] at mem
    rcases List.mem_cons.1 mem with rfl | mem
    · exact ne_true_of_eq_false no_layout layout
    · have follows := List.all_eq_true.1 List.all_takeWhile d mem
      rw [mayFollow_layout layout] at follows
      cases follows
  · rw [chars_eq, List.append_assoc, List.cons_append, List.takeWhile_append_dropWhile]
  · rw [chars_eq]
    exact reads_of_parted parted read

theorem forall₂_of_pieces {cs : List Char} {ts : List Token}
    (h : (pieces cs).map Lexeme.ofChars = ts.map Lexeme.token) :
    List.Forall₂ (fun s t => Lexeme.ofChars s.chars = .token t) (split 0 cs) ts := by
  rwa [pieces, List.map_map, ← List.forall₂_eq_eq_eq, List.forall₂_map_left_iff,
    List.forall₂_map_right_iff] at h

/-- A text whose pieces are all read as tokens is scanned. -/
theorem scan_of_pieces {cs : List Char} {ts : List Token}
    (h : (pieces cs).map Lexeme.ofChars = ts.map Lexeme.token) : Scan cs (split 0 cs) ts where
  apart := pairwise_split 0 cs
  covered i c at_i no_layout := by
    have covered := covered_split 0 at_i no_layout
    rwa [Nat.zero_add] at covered
  found := by
    have parted : Parted [] cs := nofun
    have cut : ∀ s ∈ split 0 cs, Cut cs s := fun s => cut_of_mem_split parted
    have both := (List.forall₂_and_left _ _).2 ⟨cut, forall₂_of_pieces h⟩
    exact both.imp fun s t ⟨cut, read⟩ => cut.found read

/-! ### There is only one scan -/

theorem takeWhile_of_head? {p : Char → Bool} {cs back : List Char} (all : ∀ c ∈ cs, p c)
    (stop : ∀ d ∈ back.head?, ¬ p d) : (cs ++ back).takeWhile p = cs := by
  rw [List.takeWhile_append_of_pos all]
  cases back with
  | nil => simp
  | cons d back => simp [stop d rfl]

/-- A slice that is read is what its first character allows. -/
theorem Reads.chars_eq {front back chars cs : List Char} {c : Char} {t : Token}
    (h : Reads front back chars t) (text : chars ++ back = c :: cs) :
    chars = c :: cs.takeWhile (mayFollow c) := by
  cases h with
  | register _ are_digits maximal =>
    rw [List.cons_append] at text
    obtain ⟨rfl, rfl⟩ := List.cons.inj text
    rw [mayFollow_sigil (.inl rfl), takeWhile_of_head? are_digits maximal]
  | integer _ are_digits maximal =>
    rw [List.cons_append] at text
    obtain ⟨rfl, rfl⟩ := List.cons.inj text
    rw [mayFollow_sigil (.inr rfl), takeWhile_of_head? are_digits maximal]
  | word nonempty are_letters _ maximal =>
    obtain ⟨d, letters, rfl⟩ := List.exists_cons_of_ne_nil nonempty
    obtain ⟨first, others⟩ := List.forall_mem_cons.1 are_letters
    rw [List.cons_append] at text
    obtain ⟨rfl, rfl⟩ := List.cons.inj text
    rw [mayFollow_letter first, takeWhile_of_head? others maximal]
  | @other d no_letter no_number =>
    obtain ⟨rfl, rfl⟩ := List.cons.inj text
    have nothing : back.takeWhile (mayFollow d) = [] := by
      by_cases sigil : d = '$' ∨ d = '#'
      · rw [mayFollow_sigil sigil]
        exact takeWhile_of_head? (List.forall_mem_nil _) (no_number sigil)
      · rw [mayFollow_other sigil no_letter]
        cases back <;> rfl
    exact congrArg (d :: ·) nothing.symm

theorem Reads.token_eq {front back chars : List Char} {t t' : Token}
    (h : Reads front back chars t) (read : Lexeme.ofChars chars = .token t') : t = t' := by
  cases h with
  | register nonempty _ _ =>
    exact (Lexeme.number_eq_token ((Lexeme.ofChars_number nonempty).1.symm.trans read)).symm
  | integer nonempty _ _ =>
    exact (Lexeme.number_eq_token ((Lexeme.ofChars_number nonempty).2.symm.trans read)).symm
  | word nonempty are_letters _ _ =>
    obtain ⟨c, letters, rfl⟩ := List.exists_cons_of_ne_nil nonempty
    rw [Lexeme.ofChars_word (are_letters c (List.mem_cons_self ..))] at read
    exact Lexeme.token.inj read
  | other _ _ =>
    rw [Lexeme.ofChars_singleton] at read
    exact Lexeme.token.inj read

/-- What is left of a scan behind the slices in `front`. -/
structure ScansFrom (front rest : List Char) (slices : List Slice) : Prop where
  found : ∀ s ∈ slices, ∃ t, Found (front ++ rest) s t
  apart : slices.Pairwise fun s s' => s.behind ≤ s'.position
  later : ∀ s ∈ slices, front.length ≤ s.position
  covered : ∀ (i : Nat) (c : Char), rest[i]? = some c → ¬ isLayout c →
    ∃ s ∈ slices, s.position ≤ front.length + i ∧ front.length + i < s.behind

theorem Found.reads {front rest : List Char} {s : Slice} {t : Token} (h : Found (front ++ rest) s t)
    (here : s.position = front.length) :
    ∃ back, s.chars ++ back = rest ∧ Reads front back s.chars t := by
  obtain ⟨front', back, text, length_eq, reads⟩ := h.stands
  rw [List.append_assoc] at text
  obtain ⟨rfl, rest_eq⟩ := List.append_inj text (here.symm.trans length_eq.symm)
  exact ⟨back, rest_eq.symm, reads⟩

theorem Found.position_lt_behind {cs : List Char} {s : Slice} {t : Token} (h : Found cs s t) :
    s.position < s.behind := by
  have nonempty := List.length_pos_iff.2 h.nonempty
  rw [behind]; omega

/-- No slice begins with layout. -/
theorem Found.position_ne {front rest : List Char} {c : Char} {s : Slice} {t : Token}
    (h : Found (front ++ c :: rest) s t) (layout : isLayout c) : s.position ≠ front.length := by
  intro here
  obtain ⟨back, text, -⟩ := h.reads here
  obtain ⟨d, chars, chars_eq⟩ := List.exists_cons_of_ne_nil h.nonempty
  rw [chars_eq] at text
  obtain ⟨rfl, -⟩ := List.cons.inj text
  exact h.no_layout d (by simp [chars_eq]) layout

/-- At a character that is no layout, the first slice begins. -/
theorem ScansFrom.exists_cons {front rest : List Char} {c : Char} {slices : List Slice}
    (h : ScansFrom front (c :: rest) slices) (no_layout : isLayout c = false) :
    ∃ more, slices = ⟨front.length, c :: rest.takeWhile (mayFollow c)⟩ :: more := by
  obtain ⟨s, mem, lower, upper⟩ := h.covered 0 c rfl (ne_true_of_eq_false no_layout)
  cases slices with
  | nil => cases mem
  | cons first more =>
    obtain ⟨t, found⟩ := h.found first (List.mem_cons_self ..)
    have later := h.later first (List.mem_cons_self ..)
    have here : first.position = front.length := by
      rcases List.mem_cons.1 mem with rfl | mem
      · omega
      · have before := (List.pairwise_cons.1 h.apart).1 s mem
        have long := found.position_lt_behind
        omega
    obtain ⟨back, text, reads⟩ := found.reads here
    have chars_eq := reads.chars_eq text
    obtain ⟨position, chars⟩ := first
    cases here
    cases chars_eq
    exact ⟨more, rfl⟩

theorem ScansFrom.eq_split {front rest : List Char} {slices : List Slice}
    (h : ScansFrom front rest slices) : slices = split front.length rest := by
  -- Layout is passed since no slice begins there; elsewhere the first slice is given and passed.
  induction rest using cut_induction generalizing front slices with
  | nil =>
    cases slices with
    | nil => rw [split]
    | cons s slices =>
      obtain ⟨t, found⟩ := h.found s (List.mem_cons_self ..)
      obtain ⟨front', back, text, length_eq, -⟩ := found.stands
      have later := h.later s (List.mem_cons_self ..)
      have nonempty := List.length_pos_iff.2 found.nonempty
      have lengths := congrArg List.length text
      simp only [List.length_append, List.length_nil] at lengths
      omega
  | layout c cs hc ih =>
    have length_eq : (front ++ [c]).length = front.length + 1 := by simp
    rw [split_layout hc, ← length_eq]
    refine ih ⟨?_, h.apart, ?_, ?_⟩
    · rw [List.append_assoc]
      exact h.found
    · intro s mem
      obtain ⟨t, found⟩ := h.found s mem
      rw [length_eq]
      exact Nat.lt_of_le_of_ne (h.later s mem) (found.position_ne hc).symm
    · intro i d at_i no_layout
      obtain ⟨s, mem, lower, upper⟩ := h.covered (i + 1) d at_i no_layout
      exact ⟨s, mem, by omega, by omega⟩
  | piece c cs hc ih =>
    obtain ⟨more, rfl⟩ := h.exists_cons hc
    obtain ⟨behind_first, apart⟩ := List.pairwise_cons.1 h.apart
    have length_eq : (front ++ c :: cs.takeWhile (mayFollow c)).length =
        front.length + 1 + (cs.takeWhile (mayFollow c)).length := by
      rw [List.length_append, List.length_cons]; omega
    rw [split_cons hc, ← length_eq]
    refine congrArg (_ :: ·) (ih ⟨?_, apart, ?_, ?_⟩)
    · rw [List.append_assoc, List.cons_append, List.takeWhile_append_dropWhile]
      exact fun s mem => h.found s (List.mem_cons_of_mem _ mem)
    · intro s mem
      have before := behind_first s mem
      simp only [behind, List.length_cons] at before
      omega
    · intro i d at_i no_layout
      rw [getElem?_dropWhile] at at_i
      obtain ⟨s, mem, lower, upper⟩ := h.covered (_ + 1) d at_i no_layout
      rcases List.mem_cons.1 mem with rfl | mem
      · simp only [behind, List.length_cons] at upper
        omega
      · exact ⟨s, mem, by omega, by omega⟩

theorem Scan.eq_split {cs : List Char} {slices : List Slice} {ts : List Token}
    (h : Scan cs slices ts) : slices = split 0 cs := by
  have found : ∀ s ∈ slices, ∃ t, Found cs s t :=
    ((List.forall₂_and_left slices ts).1 (h.found.imp fun s t found => ⟨⟨t, found⟩, found⟩)).1
  have scans : ScansFrom [] cs slices := by
    refine ⟨found, h.apart, fun s _ => Nat.zero_le _, fun i c at_i no_layout => ?_⟩
    simpa using h.covered i c at_i no_layout
  exact scans.eq_split

theorem eq_of_found {cs : List Char} {slices : List Slice} {ts ts' : List Token}
    (found : List.Forall₂ (Found cs) slices ts)
    (read : List.Forall₂ (fun s t => Lexeme.ofChars s.chars = .token t) slices ts') : ts = ts' := by
  induction read generalizing ts with
  | nil => cases found; rfl
  | cons read _ ih =>
    cases found with
    | cons first rest =>
      obtain ⟨_, _, _, _, reads⟩ := first.stands
      rw [reads.token_eq read, ih rest]

/-- A text whose pieces are all read as tokens has one scan, and no other. -/
theorem scan_iff_of_pieces {cs : List Char} {ts : List Token}
    (h : (pieces cs).map Lexeme.ofChars = ts.map Lexeme.token) (slices : List Slice)
    (ts' : List Token) : Scan cs slices ts' ↔ slices = split 0 cs ∧ ts' = ts := by
  constructor
  · intro scan
    obtain rfl := scan.eq_split
    exact ⟨rfl, eq_of_found scan.found (forall₂_of_pieces h)⟩
  · rintro ⟨rfl, rfl⟩
    exact scan_of_pieces h

end Slice

namespace Lexer

/-- The lexer gives the tokens one after the other, and is done when it has given the last. -/
inductive Yields : Lexer → List Token → Prop where
  | done {l : Lexer} (is_done : l.isDone) : Yields l []
  | next {l l' : Lexer} {t : Token} {ts : List Token} (not_done : ¬ l.isDone)
      (read : l.nextToken = (.ok t, l')) (rest : Yields l' ts) : Yields l (t :: ts)

theorem yields_of_spell {xs : List Located} {ts : List Token} (h : Located.Spell xs ts) :
    (reading xs).Yields (ts ++ [.endOfInput]) := by
  induction ts generalizing xs with
  | nil =>
    obtain rfl := Located.spell_nil.1 h
    exact .next (by decide) rfl (.done rfl)
  | cons t ts ih =>
    obtain ⟨x, tail, rfl, lexeme_eq, rest⟩ := Located.spell_cons.1 h
    refine .next (by simp [isDone]) ?_ (ih rest)
    rw [nextToken, lexeme_eq]

end Lexer

namespace Located

/-- The line of the log for a token found at a slice. -/
def logLine (s : Slice) (t : Token) : Log.Entry := Log.debug s!"Token {t.text} @ {s.position}"

theorem log_of_spell {slices : List Slice} {ts : List Token}
    (h : Spell (slices.map fun s => ⟨Lexeme.ofChars s.chars, some s.position⟩) ts) :
    log (slices.map fun s => ⟨Lexeme.ofChars s.chars, some s.position⟩) =
      List.zipWith logLine slices ts := by
  induction slices generalizing ts with
  | nil => rfl
  | cons s slices ih =>
    cases ts with
    | nil => cases h
    | cons t ts =>
      obtain ⟨x, tail, eq, lexeme_eq, rest⟩ := spell_cons.1 h
      cases eq
      rw [List.map_cons, log, List.zipWith_cons_cons, ← ih rest]
      dsimp only at lexeme_eq
      rw [lexeme_eq]
      rfl

end Located

/-- The lexer gives the tokens of the only scan of the text with its tabs expanded, then the end of
    input, once; the text as it is has the same tokens. -/
theorem Lexer.partition_of_text {text : String} (short : ¬ Text.HasLongNumber text.toList) :
    ∃ (slices : List Slice) (ts : List Token),
      (ofText text).Yields (ts ++ [.endOfInput]) ∧ .endOfInput ∉ ts ∧
      Located.log (Located.ofText text) = List.zipWith Located.logLine slices ts ∧
      (∀ slices' ts', Slice.Scan (Text.expandTabs 0 text.toList) slices' ts' ↔
        slices' = slices ∧ ts' = ts) ∧
      (∀ slices' ts', Slice.Scan text.toList slices' ts' ↔
        slices' = Slice.split 0 text.toList ∧ ts' = ts) := by
  obtain ⟨ts, read⟩ := Located.exists_tokens short
  have spelled := Located.tokens_eq_ok_iff.1 read
  have unexpanded : (Slice.pieces text.toList).map Lexeme.ofChars = ts.map .token := by
    rw [← Located.map_lexeme_ofText]; exact spelled
  have expanded := unexpanded
  rw [(Slice.relaid_expandTabs 0 text.toList).cut_eq.1] at expanded
  refine ⟨Slice.split 0 (Text.expandTabs 0 text.toList), ts, yields_of_spell spelled, ?_,
    Located.log_of_spell spelled, Slice.scan_iff_of_pieces expanded,
    Slice.scan_iff_of_pieces unexpanded⟩
  intro mem
  have written : Lexeme.token .endOfInput ∈ (Located.ofText text).map Located.lexeme := by
    rw [spelled]; exact List.mem_map_of_mem mem
  obtain ⟨x, at_x, lexeme_eq⟩ := List.mem_map.1 written
  exact Located.lexeme_ne_endOfInput at_x lexeme_eq

/-- Tokens without anything between them, behind a tab, which takes eight places in the log. -/
theorem Lexer.partition_of_text_adjacent :
    let text := "\tload$1#20;x_ $"
    let slices : List Slice := [⟨8, "load".toList⟩, ⟨12, "$1".toList⟩, ⟨14, "#20".toList⟩,
      ⟨17, ";".toList⟩, ⟨18, "x_".toList⟩, ⟨21, "$".toList⟩]
    let ts : List Token := [.operator .load, .register 1, .integer 20, .operator .illegal,
      .operator .illegal, .operator .illegal]
    ¬ Text.HasLongNumber text.toList ∧
      (ofText text).Yields (ts ++ [.endOfInput]) ∧ .endOfInput ∉ ts ∧
      Located.log (Located.ofText text) = List.zipWith Located.logLine slices ts ∧
      (∀ slices' ts', Slice.Scan (Text.expandTabs 0 text.toList) slices' ts' ↔
        slices' = slices ∧ ts' = ts) ∧
      ∀ slices' ts', Slice.Scan text.toList slices' ts' ↔
        slices' = slices.map (fun s => { s with position := s.position - 7 }) ∧ ts' = ts := by
  intro text slices ts
  have short : ¬ Text.HasLongNumber text.toList := Text.not_hasLongNumber_of_length (by decide)
  obtain ⟨found, given, yields, no_end, log_eq, expanded, unexpanded⟩ :=
    partition_of_text short
  have read : (Slice.pieces (Text.expandTabs 0 text.toList)).map Lexeme.ofChars =
      ts.map Lexeme.token := by decide +kernel
  have split_eq : slices = Slice.split 0 (Text.expandTabs 0 text.toList) := by decide +kernel
  have split_eq' : Slice.split 0 text.toList =
      slices.map fun s => { s with position := s.position - 7 } := by decide +kernel
  have scan : Slice.Scan (Text.expandTabs 0 text.toList) slices ts :=
    (Slice.scan_iff_of_pieces read slices ts).2 ⟨split_eq, rfl⟩
  obtain ⟨rfl, rfl⟩ := (expanded slices ts).1 scan
  rw [split_eq'] at unexpanded
  exact ⟨short, yields, no_end, log_eq, expanded, unexpanded⟩

end RegisterMachine
