import RegisterMachine.CommandLine.Outcome
import RegisterMachine.Proofs.Scanning

/-! Rows of hexadecimal bytes are read back. A line is read field by field, and a blank parts the
    fields in front of it from those behind it; a byte is written as two digits, which are one
    field, and the field is read as the byte. So a row of bytes gives these bytes
    (`HexLine.bytes_hexRow`), and a text of rows, read line by line, gives the bytes of all rows
    (`HexLine.bytes_of_rows`). -/

namespace RegisterMachine

namespace Text

/-! ### Fields -/

@[simp] theorem fields_nil : fields [] = [] := by rw [fields.eq_def]

theorem fields_blank {c : Char} (h : isBlank c = true) (cs : List Char) :
    fields (c :: cs) = fields cs := by
  rw [fields.eq_def]; exact if_pos h

theorem fields_cons {c : Char} (h : isBlank c = false) (cs : List Char) :
    fields (c :: cs) =
      (c :: cs.takeWhile (! isBlank ·)) :: fields (cs.dropWhile (! isBlank ·)) := by
  rw [fields.eq_def]; exact if_neg (ne_true_of_eq_false h)

/-- A blank parts the fields of a text. -/
theorem fields_append_blank {d : Char} (h : isBlank d = true) (cs ds : List Char) :
    fields (cs ++ d :: ds) = fields cs ++ fields ds := by
  fun_induction fields cs with
  | case1 => exact fields_blank h ds
  | case2 c cs blank ih => rw [List.cons_append, fields_blank blank, ih]
  | case3 c cs plain ih =>
    have stop : (! isBlank d) = false := by rw [h]; rfl
    obtain ⟨taken, dropped⟩ := takeWhile_append_stop (p := (! isBlank ·)) stop cs ds
    rw [List.cons_append, fields_cons (eq_false_of_ne_true plain), taken, dropped, ih,
      List.cons_append]

/-- A text without blanks is one field. -/
theorem fields_of_plain {c : Char} {cs : List Char} (h : ∀ d ∈ c :: cs, isBlank d = false) :
    fields (c :: cs) = [c :: cs] := by
  have plain : ∀ d ∈ cs, (! isBlank d) = true := fun d hd => by simp [h d (by simp [hd])]
  obtain ⟨taken, dropped⟩ := takeWhile_of_forall plain
  rw [fields_cons (h c (by simp)), taken, dropped, fields_nil]

/-! ### Lines -/

@[simp] theorem lines_nil : lines [] = [] := by rw [lines]

theorem lines_cons_of_plain {row : List Char} (h : '\n' ∉ row) (rest : List Char) :
    lines (row ++ '\n' :: rest) = row :: lines rest := by
  have plain : ∀ c ∈ row, decide (c ≠ '\n') = true := by
    intro c hc
    have not_end : c ≠ '\n' := fun is_end => h (is_end ▸ hc)
    simpa using not_end
  have stop : decide ('\n' ≠ '\n') = false := by simp
  obtain ⟨taken, dropped⟩ := takeWhile_append_stop (p := (· ≠ '\n')) stop row rest
  obtain ⟨all, none_left⟩ := takeWhile_of_forall plain
  obtain ⟨c, cs, split⟩ := List.exists_cons_of_ne_nil (List.append_ne_nil_of_right_ne_nil row
    (List.cons_ne_nil '\n' rest))
  rw [split, lines, ← split, taken, dropped, all, none_left]
  rfl

/-- Lines that are written are read back. -/
theorem lines_textOfLines {rows : List String} (h : ∀ row ∈ rows, '\n' ∉ row.toList) :
    lines (CommandLine.textOfLines rows).toList = rows.map String.toList := by
  induction rows with
  | nil => exact lines_nil
  | cons row rows ih =>
    have text_eq : (CommandLine.textOfLines (row :: rows)).toList =
        row.toList ++ '\n' :: (CommandLine.textOfLines rows).toList := by
      simp [CommandLine.textOfLines, String.toList_join]
    rw [text_eq, lines_cons_of_plain (h row (by simp)), ih fun r hr => h r (by simp [hr]),
      List.map_cons]

/-! ### Bytes -/

theorem hexDigit_plain : ∀ n < 16, isBlank (hexDigit n) = false ∧ hexDigit n ≠ ':' := by
  decide +kernel

/-- Two digits that are written are read as one number. -/
theorem hexInt?_digits : ∀ m < 16, ∀ n < 16,
    hexInt? [hexDigit m, hexDigit n] = some ((16 * m + n : Nat) : Int) := by
  decide +kernel

theorem toList_hexByte (b : UInt8) :
    (hexByte b).toList = [hexDigit (b.toNat / 16), hexDigit (b.toNat % 16)] :=
  String.toList_ofList

theorem mem_hexByte {c : Char} {b : UInt8} (h : c ∈ (hexByte b).toList) :
    isBlank c = false ∧ c ≠ ':' := by
  have small := b.toNat_lt
  rw [toList_hexByte] at h
  rcases List.mem_cons.1 h with rfl | h
  · exact hexDigit_plain _ (by omega)
  · rw [List.mem_singleton] at h
    subst h
    exact hexDigit_plain _ (by omega)

theorem byte?_natCast (b : UInt8) : Word.byte? (b.toNat : Int) = some b := by
  have small := b.toNat_lt
  rw [Word.byte?, if_pos (by omega), Int.toNat_natCast, UInt8.ofNat_toNat]

theorem byte?_hexByte (b : UInt8) : (hexInt? (hexByte b).toList).bind Word.byte? = some b := by
  have small := b.toNat_lt
  have value : 16 * (b.toNat / 16) + b.toNat % 16 = b.toNat := by omega
  have read := hexInt?_digits (b.toNat / 16) (by omega) (b.toNat % 16) (by omega)
  rw [value] at read
  rw [toList_hexByte, read, Option.bind_some, byte?_natCast]

end Text

namespace HexLine

open Text

/-- A blank parts the bytes of a line. -/
theorem bytes_append_blank {d : Char} (h : isBlank d = true) (cs ds : List Char) :
    bytes (String.ofList (cs ++ d :: ds)) =
      bytes (String.ofList cs) ++ bytes (String.ofList ds) := by
  simp only [bytes, String.toList_ofList]
  rw [fields_append_blank h, List.filterMap_append]

theorem bytes_hexByte (b : UInt8) : bytes (hexByte b) = [b] := by
  have one_field : fields (hexByte b).toList = [(hexByte b).toList] := by
    have plain : ∀ d ∈ (hexByte b).toList, isBlank d = false := fun d hd => (mem_hexByte hd).1
    rw [toList_hexByte] at plain ⊢
    exact fields_of_plain plain
  rw [bytes, one_field, List.filterMap_cons, byte?_hexByte]
  rfl

theorem hexRow_singleton (b : UInt8) : hexRow [b] = hexByte b := by simp [hexRow]

theorem toList_hexRow_cons (b c : UInt8) (code : List UInt8) :
    (hexRow (b :: c :: code)).toList =
      (hexByte b).toList ++ ' ' :: (hexRow (c :: code)).toList := by
  rw [hexRow, List.map_cons, List.map_cons, String.intercalate_cons_cons, String.toList_append,
    String.toList_append, List.append_assoc]
  rfl

/-- A row of bytes is read back. -/
theorem bytes_hexRow (code : List UInt8) : bytes (hexRow code) = code := by
  induction code with
  | nil =>
    have row_eq : (hexRow []).toList = [] := rfl
    rw [bytes, row_eq, fields_nil, List.filterMap_nil]
  | cons b code ih =>
    cases code with
    | nil =>
      rw [hexRow_singleton, bytes_hexByte]
    | cons c code =>
      have parted := bytes_append_blank (d := ' ') (by decide) (hexByte b).toList
        (hexRow (c :: code)).toList
      rw [← toList_hexRow_cons, String.ofList_toList, String.ofList_toList, String.ofList_toList,
        bytes_hexByte, ih] at parted
      exact parted

/-- No line ends within a row, and no row has the mark of a command. -/
theorem mem_hexRow {x : Char} {code : List UInt8} (h : x ∈ (hexRow code).toList) :
    x ≠ '\n' ∧ x ≠ ':' := by
  have in_byte : ∀ b, x ∈ (hexByte b).toList → x ≠ '\n' ∧ x ≠ ':' := by
    intro b hb
    obtain ⟨plain, no_mark⟩ := mem_hexByte hb
    refine ⟨?_, no_mark⟩
    rintro rfl
    exact absurd plain (by decide)
  induction code with
  | nil => exact absurd h List.not_mem_nil
  | cons b code ih =>
    cases code with
    | nil =>
      rw [hexRow_singleton] at h
      exact in_byte b h
    | cons c code =>
      rw [toList_hexRow_cons] at h
      rcases List.mem_append.1 h with h | h
      · exact in_byte b h
      · rcases List.mem_cons.1 h with rfl | h
        · decide
        · exact ih h

/-- A text of rows gives the bytes of all its rows, line by line. -/
theorem bytes_of_rows (rows : List (List UInt8)) :
    (lines (CommandLine.textOfLines (rows.map hexRow)).toList).flatMap
      (fun row => bytes (String.ofList row)) = rows.flatten := by
  have one_line : ∀ row ∈ rows.map hexRow, '\n' ∉ row.toList := by
    intro row hr h
    obtain ⟨code, -, rfl⟩ := List.mem_map.1 hr
    exact (mem_hexRow h).1 rfl
  rw [lines_textOfLines one_line, List.map_map, List.flatMap_map]
  simp only [Function.comp_apply, String.ofList_toList, bytes_hexRow, List.flatMap_id']

end HexLine

end RegisterMachine
