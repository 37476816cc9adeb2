import Mathlib.Algebra.Order.Floor.Div
import RegisterMachine.Listing
import RegisterMachine.Proofs.HexRows

/-! Listings are read back. A program is cut into rows of a given width, of which the last may be
    shorter, and each row is an entry of the listing. The entries may be put together with any white
    space between them, since a gap parts the bytes of a line. Main statement (`bytes_of_listing`):
    the bytes of a listing are those of the program, however it is laid out. -/

namespace RegisterMachine

namespace Listing

variable {α : Type}

/-- The rows are what a list is cut into: put together again they are the list, each of them but the
    last is full, and the last is not empty. -/
structure InRows (width : Nat) (xs : List α) (rows : List (List α)) : Prop where
  whole : rows.flatten = xs
  count : rows.length = xs.length ⌈/⌉ width
  full : ∀ row ∈ rows.dropLast, row.length = width
  last : ∀ row ∈ rows.getLast?, 1 ≤ row.length ∧ row.length ≤ width

/-- There is one row more than those of what is left behind the first one. -/
theorem ceilDiv_of_cut (n k : Nat) : (k + 1) ⌈/⌉ (n + 1) = (k - n) ⌈/⌉ (n + 1) + 1 := by
  have rest : (k - n + n) / (n + 1) = k / (n + 1) := by
    rcases Nat.le_total n k with enough | few
    · rw [Nat.sub_add_cancel enough]
    · rw [Nat.sub_eq_zero_of_le few, Nat.zero_add, Nat.div_eq_of_lt (Nat.lt_succ_self n),
        Nat.div_eq_of_lt (Nat.lt_succ_of_le few)]
  have first : k + 1 + (n + 1) - 1 = k + (n + 1) := by omega
  rw [Nat.ceilDiv_eq_add_pred_div, Nat.ceilDiv_eq_add_pred_div, first,
    Nat.add_div_right _ (Nat.succ_pos n), ← rest]
  rfl

/-- A row in front of those into which the rest is cut. It is full unless nothing is left. -/
theorem InRows.cons {n : Nat} {x : α} {xs : List α} {rows : List (List α)}
    (h : InRows (n + 1) (xs.drop n) rows) :
    InRows (n + 1) (x :: xs) ((x :: xs.take n) :: rows) where
  whole := by rw [List.flatten_cons, h.whole, List.cons_append, List.take_append_drop]
  count := by rw [List.length_cons, h.count, List.length_drop, List.length_cons, ceilDiv_of_cut]
  full := by
    intro row mem
    cases rows with
    | nil => cases mem
    | cons next rows =>
      -- the count tells that something is left, and then the first row has taken all it can
      have more : n < xs.length := by
        by_contra few
        have none_left : (xs.drop n).length = 0 := by rw [List.length_drop]; omega
        have count := h.count
        rw [none_left, zero_ceilDiv] at count
        cases count
      rcases List.mem_cons.1 mem with rfl | mem
      · rw [List.length_cons, List.length_take, Nat.min_eq_left more.le]
      · exact h.full row mem
  last := by
    intro row mem
    cases rows with
    | nil =>
      obtain rfl : x :: xs.take n = row := by simpa using mem
      rw [List.length_cons, List.length_take]
      omega
    | cons next rows => exact h.last row (by simpa using mem)

theorem inRows_chunks (n : Nat) (xs : List α) : InRows (n + 1) xs (chunks n xs) := by
  fun_induction chunks n xs with
  | case1 => exact ⟨rfl, by simp, by simp, by simp⟩
  | case2 x xs ih => exact ih.cons

theorem rows?_of_pos {width : Nat} (positive : 1 ≤ width) (program : List UInt8) :
    rows? width program = some ((chunks (width - 1) program).map Text.hexRow) := by
  rw [rows?, if_neg (by omega), if_neg (by omega), Int.toNat_natCast]

end Listing

namespace Text

/-! ### Gaps -/

theorem fields_blank_append {gap : List Char} (blank : ∀ c ∈ gap, isBlank c) (cs : List Char) :
    fields (gap ++ cs) = fields cs := by
  induction gap with
  | nil => rfl
  | cons c gap ih =>
    obtain ⟨first, others⟩ := List.forall_mem_cons.1 blank
    rw [List.cons_append, fields_blank first, ih others]

/-- The text is made of the entries in their order, with white space between any two of them. The
    entries themselves may hold white space. -/
inductive Joined : List String → String → Prop where
  | nil : Joined [] ""
  | single (entry : String) : Joined [entry] entry
  | cons {gap next text : String} {entries : List String} (entry : String) (nonempty : gap ≠ "")
      (blank : ∀ c ∈ gap.toList, isBlank c) (rest : Joined (next :: entries) text) :
    Joined (entry :: next :: entries) (entry ++ gap ++ text)

end Text

namespace HexLine

open Text

/-- A gap parts the bytes of a line. -/
theorem bytes_append_gap {gap : String} (nonempty : gap ≠ "")
    (blank : ∀ c ∈ gap.toList, isBlank c) (a b : String) :
    bytes (a ++ gap ++ b) = bytes a ++ bytes b := by
  obtain ⟨c, cs, gap_eq⟩ : ∃ c cs, gap.toList = c :: cs :=
    List.exists_cons_of_ne_nil (by simpa using nonempty)
  rw [gap_eq] at blank
  obtain ⟨first, others⟩ := List.forall_mem_cons.1 blank
  rw [bytes, String.toList_append, String.toList_append, gap_eq, List.append_assoc,
    List.cons_append, fields_append_blank first, fields_blank_append others, List.filterMap_append]
  rfl

theorem bytes_of_joined {entries : List String} {text : String} (h : Joined entries text) :
    bytes text = entries.flatMap bytes := by
  induction h with
  | nil => simp [bytes]
  | single entry => simp
  | cons entry nonempty blank rest ih =>
    rw [bytes_append_gap nonempty blank, ih]
    rfl

/-- The bytes of a line are the numbers among its fields that are neither negative nor too great. -/
theorem map_toNat_bytes (line : String) : (bytes line).map (fun b => (b.toNat : Int)) =
    ((fields line.toList).filterMap hexInt?).filter fun v => 0 ≤ v ∧ v ≤ 0xFF := by
  rw [bytes, List.map_filterMap, List.filter_filterMap]
  refine List.filterMap_congr fun entry _ => ?_
  cases hexInt? entry with
  | none => rfl
  | some v =>
    rw [Option.bind_some, Word.byte?, Option.filter_some]
    by_cases small : 0 ≤ v ∧ v < 256
    · have value : ((UInt8.ofNat v.toNat).toNat : Int) = v := by
        rw [UInt8.toNat_ofNat', Nat.mod_eq_of_lt (by omega)]
        omega
      rw [if_pos small, if_pos (by simp; omega), Option.map_some, value]
    · rw [if_neg small, if_neg (by simp; omega), Option.map_none]

/-- Listings are read back: each row of the program has an entry that shows its bytes, and with any
    white space between them the entries are read as the program. -/
theorem bytes_of_listing {width : Nat} (positive : 1 ≤ width) (program : List UInt8) :
    (∃ rows, Listing.rows? width program = some (rows.map hexRow) ∧
      Listing.InRows width program rows ∧ (∀ row ∈ rows, bytes (hexRow row) = row) ∧
      ∀ text, Joined (rows.map hexRow) text → bytes text = program) ∧
    (∀ a b, bytes (a ++ " " ++ b) = bytes a ++ bytes b) ∧
    ∀ line, (bytes line).map (fun b => (b.toNat : Int)) =
      ((fields line.toList).filterMap hexInt?).filter fun v => 0 ≤ v ∧ v ≤ 0xFF := by
  refine ⟨⟨Listing.chunks (width - 1) program, Listing.rows?_of_pos positive program, ?_,
    fun row _ => bytes_hexRow row, fun text joined => ?_⟩, ?_, map_toNat_bytes⟩
  · have cut := Listing.inRows_chunks (width - 1) program
    rwa [Nat.sub_add_cancel positive] at cut
  · rw [bytes_of_joined joined, List.flatMap_map]
    simp only [bytes_hexRow, List.flatMap_id']
    exact (Listing.inRows_chunks (width - 1) program).whole
  · exact bytes_append_gap (by decide) (by simp [isBlank])

/-- Five bytes in rows of two, with a line feed and a tab behind the first row and an ideographic
    space behind the second. -/
theorem bytes_of_listing_five :
    let program : List UInt8 := [0x01, 0x00, 0xFF, 0x0A, 0x10]
    let text := "01 00\n\tFF 0A\u300010"
    1 ≤ 2 ∧ Listing.rows? 2 program = some ["01 00", "FF 0A", "10"] ∧
      Joined ["01 00", "FF 0A", "10"] text ∧ bytes text = program := by
  intro program text
  have two : 1 ≤ 2 := by decide
  have listed : Listing.rows? 2 program = some ["01 00", "FF 0A", "10"] := by decide +kernel
  have text_eq : text = "01 00" ++ "\n\t" ++ ("FF 0A" ++ "\u3000" ++ "10") := by decide
  have joined : Joined ["01 00", "FF 0A", "10"] text := by
    rw [text_eq]
    have line_feed : ∀ c ∈ "\n\t".toList, isBlank c := by simp [isBlank]
    have ideographic : ∀ c ∈ "\u3000".toList, isBlank c := by simp [isBlank]
    exact .cons _ (by decide) line_feed (.cons _ (by decide) ideographic (.single _))
  obtain ⟨⟨rows, listed', -, -, read⟩, -⟩ := bytes_of_listing two program
  have rows_eq : ["01 00", "FF 0A", "10"] = rows.map hexRow :=
    Option.some.inj (listed.symm.trans listed')
  exact ⟨two, listed, joined, read text (rows_eq ▸ joined)⟩

end HexLine

end RegisterMachine
