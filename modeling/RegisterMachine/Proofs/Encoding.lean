import RegisterMachine.Proofs.Concatenation
import RegisterMachine.Proofs.Spelling

/-! The code that assembled texts are written in. A word of four bytes is read as the statement it
    stands for, and both ways lead back: the statements of a text are read from its bytes, and the
    bytes that are canonical are those of the statements read from them. Main statement
    (`bytes_exact`): the bytes of a text determine its tokens, and exactly the canonical bytes are
    the bytes of a text. -/

namespace RegisterMachine

/-- The number of bytes at the end of a word that the operation has no use for. -/
def Opcode.unused : Opcode → Nat
  | .hlt | .illegal => 3
  | .jmp | .jmpf | .jmpb | .jeq | .alloc => 2
  | .eq | .neq | .gt | .lt | .gteq | .lteq => 1
  | .load | .add | .sub | .mul | .div => 0

/-- The same by the shape of the operation. -/
def Shape.unused : Shape → Nat
  | .nullary => 3
  | .unary => 2
  | .compare => 1
  | .binary | .integer => 0

theorem Opcode.unused_eq_shape_unused (op : Opcode) : op.unused = op.shape.unused := by
  cases op <;> rfl

/-- The bytes are words of four bytes each, which begin with the code byte of an operation and have
    zeros where the operation has no use for a byte. -/
structure Canonical (code : List UInt8) : Prop where
  whole : 4 ∣ code.length
  word : ∀ k, 4 * k < code.length → ∃ b, code[4 * k]? = some b ∧ b.toNat ≤ 16 ∧
    ∀ j < 3, 3 - (Opcode.ofByte b).unused ≤ j → code[4 * k + 1 + j]? = some 0

/-! ### Words -/

/-- The four bytes are a canonical word. -/
def CanonicalWord (b x y z : UInt8) : Prop :=
  b.toNat ≤ 16 ∧ ∀ j < 3, 3 - (Opcode.ofByte b).unused ≤ j → [x, y, z][j]? = some 0

theorem canonical_nil : Canonical [] := ⟨by simp, by simp⟩

theorem canonical_cons_iff {b x y z : UInt8} {code : List UInt8} :
    Canonical (b :: x :: y :: z :: code) ↔ CanonicalWord b x y z ∧ Canonical code := by
  have shift : ∀ k j, (b :: x :: y :: z :: code)[4 * (k + 1) + j]? = code[4 * k + j]? := by
    intro k j
    have four : 4 * (k + 1) + j = 4 * k + j + 4 := by omega
    rw [four]; rfl
  have start : ∀ j < 3, (b :: x :: y :: z :: code)[4 * 0 + 1 + j]? = [x, y, z][j]? := by
    intro j hj
    match j, hj with
    | 0, _ | 1, _ | 2, _ => rfl
  constructor
  · rintro ⟨whole, word⟩
    simp only [List.length_cons] at whole word
    refine ⟨?_, by omega, ?_⟩
    · obtain ⟨_, ⟨⟩, small, unused⟩ := word 0 (by omega)
      refine ⟨small, fun j hj past => ?_⟩
      rw [← start j hj]
      exact unused j hj past
    · intro k hk
      obtain ⟨c, first, small, unused⟩ := word (k + 1) (by omega)
      refine ⟨c, (shift k 0).symm.trans first, small, fun j hj past => ?_⟩
      rw [Nat.add_assoc, ← shift, ← Nat.add_assoc]
      exact unused j hj past
  · rintro ⟨⟨small, unused⟩, whole, word⟩
    refine ⟨by simp only [List.length_cons]; omega, ?_⟩
    intro k hk
    simp only [List.length_cons] at hk
    cases k with
    | zero =>
      refine ⟨b, rfl, small, fun j hj past => ?_⟩
      rw [start j hj]
      exact unused j hj past
    | succ k =>
      obtain ⟨c, first, small, unused⟩ := word k (by omega)
      refine ⟨c, (shift k 0).trans first, small, fun j hj past => ?_⟩
      rw [Nat.add_assoc, shift, ← Nat.add_assoc]
      exact unused j hj past

/-- An operation of the language has one of the first seventeen codes, and they are all taken. -/
theorem Opcode.byte_le_iff {op : Opcode} : op.byte.toNat ≤ 16 ↔ op ≠ .illegal := by
  cases op <;> decide

theorem Opcode.byte_ofByte {b : UInt8} (small : b.toNat ≤ 16) : (ofByte b).byte = b := by
  obtain ⟨n, rfl⟩ : ∃ n : Fin 17, b = UInt8.ofNat n :=
    ⟨⟨b.toNat, by omega⟩, by simp⟩
  revert n
  decide

/-! ### Reading words -/

/-- The operands in the three bytes behind the code byte. -/
def Arguments.ofBytes (x y z : UInt8) : (s : Shape) → Arguments s
  | .nullary => .nullary
  | .integer => .integer x.toNat (y.toNat * 256 + z.toNat)
  | .binary => .binary x.toNat y.toNat z.toNat
  | .compare => .compare x.toNat y.toNat
  | .unary => .unary x.toNat

/-- The operands are not negative. For registers this is part of what fits. -/
def Arguments.Unsigned {s : Shape} : Arguments s → Prop
  | .integer _ value => 0 ≤ value
  | .nullary | .binary .. | .compare .. | .unary _ => True

namespace Statement

/-- The statement that a word stands for. -/
def ofWord (b x y z : UInt8) : Statement :=
  ⟨Opcode.ofByte b, .ofBytes x y z (Opcode.ofByte b).shape⟩

/-- The statements that bytes stand for, word by word. -/
def decode : List UInt8 → List Statement
  | b :: x :: y :: z :: code => ofWord b x y z :: decode code
  | _ => []

/-- A statement as a text can spell it: its operands fit and are not negative. -/
structure Plain (s : Statement) : Prop where
  fits : s.Fits
  unsigned : s.arguments.Unsigned

end Statement

theorem fitsByte_toNat (b : UInt8) : FitsByte b.toNat := by
  have := b.toNat_lt
  constructor <;> omega

/-- Two bytes that are put together are found again. -/
theorem half_of_bytes (y z : UInt8) :
    (UInt16.ofInt (y.toNat * 256 + z.toNat) >>> 8).toUInt8 = y ∧
      (UInt16.ofInt (y.toNat * 256 + z.toNat)).toUInt8 = z := by
  have hy := y.toNat_lt
  have hz := z.toNat_lt
  have half := toNat_ofInt_half (y.toNat * 256 + z.toNat)
  have high := high_byte (UInt16.ofInt (y.toNat * 256 + z.toNat))
  have low := low_byte (UInt16.ofInt (y.toNat * 256 + z.toNat))
  constructor
  · apply UInt8.toNat_inj.1; omega
  · apply UInt8.toNat_inj.1; omega

theorem Arguments.ofBytes_bytes {s : Shape} {a : Arguments s} (fit : a.Fit)
    (unsigned : a.Unsigned) :
    ∃ x y z, a.operands.bytes = [x, y, z] ∧ Arguments.ofBytes x y z s = a := by
  cases a with
  | nullary => exact ⟨_, _, _, rfl, rfl⟩
  | integer dest value =>
    obtain ⟨dest_fits, lower, upper⟩ := fit
    have nonneg : 0 ≤ value := unsigned
    refine ⟨_, _, _, rfl, ?_⟩
    have half := toNat_ofInt_half value
    have high := high_byte (UInt16.ofInt value)
    have low := low_byte (UInt16.ofInt value)
    simp only [ofBytes, dest_fits.toNat, Arguments.integer.injEq, true_and]
    omega
  | binary left right dest =>
    obtain ⟨left_fits, right_fits, dest_fits⟩ := fit
    refine ⟨_, _, _, rfl, ?_⟩
    rw [ofBytes, left_fits.toNat, right_fits.toNat, dest_fits.toNat]
  | compare left right =>
    obtain ⟨left_fits, right_fits⟩ := fit
    refine ⟨_, _, _, rfl, ?_⟩
    rw [ofBytes, left_fits.toNat, right_fits.toNat]
  | unary register =>
    have fits : FitsByte register := fit
    refine ⟨_, _, _, rfl, ?_⟩
    rw [ofBytes, fits.toNat]

theorem Arguments.bytes_ofBytes {x y z : UInt8} {s : Shape}
    (unused : ∀ j < 3, 3 - s.unused ≤ j → [x, y, z][j]? = some 0) :
    (Arguments.ofBytes x y z s).operands.bytes = [x, y, z] := by
  cases s with
  | nullary =>
    obtain rfl : x = 0 := by simpa using unused 0 (by decide) (by decide)
    obtain rfl : y = 0 := by simpa using unused 1 (by decide) (by decide)
    obtain rfl : z = 0 := by simpa using unused 2 (by decide) (by decide)
    rfl
  | integer =>
    obtain ⟨high, low⟩ := half_of_bytes y z
    simp only [ofBytes, operands, Operands.bytes, high, low, Int.toNat_natCast, UInt8.ofNat_toNat]
  | binary => simp [ofBytes, operands, Operands.bytes]
  | compare =>
    obtain rfl : z = 0 := by simpa using unused 2 (by decide) (by decide)
    simp [ofBytes, operands, Operands.bytes]
  | unary =>
    obtain rfl : y = 0 := by simpa using unused 1 (by decide) (by decide)
    obtain rfl : z = 0 := by simpa using unused 2 (by decide) (by decide)
    simp [ofBytes, operands, Operands.bytes]

/-- Bytes that have no use are zero. -/
theorem Arguments.unused_bytes {s : Shape} (a : Arguments s) :
    ∀ j < 3, 3 - s.unused ≤ j → a.operands.bytes[j]? = some 0 := by
  intro j hj past
  cases a with
  | nullary => match j, hj with | 0, _ | 1, _ | 2, _ => rfl
  | integer dest value => simp only [Shape.unused] at past; omega
  | binary left right dest => simp only [Shape.unused] at past; omega
  | compare left right =>
    simp only [Shape.unused] at past
    obtain rfl : j = 2 := by omega
    rfl
  | unary register =>
    simp only [Shape.unused] at past
    match j, hj with | 1, _ | 2, _ => rfl

theorem Arguments.fit_ofBytes (x y z : UInt8) (s : Shape) : (Arguments.ofBytes x y z s).Fit := by
  have hy := y.toNat_lt
  have hz := z.toNat_lt
  cases s with
  | nullary => trivial
  | integer => exact ⟨fitsByte_toNat x, by omega, by omega⟩
  | binary => exact ⟨fitsByte_toNat x, fitsByte_toNat y, fitsByte_toNat z⟩
  | compare => exact ⟨fitsByte_toNat x, fitsByte_toNat y⟩
  | unary => exact fitsByte_toNat x

theorem Arguments.unsigned_ofBytes (x y z : UInt8) (s : Shape) :
    (Arguments.ofBytes x y z s).Unsigned := by
  cases s with
  | integer => show (0 : Int) ≤ y.toNat * 256 + z.toNat; omega
  | nullary | binary | compare | unary => trivial

namespace Statement

theorem Plain.ofWord_encode {s : Statement} (h : s.Plain) :
    ∃ b x y z, s.instruction.encode = [b, x, y, z] ∧ ofWord b x y z = s := by
  obtain ⟨op, arguments⟩ := s
  obtain ⟨x, y, z, bytes_eq, read⟩ := Arguments.ofBytes_bytes h.fits.2 h.unsigned
  refine ⟨op.byte, x, y, z, congrArg (op.byte :: ·) bytes_eq, ?_⟩
  rw [ofWord, Opcode.ofByte_byte, read]

/-- The statements of a text are read from its bytes. -/
theorem decode_encodeAll {ss : List Statement} (plain : ∀ s ∈ ss, s.Plain) :
    decode (Instruction.encodeAll (ss.map instruction)) = ss := by
  induction ss with
  | nil => rfl
  | cons s ss ih =>
    obtain ⟨b, x, y, z, encoded, read⟩ := (plain s (by simp)).ofWord_encode
    have rest := ih fun t ht => plain t (by simp [ht])
    rw [Instruction.encodeAll] at rest ⊢
    rw [List.map_cons, List.flatMap_cons, encoded]
    simp only [List.cons_append, List.nil_append, decode, read, rest]

theorem encode_ofWord {b x y z : UInt8} (h : CanonicalWord b x y z) :
    (ofWord b x y z).instruction.encode = [b, x, y, z] := by
  obtain ⟨small, unused⟩ := h
  have bytes_eq : (Arguments.ofBytes x y z (Opcode.ofByte b).shape).operands.bytes = [x, y, z] := by
    rw [Opcode.unused_eq_shape_unused] at unused
    exact Arguments.bytes_ofBytes unused
  rw [instruction, Instruction.encode]
  simp only [ofWord, Opcode.byte_ofByte small, bytes_eq]

theorem plain_ofWord {b x y z : UInt8} (h : CanonicalWord b x y z) : (ofWord b x y z).Plain := by
  have legal : Opcode.ofByte b ≠ .illegal := by
    rw [← Opcode.byte_le_iff, Opcode.byte_ofByte h.1]
    exact h.1
  exact ⟨⟨legal, Arguments.fit_ofBytes x y z _⟩, Arguments.unsigned_ofBytes x y z _⟩

theorem Plain.canonicalWord {s : Statement} {b x y z : UInt8} (h : s.Plain)
    (encoded : s.instruction.encode = [b, x, y, z]) : CanonicalWord b x y z := by
  obtain ⟨op, arguments⟩ := s
  obtain ⟨rfl, bytes_eq⟩ := List.cons.inj encoded
  refine ⟨Opcode.byte_le_iff.2 h.fits.1, ?_⟩
  rw [Opcode.ofByte_byte, Opcode.unused_eq_shape_unused, ← bytes_eq]
  exact arguments.unused_bytes

/-- Canonical bytes are those of the statements read from them, and these are plain. -/
theorem encodeAll_decode {code : List UInt8} (h : Canonical code) :
    Instruction.encodeAll ((decode code).map instruction) = code ∧
      ∀ s ∈ decode code, s.Plain := by
  fun_induction decode code with
  | case1 b x y z code ih =>
    obtain ⟨word, rest⟩ := canonical_cons_iff.1 h
    obtain ⟨encoded, plain⟩ := ih rest
    constructor
    · rw [Instruction.encodeAll] at encoded ⊢
      rw [List.map_cons, List.flatMap_cons, encode_ofWord word, encoded]
      rfl
    · intro s hs
      rcases List.mem_cons.1 hs with rfl | hs
      · exact plain_ofWord word
      · exact plain s hs
  | case2 code short =>
    -- four bytes would be a word, and fewer are none
    have whole := h.whole
    rcases code with _ | ⟨b, _ | ⟨x, _ | ⟨y, _ | ⟨z, code⟩⟩⟩⟩
    · exact ⟨rfl, by simp⟩
    · simp at whole
    · simp at whole
    · simp at whole
    · exact absurd rfl (short b x y z code)

theorem canonical_encodeAll {ss : List Statement} (plain : ∀ s ∈ ss, s.Plain) :
    Canonical (Instruction.encodeAll (ss.map instruction)) := by
  induction ss with
  | nil => exact canonical_nil
  | cons s ss ih =>
    have first := plain s (by simp)
    obtain ⟨b, x, y, z, encoded, -⟩ := first.ofWord_encode
    have rest := ih fun t ht => plain t (by simp [ht])
    rw [Instruction.encodeAll] at rest ⊢
    rw [List.map_cons, List.flatMap_cons, encoded]
    exact canonical_cons_iff.2 ⟨first.canonicalWord encoded, rest⟩

end Statement

/-! ### Texts -/

theorem writable_of_small {n : Int} (nonneg : 0 ≤ n) (small : n ≤ 0xFFFF) :
    (Token.register n).Writable ∧ (Token.integer n).Writable := by
  have five : (Nat.toDigits 10 n.toNat).length ≤ 5 :=
    (Nat.length_toDigits_le_iff (by decide) (by decide)).2 (by omega)
  have short : (Nat.toDigits 10 n.toNat).length ≤ Lexeme.digitLimit :=
    Nat.le_trans five (by decide)
  exact ⟨⟨n.toNat, by omega, short⟩, n.toNat, by omega, short⟩

theorem Arguments.writable {s : Shape} {a : Arguments s} (fit : a.Fit) (unsigned : a.Unsigned) :
    ∀ t ∈ a.tokens, t.Writable := by
  have index : ∀ {n : Int}, FitsByte n → (Token.register n).Writable :=
    fun fits => (writable_of_small fits.1 (Int.le_trans fits.2 (by decide))).1
  cases a with
  | nullary => simp [tokens]
  | integer dest value =>
    have written := (writable_of_small unsigned fit.2.2).2
    simpa [tokens] using ⟨index fit.1, written⟩
  | binary left right dest =>
    simpa [tokens] using ⟨index fit.1, index fit.2.1, index fit.2.2⟩
  | compare left right => simpa [tokens] using ⟨index fit.1, index fit.2⟩
  | unary register => simpa [tokens] using index fit

theorem Statement.writable {ss : List Statement} (plain : ∀ s ∈ ss, s.Plain) :
    ∀ t ∈ ss.flatMap Statement.tokens, t.Writable := by
  intro t ht
  obtain ⟨s, hs, ht⟩ := List.mem_flatMap.1 ht
  have h := plain s hs
  rcases List.mem_cons.1 ht with rfl | ht
  · exact h.fits.1
  · exact Arguments.writable h.fits.2 h.unsigned t ht

theorem Arguments.unsigned_of_tokens {s : Shape} {a : Arguments s}
    (h : ∀ value, Token.integer value ∈ a.tokens → 0 ≤ value) : a.Unsigned := by
  cases a with
  | integer dest value => exact h value (by simp [tokens])
  | nullary | binary _ _ _ | compare _ _ | unary _ => trivial

/-- The token is no operand with a negative number. -/
def Token.Unsigned : Token → Prop
  | .register value | .integer value => 0 ≤ value
  | .operator _ | .endOfInput => True

namespace Located

/-- No text spells a negative number. -/
theorem unsigned_of_mem {text : String} {t : Token}
    (h : Lexeme.token t ∈ (ofText text).map lexeme) : t.Unsigned := by
  have number : ∀ {make : Int → Token} {digits}, Lexeme.number make digits = .token t →
      (∀ n : Nat, (make n).Unsigned) → t.Unsigned := by
    intro make digits read unsigned
    rw [Lexeme.number] at read
    split at read
    · cases read
    · cases read
      exact unsigned _
  rw [map_lexeme_ofText] at h
  obtain ⟨piece, -, read⟩ := List.mem_map.1 h
  rw [Lexeme.ofChars.eq_def] at read
  split at read
  · split at read
    · exact number read Int.natCast_nonneg
    · split at read
      · exact number read Int.natCast_nonneg
      · cases read
        trivial
  · cases read
    trivial

end Located

namespace Assembly

theorem bytes_eq_ok_iff {text : String} {code : List UInt8} : bytes text = .ok code ↔
    ∃ is, program text = .ok is ∧ code = Instruction.encodeAll is := by
  rw [bytes]
  cases program text with
  | ok is => simp [Except.map, eq_comm]
  | error e => simp [Except.map]

/-- A text that is assembled is spelled by plain statements, whose instructions it gives. -/
theorem exists_plain_statements {text : String} {is : List Instruction}
    (h : program text = .ok is) : ∃ ss : List Statement, (∀ s ∈ ss, s.Plain) ∧
      is = ss.map Statement.instruction ∧
      Located.tokens (Located.ofText text) = .ok (ss.flatMap Statement.tokens) := by
  obtain ⟨ss, fit, rfl, spelled⟩ := exists_statements h
  refine ⟨ss, ?_, rfl, Located.tokens_eq_ok_iff.2 spelled⟩
  intro s hs
  refine ⟨fit s hs, Arguments.unsigned_of_tokens ?_⟩
  intro value mem
  have written : Token.integer value ∈ ss.flatMap Statement.tokens :=
    List.mem_flatMap.2 ⟨s, hs, List.mem_cons_of_mem _ mem⟩
  have mem : Lexeme.token (.integer value) ∈ (Located.ofText text).map Located.lexeme := by
    rw [spelled]
    exact List.mem_map_of_mem written
  exact Located.unsigned_of_mem mem

/-- Plain statements that are written are assembled. -/
theorem program_of_plain {ss : List Statement} (plain : ∀ s ∈ ss, s.Plain) :
    program (Token.written (ss.flatMap Statement.tokens)) = .ok (ss.map Statement.instruction) := by
  have spelled := Token.map_lexeme_of_written (Statement.writable plain)
  have consists : Consists (Located.ofText (Token.written (ss.flatMap Statement.tokens))) ss :=
    ⟨_, [], (List.append_nil _).symm, spelled, .inl rfl⟩
  exact program_eq_ok_iff.2 (all_of_consists (fun s hs => (plain s hs).fits) consists)

/-- The encoding is exact: texts with the same bytes have the same tokens, and bytes are those of
    some text if and only if they are canonical. -/
theorem bytes_exact :
    (∀ a b code, bytes a = .ok code → bytes b = .ok code → ∃ ts,
      Located.tokens (Located.ofText a) = .ok ts ∧ Located.tokens (Located.ofText b) = .ok ts) ∧
    (∀ code, (∃ text, bytes text = .ok code) ↔ Canonical code) ∧
    (∀ text code, bytes text = .ok code → ∀ k, code[4 * k]? ≠ some 0xFF) := by
  have canonical : ∀ text code, bytes text = .ok code → Canonical code := by
    intro text code encoded
    obtain ⟨is, assembled, rfl⟩ := bytes_eq_ok_iff.1 encoded
    obtain ⟨ss, plain, rfl, -⟩ := exists_plain_statements assembled
    exact Statement.canonical_encodeAll plain
  refine ⟨?_, ?_, ?_⟩
  · intro a b code encoded encoded'
    obtain ⟨is, assembled, rfl⟩ := bytes_eq_ok_iff.1 encoded
    obtain ⟨is', assembled', same⟩ := bytes_eq_ok_iff.1 encoded'
    obtain ⟨ss, plain, rfl, read⟩ := exists_plain_statements assembled
    obtain ⟨ss', plain', rfl, read'⟩ := exists_plain_statements assembled'
    have statements_eq : ss = ss' := by
      rw [← Statement.decode_encodeAll plain, same, Statement.decode_encodeAll plain']
    exact ⟨_, read, statements_eq ▸ read'⟩
  · intro code
    constructor
    · rintro ⟨text, encoded⟩
      exact canonical text code encoded
    · intro h
      obtain ⟨encoded, plain⟩ := Statement.encodeAll_decode h
      exact ⟨_, bytes_eq_ok_iff.2 ⟨_, program_of_plain plain, encoded.symm⟩⟩
  · intro text code encoded k first
    have inside : 4 * k < code.length := (List.getElem?_eq_some_iff.1 first).1
    obtain ⟨b, first', small, -⟩ := (canonical text code encoded).word k inside
    rw [first] at first'
    obtain rfl := Option.some.inj first'
    exact absurd small (by decide)

end Assembly

end RegisterMachine
