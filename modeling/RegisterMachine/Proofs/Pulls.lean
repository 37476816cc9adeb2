import RegisterMachine.Proofs.Encoding
import RegisterMachine.Proofs.Places

/-! Instructions as they are pulled from a row of tokens, one at a time. A pull gives a word, the
    end, or an error, and behind an error or the end there is only the end. Nearly all errors are
    refusals. The one exception is due to an index below zero, which is taken where one above the
    greatest byte is refused: if nothing else is wrong with its statement, it is found only when the
    word is put together. Main statement (`pulls_proper_iff`): this is the only way in which a pull
    can fail with anything but a refusal. -/

namespace RegisterMachine

/-- An operand of the right kind that is too great for its place, or, for an integer, too small. -/
def Place.OutOfRange : Place → Token → Prop
  | .register, .register index => 0xFF < index
  | .integer, .integer value => ¬ FitsHalf value
  | _, _ => False

theorem Place.OutOfRange.refuses {p : Place} {t : Token} (h : p.OutOfRange t) :
    p.Refuses t ∧ p.complaint t = .operandRange := by
  cases p <;> cases t <;> simp_all [OutOfRange, Refuses, Admits, complaint]

namespace Assembly

/-- What a pull gives. -/
inductive Pull where
  | word (i : Instruction)
  | ended
  | failed (e : AssemblyError)
  deriving DecidableEq

/-- What `n` pulls give. There is a source as long as the iteration goes on. -/
def pulls : Nat → Option (List Located) → List Pull
  | 0, _ => []
  | n + 1, none => .ended :: pulls n none
  | n + 1, some source =>
    match instruction.run source with
    | .ok (some i) rest => .word i :: pulls n (some rest)
    | .ok none _ => .ended :: pulls n none
    | .error e _ => .failed e :: pulls n none

/-- The last pull that is not only a repetition. -/
def Pull.last : Option AssemblyError → Pull
  | none => .ended
  | some e => .failed e

theorem pulls_none (n : Nat) : pulls n none = List.replicate n .ended := by
  induction n with
  | zero => rfl
  | succ n ih => rw [pulls, ih, List.replicate_succ]

/-- Pulls give the instructions of the source one by one, then its error or its end, and then
    nothing but the end. -/
theorem pulls_eq_all (n : Nat) (source : List Located) : pulls n (some source) =
    ((all source).instructions.map Pull.word ++ [Pull.last (all source).error]).take n ++
      List.replicate (n - ((all source).instructions.length + 1)) .ended := by
  induction n generalizing source with
  | zero => simp [pulls]
  | succ n ih =>
    rw [pulls]
    cases read : instruction.run source with
    | ok i rest =>
      cases i with
      | some i => simp [all_of_some read, ih rest]
      | none => simp [all_of_none read, pulls_none, Pull.last]
    | error e rest => simp [all_of_error read, pulls_none, Pull.last]

theorem mem_pulls {n : Nat} {source : List Located} {p : Pull} (h : p ∈ pulls n (some source)) :
    (∃ i ∈ (all source).instructions, p = .word i) ∨ p = .ended ∨
      ∃ e, (all source).error = some e ∧ p = .failed e := by
  rw [pulls_eq_all, List.mem_append] at h
  rcases h with h | h
  · have h := List.mem_of_mem_take h
    simp only [List.mem_append, List.mem_map, List.mem_singleton] at h
    rcases h with ⟨i, hi, rfl⟩ | rfl
    · exact .inl ⟨i, hi, rfl⟩
    · cases error_eq : (all source).error with
      | none => exact .inr (.inl rfl)
      | some e => exact .inr (.inr ⟨e, rfl, rfl⟩)
  · exact .inr (.inl (List.eq_of_mem_replicate h))

/-- An error is pulled when the instructions in front of it are. -/
theorem failed_mem_pulls {source : List Located} {e : AssemblyError}
    (h : (all source).error = some e) :
    .failed e ∈ pulls ((all source).instructions.length + 1) (some source) := by
  rw [pulls_eq_all, List.take_of_length_le (by simp)]
  simp [h, Pull.last]

/-! ### Words -/

/-- The pull gives a word of four bytes with the code of an operation in front, or the end, or a
    refusal. -/
def Pull.Proper : Pull → Prop
  | .word i => ∃ b x y z, i.encode = [b, x, y, z] ∧ b.toNat ≤ 16
  | .ended => True
  | .failed e => ∃ refusal, e = .refused refusal

theorem proper_word {s : Statement} (fits : s.Fits) : (Pull.word s.instruction).Proper := by
  have four : s.arguments.operands.bytes.length + 1 = 4 := s.instruction.length_encode
  obtain ⟨x, y, z, bytes_eq⟩ := List.length_eq_three.1 (Nat.succ.inj four)
  have encode_eq : s.instruction.encode = [s.op.byte, x, y, z] := congrArg (_ :: ·) bytes_eq
  exact ⟨_, x, y, z, encode_eq, Opcode.byte_le_iff.2 fits.1⟩

/-- The instructions of a row of tokens are those of statements that fit. -/
theorem exists_statements_of_all (ts : List Token) : ∃ ss : List Statement, (∀ s ∈ ss, s.Fits) ∧
    (all (Located.ofTokens ts)).instructions = ss.map Statement.instruction := by
  cases error_eq : (all (Located.ofTokens ts)).error with
  | none =>
    obtain ⟨ss, fit, consists⟩ := exists_consists_of_all _ error_eq
    exact ⟨ss, fit, (all_of_consists fit consists).2⟩
  | some e =>
    obtain ⟨ss, us, rest, fit, rfl, broken⟩ := exists_statements_of_error error_eq
    exact ⟨ss, fit, by rw [all_of_statements fit, all_of_error broken, List.append_nil]⟩

/-! ### Errors -/

/-- Behind statements that fit stands one that is taken although one of its indices is negative. -/
def ReachesNegative (ts : List Token) : Prop :=
  ∃ (ss : List Statement) (s : Statement) (behind : List Token) (index : Int),
    (∀ s ∈ ss, s.Fits) ∧ s.Taken ∧ index < 0 ∧ .register index ∈ s.tokens ∧
    ts = ss.flatMap Statement.tokens ++ (s.tokens ++ behind)

theorem error_of_reachesNegative {ts : List Token} (h : ReachesNegative ts) :
    (all (Located.ofTokens ts)).error = some .unencodable := by
  obtain ⟨ss, s, behind, index, fit, taken, negative, mem, rfl⟩ := h
  rw [all_of_statements fit, all_of_error (run_instruction_of_negative taken negative mem behind)]

/-- Every error is a refusal, unless an index below zero is the only thing that is wrong. -/
theorem error_cases {ts : List Token} {e : AssemblyError}
    (h : (all (Located.ofTokens ts)).error = some e) :
    (∃ refusal, e = .refused refusal) ∨ e = .unencodable ∧ ReachesNegative ts := by
  obtain ⟨ss, us, rest, fit, rfl, broken⟩ := exists_statements_of_error h
  have reads := run_instruction_read us
  rw [broken] at reads
  cases reads with
  | misfit _ _ => exact .inl ⟨_, rfl⟩
  | @negative s taken index negative mem behind =>
    exact .inr ⟨rfl, ss, s, behind, index, fit, taken, negative, mem, rfl⟩

/-- What a pull gives is proper, but for the error that an index below zero causes. -/
theorem proper_or_negative {ts : List Token} {n : Nat} {p : Pull}
    (h : p ∈ pulls n (some (Located.ofTokens ts))) :
    p.Proper ∨ p = .failed .unencodable ∧ ReachesNegative ts := by
  rcases mem_pulls h with ⟨i, hi, rfl⟩ | rfl | ⟨e, error_eq, rfl⟩
  · obtain ⟨ss, fit, instructions_eq⟩ := exists_statements_of_all ts
    rw [instructions_eq] at hi
    obtain ⟨s, hs, rfl⟩ := List.mem_map.1 hi
    exact .inl (proper_word (fit s hs))
  · exact .inl trivial
  · rcases error_cases error_eq with refused | ⟨rfl, negative⟩
    · exact .inl refused
    · exact .inr ⟨rfl, negative⟩

/-- Behind statements that fit, an operand that is out of range is refused as such. -/
theorem pulls_of_outOfRange {ss : List Statement} (fit : ∀ s ∈ ss, s.Fits) {begun : List Token}
    {place : Place} (expects : Begun begun place) {found : Token} (outside : place.OutOfRange found)
    (behind : List Token) (n : Nat) :
    pulls (ss.length + 1 + n)
        (some (Located.ofTokens (ss.flatMap Statement.tokens ++ (begun ++ found :: behind)))) =
      ss.map (fun s => .word s.instruction) ++
        .failed (.refused { complaint := .operandRange, found := some found }) ::
          List.replicate n .ended := by
  obtain ⟨misfit, complaint_eq⟩ := outside.refuses
  have refused : place.Refuses ((found :: behind).headD .endOfInput) := misfit
  have broken := run_instruction_of_misfit expects refused
  have count : ss.length + 1 + n - (ss.length + 1) = n := by omega
  rw [pulls_eq_all, all_of_statements fit, all_of_error broken, List.append_nil, List.length_map,
    count, List.take_of_length_le (by simp), List.map_map, List.append_assoc]
  simp only [List.singleton_append, Pull.last, Place.refusal, List.headD_cons, complaint_eq]
  rfl

/-- Only a statement that is taken although one of its indices is negative makes a pull fail with
    anything but a refusal; any other operand out of range is refused as such. -/
theorem pulls_proper_iff (ts : List Token) :
    ((∀ n, ∀ p ∈ pulls n (some (Located.ofTokens ts)), p.Proper) ↔ ¬ ReachesNegative ts) ∧
    (∀ n, ∀ p ∈ pulls n (some (Located.ofTokens ts)), p.Proper ∨ p = .failed .unencodable) ∧
    (∀ (ss : List Statement) (begun : List Token) (place : Place) (found : Token)
      (behind : List Token), (∀ s ∈ ss, s.Fits) → Begun begun place → place.OutOfRange found →
      ts = ss.flatMap Statement.tokens ++ (begun ++ found :: behind) →
      ∀ n, pulls (ss.length + 1 + n) (some (Located.ofTokens ts)) =
        ss.map (fun s => .word s.instruction) ++
          .failed (.refused { complaint := .operandRange, found := some found }) ::
            List.replicate n .ended) := by
  refine ⟨⟨?_, ?_⟩, ?_, ?_⟩
  · intro proper negative
    have escapes := failed_mem_pulls (error_of_reachesNegative negative)
    obtain ⟨refusal, h⟩ := proper _ _ escapes
    cases h
  · intro nonneg n p hp
    exact (proper_or_negative hp).resolve_right fun h => nonneg h.2
  · intro n p hp
    exact (proper_or_negative hp).imp_right And.left
  · rintro ss begun place found behind fit expects outside rfl n
    exact pulls_of_outOfRange fit expects outside behind n

/-- A jump to a register below the first one is taken, but there is no word for it, and so the pull
    fails with something that is no refusal. -/
theorem pulls_negative_jump :
    pulls 1 (some (Located.ofTokens [.operator .jmp, .register (-1)])) = [.failed .unencodable] ∧
      ¬ ∀ p ∈ pulls 1 (some (Located.ofTokens [.operator .jmp, .register (-1)])), p.Proper := by
  have pulled : pulls 1 (some (Located.ofTokens [.operator .jmp, .register (-1)])) =
      [.failed .unencodable] := by decide
  refine ⟨pulled, fun proper => ?_⟩
  obtain ⟨refusal, h⟩ := proper (.failed .unencodable) (by simp [pulled])
  cases h

end Assembly

end RegisterMachine
