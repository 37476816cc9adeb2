import RegisterMachine.Proofs.Concatenation
import RegisterMachine.Token.Lexer

/-! Calls of a lexer in any order. Tokens may be asked for one by one, with the end of input behind
    them or without it, or all that are left at once, and the ways of asking may be mixed. A call
    gives tokens from the front of those that are left and leaves the others
    (`HasLeft.passes_answer`), and so do any number of calls (`HasLeft.passes_answers`). Main
    statement (`delivery_of_calls`): each answer is told by the number of tokens given before it,
    and an assembler that goes on with the lexer reads the tokens that are left. -/

namespace RegisterMachine

/-- Both have given the same instructions and the same error. -/
def Assembled.Agrees (a b : Assembled) : Prop :=
  a.instructions = b.instructions ∧ a.error = b.error

theorem Assembled.Agrees.symm {a b : Assembled} (h : a.Agrees b) : b.Agrees a :=
  ⟨h.1.symm, h.2.symm⟩

theorem Assembled.Agrees.trans {a b c : Assembled} (h : a.Agrees b) (h' : b.Agrees c) :
    a.Agrees c :=
  ⟨h.1.trans h'.1, h.2.trans h'.2⟩

/-- The end of input may be repeated behind a row of tokens or left out. -/
theorem Assembly.agrees_padded (ts : List Token) (n : Nat) :
    (all (Located.ofTokens (ts ++ List.replicate n .endOfInput))).Agrees
      (all (Located.ofTokens ts)) := by
  cases n with
  | zero => rw [List.replicate_zero, List.append_nil]; exact ⟨rfl, rfl⟩
  | succ n =>
    rw [List.replicate_succ, Located.ofTokens, List.map_append, List.map_cons]
    exact all_append_end _ _ _ rfl

namespace Lexer

/-! ### Calls and answers -/

/-- What a lexer can be asked for: the next token, the next one in front of the end of input, all
    that are left in front of it, and whether the end of input has been read. -/
inductive Call where | nextToken | next | remaining | isDone
  deriving DecidableEq

/-- What a lexer answers. -/
inductive Answer where
  | one (found : Except Failure Token)
  | many (found : Except Failure (List Token))
  | done (isDone : Bool)

/-- The tokens that an answer gives. The end of input is none of them. -/
def Answer.given : Answer → List Token
  | .one (.ok .endOfInput) => []
  | .one (.ok t) => [t]
  | .many (.ok ts) => ts
  | .one (.error _) | .many (.error _) | .done _ => []

/-- The call that was answered has come to the end. -/
def Answer.endReached : Answer → Bool
  | .one (.ok .endOfInput) | .one (.error .exhausted) | .many (.ok _) => true
  | .one (.ok _) | .one (.error (.tooLong _)) | .many (.error _) | .done _ => false

/-- The answer to a call and the lexer behind it. -/
def answer (l : Lexer) : Call → Answer × Lexer
  | .nextToken => (.one l.nextToken.1, l.nextToken.2)
  | .next => (.one l.next.1, l.next.2)
  | .remaining => (.many l.remaining.1, l.remaining.2)
  | .isDone => (.done l.isDone, l)

/-- The answers to calls that are made one after the other, and the lexer behind the last of
    them. -/
def answers (l : Lexer) : List Call → List Answer × Lexer
  | [] => ([], l)
  | c :: cs =>
    let following := (l.answer c).2.answers cs
    ((l.answer c).1 :: following.1, following.2)

/-- What an assembler finds when it takes `n` lexemes from a lexer, one after the other: the next
    token in front of the end of input, or else the end of input. -/
def supply : Nat → Lexer → List Located
  | 0, _ => []
  | n + 1, l =>
    let lexeme := match l.next.1 with
      | .ok t => Lexeme.token t
      | .error .exhausted => .token .endOfInput
      | .error (.tooLong digits) => .tooLong digits
    { lexeme } :: supply n l.next.2

/-! ### The tokens that are left -/

/-- The lexer has the tokens to give, and behind them the end of input. -/
inductive HasLeft : Lexer → List Token → Prop where
  | ended : HasLeft .ended []
  | used : HasLeft (.reading []) []
  | token {t : Token} {rest : List Located} {ts : List Token} (position : Option Nat)
      (no_end : t ≠ .endOfInput) (h : HasLeft (.reading rest) ts) :
    HasLeft (.reading (⟨.token t, position⟩ :: rest)) (t :: ts)

theorem hasLeft_of_spell {xs : List Located} {ts : List Token} (spelled : Located.Spell xs ts)
    (no_end : Token.endOfInput ∉ ts) : HasLeft (.reading xs) ts := by
  induction ts generalizing xs with
  | nil =>
    obtain rfl := Located.spell_nil.1 spelled
    exact .used
  | cons t ts ih =>
    obtain ⟨⟨_, position⟩, rest, rfl, rfl, rest_spelled⟩ := Located.spell_cons.1 spelled
    obtain ⟨first, others⟩ := not_or.1 (mt List.mem_cons.2 no_end)
    exact .token position (Ne.symm first) (ih rest_spelled others)

/-- The calls give some tokens from the front of `ts`, in their order, and leave the others; the
    lexer is done if it was done before or one of them has come to the end. -/
def Passes (l : Lexer) (ts : List Token) (as : List Answer) (l' : Lexer) : Prop :=
  ∃ rest, ts = as.flatMap Answer.given ++ rest ∧ HasLeft l' rest ∧
    l'.isDone = (l.isDone || as.any Answer.endReached)

namespace HasLeft

variable {l : Lexer} {t : Token} {ts : List Token}

theorem spell (h : HasLeft l ts) : Located.Spell l.pending ts := by
  induction h with
  | ended | used => rfl
  | token _ _ _ ih => exact congrArg (_ :: ·) ih

/-- If no token is left, there is only the end of input. -/
theorem at_end (h : HasLeft l []) :
    l.nextToken = (.ok .endOfInput, .ended) ∧ l.next = (.error .exhausted, .ended) := by
  cases h with
  | ended | used => exact ⟨rfl, rfl⟩

/-- The first of the tokens that are left is the next one, in whichever way it is asked for, and
    the others are left behind it. -/
theorem exists_rest (h : HasLeft l (t :: ts)) : t ≠ .endOfInput ∧ l.isDone = false ∧
    ∃ l', l.nextToken = (.ok t, l') ∧ l.next = (.ok t, l') ∧ HasLeft l' ts ∧ l'.isDone = false := by
  cases h with
  | @token _ rest _ position no_end h =>
    refine ⟨no_end, rfl, .reading rest, rfl, ?_, h, rfl⟩
    cases t with
    | endOfInput => exact absurd rfl no_end
    | operator _ | register _ | integer _ => rfl

theorem nextToken_eq (h : HasLeft l ts) : l.nextToken.1 = .ok (ts.head?.getD .endOfInput) := by
  cases ts with
  | nil => rw [h.at_end.1]; rfl
  | cons t ts =>
    obtain ⟨-, -, l', read, -⟩ := h.exists_rest
    rw [read]; rfl

theorem next_eq (h : HasLeft l ts) : l.next.1 = ts.head?.elim (.error .exhausted) .ok := by
  cases ts with
  | nil => rw [h.at_end.2]; rfl
  | cons t ts =>
    obtain ⟨-, -, l', -, read, -⟩ := h.exists_rest
    rw [read]; rfl

theorem remaining_eq (h : HasLeft l ts) : l.remaining = (.ok ts, .ended) := by
  have read := Located.tokens_eq_ok_iff.2 h.spell
  cases h with
  | ended => rfl
  | used | token _ _ _ =>
    rw [pending] at read
    rw [remaining, read]

/-! ### One call and many calls -/

theorem passes_one (h : HasLeft l ts) : Passes l ts [.one l.nextToken.1] l.nextToken.2 ∧
    Passes l ts [.one l.next.1] l.next.2 := by
  cases ts with
  | nil =>
    rw [h.at_end.1, h.at_end.2]
    exact ⟨⟨[], rfl, .ended, (Bool.or_true _).symm⟩, ⟨[], rfl, .ended, (Bool.or_true _).symm⟩⟩
  | cons t ts =>
    obtain ⟨no_end, not_done, l', read, read', rest, goes_on⟩ := h.exists_rest
    have passes : Passes l (t :: ts) [.one (.ok t)] l' := by
      refine ⟨ts, ?_, rest, ?_⟩
      · simp [Answer.given]
      · simp [Answer.endReached, not_done, goes_on]
    rw [read, read']
    exact ⟨passes, passes⟩

theorem passes_answer (h : HasLeft l ts) (c : Call) :
    Passes l ts [(l.answer c).1] (l.answer c).2 := by
  cases c with
  | nextToken => exact h.passes_one.1
  | next => exact h.passes_one.2
  | remaining =>
    rw [answer, h.remaining_eq]
    exact ⟨[], by simp [Answer.given], .ended, (Bool.or_true _).symm⟩
  | isDone => exact ⟨ts, rfl, h, (Bool.or_false _).symm⟩

theorem passes_answers {calls : List Call} {as : List Answer} {l' : Lexer} (h : HasLeft l ts)
    (answered : l.answers calls = (as, l')) : Passes l ts as l' := by
  induction calls generalizing l ts as with
  | nil =>
    cases answered
    exact ⟨ts, rfl, h, (Bool.or_false _).symm⟩
  | cons c calls ih =>
    rw [answers] at answered
    obtain ⟨rfl, rfl⟩ := Prod.mk.inj answered
    obtain ⟨middle, rfl, held, done_eq⟩ := h.passes_answer c
    -- the other calls go on with what the first one has left
    obtain ⟨rest, rfl, left, done_eq'⟩ := ih held rfl
    refine ⟨rest, ?_, left, ?_⟩
    · simp
    · simp [done_eq', done_eq, Bool.or_assoc]

/-! ### Going on with an assembler -/

theorem agrees_pending (h : HasLeft l ts) :
    (Assembly.all l.pending).Agrees (Assembly.all (Located.ofTokens ts)) := by
  refine Assembly.all_congr ?_
  rw [h.spell, Located.ofTokens, List.map_map]
  rfl

/-- The assembler is supplied with the tokens that are left, and then with the end of input as
    often as it asks. -/
theorem supply_eq (h : HasLeft l ts) (n : Nat) : l.supply n =
    Located.ofTokens (ts.take n ++ List.replicate (n - ts.length) .endOfInput) := by
  induction n generalizing l ts with
  | zero => simp [supply, Located.ofTokens]
  | succ n ih =>
    cases ts with
    | nil =>
      rw [supply, h.at_end.2, ih .ended]
      simp [Located.ofTokens, List.replicate_succ]
    | cons t ts =>
      obtain ⟨-, -, l', -, read, rest, -⟩ := h.exists_rest
      rw [supply, read, ih rest]
      simp [Located.ofTokens]

theorem agrees_supply (h : HasLeft l ts) {n : Nat} (enough : ts.length ≤ n) :
    (Assembly.all (l.supply n)).Agrees (Assembly.all (Located.ofTokens ts)) := by
  rw [h.supply_eq, List.take_of_length_le enough]
  exact Assembly.agrees_padded ts _

end HasLeft

/-- A lexer neither loses tokens nor repeats them: whatever calls have been made, each further call,
    and an assembler, goes on right behind the tokens that these have given. -/
theorem delivery_of_calls {text : String} (short : ¬ Text.HasLongNumber text.toList) :
    ∃ ts, Located.tokens (Located.ofText text) = .ok ts ∧ .endOfInput ∉ ts ∧
      ∀ (calls : List Call) (as : List Answer) (l : Lexer),
        (ofText text).answers calls = (as, l) →
        ∀ i, i = (as.flatMap Answer.given).length →
          as.flatMap Answer.given = ts.take i ∧
          l.nextToken.1 = .ok (ts[i]?.getD .endOfInput) ∧
          l.next.1 = ts[i]?.elim (.error .exhausted) .ok ∧
          l.remaining.1 = .ok (ts.drop i) ∧
          l.isDone = as.any Answer.endReached ∧
          (Assembly.all l.pending).Agrees
            (Assembly.all (Located.ofTokens (ts.drop i ++ [.endOfInput]))) ∧
          ∀ n, ts.length ≤ i + n → (Assembly.all (l.supply n)).Agrees
            (Assembly.all (Located.ofTokens (ts.drop i ++ [.endOfInput]))) := by
  obtain ⟨ts, read⟩ := Located.exists_tokens short
  have no_end := Located.endOfInput_not_mem read
  have held : HasLeft (ofText text) ts := hasLeft_of_spell (Located.tokens_eq_ok_iff.1 read) no_end
  refine ⟨ts, read, no_end, ?_⟩
  rintro calls as l answered i rfl
  obtain ⟨rest, rfl, left, done_eq⟩ := held.passes_answers answered
  generalize as.flatMap Answer.given = given
  have behind : (given ++ rest)[given.length]? = rest.head? := by
    rw [List.getElem?_append_right (Nat.le_refl _), Nat.sub_self, List.head?_eq_getElem?]
  have target := (Assembly.agrees_padded rest 1).symm
  rw [List.take_left, List.drop_left, behind]
  refine ⟨rfl, left.nextToken_eq, left.next_eq, congrArg Prod.fst left.remaining_eq, done_eq,
    left.agrees_pending.trans target, fun n reaches => ?_⟩
  have enough : rest.length ≤ n := by
    rw [List.length_append] at reaches
    omega
  exact (left.agrees_supply enough).trans target

/-- Calls of all kinds that go on behind the end, and an assembler that is handed over the lexer
    behind the first of them. -/
theorem delivery_of_calls_mixed :
    let text := "hlt jmp $3"
    let calls : List Call := [.next, .isDone, .nextToken, .remaining, .next, .nextToken, .isDone]
    let as : List Answer := [.one (.ok (.operator .hlt)), .done false, .one (.ok (.operator .jmp)),
      .many (.ok [.register 3]), .one (.error .exhausted), .one (.ok .endOfInput), .done true]
    let l : Lexer := .reading [⟨.token (.operator .jmp), some 4⟩, ⟨.token (.register 3), some 8⟩]
    ¬ Text.HasLongNumber text.toList ∧
      (ofText text).answers calls = (as, .ended) ∧ Lexer.ended.remaining.1 = .ok [] ∧
      Lexer.ended.isDone = as.any Answer.endReached ∧
      (ofText text).answers [.next] = ([.one (.ok (.operator .hlt))], l) ∧
      l.nextToken.1 = .ok (.operator .jmp) ∧ l.remaining.1 = .ok [.operator .jmp, .register 3] ∧
      (Assembly.all (l.supply 2)).Agrees
        (Assembly.all (Located.ofTokens [.operator .jmp, .register 3, .endOfInput])) := by
  intro text calls as l
  have short : ¬ Text.HasLongNumber text.toList := Text.not_hasLongNumber_of_length (by decide)
  have lexer_eq : ofText text = .reading (⟨.token (.operator .hlt), some 0⟩ :: l.pending) := by
    decide +kernel
  have all_calls : (ofText text).answers calls = (as, .ended) := by rw [lexer_eq]; rfl
  have first_call : (ofText text).answers [.next] = ([.one (.ok (.operator .hlt))], l) := by
    rw [lexer_eq]; rfl
  obtain ⟨ts, read, -, delivered⟩ := delivery_of_calls short
  obtain rfl : [.operator .hlt, .operator .jmp, .register 3] = ts := by
    refine Except.ok.inj (Eq.trans (Eq.symm ?_) read)
    exact Located.tokens_eq_ok_iff.2 (by rw [Located.Spell]; decide +kernel)
  obtain ⟨-, -, -, none_left, is_done, -⟩ := delivered calls as .ended all_calls 3 rfl
  obtain ⟨-, found, -, two_left, -, -, agrees⟩ := delivered _ _ l first_call 1 rfl
  exact ⟨short, all_calls, none_left, is_done, first_call, found, two_left, agrees 2 (by decide)⟩

end Lexer

end RegisterMachine
