import Mathlib.Data.List.Forall2
import RegisterMachine.Proofs.Dialogue
import RegisterMachine.Proofs.HexRows

/-! The two modes of a session. A line of assembly that is one instruction, and the row of the bytes
    of this instruction, do the same: the instruction is added and one step is made. Neither can be
    taken for a command, since commands begin with a colon, which begins no instruction and is no
    digit. Main statement (`modes_agree`): sessions in both modes, which start with the same machine
    and are given the same instructions, cannot be told apart. -/

namespace RegisterMachine

/-! ### Lines that are no commands -/

theorem Lexeme.ofChars_colon : ofChars [':'] = .token (.operator .illegal) := by decide +kernel

/-- A colon is read as a word of its own, which names no operation. -/
theorem Located.map_lexeme_of_colon {text : String} {cs : List Char} (h : text.toList = ':' :: cs) :
    (ofText text).map lexeme =
      .token (.operator .illegal) :: (Slice.pieces cs).map Lexeme.ofChars := by
  have alone : Slice.mayFollow ':' = fun _ => false := by
    rw [Slice.mayFollow, if_neg (by decide), if_neg (by decide)]
  have taken : cs.takeWhile (fun _ => false) = [] := by cases cs <;> rfl
  have dropped : cs.dropWhile (fun _ => false) = cs := by cases cs <;> rfl
  rw [map_lexeme_ofText, h, Slice.pieces_cons (by decide), alone, taken, dropped, List.map_cons,
    Lexeme.ofChars_colon]

theorem Assembly.head?_of_program {text : String} {is : List Instruction}
    (h : program text = .ok is) : text.toList.head? ≠ some ':' := by
  intro colon
  obtain ⟨cs, text_eq⟩ := List.head?_eq_some_iff.1 colon
  obtain ⟨ss, fit, -, spelled⟩ := exists_statements h
  rw [Located.Spell, Located.map_lexeme_of_colon text_eq] at spelled
  cases ss with
  | nil => cases spelled
  | cons s ss =>
    have op_eq : s.op = .illegal := by
      injection spelled with first
      injection first with first
      injection first with first
      exact first.symm
    exact (fit s (by simp)).1 op_eq

namespace Console

/-- A line that does not begin with a colon is code. -/
theorem ofLine_of_head? {line : String} (h : line.toList.head? ≠ some ':') :
    Command.ofLine line = .evaluate line := by
  have marked : ∀ name ∈ ":asm" :: silentWords, name.toList.head? = some ':' := by decide
  have no_command : word line ∉ ":asm" :: silentWords := by
    intro mem
    have head := marked _ mem
    rw [word, String.toList_ofList, List.head?_takeWhile, Option.filter_eq_some_iff] at head
    exact h head.1
  simp only [silentWords, List.mem_cons, List.mem_append, not_or] at no_command
  have asks := asks_ofLine line
  generalize Command.ofLine line = c at asks
  cases asks with
  | quit h => exact absurd h no_command.2.1.1
  | listing h _ => exact absurd h no_command.2.1.2
  | run h => exact absurd h no_command.2.2.1
  | queue h => exact absurd h no_command.1
  | evaluate _ _ => rfl

/-! ### One instruction -/

/-- The reply to an instruction: it is added, one step is made and its result is shown, and the
    session goes on. -/
structure Executes (s : Session) (i : Instruction) (reply : Reply) : Prop where
  mode : reply.session.mode = s.mode
  machine : reply.session.machine = (step (s.machine.append i.encode)).1
  echoed : reply.transcript.echoed = (step (s.machine.append i.encode)).2.echoed
  quits : reply.quits = false
  failure : reply.failure = none

/-- In this mode, the line stands for the instruction. -/
def StandsFor (mode : Mode) (line : String) (i : Instruction) : Prop :=
  ∀ s : Session, s.mode = mode → ∀ fuel, ∃ reply, handle? fuel s line = some reply ∧
    Executes s i reply

/-- The steps of a single instruction are one step. -/
theorem steps_one (m : Machine) : steps 1 m = step m := by
  rw [steps_succ]
  split
  · rfl
  · have nothing_more : (step m).2 ++ (steps 0 (step m).1).2 = (step m).2 :=
      congrArg₂ Transcript.mk (List.append_nil _) (List.append_nil _)
    rw [nothing_more]
    rfl

theorem standsFor_assembly {line : String} {i : Instruction}
    (h : Assembly.program line = .ok [i]) : StandsFor .assembly line i := by
  intro s assembly fuel
  have code_eq : Instruction.encodeAll [i] = i.encode := List.append_nil _
  rw [handle?, ofLine_of_head? (Assembly.head?_of_program h), perform?, evaluate]
  simp only [assembly]
  rw [evaluateAssembly, load]
  simp only [h, List.length_singleton, steps_one, Machine.appendInstructions, code_eq]
  exact ⟨_, rfl, assembly.symm, rfl, rfl, rfl, rfl⟩

theorem standsFor_hexRow (i : Instruction) : StandsFor .hex (Text.hexRow i.encode) i := by
  intro s hex fuel
  have no_colon : (Text.hexRow i.encode).toList.head? ≠ some ':' := fun colon =>
    (HexLine.mem_hexRow (List.mem_of_head? colon)).2 rfl
  rw [handle?, ofLine_of_head? no_colon, perform?, evaluate]
  simp only [hex]
  rw [evaluateHex, HexLine.bytes_hexRow]
  exact ⟨_, rfl, hex.symm, rfl, rfl, rfl, rfl⟩

/-! ### Rows of instructions -/

/-- What is seen of a reply: the machine, the lines that are shown, and whether the session ends. -/
def Reply.seen (reply : Reply) : Machine × List String × Bool :=
  (reply.session.machine, reply.transcript.echoed, reply.quits)

/-- What is seen when instructions are given to a machine one after the other. -/
def sights (m : Machine) : List Instruction → List (Machine × List String × Bool)
  | [] => []
  | i :: is =>
    let (m', shown) := step (m.append i.encode)
    (m', shown.echoed, false) :: sights m' is

theorem goes_on_of_mem_sights {m : Machine} {is : List Instruction}
    {sight : Machine × List String × Bool} (h : sight ∈ sights m is) : sight.2.2 = false := by
  induction is generalizing m with
  | nil => cases h
  | cons i is ih =>
    rcases List.mem_cons.1 h with rfl | h
    · rfl
    · exact ih h

theorem Executes.seen_eq {s : Session} {i : Instruction} {reply : Reply} (h : Executes s i reply)
    (is : List Instruction) :
    sights s.machine (i :: is) = reply.seen :: sights reply.session.machine is := by
  rw [sights, Reply.seen, h.machine, h.echoed, h.quits]

/-- Lines that stand for instructions are all handled, and what is seen is told by the instructions
    and the machine alone. -/
theorem exists_dialogue_of_standsFor {s : Session} {lines : List String} {is : List Instruction}
    (h : List.Forall₂ (StandsFor s.mode) lines is) :
    ∃ replies last, Dialogue s lines replies last ∧
      replies.map Reply.seen = sights s.machine is := by
  generalize mode_eq : s.mode = mode at h
  induction h generalizing s with
  | nil => exact ⟨[], s, .done s, rfl⟩
  | cons stands _ ih =>
    obtain ⟨reply, handled, executes⟩ := stands s mode_eq 0
    obtain ⟨replies, last, rest, seen⟩ := ih (executes.mode.trans mode_eq)
    refine ⟨reply :: replies, last, .say ⟨0, handled⟩ executes.failure rest, ?_⟩
    rw [List.map_cons, seen, executes.seen_eq]

/-- The modes agree: lines of one instruction each and the rows of their bytes have the same effect
    and show the same, line by line. -/
theorem modes_agree {a b : Session} {lines : List String} {is : List Instruction}
    (assembly : a.mode = .assembly) (hex : b.mode = .hex) (same : a.machine = b.machine)
    (each : List.Forall₂ (fun line i => Assembly.program line = .ok [i]) lines is) :
    let rows := is.map fun i => Text.hexRow i.encode
    (∃ replies last, Dialogue a lines replies last) ∧
    (∃ replies last, Dialogue b rows replies last) ∧
    ∀ replies last replies' last', Dialogue a lines replies last → Dialogue b rows replies' last' →
      replies.map Reply.seen = replies'.map Reply.seen ∧
      ∀ reply ∈ replies ++ replies', reply.quits = false := by
  intro rows
  have in_assembly : List.Forall₂ (StandsFor a.mode) lines is := by
    rw [assembly]
    exact each.imp fun _ _ => standsFor_assembly
  have in_hex : List.Forall₂ (StandsFor b.mode) rows is := by
    rw [hex, List.forall₂_map_left_iff, List.forall₂_same]
    exact fun i _ => standsFor_hexRow i
  obtain ⟨replies, last, dialogue, seen⟩ := exists_dialogue_of_standsFor in_assembly
  obtain ⟨replies', last', dialogue', seen'⟩ := exists_dialogue_of_standsFor in_hex
  refine ⟨⟨replies, last, dialogue⟩, ⟨replies', last', dialogue'⟩, ?_⟩
  intro answers _ answers' _ talk talk'
  obtain ⟨rfl, -⟩ := talk.unique dialogue
  obtain ⟨rfl, -⟩ := talk'.unique dialogue'
  rw [← same] at seen'
  refine ⟨seen.trans seen'.symm, fun reply mem => ?_⟩
  have sight : reply.seen ∈ sights a.machine is := by
    rcases List.mem_append.1 mem with mem | mem
    · rw [← seen]
      exact List.mem_map_of_mem mem
    · rw [← seen']
      exact List.mem_map_of_mem mem
  exact goes_on_of_mem_sights sight

/-- A load, a jump that leaves the program and a division, given to sessions with a history of their
    own and a machine that has stopped. -/
theorem modes_agree_jump :
    let m : Machine := { stop := some .halt, program := #[0, 0, 0, 0], pc := 4 }
    let a : Session := { mode := .assembly, machine := m }
    let b : Session := { mode := .hex, machine := m, history := [":h"] }
    let lines := ["load $1 #9", " jmp $1", "div $1 $0 $2"]
    let is : List Instruction :=
      [⟨.load, .integer 1 9⟩, ⟨.jmp, .unary 1⟩, ⟨.div, .binary 1 0 2⟩]
    List.Forall₂ (fun line i => Assembly.program line = .ok [i]) lines is ∧
    (is.map fun i => Text.hexRow i.encode) = ["01 01 00 09", "06 01 00 00", "05 01 00 02"] ∧
    ∃ replies last replies' last', Dialogue a lines replies last ∧
      Dialogue b ["01 01 00 09", "06 01 00 00", "05 01 00 02"] replies' last' ∧
      replies.map Reply.seen = replies'.map Reply.seen := by
  intro m a b lines is
  have each : List.Forall₂ (fun line i => Assembly.program line = .ok [i]) lines is := by
    refine .cons ?_ (.cons ?_ (.cons ?_ .nil))
    all_goals exact Assembly.program_eq_ok_iff.2 (by decide +kernel)
  have rows : (is.map fun i => Text.hexRow i.encode) =
      ["01 01 00 09", "06 01 00 00", "05 01 00 02"] := by decide +kernel
  have agree := modes_agree (a := a) (b := b) rfl rfl rfl each
  simp only [rows] at agree
  obtain ⟨⟨replies, last, talk⟩, ⟨replies', last', talk'⟩, same⟩ := agree
  exact ⟨each, rows, replies, last, replies', last', talk, talk', (same _ _ _ _ talk talk').1⟩

end Console

end RegisterMachine
