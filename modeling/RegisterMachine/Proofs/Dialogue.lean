import RegisterMachine.Proofs.FailStop
import RegisterMachine.Proofs.Loading
import RegisterMachine.Proofs.Refusal

/-! Sessions line by line. What a line adds to the program is told by the line and the mode alone
    (`contribution`), whatever the machine does with the program in between; a line that adds
    nothing, other than a run, leaves the machine as it was. A session that reads a text handles
    the lines of the text that are not blank, up to the first that ends it. Main statement
    (`session_accumulates`). -/

namespace RegisterMachine

namespace Machine

theorem step_program (m : Machine) : m.step.2.program = m.program := m.step_stepped.keeps.program

theorem StopsAfter.program {n : Nat} {m m' : Machine} (h : m.StopsAfter n m') :
    m'.program = m.program := by
  obtain ⟨last, on, stops⟩ := h
  have kept := last.step_program
  rw [stops] at kept
  exact kept.trans on.advances.program

end Machine

theorem Instruction.eq_nil_of_encodeAll {is : List Instruction} (h : encodeAll is = []) :
    is = [] := by
  cases is with
  | nil => rfl
  | cons i is =>
    have longer := congrArg List.length h
    simp [encodeAll, length_encode, size] at longer

namespace Console

/-! ### Lines -/

/-- The part of a line in front of its first space. -/
def word (line : String) : String := String.ofList (line.toList.takeWhile (· ≠ ' '))

/-- The part of a line behind its first space. -/
def argument (line : String) : String :=
  String.ofList ((line.toList.dropWhile (· ≠ ' ')).drop 1)

/-- The words that end a session. -/
def quitWords : List String := [":quit", ":q"]

/-- The words that show something. -/
def listingWords : List String := [":history", ":h", ":program", ":p", ":registers", ":r", ":heap"]

/-- The bytes of a text that can be assembled, and nothing for any other. -/
def assembled (text : String) : List UInt8 := (Assembly.bytes text).toOption.getD []

/-- The words of the lines that hold no code. -/
def silentWords : List String := quitWords ++ listingWords ++ [":run"]

/-- What a line adds to the program. -/
def contribution (mode : Mode) (line : String) : List UInt8 :=
  if word line ∈ silentWords then []
  else if word line = ":asm" then assembled (argument line)
  else
    match mode with
    | .assembly => assembled line
    | .hex => HexLine.bytes line

/-- What a line asks for, told by its words. -/
inductive Asks (line : String) : Command → Prop where
  | quit (h : word line ∈ quitWords) : Asks line .quit
  | listing {c : Command} (h : word line ∈ listingWords)
      (shows : c = .history ∨ c = .program ∨ c = .registers ∨ c = .heap) : Asks line c
  | run (h : word line = ":run") : Asks line .run
  | queue (h : word line = ":asm") : Asks line (.queue (argument line))
  | evaluate (code : word line ∉ silentWords) (no_asm : word line ≠ ":asm") :
    Asks line (.evaluate line)

theorem asks_ofLine (line : String) : Asks line (Command.ofLine line) := by
  rw [Command.ofLine.eq_def]
  dsimp only
  rw [← word, ← argument]
  split
  · exact .quit (by simp [quitWords, *])
  · exact .quit (by simp [quitWords, *])
  · exact .listing (by simp [listingWords, *]) (.inl rfl)
  · exact .listing (by simp [listingWords, *]) (.inl rfl)
  · exact .listing (by simp [listingWords, *]) (.inr (.inl rfl))
  · exact .listing (by simp [listingWords, *]) (.inr (.inl rfl))
  · exact .listing (by simp [listingWords, *]) (.inr (.inr (.inl rfl)))
  · exact .listing (by simp [listingWords, *]) (.inr (.inr (.inl rfl)))
  · exact .listing (by simp [listingWords, *]) (.inr (.inr (.inr rfl)))
  · exact .run ‹_›
  · exact .queue ‹_›
  · refine .evaluate ?_ ‹_›
    simp only [silentWords, quitWords, listingWords, List.cons_append, List.nil_append,
      List.mem_cons, List.not_mem_nil, or_false, not_or]
    and_intros <;> assumption

theorem ofLine_of_run {line : String} (h : word line = ":run") : Command.ofLine line = .run := by
  rw [word] at h
  simp only [Command.ofLine, h]

/-! ### Code -/

/-- A text that can be assembled is added, and any other leaves the program as it is. -/
theorem load_cases (m : Machine) (text : String) :
    (∃ is, assembled text = Instruction.encodeAll is ∧
      load m text = .added (m.append (assembled text)) is.length) ∨
    (assembled text = [] ∧ ∃ e, load m text = .refused e) ∨
    (assembled text = [] ∧ Text.HasLongNumber text.toList ∧ ∃ e, load m text = .failed e) := by
  cases read : Assembly.program text with
  | ok is =>
    have bytes_eq : assembled text = Instruction.encodeAll is := by
      rw [assembled, Assembly.bytes, read]
      rfl
    refine .inl ⟨is, bytes_eq, ?_⟩
    rw [load, read, bytes_eq]
    rfl
  | error e =>
    have nothing : assembled text = [] := by
      rw [assembled, Assembly.bytes, read]
      rfl
    right
    cases e with
    | refused refusal => exact .inl ⟨nothing, refusal, by rw [load, read]⟩
    | unencodable | tooLong _ =>
      refine .inr ⟨nothing, Classical.byContradiction fun short => ?_, _, by rw [load, read]⟩
      obtain ⟨_, ⟨⟩⟩ := Assembly.exists_refusal short read

theorem steps_succ (n : Nat) (m : Machine) : steps (n + 1) m =
    if (step m).1.stop.isSome then step m
    else ((steps n (step m).1).1, (step m).2 ++ (steps n (step m).1).2) := rfl

theorem steps_program (n : Nat) (m : Machine) : (steps n m).1.program = m.program := by
  induction n generalizing m with
  | zero => rfl
  | succ n ih =>
    rw [steps_succ]
    split
    · exact m.step_program
    · exact (ih _).trans m.step_program

/-- The reply to a line of code: the bytes are in the program, without any the machine is as before,
    and only a text with a number that is too long breaks the session off. -/
structure Adds (s : Session) (code : List UInt8) (text : String) (reply : Reply) : Prop where
  mode : reply.session.mode = s.mode
  history : reply.session.history = s.history
  program : reply.session.machine.program.toList = s.machine.program.toList ++ code
  idle : code = [] → reply.session.machine = s.machine
  quits : reply.quits = false
  failure : reply.failure ≠ none → Text.HasLongNumber text.toList

/-- A reply that leaves the session as it is adds nothing. -/
theorem adds_nothing {s : Session} {code : List UInt8} {text : String} {reply : Reply}
    (same : reply.session = s) (nothing : code = []) (quits : reply.quits = false)
    (failure : reply.failure ≠ none → Text.HasLongNumber text.toList) : Adds s code text reply where
  mode := by rw [same]
  history := by rw [same]
  program := by rw [same, nothing, List.append_nil]
  idle _ := by rw [same]
  quits := quits
  failure := failure

theorem adds_queue (s : Session) (text : String) : Adds s (assembled text) text (queue s text) := by
  rcases load_cases s.machine text with ⟨is, -, h⟩ | ⟨nothing, e, h⟩ | ⟨nothing, long, e, h⟩
  · rw [queue, h]
    refine ⟨rfl, rfl, s.machine.append_program_toList _, fun nothing => ?_, rfl, nofun⟩
    rw [nothing]
    exact s.machine.append_nil
  · rw [queue, h]
    exact adds_nothing rfl nothing rfl nofun
  · rw [queue, h]
    exact adds_nothing rfl nothing rfl fun _ => long

theorem adds_evaluateAssembly (s : Session) (line : String) :
    Adds s (assembled line) line (evaluateAssembly s line) := by
  rcases load_cases s.machine line with
    ⟨is, bytes_eq, h⟩ | ⟨nothing, e, h⟩ | ⟨nothing, long, e, h⟩
  · rw [evaluateAssembly, h]
    refine ⟨rfl, rfl, ?_, fun nothing => ?_, rfl, nofun⟩
    · have kept := steps_program is.length (s.machine.append (assembled line))
      exact (congrArg Array.toList kept).trans (s.machine.append_program_toList _)
    · -- without bytes there are no instructions, and no steps are made
      rw [nothing] at bytes_eq ⊢
      obtain rfl := Instruction.eq_nil_of_encodeAll bytes_eq.symm
      exact s.machine.append_nil
  · rw [evaluateAssembly, h]
    exact adds_nothing rfl nothing rfl nofun
  · rw [evaluateAssembly, h]
    exact adds_nothing rfl nothing rfl fun _ => long

theorem adds_evaluateHex (s : Session) (line : String) :
    Adds s (HexLine.bytes line) line (evaluateHex s line) := by
  rw [evaluateHex]
  cases read : HexLine.bytes line with
  | nil => exact adds_nothing rfl rfl rfl nofun
  | cons b code =>
    refine ⟨rfl, rfl, ?_, nofun, rfl, nofun⟩
    have kept := (s.machine.append (b :: code)).step_program
    exact (congrArg Array.toList kept).trans (s.machine.append_program_toList _)

/-! ### Handling a line -/

/-- What has become of a line: it is in the history, its contribution is in the program, and if
    there was none and the line was no run, the machine is as before. -/
structure Heeded (s : Session) (line : String) (reply : Reply) : Prop where
  mode : reply.session.mode = s.mode
  history : reply.session.history = s.history ++ [line]
  program : reply.session.machine.program.toList =
    s.machine.program.toList ++ contribution s.mode line
  idle : word line ≠ ":run" → contribution s.mode line = [] → reply.session.machine = s.machine
  quits : reply.quits = true ↔ word line ∈ quitWords
  failure : reply.failure ≠ none → Text.HasLongNumber line.toList

theorem contribution_of_silent {line : String} (h : word line ∈ silentWords) (mode : Mode) :
    contribution mode line = [] := if_pos h

theorem not_mem_quitWords {name : String} (h : name ∈ listingWords) : name ∉ quitWords :=
  (by decide : ∀ name ∈ listingWords, name ∉ quitWords) name h

/-- Code that a line brings is its contribution. -/
theorem Adds.heeded {s : Session} {line text : String} {reply : Reply}
    (h : Adds { s with history := s.history ++ [line] } (contribution s.mode line) text reply)
    (no_quit : word line ∉ quitWords) (inside : text.toList <:+: line.toList) :
    Heeded s line reply where
  mode := h.mode
  history := h.history
  program := h.program
  idle _ := h.idle
  quits := by simp [h.quits, no_quit]
  failure failed := (h.failure failed).mono inside

theorem argument_within (line : String) : (argument line).toList <:+: line.toList := by
  rw [argument, String.toList_ofList]
  exact ((List.drop_suffix _ _).trans (List.dropWhile_suffix _)).isInfix

theorem heeded_of_handle? {fuel : Nat} {s : Session} {line : String} {reply : Reply}
    (h : handle? fuel s line = some reply) : Heeded s line reply := by
  have asks := asks_ofLine line
  rw [handle?] at h
  generalize Command.ofLine line = c at h asks
  cases asks with
  | quit silent =>
    cases h
    have nothing : contribution s.mode line = [] :=
      contribution_of_silent (by simp [silentWords, silent]) _
    exact ⟨rfl, rfl, by simp [nothing], fun _ _ => rfl, by simp [silent], nofun⟩
  | listing silent shows =>
    have nothing : contribution s.mode line = [] :=
      contribution_of_silent (by simp [silentWords, silent]) _
    have no_quit : word line ∉ quitWords := not_mem_quitWords silent
    refine Adds.heeded ?_ no_quit (List.infix_refl line.toList)
    rcases shows with rfl | rfl | rfl | rfl <;> cases h <;> exact adds_nothing rfl nothing rfl nofun
  | run is_run =>
    obtain ⟨r, ran, rfl⟩ := Option.map_eq_some_iff.1 h
    obtain ⟨n, -, stops⟩ := Machine.run?_eq_some_iff.1 ran
    have nothing : contribution s.mode line = [] :=
      contribution_of_silent (by simp [silentWords, is_run]) _
    refine ⟨rfl, rfl, ?_, fun no_run => absurd is_run no_run, by simp [is_run, quitWords], nofun⟩
    rw [nothing, List.append_nil]
    exact congrArg Array.toList stops.program
  | queue is_asm =>
    cases h
    have code_eq : contribution s.mode line = assembled (argument line) := by
      simp only [contribution]
      rw [if_neg (by rw [is_asm]; decide), if_pos is_asm]
    refine Adds.heeded ?_ (by simp [is_asm, quitWords]) (argument_within line)
    rw [code_eq]
    exact adds_queue _ _
  | evaluate code no_asm =>
    cases h
    have no_quit : word line ∉ quitWords := fun quits => code (by simp [silentWords, quits])
    refine Adds.heeded ?_ no_quit (List.infix_refl line.toList)
    simp only [contribution, evaluate]
    rw [if_neg code, if_neg no_asm]
    cases s.mode with
    | assembly => exact adds_evaluateAssembly _ line
    | hex => exact adds_evaluateHex _ line

theorem perform?_mono {fuel more : Nat} {s : Session} {c : Command} {reply : Reply}
    (h : perform? fuel s c = some reply) (enough : fuel ≤ more) :
    perform? more s c = some reply := by
  cases c with
  | run =>
    obtain ⟨r, ran, rfl⟩ := Option.map_eq_some_iff.1 h
    rw [perform?, Machine.run?_mono ran enough]
    rfl
  | quit | history | program | registers | heap | queue _ | evaluate _ => exact h

/-- A line has one reply at most. -/
theorem handled_unique {s : Session} {line : String} {reply reply' : Reply}
    (h : ∃ fuel, handle? fuel s line = some reply)
    (h' : ∃ fuel, handle? fuel s line = some reply') : reply = reply' := by
  obtain ⟨fuel, handled⟩ := h
  obtain ⟨fuel', handled'⟩ := h'
  have first := perform?_mono handled (Nat.le_max_left fuel fuel')
  have second := perform?_mono handled' (Nat.le_max_right fuel fuel')
  exact Option.some.inj (first.symm.trans second)

/-- Every line but a run is answered at once. -/
theorem exists_handle? (fuel : Nat) (s : Session) {line : String} (no_run : word line ≠ ":run") :
    ∃ reply, handle? fuel s line = some reply := by
  have asks := asks_ofLine line
  rw [handle?]
  generalize Command.ofLine line = c at asks
  cases asks with
  | quit _ => exact ⟨_, rfl⟩
  | listing _ shows => rcases shows with rfl | rfl | rfl | rfl <;> exact ⟨_, rfl⟩
  | run is_run => exact absurd is_run no_run
  | queue _ => exact ⟨_, rfl⟩
  | evaluate _ _ => exact ⟨_, rfl⟩

/-- A run is answered if it stops. -/
theorem exists_handle?_of_stops {s : Session} {line : String}
    (stops : word line = ":run" → ∃ r, s.machine.Runs none r) :
    ∃ fuel reply, handle? fuel s line = some reply := by
  by_cases is_run : word line = ":run"
  · obtain ⟨r, fuel, ran⟩ := stops is_run
    have found : s.machine.run? fuel = some r := ran
    refine ⟨fuel, ?_⟩
    rw [handle?, ofLine_of_run is_run, perform?, found]
    exact ⟨_, rfl⟩
  · obtain ⟨reply, handled⟩ := exists_handle? 0 s is_run
    exact ⟨0, reply, handled⟩

/-! ### Handling lines -/

/-- Lines handled one after the other, with the reply to each: all are answered, and none breaks the
    session off. -/
inductive Dialogue : Session → List String → List Reply → Session → Prop where
  | done (s : Session) : Dialogue s [] [] s
  | say {s last : Session} {line : String} {lines : List String} {reply : Reply}
      {replies : List Reply} (handled : ∃ fuel, handle? fuel s line = some reply)
      (unbroken : reply.failure = none) (rest : Dialogue reply.session lines replies last) :
    Dialogue s (line :: lines) (reply :: replies) last

/-- The history and the program grow by the lines and their contributions. -/
theorem Dialogue.accumulates {s last : Session} {lines : List String} {replies : List Reply}
    (h : Dialogue s lines replies last) :
    last.history = s.history ++ lines ∧
    last.machine.program.toList =
      s.machine.program.toList ++ lines.flatMap (contribution s.mode) := by
  induction h with
  | done s => simp
  | say handled _ _ ih =>
    obtain ⟨fuel, handled⟩ := handled
    have heeded := heeded_of_handle? handled
    rw [heeded.mode, heeded.history, heeded.program] at ih
    simpa using ih

/-- Lines have one row of replies at most. -/
theorem Dialogue.unique {s last last' : Session} {lines : List String}
    {replies replies' : List Reply} (h : Dialogue s lines replies last)
    (h' : Dialogue s lines replies' last') : replies = replies' ∧ last = last' := by
  induction h generalizing replies' with
  | done s =>
    cases h'
    exact ⟨rfl, rfl⟩
  | say handled _ _ ih =>
    obtain _ | ⟨handled', _, rest'⟩ := h'
    obtain rfl := handled_unique handled handled'
    obtain ⟨rfl, rfl⟩ := ih rest'
    exact ⟨rfl, rfl⟩

/-- Every run that a line asks for stops, when the lines in front of it have been handled. -/
def RunsStop (s : Session) (lines : List String) : Prop :=
  ∀ before line behind replies mid, before ++ line :: behind = lines →
    Dialogue s before replies mid → word line = ":run" → ∃ r, mid.machine.Runs none r

theorem RunsStop.tail {s : Session} {line : String} {lines : List String} {reply : Reply}
    (h : RunsStop s (line :: lines)) (handled : ∃ fuel, handle? fuel s line = some reply)
    (unbroken : reply.failure = none) : RunsStop reply.session lines := by
  intro before next behind replies mid split spoken
  exact h (line :: before) next behind (reply :: replies) mid (by rw [List.cons_append, split])
    (.say handled unbroken spoken)

/-- Lines without numbers that are too long can all be handled, if their runs stop. -/
theorem RunsStop.exists_dialogue {s : Session} {lines : List String} (h : RunsStop s lines)
    (short : ∀ line ∈ lines, ¬ Text.HasLongNumber line.toList) :
    ∃ replies last, Dialogue s lines replies last := by
  induction lines generalizing s with
  | nil => exact ⟨[], s, .done s⟩
  | cons line lines ih =>
    obtain ⟨fuel, reply, handled⟩ :=
      exists_handle?_of_stops (h [] line lines [] s rfl (.done s))
    have unbroken : reply.failure = none := Classical.byContradiction fun broken =>
      short line (by simp) ((heeded_of_handle? handled).failure broken)
    obtain ⟨replies, last, rest⟩ :=
      ih (h.tail ⟨fuel, handled⟩ unbroken) fun l hl => short l (by simp [hl])
    exact ⟨reply :: replies, last, .say ⟨fuel, handled⟩ unbroken rest⟩

/-! ### Reading lines -/

/-- The lines that are not blank, without the white space around them. -/
def spoken (raws : List String) : List String := (raws.map Text.strip).filter (· ≠ "")

theorem spoken_blank {raw : String} (h : Text.strip raw = "") (raws : List String) :
    spoken (raw :: raws) = spoken raws := by simp [spoken, h]

theorem spoken_line {raw : String} (h : Text.strip raw ≠ "") (raws : List String) :
    spoken (raw :: raws) = Text.strip raw :: spoken raws := by simp [spoken, h]

/-- The lines up to the first that ends a session, and this one. -/
def upToQuit : List String → List String
  | [] => []
  | line :: lines => if word line ∈ quitWords then [line] else line :: upToQuit lines

theorem loop?_blank {raw : String} (h : Text.strip raw = "") (fuel : Nat) (s : Session)
    (raws : List String) :
    loop? fuel s (raw :: raws) = (loop? fuel s raws).map (Ending.after prompt []) :=
  if_pos h

theorem loop?_line {raw : String} (h : Text.strip raw ≠ "") (fuel : Nat) (s : Session)
    (raws : List String) :
    loop? fuel s (raw :: raws) = (handle? fuel s (Text.strip raw)).bind fun reply =>
      if reply.quits || reply.failure.isSome then
        some { session := reply.session, screen := prompt ++ reply.transcript.screen,
               log := reply.transcript.log, failure := reply.failure }
      else (loop? fuel reply.session raws).map
        (Ending.after (prompt ++ reply.transcript.screen) reply.transcript.log) := by
  refine (if_neg h).trans ?_
  simp only [Option.bind_eq_bind, Option.pure_def, Option.map_eq_bind, Function.comp_def]

/-- A line that was handled is the last one if its word says so. -/
theorem loop?_of_handled {fuel : Nat} {s : Session} {raw : String} {reply : Reply}
    (plain : Text.strip raw ≠ "") (handled : handle? fuel s (Text.strip raw) = some reply)
    (unbroken : reply.failure = none) (raws : List String) :
    loop? fuel s (raw :: raws) =
      if word (Text.strip raw) ∈ quitWords then
        some { session := reply.session, screen := prompt ++ reply.transcript.screen,
               log := reply.transcript.log }
      else (loop? fuel reply.session raws).map
        (Ending.after (prompt ++ reply.transcript.screen) reply.transcript.log) := by
  rw [loop?_line plain, handled, Option.bind_some, unbroken]
  simp only [Option.isSome_none, Bool.or_false, (heeded_of_handle? handled).quits]

/-- How a session that reads lines can end: all lines up to the end of it are handled, or one with a
    number that is too long breaks it off and those behind it are not. -/
theorem loop?_cases {fuel : Nat} {s : Session} {raws : List String} {ending : Ending}
    (h : loop? fuel s raws = some ending) :
    (ending.failure = none ∧
      ∃ replies, Dialogue s (upToQuit (spoken raws)) replies ending.session) ∨
    (ending.failure ≠ none ∧ ∃ handled, handled <+: upToQuit (spoken raws) ∧
      ending.session.history = s.history ++ handled ∧
      ∃ line ∈ handled, Text.HasLongNumber line.toList) := by
  induction raws generalizing s ending with
  | nil =>
    cases h
    exact .inl ⟨rfl, [], .done s⟩
  | cons raw raws ih =>
    by_cases blank : Text.strip raw = ""
    · rw [loop?_blank blank] at h
      obtain ⟨e, he, rfl⟩ := Option.map_eq_some_iff.1 h
      rw [spoken_blank blank]
      have rest := ih he
      exact rest
    · have first := h
      rw [loop?_line blank] at first
      obtain ⟨reply, handled, first⟩ := Option.bind_eq_some_iff.1 first
      have heeded := heeded_of_handle? handled
      rw [spoken_line blank, upToQuit]
      cases broken : reply.failure with
      | some e =>
        -- the line is in the history, but none behind it
        simp only [broken, Option.isSome_some, Bool.or_true, if_true] at first
        cases first
        refine .inr ⟨nofun, [Text.strip raw], ?_, heeded.history, Text.strip raw, by simp,
          heeded.failure (by simp [broken])⟩
        split
        · exact List.prefix_rfl
        · exact List.prefix_append [_] _
      | none =>
        -- the same test, on the word of the line, ends the session and cuts off the lines
        rw [loop?_of_handled blank handled broken] at h
        split at h
        · next quits =>
          cases h
          rw [if_pos quits]
          exact .inl ⟨rfl, [reply], .say ⟨fuel, handled⟩ broken (.done _)⟩
        · next goes_on =>
          obtain ⟨e, he, rfl⟩ := Option.map_eq_some_iff.1 h
          rw [if_neg goes_on]
          rcases ih he with ⟨whole, replies, rest⟩ | ⟨failed, lines, pre, history, line, mem, long⟩
          · exact .inl ⟨whole, reply :: replies, .say ⟨fuel, handled⟩ broken rest⟩
          · refine .inr ⟨failed, Text.strip raw :: lines, List.cons_prefix_cons.2 ⟨rfl, pre⟩, ?_,
              line, List.mem_cons_of_mem _ mem, long⟩
            rw [heeded.history, List.append_assoc] at history
            exact history

/-- A session that reads lines comes to the end that handling them comes to. -/
theorem Dialogue.exists_loop? {s last : Session} {raws : List String} {replies : List Reply}
    (h : Dialogue s (upToQuit (spoken raws)) replies last) :
    ∃ fuel, ∀ more, fuel ≤ more → ∃ ending, loop? more s raws = some ending ∧
      ending.failure = none ∧ ending.session = last := by
  induction raws generalizing s replies with
  | nil =>
    cases h
    exact ⟨0, fun _ _ => ⟨_, rfl, rfl, rfl⟩⟩
  | cons raw raws ih =>
    by_cases blank : Text.strip raw = ""
    · rw [spoken_blank blank] at h
      obtain ⟨fuel, ends⟩ := ih h
      refine ⟨fuel, fun more enough => ?_⟩
      obtain ⟨ending, looped, whole⟩ := ends more enough
      rw [loop?_blank blank, looped]
      exact ⟨_, rfl, whole⟩
    · rw [spoken_line blank, upToQuit] at h
      split at h
      · next quits =>
        obtain _ | ⟨⟨first, handled⟩, unbroken, rest⟩ := h
        cases rest
        refine ⟨first, fun more enough => ?_⟩
        rw [loop?_of_handled blank (perform?_mono handled enough) unbroken, if_pos quits]
        exact ⟨_, rfl, rfl, rfl⟩
      · next goes_on =>
        obtain _ | ⟨⟨first, handled⟩, unbroken, rest⟩ := h
        obtain ⟨fuel, ends⟩ := ih rest
        -- fuel that is enough for this line and for all that follow
        refine ⟨max first fuel, fun more enough => ?_⟩
        obtain ⟨ending, looped, whole⟩ := ends more (by omega)
        rw [loop?_of_handled blank (perform?_mono handled (by omega)) unbroken, if_neg goes_on,
          looped]
        exact ⟨_, rfl, whole⟩

/-- Sessions accumulate exactly the accepted input: the history is the lines that were handled, and
    the program is what they have contributed. -/
theorem session_accumulates (s : Session) :
    (∀ lines, (∀ line ∈ lines, ¬ Text.HasLongNumber line.toList) → RunsStop s lines →
      ∃ replies last, Dialogue s lines replies last) ∧
    (∀ lines replies last, Dialogue s lines replies last →
      last.history = s.history ++ lines ∧
      last.machine.program.toList =
        s.machine.program.toList ++ lines.flatMap (contribution s.mode)) ∧
    (∀ fuel line, word line ≠ ":run" → contribution s.mode line = [] →
      ∃ reply, handle? fuel s line = some reply ∧ reply.session.machine = s.machine) ∧
    (∀ text,
      let lines := upToQuit (spoken ((Text.lines text.toList).map String.ofList))
      (∀ last, (∃ replies, Dialogue s lines replies last) ↔
        ∃ fuel ending, loopText? fuel s text = some ending ∧ ending.failure = none ∧
          ending.session = last) ∧
      ∀ fuel ending, loopText? fuel s text = some ending → ending.failure ≠ none →
        ∃ handled, handled <+: lines ∧ ending.session.history = s.history ++ handled ∧
          ∃ line ∈ handled, Text.HasLongNumber line.toList) := by
  refine ⟨fun lines short stops => stops.exists_dialogue short,
    fun lines replies last h => h.accumulates, fun fuel line no_run nothing => ?_,
    fun text => ⟨fun last => ⟨?_, ?_⟩, ?_⟩⟩
  · obtain ⟨reply, handled⟩ := exists_handle? fuel s no_run
    exact ⟨reply, handled, (heeded_of_handle? handled).idle no_run nothing⟩
  · rintro ⟨replies, h⟩
    obtain ⟨fuel, ends⟩ := h.exists_loop?
    exact ⟨fuel, ends fuel (Nat.le_refl fuel)⟩
  · rintro ⟨fuel, ending, looped, whole, rfl⟩
    rcases loop?_cases looped with ⟨-, dialogue⟩ | ⟨failed, -⟩
    · exact dialogue
    · exact absurd whole failed
  · intro fuel ending looped failed
    rcases loop?_cases looped with ⟨whole, -⟩ | ⟨-, broken⟩
    · exact absurd whole failed
    · exact broken

end Console

end RegisterMachine
