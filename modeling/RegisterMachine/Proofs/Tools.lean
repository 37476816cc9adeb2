import RegisterMachine.Proofs.HexRows
import RegisterMachine.Proofs.Loading
import RegisterMachine.Proofs.Refusal

/-! The assembler and the runner on one source. What the one prints is the program that the other
    runs: the rows on its output are read back as the bytes of the source, and the report of the
    runner is that of a machine to which these bytes were given. Main statement (`tools_agree`): a
    source that cannot be assembled is refused by both with the same words and nothing on the
    output, and otherwise they agree on the program; the exit code of the runner tells how the run
    has stopped. -/

namespace RegisterMachine

/-- Instructions that are loaded group by group are loaded as one row of bytes. -/
theorem Machine.appendGroups_encode (is : List Instruction) (m : Machine) :
    m.appendGroups (is.map Instruction.encode) = (none, m.append (Instruction.encodeAll is)) := by
  induction is generalizing m with
  | nil => simp [appendGroups, append, Instruction.encodeAll]
  | cons i is ih =>
    rw [List.map_cons, appendGroups, if_pos i.length_encode, ih, append_append]
    rfl

namespace CommandLine

/-- What an exit code of the runner tells of the stop of its machine. The steps can only be used up
    if their number was limited. -/
inductive Tells (limit : Option Nat) : Option Stop → Nat → Prop where
  | halt : Tells limit (some .halt) 0
  | ended : Tells limit (some .ended) 0
  | illegal : Tells limit (some .illegal) 2
  | fault : Tells limit (some .fault) 3
  | stepLimit (given : limit ≠ none) : Tells limit (some .stepLimit) 4

theorem tells_exitCode {fuel : Nat} {limit : Option Nat} {m r : Machine}
    (h : m.runWithin? fuel limit = some r) : Tells limit r.stop (exitCode r.stop) := by
  have of_stops : ∀ {n}, m.StopsAfter n r → Tells limit r.stop (exitCode r.stop) := by
    intro n stops
    rcases stops.stop_cases with h | h | h | h <;> rw [h]
    · exact .halt
    · exact .illegal
    · exact .fault
    · exact .ended
  cases limit with
  | none =>
    obtain ⟨n, -, stops⟩ := Machine.run?_eq_some_iff.1 h
    exact of_stops stops
  | some limit =>
    obtain rfl : m.runFor limit = r := Option.some.inj h
    rcases Machine.runFor_cases limit m with ⟨n, -, stops⟩ | ⟨last, -, cut⟩
    · exact of_stops stops
    · rw [cut]
      exact .stepLimit nofun

theorem Tool.request_eq_ok {t : Tool} {args : List String} {r : Request}
    (h : (t.request args).toOption = some r) : t.request args = .ok r := by
  cases read : t.request args with
  | ok found =>
    rw [read] at h
    exact congrArg Except.ok (Option.some.inj h)
  | error e =>
    rw [read] at h
    cases h

/-- The assembler and the runner agree on every source: both refuse it in the same words, or the one
    prints the program that the other runs and reports on. -/
theorem tools_agree {args args' : List String} {verbose verbose' : Bool} {source : Option String}
    {limit : Option Nat} (input : String)
    (asked : Tool.assembler.request args = .ok (.assemble verbose source))
    (asked' : Tool.runner.request args' = .ok (.run verbose' limit source))
    (short : ¬ Text.HasLongNumber (sourceText source input).toList) :
    let text := sourceText source input
    let log := logLines (leastLevel verbose .info)
      (opening "REGVM ASM" source ++ Assembly.programLog text)
    let log' := fun result => logLines (leastLevel verbose' .info)
      (opening "REGVM" source ++ executionLog limit text result)
    (∀ e, Assembly.program text = .error e → ∃ refusal, e = .refused refusal ∧ ∀ fuel,
      Tool.assembler.call? fuel args input =
        some { exitCode := 1, out := "", err := log ++ refusal.message ++ "\n" } ∧
      Tool.runner.call? fuel args' input =
        some { exitCode := 1, out := "", err := log' (.error e) ++ refusal.message ++ "\n" }) ∧
    (∀ is, Assembly.program text = .ok is →
      let code := Instruction.encodeAll is
      (∃ out,
        (Text.lines out.toList).flatMap (fun row => HexLine.bytes (String.ofList row)) = code ∧
        ∀ fuel, Tool.assembler.call? fuel args input = some { exitCode := 0, out, err := log }) ∧
      Assembly.bytes text = .ok code ∧
      Machine.fresh.appendGroups (is.map Instruction.encode) = (none, Machine.fresh.append code) ∧
      ∀ fuel, executeText? fuel limit text = (execute? fuel limit code).map .ok ∧
        Tool.runner.call? fuel args' input = (execute? fuel limit code).map (fun m =>
          { exitCode := exitCode m.stop, out := textOfLines m.report, err := log' (.ok m) }) ∧
        ∀ m, execute? fuel limit code = some m → Tells limit m.stop (exitCode m.stop)) := by
  intro text log log'
  have called : ∀ fuel, Tool.assembler.call? fuel args input =
      some (callAssembler verbose source input) := by
    intro fuel
    rw [Tool.call?, asked]
    rfl
  have called' : ∀ fuel, Tool.runner.call? fuel args' input =
      callRunner? fuel verbose' limit source input := by
    intro fuel
    rw [Tool.call?, asked']
    rfl
  constructor
  · intro e failed
    obtain ⟨refusal, rfl⟩ := Assembly.exists_refusal short failed
    refine ⟨refusal, rfl, fun fuel => ⟨?_, ?_⟩⟩
    · rw [called, callAssembler, failed]
      rfl
    · rw [called', callRunner?, executeText?, failed]
      rfl
  · intro is assembled code
    have executed : ∀ fuel, executeText? fuel limit text = (execute? fuel limit code).map .ok := by
      intro fuel
      rw [executeText?, assembled]
      rfl
    refine ⟨⟨textOfLines (is.map fun i => Text.hexRow i.encode), ?_, fun fuel => ?_⟩,
      Assembly.bytes_eq_ok_iff.2 ⟨is, assembled, rfl⟩, Machine.appendGroups_encode is _,
      fun fuel => ⟨executed fuel, ?_, fun m ran => tells_exitCode ran⟩⟩
    · have rows := HexLine.bytes_of_rows (is.map Instruction.encode)
      rw [List.map_map] at rows
      exact rows
    · rw [called, callAssembler, assembled]
    · rw [called', callRunner?, executed]
      cases execute? fuel limit code <;> rfl

/-- A load and a halt, which the assembler prints with all its log shown and the runner runs with a
    limit of three steps. -/
theorem tools_agree_load_halt :
    let args := ["load $0 #7", "-v", "hlt"]
    let args' := ["--max-steps=3", "load $0 #7", "hlt"]
    let source := some "load $0 #7 hlt"
    let rows := "01 00 00 07\n00 00 00 00\n"
    let report := "stop: halt\noutput: 7\nremainder: 0\nflag: false\n$0 = 7\n"
    Tool.assembler.request args = .ok (.assemble true source) ∧
    Tool.runner.request args' = .ok (.run false (some 3) source) ∧
    ¬ Text.HasLongNumber (sourceText source "").toList ∧
    (∃ err, Tool.assembler.call? 0 args "" = some { exitCode := 0, out := rows, err }) ∧
    (Text.lines rows.toList).flatMap (fun row => HexLine.bytes (String.ofList row)) =
      [1, 0, 0, 7, 0, 0, 0, 0] ∧
    ∃ err, Tool.runner.call? 0 args' "" = some { exitCode := 0, out := report, err } := by
  intro args args' source rows report
  have asked : Tool.assembler.request args = .ok (.assemble true source) :=
    Tool.request_eq_ok (by decide +kernel)
  have asked' : Tool.runner.request args' = .ok (.run false (some 3) source) :=
    Tool.request_eq_ok (by decide +kernel)
  have short : ¬ Text.HasLongNumber (sourceText source "").toList :=
    Text.not_hasLongNumber_of_length (by decide +kernel)
  have assembled : Assembly.program (sourceText source "") =
      .ok [⟨.load, .integer 0 7⟩, ⟨.hlt, .nullary⟩] :=
    Assembly.program_eq_ok_iff.2 (by decide +kernel)
  obtain ⟨-, agree⟩ := tools_agree "" asked asked' short
  obtain ⟨⟨out, read, printed⟩, -, -, ran⟩ := agree _ assembled
  have shown : (Tool.assembler.call? 0 args "").map Outcome.out = some rows := by decide +kernel
  rw [printed 0] at shown
  obtain rfl : out = rows := Option.some.inj shown
  obtain ⟨m, halted, stop, report_eq⟩ : ∃ m, execute? 0 (some 3)
      (Instruction.encodeAll [⟨.load, .integer 0 7⟩, ⟨.hlt, .nullary⟩]) = some m ∧
        m.stop = some .halt ∧ textOfLines m.report = report :=
    ⟨_, rfl, by decide +kernel, by decide +kernel⟩
  obtain ⟨-, reported, -⟩ := ran 0
  rw [halted, Option.map_some, stop, report_eq] at reported
  exact ⟨asked, asked', short, ⟨_, printed 0⟩, read, _, reported⟩

end CommandLine

end RegisterMachine
