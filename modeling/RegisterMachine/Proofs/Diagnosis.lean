import RegisterMachine.Console.Session
import RegisterMachine.Proofs.Budget
import RegisterMachine.Proofs.Encoding
import RegisterMachine.Proofs.FailStop
import RegisterMachine.Proofs.Loading

/-! Why a machine has stopped, and what it tells of it. Every step begins by forgetting the last
    stop, so the stop fields of a machine are those of its last step, or of the limit that ended its
    run. Main statement (`coherent_of_calls`): whatever calls a machine has gone through, if each of
    its runs was allowed a step, there is a diagnosis exactly for an illegal byte and a fault, each
    stop stands for what is found at the counter, and what a report or a stop line says is what has
    broken off the last step. -/

namespace RegisterMachine

theorem Opcode.byte_of_legal {b : UInt8} (legal : ofByte b ≠ .illegal) : (ofByte b).byte = b := by
  rw [ofByte] at legal ⊢
  cases found : Opcode.legal.find? (·.byte == b) with
  | none => simp [found] at legal
  | some op => simpa using List.find?_some found

/-- The bytes that are no operation. -/
theorem Opcode.ofByte_eq_illegal_iff {b : UInt8} : ofByte b = .illegal ↔ 16 < b.toNat := by
  constructor
  · intro illegal
    refine Nat.lt_of_not_le fun small => byte_le_iff.1 ?_ illegal
    rwa [byte_ofByte small]
  · intro large
    refine Decidable.byContradiction fun legal => ?_
    have small := byte_le_iff.2 legal
    rw [byte_of_legal legal] at small
    omega

/-- What the console calls a trap. -/
def Trap.word : Trap → String
  | .halt => "halt!"
  | .illegal _ _ => "unknown opcode"
  | .fault _ => "fault"

/-- What the console says of a step that the trap has broken off. -/
def Trap.announcement (trap : Trap) : String :=
  if trap = .halt then trap.word else s!"{trap.word}: {trap.message}"

namespace Machine

/-! ### What a stop stands for -/

/-- What the stop fields say of a machine that a step or a run has just left. -/
def Explained (m : Machine) : Prop :=
  match m.stop with
  | none | some .stepLimit => m.inBounds ∧ m.diagnosis = none
  | some .ended => m.inBounds = false ∧ m.diagnosis = none
  | some .halt => m.byteAt? (m.pc - 1) = some 0 ∧ m.diagnosis = none
  | some .illegal => ∃ code, m.byteAt? (m.pc - 1) = some code ∧ 16 < code.toNat ∧
      m.diagnosis = some (.illegal code (m.pc - 1))
  | some .fault => ∃ cause behind, m.diagnosis = some (.fault cause) ∧
      Fetch.instruction.result m.cleared m.pc = .error (.fault cause) behind

theorem Stepped.explained {m : Machine} {r : Bool × Machine} (h : Stepped m r) :
    r.2.Explained := by
  have back : m.pc + 1 - 1 = m.pc := by omega
  cases h with
  | outside out => exact ⟨out, rfl⟩
  | @halted code at_pc is_halt =>
    have code_eq := Opcode.byte_of_legal (b := code) (by simp [is_halt])
    rw [is_halt] at code_eq
    subst code_eq
    refine ⟨?_, rfl⟩
    simp only [back]
    exact at_pc
  | @illegal code at_pc is_illegal =>
    refine ⟨code, ?_, Opcode.ofByte_eq_illegal_iff.1 is_illegal, ?_⟩
    · simp only [back]
      exact at_pc
    · simp only [back]
  | faulted _ cause fetched => exact ⟨cause, _, rfl, fetched⟩
  | ended done out => exact ⟨out, done.diagnosis⟩
  | continued done inside =>
    rw [Explained, done.stop]
    exact ⟨inside, done.diagnosis⟩

theorem explained_step (m : Machine) : m.step.2.Explained := m.step_stepped.explained

/-- A step tells that execution may go on exactly when it leaves no stop. -/
theorem step_goesOn_iff (m : Machine) : m.step.1 = true ↔ m.step.2.stop = none := by
  have stepped := m.step_stepped
  generalize m.step = r at stepped
  cases stepped with
  | continued done _ => simp [done.stop]
  | outside _ | halted _ _ | illegal _ _ | faulted _ _ _ | ended _ _ => simp

theorem Explained.diagnosis_iff {m : Machine} (h : m.Explained) :
    m.diagnosis ≠ none ↔ m.stop = some .illegal ∨ m.stop = some .fault := by
  rw [Explained] at h
  split at h
  · simp [h.2, *]
  · simp [h.2, *]
  · simp [h.2, *]
  · simp [h.2, *]
  · obtain ⟨code, -, -, told⟩ := h
    simp [*]
  · obtain ⟨cause, behind, told, -⟩ := h
    simp [*]

theorem Explained.paused {m : Machine} (h : m.Explained) (running : m.stop = none) :
    m.paused.Explained := by
  rw [Explained, running] at h
  exact h

/-! ### Calls -/

/-- What a call leaves that makes a step: its last step has stopped, or this step tells that
    execution may go on, and then a run has reached its limit. -/
theorem leaves_cases {c : Call} {m m' : Machine} (makes_step : c.MakesStep)
    (leaves : c.Leaves m m') :
    (∃ n, m.StopsAfter n m') ∨
      ∃ n before last, m.GoesOn n before ∧ before.step = (true, last) ∧
        (c = .step ∧ m' = last ∨ c ≠ .step ∧ m' = last.paused) := by
  cases c with
  | append _ => exact makes_step.elim
  | appendGroups _ => exact makes_step.elim
  | step =>
    obtain rfl := leaves
    rcases hs : m.step with ⟨_ | _, mid⟩
    · exact .inl ⟨0, stopsAfter_zero.2 hs⟩
    · exact .inr ⟨0, m, mid, rfl, hs, .inl ⟨rfl, rfl⟩⟩
  | run limit =>
    cases limit with
    | none => exact .inl (runs_none_iff.1 leaves)
    | some limit =>
      obtain rfl := runs_some_iff.1 leaves
      rcases runFor_cases limit.toNat m with ⟨n, -, stops⟩ | ⟨last, on, cut⟩
      · exact .inl ⟨n, stops⟩
      · have one_le : 1 ≤ limit := makes_step limit rfl
        obtain ⟨k, hk⟩ : ∃ k, limit.toNat = k + 1 := ⟨limit.toNat - 1, by omega⟩
        rw [hk] at on
        obtain ⟨before, on, final⟩ := on.exists_last
        exact .inr ⟨k, before, last, on, final, .inr ⟨nofun, cut⟩⟩

theorem explained_of_leaves {c : Call} {m m' : Machine} (makes_step : c.MakesStep)
    (leaves : c.Leaves m m') : m'.Explained := by
  rcases leaves_cases makes_step leaves with ⟨n, last, -, stops⟩ | ⟨n, before, last, -, final, left⟩
  · have explained := last.explained_step
    rwa [stops] at explained
  · have explained := before.explained_step
    have running := (step_goesOn_iff before).1 (by rw [final])
    rw [final] at explained running
    rcases left with ⟨-, rfl⟩ | ⟨-, rfl⟩
    · exact explained
    · exact explained.paused running

/-- There is a diagnosis exactly for an illegal byte and a fault. -/
def Consistent (m : Machine) : Prop :=
  m.diagnosis ≠ none ↔ m.stop = some .illegal ∨ m.stop = some .fault

theorem Consistent.call {c : Call} {m m' : Machine} (h : m.Consistent)
    (allowed : ∀ limit, c = .run limit → ∀ n ∈ limit, 1 ≤ n) (leaves : c.Leaves m m') :
    m'.Consistent := by
  cases c with
  | append values =>
    obtain ⟨bytes, rfl⟩ := exists_append_of_ints leaves
    exact h
  | appendGroups groups =>
    obtain ⟨bytes, rfl⟩ := exists_append_of_groups leaves
    exact h
  | step => exact (explained_of_leaves (c := .step) trivial leaves).diagnosis_iff
  | run limit =>
    have makes_step : (Call.run limit).MakesStep := allowed limit rfl
    exact (explained_of_leaves makes_step leaves).diagnosis_iff

theorem Consistent.calls {calls : List Call} {m m' : Machine} (h : m.Consistent)
    (allowed : ∀ limit, Call.run limit ∈ calls → ∀ n ∈ limit, 1 ≤ n)
    (led : Call.Lead (fun _ => True) calls m m') : m'.Consistent := by
  induction calls generalizing m with
  | nil =>
    obtain rfl := led
    exact h
  | cons c cs ih =>
    obtain ⟨mid, leaves, -, rest⟩ := led
    have consistent : mid.Consistent := by
      refine h.call (fun limit is_run => allowed limit ?_) leaves
      simp [is_run]
    refine ih consistent (fun limit mem => allowed limit ?_) rest
    simp [mem]

/-! ### What is told -/

/-- The step from the machine is broken off by the trap. -/
def Traps (m : Machine) (trap : Trap) : Prop :=
  m.inBounds ∧ m.cleared.execNext.1 = some trap

/-- Of the steps that lead from `m` to `m'`, the last one has been broken off by the trap. -/
def EndsInTrap (m m' : Machine) (trap : Trap) : Prop :=
  ∃ n last, m.GoesOn n last ∧ last.step = (false, m') ∧ last.Traps trap

/-- The trap that the stop fields tell of; a halt has no diagnosis. -/
def told (m : Machine) : Option Trap :=
  if m.stop = some .halt then some .halt else m.diagnosis

theorem Stepped.traps_iff {m : Machine} {r : Bool × Machine} (h : Stepped m r) (trap : Trap) :
    m.Traps trap ↔ r.2.told = some trap := by
  cases h with
  | outside out => simp [Traps, told, out]
  | @halted code at_pc is_halt =>
    have inside : m.inBounds := by rw [inBounds_eq_isSome, at_pc]; rfl
    have fetched := Fetch.result_instruction (m := m.cleared) at_pc
    rw [is_halt] at fetched
    simp [Traps, told, inside, execNext_of_error fetched]
  | @illegal code at_pc is_illegal =>
    have inside : m.inBounds := by rw [inBounds_eq_isSome, at_pc]; rfl
    have fetched := Fetch.result_instruction (m := m.cleared) at_pc
    rw [is_illegal] at fetched
    simp [Traps, told, inside, execNext_of_error fetched]
  | faulted inside cause fetched => simp [Traps, told, inside, execNext_of_error fetched]
  | ended done _ => simp [Traps, told, done.2, done.diagnosis]
  | continued done _ => simp [Traps, told, done.2, done.diagnosis, done.stop]

/-- What the stop fields tell of is what has broken off the last step of the call. -/
theorem endsInTrap_iff {c : Call} {m m' : Machine} (makes_step : c.MakesStep)
    (leaves : c.Leaves m m') (trap : Trap) : m.EndsInTrap m' trap ↔ m'.told = some trap := by
  constructor
  · rintro ⟨n, last, -, stops, traps⟩
    have told_iff := last.step_stepped.traps_iff trap
    rw [stops] at told_iff
    exact told_iff.1 traps
  · intro told_eq
    rcases leaves_cases makes_step leaves with
      ⟨n, last, on, stops⟩ | ⟨n, before, last, -, final, left⟩
    · have told_iff := last.step_stepped.traps_iff trap
      rw [stops] at told_iff
      exact ⟨n, last, on, stops, told_iff.2 told_eq⟩
    · -- nothing is told of a step that does not stop
      have done := completes_of_step final
      rcases left with ⟨-, rfl⟩ | ⟨-, rfl⟩
      · simp [told, done.stop, done.diagnosis] at told_eq
      · simp [told, paused, done.diagnosis] at told_eq

/-- A line of the report that gives a reason gives the diagnosis. -/
theorem reason_mem_report_iff {m : Machine} {text : String} :
    "reason: " ++ text ∈ m.report ↔ ∃ trap, m.diagnosis = some trap ∧ text = trap.message := by
  have plain (s : String) : toString s = s := rfl
  simp only [report, registerLine, List.mem_append, List.mem_cons, List.mem_map,
    Option.mem_toList, Option.map_eq_some_iff, List.not_mem_nil, or_false, plain]
  constructor
  · rintro (((stop | ⟨trap, told, line⟩) | output | remainder | flag) | ⟨p, -, register⟩)
    · have chars := congrArg String.toList stop
      simp at chars
    · exact ⟨trap, told, by simpa using line.symm⟩
    · have chars := congrArg String.toList output
      simp at chars
    · have chars := congrArg String.toList remainder
      simp at chars
    · have chars := congrArg String.toList flag
      simp at chars
    · have chars := congrArg String.toList register
      simp at chars
  · rintro ⟨trap, told, rfl⟩
    exact .inl (.inl (.inr ⟨trap, told, rfl⟩))

theorem Explained.diagnosis_eq_some_iff {m : Machine} (h : m.Explained) (trap : Trap) :
    m.diagnosis = some trap ↔ m.told = some trap ∧ trap ≠ .halt := by
  rw [told]
  by_cases halt : m.stop = some .halt
  · rw [Explained, halt] at h
    simp [halt, h.2, eq_comm]
  · rw [if_neg halt]
    refine ⟨fun diagnosed => ⟨diagnosed, ?_⟩, And.left⟩
    rintro rfl
    rw [Explained] at h
    split at h <;> simp [diagnosed] at h

theorem Explained.stopLine_eq {m : Machine} (h : m.Explained) :
    Console.stopLine m = m.told.map Trap.announcement := by
  rw [Explained] at h
  split at h
  · simp [Console.stopLine, told, *]
  · simp [Console.stopLine, Console.stopWord, told, *]
  · simp [Console.stopLine, Console.stopWord, told, *]
  · simp [Console.stopLine, Console.stopWord, told, Trap.announcement, Trap.word, *]
  · obtain ⟨code, -, -, diagnosed⟩ := h
    simp [Console.stopLine, Console.stopWord, told, Trap.announcement, Trap.word, *]
  · obtain ⟨cause, behind, diagnosed, -⟩ := h
    simp [Console.stopLine, Console.stopWord, told, Trap.announcement, Trap.word, *]

/-- Stop reasons and diagnoses are coherent: after any calls, what is told of a stop is due to the
    last step or run, and never something left over. -/
theorem coherent_of_calls {calls : List Call} {m : Machine}
    (allowed : ∀ limit, Call.run limit ∈ calls → ∀ n ∈ limit, 1 ≤ n)
    (led : Call.Lead (fun _ => True) calls fresh m) :
    (m.diagnosis ≠ none ↔ m.stop = some .illegal ∨ m.stop = some .fault) ∧
    (m.step.1 = true ↔ m.step.2.stop = none) ∧
    (m.step.1 = true → m.step.2.inBounds) ∧
    (∀ limit m', (∀ n ∈ limit, 1 ≤ n) → m.Runs limit m' → ∃ stop, m'.stop = some stop) ∧
    (∀ (c : Call) (m' : Machine), c.MakesStep → c.Leaves m m' →
      m'.Explained ∧
      (∀ text, "reason: " ++ text ∈ m'.report ↔
        ∃ trap, m.EndsInTrap m' trap ∧ trap ≠ .halt ∧ text = trap.message) ∧
      (∀ line, Console.stopLine m' = some line ↔
        ∃ trap, m.EndsInTrap m' trap ∧ line = trap.announcement)) := by
  have consistent_fresh : fresh.Consistent := by simp [Consistent, fresh]
  refine ⟨consistent_fresh.calls allowed led, step_goesOn_iff m, ?_, ?_, ?_⟩
  · intro go
    have explained := m.explained_step
    rw [Explained, (step_goesOn_iff m).1 go] at explained
    exact explained.1
  · intro limit m' makes_step runs
    rcases leaves_cases (c := .run limit) makes_step runs with
      ⟨n, stops⟩ | ⟨n, before, last, -, -, left⟩
    · rcases stops.stop_cases with h | h | h | h <;> exact ⟨_, h⟩
    · rcases left with ⟨⟨⟩, -⟩ | ⟨-, rfl⟩
      exact ⟨.stepLimit, rfl⟩
  · intro c m' makes_step leaves
    have explained := explained_of_leaves makes_step leaves
    have trap_iff := endsInTrap_iff makes_step leaves
    refine ⟨explained, fun text => ?_, fun line => ?_⟩
    · simp only [reason_mem_report_iff, explained.diagnosis_eq_some_iff, trap_iff, and_assoc]
    · simp only [explained.stopLine_eq, Option.map_eq_some_iff, trap_iff]
      exact exists_congr fun trap => and_congr_right fun _ => eq_comm

/-- A load that is cut off faults; it is completed and carried out by a run of one step, and the
    next step halts, with nothing to tell of the fault. -/
theorem coherent_of_calls_after_fault :
    let calls : List Call := [.append [1, 0, 1], .step, .append [0xF4, 0], .run (some 1)]
    let m : Machine := { fresh with
      pc := 4, registers := fresh.registers.set 0 500, program := #[1, 0, 1, 0xF4, 0],
      stop := some .stepLimit }
    (∀ limit, Call.run limit ∈ calls → ∀ n ∈ limit, 1 ≤ n) ∧
      Call.Lead (fun _ => True) calls fresh m ∧
      m.step.2.stop = some .halt ∧ ∀ text, "reason: " ++ text ∉ m.step.2.report := by
  intro calls m
  have allowed : ∀ limit, Call.run limit ∈ calls → ∀ n ∈ limit, 1 ≤ n := by simp [calls]
  have led : Call.Lead (fun _ => True) calls fresh m := by
    refine ⟨_, rfl, trivial, _, rfl, trivial, _, rfl, trivial, m, ⟨0, ?_⟩, trivial, rfl⟩
    decide +kernel
  have halts : m.step.2.stop = some .halt := by decide +kernel
  obtain ⟨-, -, -, -, told⟩ := coherent_of_calls allowed led
  obtain ⟨explained, -⟩ := told .step m.step.2 trivial rfl
  rw [Explained, halts] at explained
  refine ⟨allowed, led, halts, fun text mem => ?_⟩
  obtain ⟨trap, diagnosed, -⟩ := reason_mem_report_iff.1 mem
  rw [explained.2] at diagnosed
  cases diagnosed

end Machine

end RegisterMachine
