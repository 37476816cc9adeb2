import RegisterMachine.Proofs.Diagnosis
import RegisterMachine.Proofs.Dialogue
import RegisterMachine.Proofs.Tools

/-! Lines of assembly that are evaluated. The console adds the instructions of a line and makes as
    many steps, one by one, until a stop field is set; a run goes by what its steps tell, and marks
    that its limit is reached. Both make the same steps, since a step sets a stop field exactly when
    it tells to stop. Main statement (`evaluation_of_line`): evaluating a line is loading it and
    running with the number of its instructions as the limit, but for the mark, and every step that
    is made shows one result. -/

namespace RegisterMachine

namespace Machine

theorem afterSteps_succ (n : Nat) (m : Machine) :
    m.afterSteps (n + 1) = (m.afterSteps n).step.2 := by
  induction n generalizing m with
  | zero => rfl
  | succ n ih => exact ih m.step.2

/-- Of `n` steps at most, `made` are made: the last of them is the first that tells to stop, or all
    of the `n` go on. -/
def StepsMade (m : Machine) (n made : Nat) : Prop :=
  (∃ k < n, made = k + 1 ∧ (∀ j < k, (m.afterSteps j).step.1 = true) ∧
    (m.afterSteps k).step.1 = false) ∨
  (made = n ∧ ∀ j < n, (m.afterSteps j).step.1 = true)

/-- The machine without the mark that a limit leaves. -/
def unmarked (m : Machine) : Machine :=
  if m.stop = some .stepLimit then { m with stop := none } else m

theorem unmarked_paused {m : Machine} (running : m.stop = none) : m.paused.unmarked = m := by
  rw [unmarked, if_pos m.paused_stop]
  cases m
  cases running
  rfl

theorem StepsMade.unique {m : Machine} {n a b : Nat} (ha : m.StepsMade n a) (hb : m.StepsMade n b) :
    a = b := by
  have no_later {k l : Nat} (go : ∀ j < l, (m.afterSteps j).step.1 = true)
      (stops : (m.afterSteps k).step.1 = false) : l ≤ k := by
    refine Nat.le_of_not_lt fun before => ?_
    cases (go k before).symm.trans stops
  rcases ha with ⟨k, hk, rfl, before, stops⟩ | ⟨rfl, go⟩
  · rcases hb with ⟨l, -, rfl, before', stops'⟩ | ⟨rfl, go'⟩
    · have le := no_later before stops'
      have ge := no_later before' stops
      omega
    · have le := no_later go' stops
      omega
  · rcases hb with ⟨l, hl, rfl, -, stops'⟩ | ⟨rfl, -⟩
    · have le := no_later go stops'
      omega
    · rfl

theorem StepsMade.succ {m : Machine} {n made : Nat} (go : m.step.1 = true)
    (h : m.step.2.StepsMade n made) : m.StepsMade (n + 1) (made + 1) := by
  have later {k : Nat} (before : ∀ j < k, (m.step.2.afterSteps j).step.1 = true) :
      ∀ j < k + 1, (m.afterSteps j).step.1 = true := by
    intro j hj
    cases j with
    | zero => exact go
    | succ j => exact before j (by omega)
  rcases h with ⟨k, hk, rfl, before, stops⟩ | ⟨rfl, before⟩
  · exact .inl ⟨k + 1, by omega, rfl, later before, stops⟩
  · exact .inr ⟨rfl, later before⟩

/-- Of the steps that are made, only the last may tell to stop. -/
theorem StepsMade.exists_before {m : Machine} {n made : Nat} (h : m.StepsMade n made)
    (pos : n ≠ 0) :
    ∃ k, made = k + 1 ∧ ∀ j < k, (m.afterSteps (j + 1)).stop = none := by
  have running {j : Nat} (go : (m.afterSteps j).step.1 = true) :
      (m.afterSteps (j + 1)).stop = none := by
    rw [afterSteps_succ]
    exact (step_goesOn_iff _).1 go
  rcases h with ⟨k, -, rfl, before, -⟩ | ⟨rfl, before⟩
  · exact ⟨k, rfl, fun j hj => running (before j hj)⟩
  · obtain ⟨k, rfl⟩ := Nat.exists_eq_succ_of_ne_zero pos
    exact ⟨k, rfl, fun j hj => running (before j (by omega))⟩

/-- A limited run makes these steps. -/
theorem StepsMade.unmarked_runFor {m : Machine} {n made : Nat} (h : m.StepsMade n made)
    (pos : n ≠ 0) :
    (m.runFor n).unmarked = m.afterSteps made := by
  rcases h with ⟨k, hk, rfl, before, stops⟩ | ⟨rfl, before⟩
  · have on : m.GoesOn k (m.afterSteps k) := goesOn_iff_afterSteps.2 ⟨before, rfl⟩
    have stopped : m.StopsAfter k (m.afterSteps (k + 1)) :=
      ⟨_, on, Prod.ext stops (afterSteps_succ k m).symm⟩
    rw [runFor_of_stopsAfter stopped hk, unmarked, if_neg stopped.stop_ne_stepLimit]
  · have on : m.GoesOn made (m.afterSteps made) := goesOn_iff_afterSteps.2 ⟨before, rfl⟩
    obtain ⟨k, rfl⟩ := Nat.exists_eq_succ_of_ne_zero pos
    obtain ⟨last, -, done⟩ := on.exists_completes
    rw [← Nat.add_zero k.succ, runFor_of_goesOn on, Nat.add_zero]
    exact unmarked_paused done.stop

end Machine

namespace Console

/-- The console makes the steps of the machine up to the first that stops, and shows the result of
    each. -/
theorem exists_stepsMade (n : Nat) (m : Machine) :
    ∃ made, m.StepsMade n made ∧ (steps n m).1 = m.afterSteps made ∧
      (steps n m).2.echoed =
        (List.range made).flatMap fun k => results (m.afterSteps (k + 1)) := by
  induction n generalizing m with
  | zero => exact ⟨0, .inr ⟨rfl, nofun⟩, rfl, rfl⟩
  | succ n ih =>
    rw [steps_succ]
    cases stop : (step m).1.stop with
    | some reason =>
      have told : m.step.1 = false := by
        rw [← Bool.not_eq_true, Machine.step_goesOn_iff]
        intro running
        cases stop.symm.trans running
      refine ⟨1, .inl ⟨0, n.succ_pos, rfl, nofun, told⟩, rfl, ?_⟩
      simp [step, Machine.afterSteps]
    | none =>
      have told : m.step.1 = true := (Machine.step_goesOn_iff m).2 stop
      obtain ⟨made, makes, left, shown⟩ := ih m.step.2
      refine ⟨made + 1, makes.succ told, left, ?_⟩
      have first : (step m).2.echoed = results (m.afterSteps 1) := rfl
      have more : (steps n (step m).1).2.echoed =
          (List.range made).flatMap fun k => results (m.afterSteps (k + 2)) := shown
      rw [List.range_succ_eq_map, List.flatMap_cons, List.flatMap_map, ← first, ← more]
      rfl

theorem length_results (m : Machine) : (results m).length = (stopLine m).toList.length + 1 := by
  simp [results]

theorem stopLine_of_running {m : Machine} (running : m.stop = none) : stopLine m = none := by
  simp [stopLine, running]

/-- The steps show a result each, and the last a line on its stop, if this is worth one. -/
theorem length_shown {m : Machine} {n made : Nat} (makes : m.StepsMade n made) (pos : n ≠ 0) :
    ((List.range made).flatMap fun k => results (m.afterSteps (k + 1))).length =
      made + (stopLine (m.afterSteps made)).toList.length := by
  obtain ⟨k, rfl, running⟩ := makes.exists_before pos
  have single : ∀ j ∈ List.range k, (results (m.afterSteps (j + 1))).length = 1 := by
    intro j hj
    rw [length_results, stopLine_of_running (running j (List.mem_range.1 hj))]
    rfl
  rw [List.range_succ, List.flatMap_append, List.length_append, List.length_flatMap,
    List.map_congr_left single, List.flatMap_singleton, length_results]
  simp only [List.map_const', List.length_range, List.sum_replicate_nat]
  omega

/-- Evaluating a line of assembly is a run limited to the number of its instructions, without the
    mark of the limit, and with the result of each step on the screen. -/
theorem evaluation_of_line {line : String} {is : List Instruction} (s : Session)
    (assembled : Assembly.program line = .ok is) (some_code : is ≠ []) :
    let loading := s.machine.appendGroups (is.map Instruction.encode)
    let reply := evaluateAssembly s line
    loading.1 = none ∧
    reply.session = { s with machine := (loading.2.runFor is.length).unmarked } ∧
    reply.quits = false ∧ reply.failure = none ∧
    ∃ made, loading.2.StepsMade is.length made ∧
      reply.session.machine = loading.2.afterSteps made ∧
      reply.transcript.echoed =
        (List.range made).flatMap (fun k => results (loading.2.afterSteps (k + 1))) ∧
      reply.transcript.echoed.length =
        made + (stopLine reply.session.machine).toList.length := by
  intro loading reply
  have loading_eq : loading = (none, s.machine.appendInstructions is) :=
    s.machine.appendGroups_encode is
  have reply_eq : reply =
      { session := { s with machine := (steps is.length loading.2).1 },
        transcript := ({ log := Assembly.programLog line } : Transcript) ++
          (steps is.length loading.2).2 } := by
    rw [loading_eq]
    simp only [reply, evaluateAssembly, load, assembled]
  have pos : is.length ≠ 0 := by simpa using some_code
  obtain ⟨made, makes, left, shown⟩ := exists_stepsMade is.length loading.2
  have session_eq : reply.session = { s with machine := loading.2.afterSteps made } := by
    rw [reply_eq, left]
  have echoed_eq : reply.transcript.echoed =
      (List.range made).flatMap fun k => results (loading.2.afterSteps (k + 1)) := by
    rw [reply_eq, ← shown]
    rfl
  refine ⟨by rw [loading_eq], ?_, by rw [reply_eq], by rw [reply_eq], made, makes, ?_, echoed_eq,
    ?_⟩
  · rw [session_eq, makes.unmarked_runFor pos]
  · rw [session_eq]
  · rw [session_eq, echoed_eq, length_shown makes pos]

/-- A load and a division by zero are queued when a line of three instructions comes in: the load
    and the division are what is stepped through, and the third step is not made. -/
theorem evaluation_of_line_behind :
    let queued : Machine := { Machine.fresh with program := #[1, 0, 0, 7, 5, 0, 2, 1] }
    let s : Session := { mode := .assembly, machine := queued }
    let line := "add $0 $0 $1 sub $0 $0 $1 hlt"
    let is : List Instruction :=
      [⟨.add, .binary 0 0 1⟩, ⟨.sub, .binary 0 0 1⟩, ⟨.hlt, .nullary⟩]
    Assembly.program line = .ok is ∧ is ≠ [] ∧
    (evaluateAssembly s line).session.machine.pc = 4 ∧
    (evaluateAssembly s line).transcript.echoed = ["7", "fault: Division by zero", "7"] := by
  intro queued s line is
  have assembled : Assembly.program line = .ok is :=
    Assembly.program_eq_ok_iff.2 (by decide +kernel)
  obtain ⟨-, session_eq, -, -, made, makes, -, echoed_eq, -⟩ :=
    evaluation_of_line s assembled (List.cons_ne_nil _ _)
  rw [Machine.appendGroups_encode] at session_eq echoed_eq makes
  have twice : (queued.append (Instruction.encodeAll is)).StepsMade is.length 2 :=
    .inl ⟨1, by decide, rfl, by decide +kernel, by decide +kernel⟩
  have made_eq : made = 2 := makes.unique twice
  refine ⟨assembled, List.cons_ne_nil _ _, ?_, ?_⟩
  · rw [session_eq]
    decide +kernel
  · rw [echoed_eq, made_eq]
    decide +kernel

end Console

end RegisterMachine
