import RegisterMachine.Proofs.Loading

/-! Code behind a run that has finished. A step looks at no more of the program than it reads, so
    bytes that are added at the end change nothing about a step that goes on, a halt, an illegal
    byte or a check that failed; only a step that has run into the end of the program may come out
    otherwise. Main statement (`stopsAfter_append`): a run that does not stop because of the end of
    its program makes the same steps with any bytes behind it. -/

namespace RegisterMachine.Machine

/-- The machine was stopped by what it had read, and not by the end of its program: by a halt, by an
    illegal byte, or by a fault other than a reading past the end. -/
def StoppedInside (m : Machine) : Prop :=
  m.stop = some .halt ∨ m.stop = some .illegal ∨
    (m.stop = some .fault ∧ ∀ address, m.diagnosis ≠ some (.fault (.pastEnd address)))

theorem StoppedInside.stop_ne_ended {m : Machine} (h : m.StoppedInside) :
    m.stop ≠ some .ended := by
  rcases h with h | h | ⟨h, -⟩ <;> simp [h]

/-- An instruction that does not run into the end of the program is fetched alike. -/
theorem step_append_of_fetched {m : Machine} (inside : m.inBounds)
    (read : ∀ place behind, Fetch.instruction.result m.cleared m.pc ≠
      .error (.fault (.pastEnd place)) behind)
    (stays : m.step.2.stop ≠ some .ended) (bytes : List UInt8) :
    (m.append bytes).step = (m.step.1, m.step.2.append bytes) := by
  have inside' := inBounds_append inside bytes
  rcases Fetch.steady_instruction m.cleared m.pc bytes with ⟨place, behind, h⟩ | same
  · exact absurd h (read place behind)
  cases fetched : Fetch.instruction.result m.cleared m.pc with
  | ok effect pc =>
    have done : m.Completes ({ m.cleared with pc }.apply effect) := ⟨inside, execNext_of_ok fetched⟩
    rw [step_of_completes done] at stays ⊢
    split at stays
    · rename_i on
      rw [step_of_completes (done.append bytes), if_pos (inBounds_append on bytes), if_pos on]
    · exact absurd rfl stays
  | error trap pc =>
    rw [fetched] at same
    rw [step_of_inBounds inside, step_of_inBounds inside', append_cleared,
      execNext_of_error fetched, execNext_of_error same]
    cases trap <;> rfl

/-- A step that goes on, or stops because of what it has read, is the same with bytes behind the
    program. -/
theorem step_append {m : Machine} (h : m.step.1 = true ∨ m.step.2.StoppedInside)
    (bytes : List UInt8) : (m.append bytes).step = (m.step.1, m.step.2.append bytes) := by
  by_cases inside : m.inBounds
  · refine step_append_of_fetched inside ?_ ?_ bytes
    · intro place behind fetched
      rw [step_of_fault inside fetched] at h
      rcases h with go | stopped
      · cases go
      · simp [StoppedInside] at stopped
    · rcases h with go | stopped
      · have done := completes_of_step (Prod.ext go rfl : m.step = (true, m.step.2))
        simp [done.stop]
      · exact stopped.stop_ne_ended
  · rw [step_of_outside (eq_false_of_ne_true inside)] at h
    rcases h with go | stopped
    · cases go
    · exact absurd rfl stopped.stop_ne_ended

theorem GoesOn.append {n : Nat} {m m' : Machine} (h : m.GoesOn n m') (bytes : List UInt8) :
    (m.append bytes).GoesOn n (m'.append bytes) := by
  induction n generalizing m with
  | zero =>
    obtain rfl := h
    rfl
  | succ n ih =>
    obtain ⟨mid, first, on⟩ := h
    have first' := step_append (m := m) (.inl (by rw [first])) bytes
    rw [first] at first'
    exact ⟨mid.append bytes, first', ih on⟩

/-- Code behind a finished run is irrelevant: unless it has read past the end of the program, a run
    that stops in it stops alike with any bytes behind. -/
theorem stopsAfter_append {m r : Machine} (runs : m.Runs none r) (inside : r.StoppedInside)
    (bytes : List UInt8) :
    ∃ n r', m.StopsAfter n r ∧ (m.append bytes).StopsAfter n r' ∧ (m.append bytes).Runs none r' ∧
      r'.stop = r.stop ∧ r'.diagnosis = r.diagnosis ∧ r'.snapshot = r.snapshot ∧
      r'.program.toList = r.program.toList ++ bytes := by
  obtain ⟨n, last, on, stops⟩ := runs_none_iff.1 runs
  have stops' := step_append (m := last) (.inr (by rwa [stops])) bytes
  rw [stops] at stops'
  have after : (m.append bytes).StopsAfter n (r.append bytes) := ⟨_, on.append bytes, stops'⟩
  exact ⟨n, r.append bytes, ⟨last, on, stops⟩, after, runs_none_iff.2 ⟨n, after⟩, rfl, rfl, rfl,
    append_program_toList r bytes⟩

/-- A division by zero whose destination is missing is a fault with any bytes behind it. -/
theorem stopsAfter_append_cut_division :
    let m : Machine := { fresh with program := #[1, 0, 0, 7, 5, 0, 1] }
    let r : Machine := { m with
      pc := 4, registers := m.registers.set 0 7, stop := some .fault,
      diagnosis := some (.fault .divisionByZero) }
    m.Runs none r ∧ r.StoppedInside ∧
      ∃ n r', (m.append [2, 0]).StopsAfter n r' ∧ r'.stop = some .fault ∧ r'.pc = 4 := by
  intro m r
  have runs : m.Runs none r := ⟨2, by decide +kernel⟩
  have inside : r.StoppedInside := .inr (.inr ⟨rfl, nofun⟩)
  obtain ⟨n, r', -, after, -, stop, -, state, -⟩ := stopsAfter_append runs inside [2, 0]
  exact ⟨runs, inside, n, r', after, stop, congrArg Snapshot.pc state⟩

end RegisterMachine.Machine
