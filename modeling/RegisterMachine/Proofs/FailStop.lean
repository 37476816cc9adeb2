import RegisterMachine.Proofs.Calls

/-! Stopping is atomic. A step that does not complete its instruction has written nothing, since its
    handler writes last (`execNext_eq`): a fault leaves the machine as it was, a halt or an illegal
    byte moves the counter by one, and outside the program there is nothing to do at all. A machine
    that a fault or the end of its program has stopped stays as it is, however often it is asked to
    go on. -/

namespace RegisterMachine

namespace Machine

/-- What a step that starts at `m` and leaves `m'` keeps if it does not complete an instruction. -/
structure Keeps (m m' : Machine) : Prop where
  fault : m'.stop = some .fault → m'.snapshot = m.snapshot
  halt : m'.stop = some .halt ∨ m'.stop = some .illegal →
    m'.snapshot = { m.snapshot with pc := m.pc + 1 }
  outside : m.inBounds = false → m'.stop = some .ended ∧ m'.snapshot = m.snapshot
  program : m'.program = m.program

theorem Stepped.keeps {m : Machine} {r : Bool × Machine} (h : Stepped m r) : Keeps m r.2 := by
  cases h with
  | outside out => exact ⟨nofun, nofun, fun _ => ⟨rfl, rfl⟩, rfl⟩
  | halted at_pc _ =>
    have inside : m.inBounds := by rw [inBounds_eq_isSome, at_pc]; rfl
    exact ⟨nofun, fun _ => rfl, fun out => absurd out (by simp [inside]), rfl⟩
  | illegal at_pc _ =>
    have inside : m.inBounds := by rw [inBounds_eq_isSome, at_pc]; rfl
    exact ⟨nofun, fun _ => rfl, fun out => absurd out (by simp [inside]), rfl⟩
  | faulted inside cause _ =>
    exact ⟨fun _ => rfl, nofun, fun out => absurd out (by simp [inside]), rfl⟩
  | ended done _ => exact ⟨nofun, nofun, fun out => absurd out (by simp [done.1]), done.program⟩
  | continued done _ =>
    refine ⟨?_, ?_, fun out => absurd out (by simp [done.1]), done.program⟩
    · rw [done.stop]; exact nofun
    · rw [done.stop]; exact nofun

theorem GoesOn.exists_last {k : Nat} {m last : Machine} (h : m.GoesOn (k + 1) last) :
    ∃ before, m.GoesOn k before ∧ before.step = (true, last) := by
  induction k generalizing m with
  | zero =>
    obtain ⟨mid, first, rfl⟩ := h
    exact ⟨m, rfl, first⟩
  | succ k ih =>
    obtain ⟨mid, first, on⟩ := h
    obtain ⟨before, on, final⟩ := ih on
    exact ⟨before, ⟨mid, first, on⟩, final⟩

/-- What the last of some steps leaves, it leaves by an instruction that completes. -/
theorem GoesOn.exists_completes {k : Nat} {m last : Machine} (h : m.GoesOn (k + 1) last) :
    ∃ before, m.GoesOn k before ∧ before.Completes last := by
  obtain ⟨before, on, final⟩ := h.exists_last
  exact ⟨before, on, completes_of_step final⟩

/-! ### Machines that no step changes -/

/-- A fault or the end of the program is met again by the next step. -/
theorem Stepped.again {m : Machine} {r : Bool × Machine} (h : Stepped m r)
    (stop : r.2.stop = some .fault ∨ r.2.stop = some .ended) : r.2.step = (false, r.2) := by
  cases h with
  | outside out => exact step_of_outside out
  | halted _ _ => simp at stop
  | illegal _ _ => simp at stop
  | faulted inside cause fetched => exact step_of_fault inside fetched
  | @ended m' done out =>
    have step_eq := step_of_outside (m := { m' with stop := some .ended }) out
    rw [step_eq, ← done.diagnosis]
  | continued done _ => simp [done.stop] at stop

theorem runs_of_step_eq {m m' : Machine} {limit : Option Int} (fixed : m.step = (false, m))
    (makes_step : ∀ n ∈ limit, 1 ≤ n) : m.Runs limit m' ↔ m' = m := by
  cases limit with
  | none => exact runs_none_of_stops fixed
  | some n =>
    have one_le : 1 ≤ n := makes_step n rfl
    obtain ⟨k, hk⟩ : ∃ k, n.toNat = k + 1 := ⟨n.toNat - 1, by omega⟩
    rw [runs_some_iff, hk, runFor, fixed]

theorem lead_of_step_eq {m m' : Machine} {calls : List Call} (fixed : m.step = (false, m))
    (make_steps : ∀ c ∈ calls, c.MakesStep) :
    Call.Lead (fun _ => True) calls m m' ↔ m' = m := by
  induction calls with
  | nil => rfl
  | cons c cs ih =>
    have leaves : ∀ mid, c.Leaves m mid ↔ mid = m := by
      intro mid
      have makes_step := make_steps c (List.mem_cons_self ..)
      cases c with
      | append _ => exact makes_step.elim
      | appendGroups _ => exact makes_step.elim
      | step => rw [Call.Leaves, fixed]
      | run limit => exact runs_of_step_eq fixed makes_step
    have rest := ih fun c hc => make_steps c (List.mem_cons_of_mem _ hc)
    simp only [Call.Lead, leaves, true_and, exists_eq_left, rest]

/-- Stopping is atomic: a step that completes no instruction has written nothing, and what a fault
    or the end of the program leaves, further steps and runs leave as it is. -/
theorem fail_stop (m : Machine) :
    Keeps m m.step.2 ∧
    (∀ limit m', m.Runs limit m' →
      m'.stop = some .halt ∨ m'.stop = some .illegal ∨ m'.stop = some .fault →
      ∃ n last, m.GoesOn n last ∧
        (∀ k, n = k + 1 → ∃ before, m.GoesOn k before ∧ before.Completes last) ∧
        last.step = (false, m') ∧ Keeps last m') ∧
    (∀ m', m' = m.step.2 ∨ (∃ limit, m.Runs limit m') →
      m'.stop = some .fault ∨ m'.stop = some .ended →
      ∀ calls : List Call, (∀ c ∈ calls, c.MakesStep) →
        ∀ m'', Call.Lead (fun _ => True) calls m' m'' ↔ m'' = m') := by
  refine ⟨m.step_stepped.keeps, ?_, ?_⟩
  · intro limit m' runs stop
    have unlimited : m'.stop ≠ some .stepLimit := by rcases stop with h | h | h <;> simp [h]
    obtain ⟨n, last, on, stops⟩ := runs.stopsAfter unlimited
    have keeps := last.step_stepped.keeps
    rw [stops] at keeps
    refine ⟨n, last, on, ?_, stops, keeps⟩
    rintro k rfl
    exact on.exists_completes
  · intro m' left stop calls make_steps m''
    -- either way the machine was left by one step
    obtain ⟨last, rfl⟩ : ∃ last : Machine, m' = last.step.2 := by
      rcases left with h | ⟨limit, runs⟩
      · exact ⟨m, h⟩
      · have unlimited : m'.stop ≠ some .stepLimit := by rcases stop with h | h <;> simp [h]
        obtain ⟨n, last, -, stops⟩ := runs.stopsAfter unlimited
        exact ⟨last, by rw [stops]⟩
    exact lead_of_step_eq (last.step_stepped.again stop) make_steps

end Machine

end RegisterMachine
