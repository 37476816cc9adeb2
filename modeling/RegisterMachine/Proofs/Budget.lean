import RegisterMachine.Proofs.Calls

/-! Runs with a limit on the number of steps. A run that its limit has cut short can be taken up
    again: what is done in two runs is done as well in one whose limit is the sum. A run that a step
    has stopped is the run without a limit, and so is every run with a greater one. Main statement
    (`run_within_budget`). -/

namespace RegisterMachine.Machine

/-- The machine after `n` steps, whatever they tell. -/
def afterSteps : Nat → Machine → Machine
  | 0, m => m
  | n + 1, m => afterSteps n m.step.2

/-- The machine as a run leaves it that the limit has cut short. -/
def paused (m : Machine) : Machine := { m with stop := some .stepLimit }

@[simp] theorem paused_stop (m : Machine) : m.paused.stop = some .stepLimit := rfl
@[simp] theorem paused_step (m : Machine) : m.paused.step = m.step := rfl

/-- Only a run stops because of its limit. -/
theorem Stepped.stop_ne_stepLimit {m : Machine} {r : Bool × Machine} (h : Stepped m r) :
    r.2.stop ≠ some .stepLimit := by
  cases h with
  | continued done _ => simp [done.stop]
  | outside _ | halted _ _ | illegal _ _ | faulted _ _ _ | ended _ _ => simp

theorem StopsAfter.stop_ne_stepLimit {n : Nat} {m m' : Machine} (h : m.StopsAfter n m') :
    m'.stop ≠ some .stepLimit := by
  obtain ⟨last, -, stops⟩ := h
  have stepped := last.step_stepped
  rw [stops] at stepped
  exact stepped.stop_ne_stepLimit

theorem goesOn_iff_afterSteps {n : Nat} {m m' : Machine} : m.GoesOn n m' ↔
    (∀ k < n, (m.afterSteps k).step.1 = true) ∧ m' = m.afterSteps n := by
  induction n generalizing m with
  | zero => simp [GoesOn, afterSteps]
  | succ n ih =>
    constructor
    · rintro ⟨mid, first, on⟩
      obtain ⟨go, rfl⟩ := ih.1 on
      refine ⟨?_, by rw [afterSteps, first]⟩
      intro k hk
      cases k with
      | zero => simp [afterSteps, first]
      | succ k =>
        rw [afterSteps, first]
        exact go k (by omega)
    · rintro ⟨go, rfl⟩
      have first : m.step = (true, m.step.2) := Prod.ext (go 0 (by omega)) rfl
      refine ⟨m.step.2, first, ih.2 ⟨?_, rfl⟩⟩
      intro k hk
      exact go (k + 1) (by omega)

/-! ### What a limit makes of a run -/

theorem runFor_of_goesOn {n : Nat} {m last : Machine} (on : m.GoesOn n last) (k : Nat) :
    m.runFor (n + k) = last.runFor k := by
  induction n generalizing m with
  | zero =>
    obtain rfl := on
    rw [Nat.zero_add]
  | succ n ih =>
    obtain ⟨mid, first, on⟩ := on
    have shift : n + 1 + k = n + k + 1 := by omega
    rw [shift, runFor, first]
    exact ih on

theorem runFor_of_stopsAfter {n limit : Nat} {m m' : Machine} (stops : m.StopsAfter n m')
    (enough : n < limit) : m.runFor limit = m' := by
  obtain ⟨last, on, stops⟩ := stops
  obtain ⟨k, rfl⟩ := Nat.exists_eq_add_of_lt enough
  have shift : n + k + 1 = n + (k + 1) := by omega
  rw [shift, runFor_of_goesOn on, runFor, stops]

theorem runFor_paused (limit : Nat) (m : Machine) : m.paused.runFor limit = m.runFor limit := by
  cases limit with
  | zero => rfl
  | succ limit => rw [runFor, runFor, paused_step]

theorem runs_paused {m r : Machine} : m.paused.Runs none r ↔ m.Runs none r := by
  rcases hs : m.step with ⟨_ | _, mid⟩
  · rw [runs_none_of_stops hs, runs_none_of_stops (m.paused_step.trans hs)]
  · rw [runs_none_of_goesOn hs, runs_none_of_goesOn (m.paused_step.trans hs)]

theorem GoesOn.runs_iff {n : Nat} {m last r : Machine} (on : m.GoesOn n last) :
    m.Runs none r ↔ last.Runs none r := by
  induction n generalizing m with
  | zero =>
    obtain rfl := on
    rfl
  | succ n ih =>
    obtain ⟨mid, first, on⟩ := on
    rw [runs_none_of_goesOn first, ih on]

/-- A limited run is cut short exactly when all the steps that it allows go on. -/
theorem stop_runFor_eq_stepLimit {limit : Nat} {m : Machine} :
    (m.runFor limit).stop = some .stepLimit ↔
      ∃ last, m.GoesOn limit last ∧ m.runFor limit = last.paused := by
  constructor
  · intro h
    rcases runFor_cases limit m with ⟨n, -, stops⟩ | cut
    · exact absurd h stops.stop_ne_stepLimit
    · exact cut
  · rintro ⟨last, -, h⟩
    rw [h, paused_stop]

theorem stopsAfter_of_stop_ne {limit : Nat} {m : Machine}
    (h : (m.runFor limit).stop ≠ some .stepLimit) :
    ∃ n < limit, m.StopsAfter n (m.runFor limit) := by
  rcases runFor_cases limit m with stops | ⟨last, -, cut⟩
  · exact stops
  · rw [cut] at h
    exact absurd rfl h

/-- A run without a limit stops exactly when some limit is not reached. -/
theorem runs_iff_exists_limit {m : Machine} :
    (∃ r, m.Runs none r) ↔ ∃ limit, (m.runFor limit).stop ≠ some .stepLimit := by
  constructor
  · rintro ⟨r, runs⟩
    obtain ⟨n, stops⟩ := runs_none_iff.1 runs
    refine ⟨n + 1, ?_⟩
    rw [runFor_of_stopsAfter stops n.lt_succ_self]
    exact stops.stop_ne_stepLimit
  · rintro ⟨limit, h⟩
    obtain ⟨n, -, stops⟩ := stopsAfter_of_stop_ne h
    exact ⟨_, runs_none_iff.2 ⟨n, stops⟩⟩

/-- Limits add up, and one that suffices makes no difference: a run is cut short exactly when as
    many steps in a row tell that execution may go on. -/
theorem run_within_budget (m : Machine) (limit : Nat) :
    ((m.runFor limit).stop = some .stepLimit ↔
      ∀ k < limit, (m.afterSteps k).step.1 = true) ∧
    ((m.runFor limit).stop = some .stepLimit →
      (∀ further, (m.runFor limit).runFor further = m.runFor (limit + further)) ∧
      ∀ r, (m.runFor limit).Runs none r ↔ m.Runs none r) ∧
    ((m.runFor limit).stop ≠ some .stepLimit →
      (∀ greater ≥ limit, m.runFor greater = m.runFor limit) ∧
      ∀ r, m.Runs none r ↔ r = m.runFor limit) ∧
    ((∃ r, m.Runs none r) ↔ ∃ enough, (m.runFor enough).stop ≠ some .stepLimit) := by
  refine ⟨⟨?_, ?_⟩, ?_, ?_, runs_iff_exists_limit⟩
  · intro cut
    obtain ⟨last, on, -⟩ := stop_runFor_eq_stepLimit.1 cut
    exact (goesOn_iff_afterSteps.1 on).1
  · intro go
    have on := goesOn_iff_afterSteps.2 ⟨go, rfl⟩
    exact stop_runFor_eq_stepLimit.2 ⟨_, on, runFor_of_goesOn on 0⟩
  · intro cut
    obtain ⟨last, on, left⟩ := stop_runFor_eq_stepLimit.1 cut
    constructor
    · intro further
      rw [left, runFor_paused, runFor_of_goesOn on]
    · intro r
      rw [left, runs_paused, on.runs_iff]
  · intro stopped
    obtain ⟨n, enough, stops⟩ := stopsAfter_of_stop_ne stopped
    constructor
    · intro greater more
      exact runFor_of_stopsAfter stops (by omega)
    · intro r
      constructor
      · intro runs
        exact runs.unique (runs_none_iff.2 ⟨n, stops⟩)
      · rintro rfl
        exact runs_none_iff.2 ⟨n, stops⟩

end RegisterMachine.Machine
