import RegisterMachine.Proofs.Step

/-! Calls of a machine and sequences of them. A run is a row of steps that tell that execution may
    go on, ended by the first step that stops or by the limit; `StopsAfter` counts these steps, and
    the runs of the machine are told in terms of it. -/

namespace RegisterMachine

namespace Machine

/-- In a row, `n` steps tell that execution may go on, and they lead from `m` to `m'`. -/
def GoesOn : Nat → Machine → Machine → Prop
  | 0, m, m' => m' = m
  | n + 1, m, m' => ∃ mid, m.step = (true, mid) ∧ GoesOn n mid m'

/-- The first step that stops comes after `n` others and leaves `m'`. -/
def StopsAfter (n : Nat) (m m' : Machine) : Prop :=
  ∃ last, GoesOn n m last ∧ last.step = (false, m')

/-- A run with the given limit, or without one, leaves `m'`. A limit below zero allows no step. -/
def Runs (limit : Option Int) (m m' : Machine) : Prop :=
  ∃ fuel, m.runWithin? fuel (limit.map Int.toNat) = some m'

theorem stopsAfter_zero {m m' : Machine} : m.StopsAfter 0 m' ↔ m.step = (false, m') :=
  ⟨fun ⟨_, rfl, h⟩ => h, fun h => ⟨m, rfl, h⟩⟩

theorem stopsAfter_succ {n : Nat} {m m' : Machine} :
    m.StopsAfter (n + 1) m' ↔ ∃ mid, m.step = (true, mid) ∧ mid.StopsAfter n m' :=
  ⟨fun ⟨last, ⟨mid, h, on⟩, stops⟩ => ⟨mid, h, last, on, stops⟩,
    fun ⟨mid, h, last, on, stops⟩ => ⟨last, ⟨mid, h, on⟩, stops⟩⟩

theorem stopsAfter_of_stops {n : Nat} {m s m' : Machine} (h : m.step = (false, s)) :
    m.StopsAfter n m' ↔ n = 0 ∧ m' = s := by
  cases n with
  | zero => rw [stopsAfter_zero, h]; simp [eq_comm]
  | succ n => simp [stopsAfter_succ, h]

theorem stopsAfter_of_goesOn {n : Nat} {m mid m' : Machine} (h : m.step = (true, mid)) :
    m.StopsAfter n m' ↔ ∃ k, n = k + 1 ∧ mid.StopsAfter k m' := by
  cases n with
  | zero => simp [stopsAfter_zero, h]
  | succ n => simp [stopsAfter_succ, h]

/-- A machine stops at one place only. -/
theorem StopsAfter.unique {n k : Nat} {m a b : Machine} (ha : m.StopsAfter n a)
    (hb : m.StopsAfter k b) : n = k ∧ a = b := by
  induction n generalizing k m with
  | zero =>
    obtain ⟨rfl, rfl⟩ := (stopsAfter_of_stops (stopsAfter_zero.1 ha)).1 hb
    exact ⟨rfl, rfl⟩
  | succ n ih =>
    obtain ⟨mid, h, ha'⟩ := stopsAfter_succ.1 ha
    obtain ⟨k, rfl, hb'⟩ := (stopsAfter_of_goesOn h).1 hb
    obtain ⟨rfl, rfl⟩ := ih ha' hb'
    exact ⟨rfl, rfl⟩

/-- A step that stops tells why. -/
theorem StopsAfter.stop_cases {n : Nat} {m m' : Machine} (h : m.StopsAfter n m') :
    m'.stop = some .halt ∨ m'.stop = some .illegal ∨ m'.stop = some .fault ∨
      m'.stop = some .ended := by
  obtain ⟨last, -, stops⟩ := h
  have stepped := last.step_stepped
  rw [stops] at stepped
  cases stepped with
  | halted _ _ => exact .inl rfl
  | illegal _ _ => exact .inr (.inl rfl)
  | faulted _ _ _ => exact .inr (.inr (.inl rfl))
  | outside _ | ended _ _ => exact .inr (.inr (.inr rfl))

theorem run?_eq_some_iff {fuel : Nat} {m m' : Machine} :
    m.run? fuel = some m' ↔ ∃ n < fuel, m.StopsAfter n m' := by
  induction fuel generalizing m with
  | zero => simp [run?]
  | succ fuel ih =>
    rw [run?]
    rcases hs : m.step with ⟨_ | _, mid⟩
    · simp only [stopsAfter_of_stops hs, Option.some.injEq]
      constructor
      · rintro rfl
        exact ⟨0, Nat.zero_lt_succ _, rfl, rfl⟩
      · rintro ⟨n, -, -, rfl⟩
        rfl
    · simp only [stopsAfter_of_goesOn hs]
      rw [ih]
      constructor
      · rintro ⟨n, hn, stops⟩
        exact ⟨n + 1, Nat.succ_lt_succ hn, n, rfl, stops⟩
      · rintro ⟨_, hn, n, rfl, stops⟩
        exact ⟨n, Nat.lt_of_succ_lt_succ hn, stops⟩

/-- More fuel finds the same stop. -/
theorem run?_mono {fuel more : Nat} {m m' : Machine} (h : m.run? fuel = some m')
    (enough : fuel ≤ more) : m.run? more = some m' := by
  obtain ⟨n, hn, stops⟩ := run?_eq_some_iff.1 h
  exact run?_eq_some_iff.2 ⟨n, by omega, stops⟩

theorem runs_none_iff {m m' : Machine} : m.Runs none m' ↔ ∃ n, m.StopsAfter n m' := by
  constructor
  · rintro ⟨fuel, h⟩
    obtain ⟨n, -, stops⟩ := run?_eq_some_iff.1 h
    exact ⟨n, stops⟩
  · rintro ⟨n, stops⟩
    exact ⟨n + 1, run?_eq_some_iff.2 ⟨n, Nat.lt_succ_self n, stops⟩⟩

theorem runs_some_iff {limit : Int} {m m' : Machine} :
    m.Runs (some limit) m' ↔ m' = m.runFor limit.toNat :=
  ⟨fun ⟨_, h⟩ => (Option.some.inj h).symm, fun h => ⟨0, congrArg some h.symm⟩⟩

theorem runs_none_of_stops {m s m' : Machine} (h : m.step = (false, s)) :
    m.Runs none m' ↔ m' = s := by
  simp [runs_none_iff, stopsAfter_of_stops h]

theorem runs_none_of_goesOn {m mid m' : Machine} (h : m.step = (true, mid)) :
    m.Runs none m' ↔ mid.Runs none m' := by
  simp only [runs_none_iff, stopsAfter_of_goesOn h]
  constructor
  · rintro ⟨_, n, -, stops⟩
    exact ⟨n, stops⟩
  · rintro ⟨n, stops⟩
    exact ⟨n + 1, n, rfl, stops⟩

theorem Runs.unique {m a b : Machine} (ha : m.Runs none a) (hb : m.Runs none b) : a = b := by
  obtain ⟨n, ha⟩ := runs_none_iff.1 ha
  obtain ⟨k, hb⟩ := runs_none_iff.1 hb
  exact (ha.unique hb).2

/-- A limited run ends with a step that stops, or all its steps tell that execution may go on. -/
theorem runFor_cases (limit : Nat) (m : Machine) :
    (∃ n < limit, m.StopsAfter n (m.runFor limit)) ∨
      ∃ last, m.GoesOn limit last ∧ m.runFor limit = { last with stop := some .stepLimit } := by
  induction limit generalizing m with
  | zero => exact .inr ⟨m, rfl, rfl⟩
  | succ limit ih =>
    rw [runFor]
    rcases hs : m.step with ⟨_ | _, mid⟩
    · exact .inl ⟨0, Nat.zero_lt_succ _, stopsAfter_zero.2 hs⟩
    · rcases ih mid with ⟨n, hn, stops⟩ | ⟨last, on, h⟩
      · exact .inl ⟨n + 1, Nat.succ_lt_succ hn, stopsAfter_succ.2 ⟨mid, hs, stops⟩⟩
      · exact .inr ⟨last, ⟨mid, hs, on⟩, h⟩

/-- What a run leaves was left by a step that stopped, or the limit was reached. -/
theorem Runs.cases {limit : Option Int} {m m' : Machine} (h : m.Runs limit m') :
    (∃ n, m.StopsAfter n m') ∨
      ∃ n last, m.GoesOn n last ∧ m' = { last with stop := some .stepLimit } := by
  cases limit with
  | none => exact .inl (runs_none_iff.1 h)
  | some limit =>
    rw [runs_some_iff] at h
    subst h
    rcases runFor_cases limit.toNat m with ⟨n, -, stops⟩ | ⟨last, on, h⟩
    · exact .inl ⟨n, stops⟩
    · exact .inr ⟨_, last, on, h⟩

theorem Runs.stopsAfter {limit : Option Int} {m m' : Machine} (h : m.Runs limit m')
    (unlimited : m'.stop ≠ some .stepLimit) : ∃ n, m.StopsAfter n m' := by
  rcases h.cases with stops | ⟨n, last, -, rfl⟩
  · exact stops
  · exact absurd rfl unlimited

end Machine

/-! ### Calls -/

/-- A call of a machine: loading bytes that are given as integers, loading groups of bytes, a step,
    and a run with or without a limit. -/
inductive Call where
  | append (values : List Int)
  | appendGroups (groups : List (List UInt8))
  | step
  | run (limit : Option Int)
  deriving DecidableEq

namespace Call

/-- The call leaves `m'` of `m`. A call that fails leaves what it has loaded until then, and a run
    that does not stop leaves nothing. -/
def Leaves (m m' : Machine) : Call → Prop
  | .append values => m' = (m.appendInts values).toOption.getD m
  | .appendGroups groups => m' = (m.appendGroups groups).2
  | .step => m' = m.step.2
  | .run limit => m.Runs limit m'

/-- The calls lead from `m` to `m'`, and what each of them leaves satisfies `P`. -/
def Lead (P : Machine → Prop) : List Call → Machine → Machine → Prop
  | [], m, m' => m' = m
  | c :: cs, m, m' => ∃ mid, c.Leaves m mid ∧ P mid ∧ Lead P cs mid m'

/-- The call loads nothing and makes at least one step. -/
def MakesStep : Call → Prop
  | .append _ | .appendGroups _ => False
  | .step => True
  | .run limit => ∀ n ∈ limit, 1 ≤ n

end Call

end RegisterMachine
