import RegisterMachine.Proofs.Budget
import RegisterMachine.Proofs.Window

/-! Programs that are moved. Bytes are put in front of a program, and the counter is moved behind
    them. The window at the counter is still the same, so that an instruction makes the same checks
    and has the same effect, as long as it tells its addresses and its target from the counter. Main
    statement (`stopsAfter_relocated`): a run that jumps to no address in a register, and never sets
    the counter below zero, makes the same steps wherever its program stands. -/

namespace RegisterMachine

/-! ### What is moved -/

/-- The fault at the same instruction when it stands `d` bytes further on. -/
def Fault.relocated (d : Nat) : Fault → Fault
  | .pastEnd address => .pastEnd (d + address)
  | cause => cause

/-- The trap at the same instruction when it stands `d` bytes further on. -/
def Trap.relocated (d : Nat) : Trap → Trap
  | .halt => .halt
  | .illegal byte address => .illegal byte (d + address)
  | .fault cause => .fault (cause.relocated d)

/-- The check with the fault of an instruction that stands `d` bytes further on. -/
def Check.relocated (d : Nat) (c : Check) : Check := { c with fault := c.fault.relocated d }

theorem Check.first_relocated (d : Nat) (cs : List Check) :
    first (cs.map (relocated d)) = (first cs).map (Fault.relocated d) := by
  induction cs with
  | nil => rfl
  | cons c cs ih =>
    rw [List.map_cons, first_cons, first_cons, ih]
    by_cases fails : c.fails <;> simp [relocated, fails]

namespace Machine

/-- The machine with bytes in front of its program. Its counter is moved behind them, and so is what
    it tells of its last stop. -/
def relocated (front : List UInt8) (m : Machine) : Machine :=
  { m with
    pc := front.length + m.pc
    program := front.toArray ++ m.program
    diagnosis := m.diagnosis.map (Trap.relocated front.length) }

variable (front : List UInt8) {m : Machine}

@[simp] theorem relocated_cleared (m : Machine) :
    (m.relocated front).cleared = m.cleared.relocated front := rfl

theorem inBounds_relocated (nonneg : 0 ≤ m.pc) : (m.relocated front).inBounds = m.inBounds := by
  simp only [inBounds, relocated, Array.size_append, List.size_toArray, decide_eq_decide]
  omega

/-- The bytes at the counter are the same. -/
theorem window_relocated (nonneg : 0 ≤ m.pc) : (m.relocated front).window = m.window := by
  have place : (front.length + m.pc).toNat = front.length + m.pc.toNat := by omega
  have nonneg' : 0 ≤ front.length + m.pc := by omega
  simp [window, relocated, nonneg, nonneg', place]

end Machine

/-! ### Checks and effects -/

namespace Window

variable (front : List UInt8) {m : Machine}

theorem compared_relocated (result : Bool) :
    compared (m.relocated front) result = (compared m result).relocated front := by
  simp [compared, Machine.relocated, Int.add_assoc]

variable (nonneg : 0 ≤ m.pc)
include nonneg

theorem byte_relocated (k : Nat) : byte (m.relocated front) k = byte m k := by
  rw [byte, m.window_relocated front nonneg, byte]

theorem register_relocated (k : Nat) : register (m.relocated front) k = register m k := by
  simp only [register, byte_relocated front nonneg]

theorem value_relocated (k : Nat) : value (m.relocated front) k = value m k := by
  rw [value, register_relocated front nonneg]
  rfl

theorem half_relocated (k : Nat) : half (m.relocated front) k = half m k := by
  simp only [half, byte_relocated front nonneg]

theorem present_relocated (k size : Nat) :
    present (m.relocated front) k size = (present m k size).relocated front.length := by
  rw [present, m.window_relocated front nonneg]
  simp [present, Check.relocated, Fault.relocated, Machine.relocated, Int.add_assoc]

theorem names_relocated (k : Nat) :
    names (m.relocated front) k = (names m k).map (Check.relocated front.length) := by
  simp [names, present_relocated front nonneg, byte_relocated front nonneg, Check.relocated,
    Fault.relocated]

/-- The checks are the same, but for the addresses in their faults. -/
theorem checks_relocated (op : Opcode) :
    checks (m.relocated front) op = (checks m op).map (Check.relocated front.length) := by
  have names_eq := names_relocated front nonneg
  have present_eq := present_relocated front nonneg
  have value_eq := value_relocated front nonneg
  have flag_eq : (m.relocated front).flag = m.flag := rfl
  have heap_eq : (m.relocated front).heap = m.heap := rfl
  cases op with
  | jeq =>
    cases flag : m.flag <;> simp [checks, names_eq, present_eq, flag_eq, flag]
  | _ =>
    simp [checks, names_eq, present_eq, value_eq, heap_eq, Check.relocated, Fault.relocated]

theorem put_relocated (k : Nat) (v : Int) :
    written (m.relocated front) k v = (written m k v).relocated front := by
  simp only [written, register_relocated front nonneg]
  simp [Machine.relocated, Int.add_assoc]

omit nonneg in
@[simp] theorem effect_stop (op : Opcode) : (effect m op).stop = m.stop := by
  cases op <;> rfl

/-- An effect that does not jump to an address in a register is the same. -/
theorem effect_relocated {op : Opcode} (no_jmp : op ≠ .jmp) (no_jeq : op = .jeq → m.flag = false) :
    effect (m.relocated front) op = (effect m op).relocated front := by
  have value_eq := value_relocated front nonneg
  cases op with
  | jmp => exact absurd rfl no_jmp
  | jeq => simp [effect, Machine.relocated, no_jeq rfl, Int.add_assoc]
  | load => simp only [effect, put_relocated front nonneg, half_relocated front nonneg]
  | add | sub | mul => simp only [effect, put_relocated front nonneg, value_eq]
  | div =>
    simp only [effect, put_relocated front nonneg, value_eq]
    rfl
  | eq | neq | gt | lt | gteq | lteq => simp only [effect, compared_relocated front, value_eq]
  | jmpf | jmpb =>
    simp only [effect, value_eq]
    simp [Machine.relocated]
    omega
  | alloc =>
    simp only [effect, value_eq]
    simp [Machine.relocated, Int.add_assoc]
  | hlt | illegal => simp [effect, Machine.relocated, Int.add_assoc]

end Window

/-! ### Steps -/

namespace Machine

/-- The next step jumps to the address in a register: it carries out an unconditional jump, or a
    conditional one with the flag set. -/
def JumpsToRegister (m : Machine) : Prop :=
  m.step.2.stop ≠ some .fault ∧
    ((m.byteAt? m.pc).map Opcode.ofByte = some .jmp ∨
      (m.byteAt? m.pc).map Opcode.ofByte = some .jeq ∧ m.flag = true)

instance : DecidablePred JumpsToRegister := fun _ => inferInstanceAs (Decidable (_ ∧ _))

theorem step_of_failed {m : Machine} {code : UInt8} {rest : List UInt8} {fault : Fault}
    (window_eq : m.window = code :: rest) (hlt : Opcode.ofByte code ≠ .hlt)
    (legal : Opcode.ofByte code ≠ .illegal)
    (first : Check.first (Window.checks m (Opcode.ofByte code)) = some fault) :
    m.step = (false, { m with stop := some .fault, diagnosis := some (.fault fault) }) := by
  rw [step_of_window window_eq, Window.outcome_of_operation hlt legal, first]

theorem step_of_passed {m : Machine} {code : UInt8} {rest : List UInt8}
    (window_eq : m.window = code :: rest) (hlt : Opcode.ofByte code ≠ .hlt)
    (legal : Opcode.ofByte code ≠ .illegal)
    (first : Check.first (Window.checks m (Opcode.ofByte code)) = none) :
    let m' := Window.effect m.cleared (Opcode.ofByte code)
    m.step = if m'.inBounds then (true, m') else (false, { m' with stop := some .ended }) := by
  rw [step_of_window window_eq, Window.outcome_of_operation hlt legal, first]

/-- A step that jumps to no register, and leaves the counter at zero or above, is the same behind
    any bytes. -/
theorem step_relocated {m : Machine} (nonneg : 0 ≤ m.pc) (relative : ¬ m.JumpsToRegister)
    (stays : 0 ≤ m.step.2.pc) (front : List UInt8) :
    (m.relocated front).step = (m.step.1, m.step.2.relocated front) := by
  have same_window := window_relocated front nonneg
  cases window_eq : m.window with
  | nil =>
    have out := window_eq_nil_iff.1 window_eq
    rw [step_of_outside out, step_of_outside ((inBounds_relocated front nonneg).trans out)]
    rfl
  | cons code rest =>
    rw [window_eq] at same_window
    by_cases hlt : Opcode.ofByte code = .hlt
    · rw [step_of_window same_window, step_of_window window_eq, hlt]
      simp [Window.outcome, Window.effect, relocated, cleared, Int.add_assoc]
    by_cases illegal : Opcode.ofByte code = .illegal
    · rw [step_of_window same_window, step_of_window window_eq, illegal]
      simp [Window.outcome, Window.effect, relocated, Trap.relocated, Int.add_assoc]
    have first_eq := Check.first_relocated front.length (Window.checks m (Opcode.ofByte code))
    rw [← Window.checks_relocated front nonneg] at first_eq
    cases first : Check.first (Window.checks m (Opcode.ofByte code)) with
    | some fault =>
      rw [first] at first_eq
      rw [step_of_failed same_window hlt illegal first_eq,
        step_of_failed window_eq hlt illegal first]
      rfl
    | none =>
      rw [first] at first_eq
      have step_eq := step_of_passed window_eq hlt illegal first
      -- The instruction completes, so that it cannot be one of those jumps.
      have completes : m.step.2.stop ≠ some .fault := by
        rw [step_eq]
        split <;> simp [cleared]
      obtain ⟨-, at_pc⟩ := byteAt?_of_window window_eq
      have no_jmp : Opcode.ofByte code ≠ .jmp := by
        intro jmp
        exact relative ⟨completes, .inl (by simp [at_pc, jmp])⟩
      have no_jeq : Opcode.ofByte code = .jeq → m.cleared.flag = false := by
        intro jeq
        refine eq_false_of_ne_true fun set => relative ⟨completes, .inr ⟨?_, set⟩⟩
        simp [at_pc, jeq]
      have effect_eq := Window.effect_relocated front (m := m.cleared) nonneg no_jmp no_jeq
      have nonneg' : 0 ≤ (Window.effect m.cleared (Opcode.ofByte code)).pc := by
        rw [step_eq] at stays
        split at stays <;> exact stays
      rw [step_of_passed same_window hlt illegal first_eq, relocated_cleared, effect_eq,
        inBounds_relocated front nonneg', step_eq]
      split <;> rfl

theorem stopsAfter_congr {n : Nat} {m m' r : Machine} (same : m.step = m'.step) :
    m.StopsAfter n r ↔ m'.StopsAfter n r := by
  cases n with
  | zero => rw [stopsAfter_zero, stopsAfter_zero, same]
  | succ n => rw [stopsAfter_succ, stopsAfter_succ, same]

/-! ### Runs -/

/-- No step of the run from the machine jumps to the address in a register or sets the counter below
    zero. -/
def StaysRelative (m : Machine) : Prop :=
  ∀ n last, m.GoesOn n last → ¬ last.JumpsToRegister ∧ 0 ≤ last.step.2.pc

theorem StaysRelative.next {m mid : Machine} (h : m.StaysRelative) (first : m.step = (true, mid)) :
    mid.StaysRelative := by
  intro n last on
  exact h (n + 1) last ⟨mid, first, on⟩

/-- Of a run that stops, the steps can be looked at one by one. -/
theorem StopsAfter.staysRelative_iff {n : Nat} {m r : Machine} (stops : m.StopsAfter n r) :
    m.StaysRelative ↔ ∀ k ≤ n,
      ¬ (m.afterSteps k).JumpsToRegister ∧ 0 ≤ (m.afterSteps k).step.2.pc := by
  obtain ⟨last, on, stop⟩ := stops
  obtain ⟨go, rfl⟩ := goesOn_iff_afterSteps.1 on
  constructor
  · intro relative k hk
    refine relative k _ (goesOn_iff_afterSteps.2 ⟨?_, rfl⟩)
    intro j hj
    exact go j (by omega)
  · intro each k mid reached
    obtain ⟨go', rfl⟩ := goesOn_iff_afterSteps.1 reached
    refine each k (Nat.le_of_not_lt fun beyond => ?_)
    have goes_on := go' n beyond
    rw [stop] at goes_on
    cases goes_on

theorem GoesOn.relocated {n : Nat} {m m' : Machine} (on : m.GoesOn n m') (nonneg : 0 ≤ m.pc)
    (relative : m.StaysRelative) (front : List UInt8) :
    (m.relocated front).GoesOn n (m'.relocated front) ∧ 0 ≤ m'.pc ∧ m'.StaysRelative := by
  induction n generalizing m with
  | zero =>
    obtain rfl := on
    exact ⟨rfl, nonneg, relative⟩
  | succ n ih =>
    obtain ⟨mid, first, on⟩ := on
    obtain ⟨no_jump, stays⟩ := relative 0 m rfl
    have first' := step_relocated nonneg no_jump stays front
    rw [first] at stays first'
    obtain ⟨on', rest⟩ := ih on stays (relative.next first)
    exact ⟨⟨_, first', on'⟩, rest⟩

/-- Programs without absolute jumps do not depend on where they stand: with bytes in front a run
    stops alike, but for the addresses in what it tells, which are moved. -/
theorem stopsAfter_relocated {m r : Machine} (nonneg : 0 ≤ m.pc) (runs : m.Runs none r)
    (relative : m.StaysRelative) (front : List UInt8) :
    let m' : Machine :=
      { m with pc := front.length + m.pc, program := front.toArray ++ m.program }
    ∃ n r', m.StopsAfter n r ∧ m'.StopsAfter n r' ∧ m'.Runs none r' ∧ r'.stop = r.stop ∧
      r'.diagnosis = r.diagnosis.map (Trap.relocated front.length) ∧
      r'.snapshot = { r.snapshot with pc := front.length + r.pc } ∧
      r'.program.toList = front ++ r.program.toList := by
  intro m'
  obtain ⟨n, last, on, stops⟩ := runs_none_iff.1 runs
  obtain ⟨on', nonneg', relative'⟩ := on.relocated nonneg relative front
  obtain ⟨no_jump, stays⟩ := relative' 0 last rfl
  have stops' := step_relocated nonneg' no_jump stays front
  rw [stops] at stops'
  have after : (m.relocated front).StopsAfter n (r.relocated front) := ⟨_, on', stops'⟩
  -- The fields that tell of an earlier stop are all that is left of a difference.
  have same : (m.relocated front).step = m'.step := rfl
  have after' : m'.StopsAfter n (r.relocated front) := (stopsAfter_congr same).1 after
  refine ⟨n, r.relocated front, ⟨last, on, stops⟩, after', runs_none_iff.2 ⟨n, after'⟩, rfl, rfl,
    rfl, ?_⟩
  simp [relocated]

/-- Jumps over a byte that is no operation and back to it, behind three other bytes. -/
theorem stopsAfter_relocated_jumps :
    let m : Machine := { fresh with
      registers := (fresh.registers.set 1 6).set 2 6
      program := #[7, 1, 0, 0, 0xEE, 0, 0, 0, 8, 2] }
    let r : Machine := { m with
      pc := 5, stop := some .illegal, diagnosis := some (.illegal 0xEE 4) }
    let m' : Machine := { m with pc := 3, program := #[0, 6, 8] ++ m.program }
    0 ≤ m.pc ∧ m.Runs none r ∧ m.StaysRelative ∧
      ∃ n r', m'.StopsAfter n r' ∧ r'.stop = some .illegal ∧
        r'.diagnosis = some (.illegal 0xEE 7) ∧ r'.pc = 8 := by
  intro m r m'
  have nonneg : 0 ≤ m.pc := by decide
  have runs : m.Runs none r := ⟨3, by decide +kernel⟩
  have stops : m.StopsAfter 2 r :=
    ⟨m.afterSteps 2, goesOn_iff_afterSteps.2 ⟨by decide +kernel, rfl⟩, by decide +kernel⟩
  have relative : m.StaysRelative := stops.staysRelative_iff.2 (by decide +kernel)
  obtain ⟨n, r', -, after, -, stop, told, state, -⟩ :=
    stopsAfter_relocated nonneg runs relative [0, 6, 8]
  exact ⟨nonneg, runs, relative, n, r', after, stop, told, congrArg Snapshot.pc state⟩

end Machine

end RegisterMachine
