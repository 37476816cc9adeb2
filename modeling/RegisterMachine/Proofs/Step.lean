import RegisterMachine.Proofs.Handlers

/-! The ways in which a step can end. Main statement (`step_stepped`): the counter is outside the
    program, or the code byte is a halt or no operation, or the operands are faulty, or the
    instruction completes; what is left of the machine is told for each of them. -/

namespace RegisterMachine

namespace Fetch

variable {α β : Type}

/-- Nothing but a fault can break off the reading. -/
def OnlyFaults (f : Fetch α) : Prop :=
  ∀ (m : Machine) (address : Int) (t : Trap) (behind : Int),
    f.result m address = .error t behind → ∃ cause, t = .fault cause

theorem onlyFaults_compositional : Compositional @OnlyFaults where
  pure _ _ _ _ _ := nofun
  counter _ _ _ _ := nofun
  fail cause := by rintro _ _ _ _ ⟨⟩; exact ⟨cause, rfl⟩
  view _ hg m := hg m.snapshot m
  bind {_ _ f g} hf hg := by
    intro m address t behind h
    cases hr : f.result m address with
    | ok x mid => rw [result_bind_of_ok hr] at h; exact hg x _ _ _ _ h
    | error t' mid => rw [result_bind_of_error hr] at h; cases h; exact hf _ _ _ _ hr
  byte := by
    intro m address t behind h
    rw [result_byte] at h
    split at h <;> cases h
    exact ⟨_, rfl⟩
  half := by
    intro m address t behind h
    rw [result_half] at h
    split at h <;> cases h
    exact ⟨_, rfl⟩

theorem result_instruction {m : Machine} {address : Int} {code : UInt8}
    (h : m.byteAt? address = some code) : instruction.result m address =
      (operands address code (Opcode.ofByte code)).result m (address + 1) := by
  have read_code : byte.result m address = .ok code (address + 1) := by rw [result_byte, h]
  rw [instruction, result_bind_of_ok (result_counter m address), result_bind_of_ok read_code]

/-- Unless it is a fault, what breaks off an instruction is found right behind the code byte. -/
theorem result_instruction_trap {m : Machine} {address behind : Int} {t : Trap}
    (h : instruction.result m address = .error t behind) :
    (∃ cause, t = .fault cause) ∨ behind = address + 1 := by
  cases at_address : m.byteAt? address with
  | none =>
    have no_code : byte.result m address = .error (.fault (.pastEnd address)) address := by
      rw [result_byte, at_address]
    rw [instruction, result_bind_of_ok (result_counter m address),
      result_bind_of_error no_code] at h
    cases h
    exact .inl ⟨_, rfl⟩
  | some code =>
    rw [result_instruction at_address] at h
    by_cases hh : Opcode.ofByte code = .hlt
    · rw [hh] at h; cases h; exact .inr rfl
    by_cases hi : Opcode.ofByte code = .illegal
    · rw [hi] at h; cases h; exact .inr rfl
    exact .inl (onlyFaults_compositional.operands address code hh hi _ _ _ _ h)

end Fetch

namespace Machine

/-- The machine with its stop fields reset, as it is when a step begins. -/
def cleared (m : Machine) : Machine := { m with stop := none, diagnosis := none }

@[simp] theorem cleared_inBounds (m : Machine) : m.cleared.inBounds = m.inBounds := rfl
@[simp] theorem cleared_step (m : Machine) : m.cleared.step = m.step := rfl

theorem inBounds_eq_isSome (m : Machine) : m.inBounds = (m.byteAt? m.pc).isSome := by
  rw [inBounds, byteAt?]
  by_cases h : 0 ≤ m.pc
  · rw [if_pos h, Bool.eq_iff_iff, decide_eq_true_iff, isSome_getElem?]; omega
  · simp [h]

theorem execNext_of_ok {m : Machine} {effect : Effect} {pc : Int}
    (h : Fetch.instruction.result m m.pc = .ok effect pc) :
    m.execNext = (none, { m with pc }.apply effect) := by
  rw [execNext_eq, fetch, ← Fetch.result, h]

theorem execNext_of_error {m : Machine} {trap : Trap} {pc : Int}
    (h : Fetch.instruction.result m m.pc = .error trap pc) :
    m.execNext = (some trap, { m with pc }) := by
  rw [execNext_eq, fetch, ← Fetch.result, h]

/-- The machine carries out the instruction at its counter, which leaves `m'`. -/
def Completes (m m' : Machine) : Prop := m.inBounds ∧ m.cleared.execNext = (none, m')

/-- The ways in which a step can end. -/
inductive Stepped (m : Machine) : Bool × Machine → Prop where
  | outside (out : m.inBounds = false) :
    Stepped m (false, { m with stop := some .ended, diagnosis := none })
  | halted {code : UInt8} (at_pc : m.byteAt? m.pc = some code)
      (is_halt : Opcode.ofByte code = .hlt) :
    Stepped m (false, { m with pc := m.pc + 1, stop := some .halt, diagnosis := none })
  | illegal {code : UInt8} (at_pc : m.byteAt? m.pc = some code)
      (is_illegal : Opcode.ofByte code = .illegal) :
    Stepped m (false, { m with
      pc := m.pc + 1, stop := some .illegal, diagnosis := some (.illegal code m.pc) })
  | faulted (inside : m.inBounds) (cause : Fault) {pc : Int}
      (fetched : Fetch.instruction.result m.cleared m.pc = .error (.fault cause) pc) :
    Stepped m (false, { m with stop := some .fault, diagnosis := some (.fault cause) })
  | ended {m' : Machine} (done : m.Completes m') (out : m'.inBounds = false) :
    Stepped m (false, { m' with stop := some .ended })
  | continued {m' : Machine} (done : m.Completes m') (inside : m'.inBounds) : Stepped m (true, m')

@[simp] theorem apply_stop (m : Machine) (e : Effect) : (m.apply e).stop = m.stop := by
  cases e <;> rfl

@[simp] theorem apply_diagnosis (m : Machine) (e : Effect) :
    (m.apply e).diagnosis = m.diagnosis := by
  cases e <;> rfl

@[simp] theorem apply_program (m : Machine) (e : Effect) : (m.apply e).program = m.program := by
  cases e <;> rfl

/-- What an instruction that completes leaves is what its effect makes of the machine behind it. -/
theorem Completes.exists_effect {m m' : Machine} (h : m.Completes m') : ∃ effect pc,
    Fetch.instruction.result m.cleared m.pc = .ok effect pc ∧
      m' = { m.cleared with pc }.apply effect := by
  obtain ⟨-, executed⟩ := h
  cases hr : Fetch.instruction.result m.cleared m.pc with
  | ok effect pc =>
    rw [execNext_of_ok hr] at executed
    cases executed
    exact ⟨effect, pc, rfl, rfl⟩
  | error trap pc =>
    rw [execNext_of_error hr] at executed
    cases executed

theorem Completes.stop {m m' : Machine} (h : m.Completes m') : m'.stop = none := by
  obtain ⟨effect, pc, -, rfl⟩ := h.exists_effect
  rw [apply_stop]; rfl

theorem Completes.diagnosis {m m' : Machine} (h : m.Completes m') : m'.diagnosis = none := by
  obtain ⟨effect, pc, -, rfl⟩ := h.exists_effect
  rw [apply_diagnosis]; rfl

theorem Completes.program {m m' : Machine} (h : m.Completes m') : m'.program = m.program := by
  obtain ⟨effect, pc, -, rfl⟩ := h.exists_effect
  rw [apply_program]; rfl

theorem step_of_outside {m : Machine} (out : m.inBounds = false) :
    m.step = (false, { m with stop := some .ended, diagnosis := none }) := by
  rw [← cleared_inBounds] at out
  exact if_neg (ne_true_of_eq_false out)

theorem step_of_inBounds {m : Machine} (inside : m.inBounds) :
    m.step = match m.cleared.execNext with
      | (none, m') => if m'.inBounds then (true, m') else (false, { m' with stop := some .ended })
      | (some .halt, m') => (false, { m' with stop := some .halt })
      | (some (.illegal byte address), m') =>
        (false, { m' with stop := some .illegal, diagnosis := some (.illegal byte address) })
      | (some (.fault cause), m') =>
        (false, { m' with pc := m.pc, stop := some .fault, diagnosis := some (.fault cause) }) :=
  if_pos inside

theorem step_of_fault {m : Machine} {cause : Fault} {pc : Int} (inside : m.inBounds)
    (h : Fetch.instruction.result m.cleared m.pc = .error (.fault cause) pc) :
    m.step = (false, { m with stop := some .fault, diagnosis := some (.fault cause) }) := by
  rw [step_of_inBounds inside, execNext_of_error h]; rfl

theorem step_of_completes {m m' : Machine} (h : m.Completes m') :
    m.step = if m'.inBounds then (true, m') else (false, { m' with stop := some .ended }) := by
  rw [step_of_inBounds h.1, h.2]

theorem step_stepped (m : Machine) : Stepped m m.step := by
  cases at_pc : m.byteAt? m.pc with
  | none =>
    have out : m.inBounds = false := by rw [inBounds_eq_isSome, at_pc]; rfl
    rw [step_of_outside out]; exact .outside out
  | some code =>
    have inside : m.inBounds := by rw [inBounds_eq_isSome, at_pc]; rfl
    have fetched := Fetch.result_instruction (m := m.cleared) at_pc
    by_cases hh : Opcode.ofByte code = .hlt
    · rw [hh] at fetched
      rw [step_of_inBounds inside, execNext_of_error fetched]
      exact .halted at_pc hh
    by_cases hi : Opcode.ofByte code = .illegal
    · rw [hi] at fetched
      rw [step_of_inBounds inside, execNext_of_error fetched]
      exact .illegal at_pc hi
    cases hr : Fetch.instruction.result m.cleared m.pc with
    | error trap pc =>
      have faulty := Fetch.onlyFaults_compositional.operands m.pc code hh hi
      obtain ⟨cause, rfl⟩ := faulty _ _ _ _ (fetched.symm.trans hr)
      rw [step_of_fault inside hr]; exact .faulted inside cause hr
    | ok effect pc =>
      have done : m.Completes _ := ⟨inside, execNext_of_ok hr⟩
      rw [step_of_completes done]
      split
      · exact .continued done ‹_›
      · exact .ended done (eq_false_of_ne_true ‹_›)

/-- A step after which execution may go on has completed an instruction. -/
theorem completes_of_step {m m' : Machine} (h : m.step = (true, m')) : m.Completes m' := by
  have stepped := m.step_stepped
  rw [h] at stepped
  cases stepped with
  | continued done _ => exact done

end Machine

end RegisterMachine
