import RegisterMachine.Proofs.Step

/-! A step as decoding and execution. All that a step looks at is the state before it and the
    window, the four bytes at the counter or as many as there are of them. Each operation has a list
    of checks, and the first one that fails decides on the fault; if none fails, the new state is
    told at once from the values before the step, so that it does not matter whether a destination
    is also a source. Main statement (`step_eq_decoded`). -/

namespace RegisterMachine

/-- Something that may be wrong with an instruction, and the fault that it is. -/
structure Check where
  fails : Bool
  fault : Fault
  deriving DecidableEq

/-- The fault of the first check that fails. -/
def Check.first (checks : List Check) : Option Fault := (checks.find? fails).map fault

namespace Machine

/-- The bytes at the counter: a whole word, or what there is of it. -/
def window (m : Machine) : List UInt8 :=
  if 0 ≤ m.pc then (m.program.toList.drop m.pc.toNat).take Instruction.size else []

end Machine

namespace Window

variable (m : Machine)

/-- The `k`-th byte of the window. -/
def byte (k : Nat) : UInt8 := m.window.getD k 0

/-- The register that the `k`-th byte names, if it names one. -/
def register (k : Nat) : Register :=
  ⟨(byte m k).toNat % registerCount, Nat.mod_lt _ (by decide)⟩

/-- The value of the register that the `k`-th byte names. -/
def value (k : Nat) : Int := m.registers.get (register m k)

/-- The number in the `k`-th byte and the one behind it, the higher one first. -/
def half (k : Nat) : Nat := (byte m k).toNat * 256 + (byte m (k + 1)).toNat

/-! ### Checks -/

/-- As many bytes as are read at once, from the `k`-th on, are there. -/
def present (k size : Nat) : Check where
  fails := m.window.length < k + size
  fault := .pastEnd (m.pc + k)

/-- The `k`-th byte is there, and then it names a register. -/
def names (k : Nat) : List Check :=
  [present m k 1, { fails := registerCount ≤ (byte m k).toNat, fault := .noRegister (byte m k) }]

/-- The checks of an operation, in the order in which they are made. -/
def checks : Opcode → List Check
  | .hlt | .illegal => []
  | .load => names m 1 ++ [present m 2 2]
  | .add | .sub | .mul => names m 1 ++ names m 2 ++ names m 3
  | .div => names m 1 ++ names m 2 ++
      [{ fails := value m 2 = 0, fault := .divisionByZero }] ++ names m 3
  | .jmp | .jmpf | .jmpb => names m 1
  | .eq | .neq | .gt | .lt | .gteq | .lteq => names m 1 ++ names m 2 ++ [present m 3 1]
  | .jeq => names m 1 ++ if m.flag then [] else [present m 2 2]
  | .alloc => names m 1 ++
      [{ fails := value m 1 < 0, fault := .negativeAllocation (value m 1) },
        { fails := m.heap.size + value m 1 > heapLimit, fault := .heapExceeded (value m 1) },
        present m 2 2]

/-! ### Effects -/

/-- The state behind the word, with a value in the register that the `k`-th byte names. -/
def written (k : Nat) (v : Int) : Machine :=
  { m with pc := m.pc + 4, registers := m.registers.set (register m k) v,
           out := .register (register m k) }

/-- The state behind the word, with the outcome of a comparison. -/
def compared (result : Bool) : Machine := { m with pc := m.pc + 4, flag := result, out := .flag }

/-- What an operation makes of the state if no check fails. All values are those from before. -/
def effect : Opcode → Machine
  | .hlt | .illegal => { m with pc := m.pc + 1 }
  | .load => written m 1 (if half m 2 < 0x8000 then (half m 2 : Int) else half m 2 - 0x10000)
  | .add => written m 3 (Word.signed (value m 1 + value m 2))
  | .sub => written m 3 (Word.signed (value m 1 - value m 2))
  | .mul => written m 3 (Word.signed (value m 1 * value m 2))
  | .div =>
    let quotient := (value m 1).tdiv (value m 2)
    { written m 3 (Word.signed quotient) with
      remainder := Word.unsigned (value m 1 - quotient * value m 2) }
  | .jmp => { m with pc := value m 1 }
  | .jmpf => { m with pc := m.pc + 2 + value m 1 }
  | .jmpb => { m with pc := m.pc + 2 - value m 1 }
  | .eq => compared m (value m 1 = value m 2)
  | .neq => compared m (value m 1 ≠ value m 2)
  | .gt => compared m (value m 1 > value m 2)
  | .lt => compared m (value m 1 < value m 2)
  | .gteq => compared m (value m 1 ≥ value m 2)
  | .lteq => compared m (value m 1 ≤ value m 2)
  | .jeq => { m with pc := if m.flag then value m 1 else m.pc + 4 }
  | .alloc =>
    { m with pc := m.pc + 4, heap := m.heap ++ Array.replicate (value m 1).toNat 0 }

/-- The step of an operation whose code byte is in the window. -/
def outcome (code : UInt8) : Opcode → Bool × Machine
  | .hlt => (false, { effect m.cleared .hlt with stop := some .halt })
  | .illegal => (false, { effect m .illegal with
      stop := some .illegal, diagnosis := some (.illegal code m.pc) })
  | op =>
    match Check.first (checks m op) with
    | some fault => (false, { m with stop := some .fault, diagnosis := some (.fault fault) })
    | none =>
      let m' := effect m.cleared op
      if m'.inBounds then (true, m') else (false, { m' with stop := some .ended })

end Window

/-- The step that the window decides on. -/
def Machine.decoded (m : Machine) : Bool × Machine :=
  match m.window with
  | [] => (false, { m with stop := some .ended, diagnosis := none })
  | code :: _ => Window.outcome m code (Opcode.ofByte code)

/-! ### Readings as checks -/

theorem Check.first_cons (c : Check) (cs : List Check) :
    first (c :: cs) = if c.fails then some c.fault else first cs := by
  rw [first, List.find?_cons]
  cases c.fails <;> rfl

theorem Check.first_singleton (c : Check) :
    first [c] = if c.fails then some c.fault else none := first_cons c []

theorem Check.first_append (cs ds : List Check) : first (cs ++ ds) = (first cs).or (first ds) := by
  rw [first, List.find?_append, first, first]
  cases cs.find? fails <;> rfl

namespace Fetch

variable {α β : Type} {m : Machine}

/-- A reading that starts at the `k`-th byte of the window makes the given checks. If one fails it
    breaks off with that fault, and if none does it gives `v` and has come to the `j`-th byte. -/
inductive Performs (m : Machine) (f : Fetch α) (k : Nat) (checks : List Check) (v : α) (j : Nat) :
    Prop where
  | broken {fault : Fault} {behind : Int} (first : Check.first checks = some fault)
      (result : f.result m (m.pc + k) = .error (.fault fault) behind)
  | passed (first : Check.first checks = none) (result : f.result m (m.pc + k) = .ok v (m.pc + j))

/-- Checks are made one after the other. -/
theorem Performs.bind {f : Fetch α} {g : α → Fetch β} {k j l : Nat} {cs ds : List Check} {v : α}
    {w : β} (hf : Performs m f k cs v j) (hg : Performs m (g v) j ds w l) :
    Performs m (f >>= g) k (cs ++ ds) w l := by
  have first_eq := Check.first_append cs ds
  cases hf with
  | broken first result =>
    rw [first, Option.some_or] at first_eq
    exact .broken first_eq (result_bind_of_error result g)
  | passed first result =>
    rw [first, Option.none_or] at first_eq
    have result_eq := result_bind_of_ok result g
    cases hg with
    | broken first' result' => exact .broken (first_eq.trans first') (result_eq.trans result')
    | passed first' result' => exact .passed (first_eq.trans first') (result_eq.trans result')

/-- The last thing that a reading does is to put its value together. -/
theorem Performs.map {f : Fetch α} {g : α → Fetch β} {k j : Nat} {cs : List Check} {v : α} {w : β}
    (hf : Performs m f k cs v j) (hg : (g v).result m (m.pc + j) = .ok w (m.pc + j)) :
    Performs m (f >>= g) k cs w j := by
  have read : Performs m (f >>= g) k (cs ++ []) w j := hf.bind (.passed rfl hg)
  rwa [List.append_nil] at read

theorem Performs.read {g : Machine → Fetch α} {k j : Nat} {cs : List Check} {v : α}
    (h : Performs m (g m) k cs v j) : Performs m (read >>= g) k cs v j := by
  cases h with
  | broken first result => exact .broken first result
  | passed first result => exact .passed first result

theorem Performs.of_failed {f : Fetch α} {c : Prop} [Decidable c] {cause : Fault} {k j : Nat}
    {behind : Int} {ds : List Check} {v : α} (hc : c)
    (result : f.result m (m.pc + k) = .error (.fault cause) behind) :
    Performs m f k ({ fails := c, fault := cause } :: ds) v j := by
  have first_eq := Check.first_cons { fails := c, fault := cause } ds
  rw [if_pos (decide_eq_true hc)] at first_eq
  exact .broken first_eq result

theorem Performs.of_passed {f : Fetch α} {c : Prop} [Decidable c] {cause : Fault} {k j : Nat}
    {ds : List Check} {v : α} (hc : ¬ c) (h : Performs m f k ds v j) :
    Performs m f k ({ fails := c, fault := cause } :: ds) v j := by
  have first_eq := Check.first_cons { fails := c, fault := cause } ds
  rw [if_neg (by simpa using hc)] at first_eq
  cases h with
  | broken first result => exact .broken (first_eq.trans first) result
  | passed first result => exact .passed (first_eq.trans first) result

/-- A check in front of the rest of a reading. -/
theorem Performs.check {c : Prop} [Decidable c] {cause : Fault} {rest : PUnit → Fetch α}
    {k j : Nat} {ds : List Check} {v : α} (h : Performs m (rest ⟨⟩) k ds v j) :
    Performs m (if c then fail cause >>= rest else rest ⟨⟩) k
      ({ fails := c, fault := cause } :: ds) v j := by
  by_cases hc : c
  · rw [if_pos hc]
    exact .of_failed hc rfl
  · rw [if_neg hc]
    exact .of_passed hc h

/-- The check of a divisor, behind which the reading goes on with the quotient. -/
theorem Performs.quotient {a b : Int} {rest : Int → Fetch α} {k j : Nat} {ds : List Check} {v : α}
    (h : Performs m (rest (a.tdiv b)) k ds v j) :
    Performs m (match Word.quotient? a b with
      | none => fail .divisionByZero
      | some q => rest q) k ({ fails := b = 0, fault := .divisionByZero } :: ds) v j := by
  by_cases zero : b = 0
  · rw [Word.quotient?_eq_none_iff.2 zero]
    exact .of_failed zero rfl
  · rw [Word.quotient?_of_ne_zero a zero]
    exact .of_passed zero h

/-! ### Bytes -/

theorem getElem?_window (inside : 0 ≤ m.pc) {k : Nat} (hk : k < Instruction.size) :
    m.window[k]? = m.byteAt? (m.pc + k) := by
  have place : (m.pc + k).toNat = m.pc.toNat + k := by omega
  rw [Machine.window, if_pos inside, List.getElem?_take_of_lt hk, List.getElem?_drop,
    Machine.byteAt?, if_pos (by omega), place, Array.getElem?_toList]

theorem byteAt?_of_missing (inside : 0 ≤ m.pc) {k : Nat} (hk : k < Instruction.size)
    (missing : m.window.length ≤ k) : m.byteAt? (m.pc + k) = none := by
  rw [← getElem?_window inside hk, List.getElem?_eq_none missing]

theorem byteAt?_of_present (inside : 0 ≤ m.pc) {k : Nat} (hk : k < Instruction.size)
    (there : k < m.window.length) : m.byteAt? (m.pc + k) = some (Window.byte m k) := by
  rw [← getElem?_window inside hk, Window.byte, List.getD_eq_getElem?_getD,
    List.getElem?_eq_getElem there, Option.getD_some]

theorem performs_byte (inside : 0 ≤ m.pc) {k : Nat} (hk : k < Instruction.size) :
    Performs m byte k [Window.present m k 1] (Window.byte m k) (k + 1) := by
  by_cases missing : m.window.length < k + 1
  · have first : Check.first [Window.present m k 1] = some (.pastEnd (m.pc + k)) := by
      simp [Check.first_singleton, Window.present, missing]
    have failed : byte.result m (m.pc + k) = .error (.fault (.pastEnd (m.pc + k))) (m.pc + k) := by
      rw [result_byte, byteAt?_of_missing inside hk (by omega)]
    exact .broken first failed
  · refine .passed ?_ ?_
    · simp [Check.first_singleton, Window.present, missing]
    · rw [result_byte, byteAt?_of_present inside hk (by omega), Int.natCast_succ, Int.add_assoc]

theorem performs_half (inside : 0 ≤ m.pc) {k : Nat} (hk : k + 1 < Instruction.size) :
    Performs m half k [Window.present m k 2] (Window.half m k) (k + 2) := by
  have next : m.pc + k + 1 = m.pc + (k + 1 : Nat) := by omega
  by_cases missing : m.window.length < k + 2
  · have first : Check.first [Window.present m k 2] = some (.pastEnd (m.pc + k)) := by
      simp [Check.first_singleton, Window.present, missing]
    have failed : half.result m (m.pc + k) = .error (.fault (.pastEnd (m.pc + k))) (m.pc + k) := by
      rw [result_half, next, byteAt?_of_missing inside hk (by omega)]
      split <;> simp_all
    exact .broken first failed
  · have two : m.pc + k + 2 = m.pc + (k + 2 : Nat) := by omega
    refine .passed ?_ ?_
    · simp [Check.first_singleton, Window.present, missing]
    · rw [result_half, next, byteAt?_of_present inside hk (by omega),
        byteAt?_of_present inside (by omega) (by omega), two, Window.half]

theorem performs_register (inside : 0 ≤ m.pc) {k : Nat} (hk : k < Instruction.size) :
    Performs m register k (Window.names m k) (Window.register m k) (k + 1) := by
  refine Performs.bind (performs_byte inside hk) (?_ : Performs m _ (k + 1) [_] _ (k + 1))
  by_cases small : (Window.byte m k).toNat < registerCount
  · rw [dif_pos small]
    refine .passed ?_ ?_
    · simp [Check.first_singleton, small]
    · have same : Window.register m k = ⟨(Window.byte m k).toNat, small⟩ :=
        Fin.ext (Nat.mod_eq_of_lt small)
      rw [same]; rfl
  · rw [dif_neg small]
    refine .broken ?_ rfl
    simp [Check.first_singleton, small]

theorem performs_source (inside : 0 ≤ m.pc) {k : Nat} (hk : k < Instruction.size) :
    Performs m source k (Window.names m k) (Window.value m k) (k + 1) :=
  (performs_register inside hk).map rfl

/-! ### Operations -/

/-- Reading the operands comes to the checks, and to `m'` if none of them fails. -/
def Decodes (m : Machine) (f : Fetch Effect) (checks : List Check) (m' : Machine) : Prop :=
  ∃ effect j, Performs m f 1 checks effect j ∧ { m with pc := m.pc + j }.apply effect = m'

variable (inside : 0 ≤ m.pc)
include inside

theorem decodes_arithmetic (f : Int → Int → Int) : Decodes m (arithmetic f)
    (Window.names m 1 ++ Window.names m 2 ++ Window.names m 3)
    (Window.written m 3 (Word.signed (f (Window.value m 1) (Window.value m 2)))) := by
  refine ⟨.write (Window.register m 3) (f (Window.value m 1) (Window.value m 2)), 4, ?_, rfl⟩
  rw [List.append_assoc]
  exact (performs_source inside (by decide)).bind <| (performs_source inside (by decide)).bind <|
    (performs_register inside (by decide)).map rfl

theorem decodes_division : Decodes m division (Window.checks m .div) (Window.effect m .div) := by
  let quotient := (Window.value m 1).tdiv (Window.value m 2)
  let rest := Window.value m 1 - quotient * Window.value m 2
  refine ⟨.divide (Window.register m 3) quotient rest, 4, ?_, rfl⟩
  rw [Window.checks, List.append_assoc, List.append_assoc]
  exact (performs_source inside (by decide)).bind <| (performs_source inside (by decide)).bind <|
    .quotient <| (performs_register inside (by decide)).map rfl

theorem decodes_comparison (f : Int → Int → Bool) : Decodes m (comparison f)
    (Window.names m 1 ++ Window.names m 2 ++ [Window.present m 3 1])
    (Window.compared m (f (Window.value m 1) (Window.value m 2))) := by
  refine ⟨.compare (f (Window.value m 1) (Window.value m 2)), 4, ?_, rfl⟩
  rw [List.append_assoc]
  exact (performs_source inside (by decide)).bind <| (performs_source inside (by decide)).bind <|
    (performs_byte inside (by decide)).map rfl

theorem decodes_branch (f : Int → Int → Int) : Decodes m (branch f) (Window.names m 1)
    { m with pc := f (m.pc + 2) (Window.value m 1) } :=
  ⟨.jump (f (m.pc + 2) (Window.value m 1)), 2, (performs_source inside (by decide)).map rfl, rfl⟩

theorem decodes_conditional :
    Decodes m conditional (Window.checks m .jeq) (Window.effect m .jeq) := by
  -- The padding is read only if there is no jump.
  cases flag_eq : m.flag with
  | true =>
    refine ⟨.jump (Window.value m 1), 2, ?_, ?_⟩
    · rw [Window.checks, flag_eq, if_pos rfl, List.append_nil]
      refine (performs_source inside (by decide)).map ?_
      rw [result_read_bind, flag_eq]; rfl
    · rw [Window.effect, flag_eq]; rfl
  | false =>
    refine ⟨.nothing, 4, ?_, ?_⟩
    · rw [Window.checks, flag_eq, if_neg (by decide)]
      refine (performs_source inside (by decide)).bind <| .read ?_
      rw [flag_eq]
      exact (performs_half inside (by decide)).map rfl
    · rw [Window.effect, flag_eq]; rfl

theorem decodes_allocation :
    Decodes m allocation (Window.checks m .alloc) (Window.effect m .alloc) := by
  refine ⟨.grow (Window.value m 1).toNat, 4, ?_, rfl⟩
  exact (performs_source inside (by decide)).bind <| .check <| .read <| .check <|
    (performs_half inside (by decide)).map rfl

theorem decodes_load (address : Int) (code : UInt8) :
    Decodes m (operands address code .load) (Window.checks m .load) (Window.effect m .load) := by
  refine ⟨.write (Window.register m 1) ((Window.half m 2 : Int).bmod 65536), 4, ?_, ?_⟩
  · exact (performs_register inside (by decide)).bind <|
      ((performs_half inside (by decide)).map rfl).map rfl
  · have half_lt : Window.half m 2 < 65536 := by
      have high := (Window.byte m 2).toNat_lt
      have low := (Window.byte m (2 + 1)).toNat_lt
      rw [Window.half]; omega
    have bmod_eq : (Window.half m 2 : Int).bmod 65536 =
        if Window.half m 2 < 0x8000 then (Window.half m 2 : Int)
        else Window.half m 2 - 0x10000 := by
      rw [Int.bmod_def]
      split <;> split <;> omega
    have word : Word.IsSigned ((Window.half m 2 : Int).bmod 65536) := by
      rw [bmod_eq, Word.IsSigned]
      split <;> omega
    rw [Machine.apply, Machine.write, Word.signed_of_isSigned word, bmod_eq]
    rfl

/-- Every operation but a halt and an illegal byte makes its checks and has its effect. -/
theorem decodes_operands (address : Int) (code : UInt8) {op : Opcode} (hlt : op ≠ .hlt)
    (legal : op ≠ .illegal) :
    Decodes m (operands address code op) (Window.checks m op) (Window.effect m op) := by
  cases op with
  | hlt => exact absurd rfl hlt
  | illegal => exact absurd rfl legal
  | load => exact decodes_load inside address code
  | add | sub | mul => exact decodes_arithmetic inside _
  | div => exact decodes_division inside
  | jmp | jmpf | jmpb => exact decodes_branch inside _
  | eq | neq | gt | lt | gteq | lteq => exact decodes_comparison inside _
  | jeq => exact decodes_conditional inside
  | alloc => exact decodes_allocation inside

end Fetch

theorem Window.outcome_of_operation {m : Machine} {code : UInt8} {op : Opcode} (hlt : op ≠ .hlt)
    (legal : op ≠ .illegal) : outcome m code op = match Check.first (checks m op) with
      | some fault => (false, { m with stop := some .fault, diagnosis := some (.fault fault) })
      | none => if (effect m.cleared op).inBounds then (true, effect m.cleared op)
        else (false, { effect m.cleared op with stop := some .ended }) := by
  cases op with
  | hlt => exact absurd rfl hlt
  | illegal => exact absurd rfl legal
  | _ => rfl

namespace Machine

variable {m : Machine}

theorem window_eq_nil_iff : m.window = [] ↔ m.inBounds = false := by
  rw [window, inBounds, decide_eq_false_iff_not]
  by_cases h : 0 ≤ m.pc
  · rw [if_pos h, List.take_eq_nil_iff, List.drop_eq_nil_iff, Array.length_toList]
    have size_ne : Instruction.size ≠ 0 := by decide
    omega
  · simp [h]

theorem byteAt?_of_window {code : UInt8} {rest : List UInt8} (h : m.window = code :: rest) :
    0 ≤ m.pc ∧ m.byteAt? m.pc = some code := by
  have inside : 0 ≤ m.pc := by
    refine Decidable.byContradiction fun outside => ?_
    rw [window, if_neg outside] at h
    cases h
  have at_pc := Fetch.getElem?_window inside (k := 0) (by decide)
  rw [h] at at_pc
  exact ⟨inside, by simpa using at_pc.symm⟩

/-- A step of an operation other than a halt is decided on by the first check that fails. -/
theorem step_of_decodes {code : UInt8} (at_pc : m.byteAt? m.pc = some code) {checks : List Check}
    {m' : Machine}
    (h : Fetch.Decodes m.cleared (Fetch.operands m.pc code (Opcode.ofByte code)) checks m') :
    m.step = match Check.first checks with
      | some fault => (false, { m with stop := some .fault, diagnosis := some (.fault fault) })
      | none => if m'.inBounds then (true, m') else (false, { m' with stop := some .ended }) := by
  have inside : m.inBounds := by rw [inBounds_eq_isSome, at_pc]; rfl
  have fetched := Fetch.result_instruction (m := m.cleared) at_pc
  obtain ⟨effect, j, performs, rfl⟩ := h
  cases performs with
  | broken first result => rw [first, step_of_fault inside (fetched.trans result)]
  | passed first result =>
    have done : m.Completes _ := ⟨inside, execNext_of_ok (fetched.trans result)⟩
    rw [first, step_of_completes done]

theorem step_of_window {code : UInt8} {rest : List UInt8} (h : m.window = code :: rest) :
    m.step = Window.outcome m code (Opcode.ofByte code) := by
  obtain ⟨inside, at_pc⟩ := byteAt?_of_window h
  have in_bounds : m.inBounds := by rw [inBounds_eq_isSome, at_pc]; rfl
  have fetched := Fetch.result_instruction (m := m.cleared) at_pc
  by_cases hlt : Opcode.ofByte code = .hlt
  · rw [hlt] at fetched ⊢
    rw [step_of_inBounds in_bounds, execNext_of_error fetched]
    rfl
  by_cases illegal : Opcode.ofByte code = .illegal
  · rw [illegal] at fetched ⊢
    rw [step_of_inBounds in_bounds, execNext_of_error fetched]
    rfl
  rw [Window.outcome_of_operation hlt illegal]
  exact step_of_decodes at_pc (Fetch.decodes_operands (m := m.cleared) inside _ _ hlt illegal)

/-- A step is what the state and the window say. -/
theorem step_eq_decoded (m : Machine) : m.step = m.decoded := by
  rw [decoded]
  cases window_eq : m.window with
  | nil => exact step_of_outside (window_eq_nil_iff.mp window_eq)
  | cons code rest => exact step_of_window window_eq

-- A zero divisor is found before the destination is missed.
example : ({ program := #[Opcode.div.byte, 1, 1] } : Machine).step.2.diagnosis =
    some (.fault .divisionByZero) := by decide

end Machine

end RegisterMachine
