import RegisterMachine.Proofs.Loading

/-! What holds of a machine however it is used. Registers and the remainder are words, the heap is
    made of zeros and stays within its limit, and the counter never gets further from the program
    than a register can say. One instruction keeps all this: a reading moves the counter over bytes
    of the program only, the checks of an operation bound what it asks for, and what is written is
    wrapped. Main statement (`bounds_of_reached`): so it is after every sequence of calls, failed
    ones included, and in the course of it the program and the heap only grow. -/

namespace RegisterMachine

/-- All registers of the machine hold words. -/
def Machine.HoldsWords (m : Machine) : Prop := ∀ r, Word.IsSigned (m.registers.get r)

/-- What an effect asks of a machine is within its bounds. -/
def Effect.Modest (m : Machine) : Effect → Prop
  | .jump target => -0x80000000 ≤ target ∧ target ≤ m.program.size + 0x80000000
  | .grow size => m.heap.size + size ≤ heapLimit
  | .nothing | .write .. | .divide .. | .compare _ => True

/-! ### Readings -/

namespace Fetch

variable {α β : Type} {m : Machine} {address behind : Int}

/-- The address lies in the program or right behind it. -/
def Within (m : Machine) (address : Int) : Prop := 0 ≤ address ∧ address ≤ m.program.size

theorem within_of_byteAt? {b : UInt8} (h : m.byteAt? address = some b) :
    Within m (address + 1) := by
  rw [Machine.byteAt?] at h
  split at h
  · obtain ⟨bound, -⟩ := Array.getElem?_eq_some_iff.1 h
    constructor <;> omega
  · cases h

/-- Where a reading leaves the counter. -/
def landing (f : Fetch α) (m : Machine) (address : Int) : Int :=
  match f.result m address with
  | .ok _ behind => behind
  | .error _ behind => behind

theorem landing_of_ok {f : Fetch α} {x : α} (h : f.result m address = .ok x behind) :
    f.landing m address = behind := by
  rw [landing, h]

theorem landing_of_error {f : Fetch α} {t : Trap} (h : f.result m address = .error t behind) :
    f.landing m address = behind := by
  rw [landing, h]

/-- A reading moves the counter over bytes of the program only, if at all. -/
def StaysWithin (f : Fetch α) : Prop :=
  ∀ m address, f.landing m address = address ∨ Within m (f.landing m address)

theorem staysWithin_compositional : Compositional @StaysWithin where
  pure _ _ _ := .inl rfl
  counter _ _ := .inl rfl
  fail _ _ _ := .inl rfl
  view _ hg m := hg m.snapshot m
  bind {_ _ f g} hf hg := by
    intro m address
    have first := hf m address
    cases hr : f.result m address with
    | ok x mid =>
      have landing_eq : (f >>= g).landing m address = (g x).landing m mid := by
        rw [landing, result_bind_of_ok hr, landing]
      rw [landing_of_ok hr] at first
      rw [landing_eq]
      rcases hg x m mid with stays | within
      · rw [stays]
        exact first
      · exact .inr within
    | error t mid =>
      rw [landing_of_error hr] at first
      rw [landing_of_error (result_bind_of_error hr g)]
      exact first
  byte := by
    intro m address
    rw [landing, result_byte]
    cases at_address : m.byteAt? address with
    | none => exact .inl rfl
    | some b => exact .inr (within_of_byteAt? at_address)
  half := by
    intro m address
    rw [landing, result_half]
    cases m.byteAt? address with
    | none => exact .inl rfl
    | some high =>
      cases at_next : m.byteAt? (address + 1) with
      | none => exact .inl rfl
      | some low =>
        have within := within_of_byteAt? at_next
        have two : address + 1 + 1 = address + 2 := by omega
        rw [two] at within
        exact .inr within

theorem staysWithin_operands (address : Int) (code : UInt8) (op : Opcode) :
    StaysWithin (operands address code op) := by
  by_cases halt : op = .hlt
  · subst halt; exact fun _ _ => .inl rfl
  by_cases illegal : op = .illegal
  · subst illegal; exact fun _ _ => .inl rfl
  exact staysWithin_compositional.operands address code halt illegal

theorem staysWithin_instruction : StaysWithin instruction :=
  staysWithin_compositional.bind staysWithin_compositional.counter fun address =>
    staysWithin_compositional.bind staysWithin_compositional.byte fun code =>
      staysWithin_operands address code _

theorem result_bind_eq_ok {f : Fetch α} {g : α → Fetch β} {y : β} :
    (f >>= g).result m address = .ok y behind ↔
      ∃ x mid, f.result m address = .ok x mid ∧ (g x).result m mid = .ok y behind := by
  rw [result_bind]
  cases f.result m address with
  | ok x mid =>
    constructor
    · intro h
      exact ⟨x, mid, rfl, h⟩
    · rintro ⟨_, _, ⟨⟩, h⟩
      exact h
  | error t mid => simp

theorem within_of_register {r : Register} (h : register.result m address = .ok r behind) :
    Within m behind := by
  rw [register, result_bind_eq_ok] at h
  obtain ⟨index, mid, read, named⟩ := h
  rw [result_byte] at read
  split at read
  · rename_i at_address
    cases read
    split at named
    · cases named
      exact within_of_byteAt? at_address
    · cases named
  · cases read

theorem within_of_source {value : Int} (h : source.result m address = .ok value behind) :
    (∃ r, value = m.registers.get r) ∧ Within m behind := by
  rw [source, result_bind_eq_ok] at h
  obtain ⟨r, mid, named, looked_up⟩ := h
  rw [result_read_bind] at looked_up
  cases looked_up
  exact ⟨⟨r, rfl⟩, within_of_register named⟩

/-! ### What effects ask for -/

variable {e : Effect}

theorem modest_branch {f : Int → Int → Int} (words : m.HoldsWords)
    (bounds : ∀ at_counter offset, Within m at_counter → Word.IsSigned offset →
      Effect.Modest m (.jump (f at_counter offset)))
    (h : (branch f).result m address = .ok e behind) : e.Modest m := by
  rw [branch, result_bind_eq_ok] at h
  obtain ⟨offset, mid, read, h⟩ := h
  obtain ⟨⟨r, rfl⟩, within⟩ := within_of_source read
  cases h
  exact bounds _ _ within (words r)

theorem modest_conditional (words : m.HoldsWords)
    (h : conditional.result m address = .ok e behind) : e.Modest m := by
  rw [conditional, result_bind_eq_ok] at h
  obtain ⟨target, mid, read, h⟩ := h
  obtain ⟨⟨r, rfl⟩, -⟩ := within_of_source read
  rw [result_read_bind] at h
  split at h
  · cases h
    have word := words r
    rw [Word.IsSigned] at word
    constructor <;> omega
  · obtain ⟨_, _, -, h⟩ := result_bind_eq_ok.1 h
    cases h
    trivial

theorem modest_allocation (h : allocation.result m address = .ok e behind) : e.Modest m := by
  rw [allocation, result_bind_eq_ok] at h
  obtain ⟨size, mid, -, h⟩ := h
  split at h
  · cases h
  · rename_i nonneg
    rw [result_read_bind] at h
    split at h
    · cases h
    · rename_i small
      obtain ⟨_, _, -, h⟩ := result_bind_eq_ok.1 h
      cases h
      rw [Effect.Modest]
      omega

theorem modest_arithmetic {f : Int → Int → Int}
    (h : (arithmetic f).result m address = .ok e behind) : e.Modest m := by
  simp only [arithmetic, result_bind_eq_ok] at h
  obtain ⟨a, _, -, b, _, -, r, _, -, h⟩ := h
  cases h
  trivial

theorem modest_division (h : division.result m address = .ok e behind) : e.Modest m := by
  simp only [division, result_bind_eq_ok] at h
  obtain ⟨a, _, -, b, _, -, h⟩ := h
  split at h
  · cases h
  · obtain ⟨r, _, -, h⟩ := result_bind_eq_ok.1 h
    cases h
    trivial

theorem modest_comparison {f : Int → Int → Bool}
    (h : (comparison f).result m address = .ok e behind) : e.Modest m := by
  simp only [comparison, result_bind_eq_ok] at h
  obtain ⟨a, _, -, b, _, -, padding, _, -, h⟩ := h
  cases h
  trivial

theorem modest_load (h : load.result m address = .ok e behind) : e.Modest m := by
  simp only [load, result_bind_eq_ok] at h
  obtain ⟨r, _, -, value, _, -, h⟩ := h
  cases h
  trivial

/-- No operation asks for more than the machine has room for. -/
theorem modest_operands {start : Int} {code : UInt8} {op : Opcode} (words : m.HoldsWords)
    (h : (operands start code op).result m address = .ok e behind) : e.Modest m := by
  cases op with
  | hlt | illegal => cases h
  | load => exact modest_load h
  | add | sub | mul => exact modest_arithmetic h
  | div => exact modest_division h
  | eq | neq | gt | lt | gteq | lteq => exact modest_comparison h
  | jeq => exact modest_conditional words h
  | alloc => exact modest_allocation h
  | jmp | jmpf | jmpb =>
    refine modest_branch words ?_ h
    rintro at_counter offset ⟨low, high⟩ ⟨least, greatest⟩
    constructor <;> omega

theorem modest_instruction (words : m.HoldsWords)
    (h : instruction.result m address = .ok e behind) : e.Modest m := by
  simp only [instruction, result_bind_eq_ok] at h
  obtain ⟨_, _, -, code, _, -, h⟩ := h
  exact modest_operands words h

end Fetch

/-! ### Instructions -/

namespace Machine

/-- What holds of a machine however it is used. -/
structure Orderly (m : Machine) : Prop where
  registers : m.HoldsWords
  remainder : Word.IsUnsigned m.remainder
  heap_zero : ∀ b ∈ m.heap, b = 0
  heap_size : m.heap.size ≤ heapLimit
  pc : -0x80000000 ≤ m.pc ∧ m.pc ≤ m.program.size + 0x80000000

theorem orderly_fresh : fresh.Orderly where
  registers r := by
    have zero : fresh.registers.get r = 0 := Vector.getElem_replicate r.isLt
    rw [zero]
    constructor <;> decide
  remainder := by constructor <;> decide
  heap_zero := by simp [fresh]
  heap_size := by decide
  pc := by decide

namespace Orderly

variable {m : Machine}

theorem append (h : m.Orderly) (bytes : List UInt8) : (m.append bytes).Orderly := by
  refine { h with pc := ⟨h.pc.1, ?_⟩ }
  have upper := h.pc.2
  have longer : (m.append bytes).program.size = m.program.size + bytes.length := by
    rw [← Array.length_toList, append_program_toList, List.length_append, Array.length_toList]
  show m.pc ≤ (m.append bytes).program.size + 0x80000000
  omega

theorem write (h : m.Orderly) (r : Register) (value : Int) : (m.write r value).Orderly := by
  refine { h with registers := ?_ }
  intro r'
  show Word.IsSigned (m.registers.set r (Word.signed value))[r']
  rw [Fin.getElem_fin, Vector.getElem_set]
  split
  · exact Word.isSigned_signed value
  · exact h.registers r'

theorem apply {e : Effect} (h : m.Orderly) (modest : e.Modest m) : (m.apply e).Orderly := by
  cases e with
  | nothing => exact h
  | write dest value => exact h.write dest value
  | divide dest quotient remainder =>
    exact { h.write dest quotient with remainder := Word.isUnsigned_unsigned remainder }
  | compare result => exact { h with }
  | jump target => exact { h with pc := modest }
  | grow size =>
    refine { h with heap_zero := ?_, heap_size := ?_ }
    · intro b hb
      rcases Array.mem_append.1 hb with old | new
      · exact h.heap_zero b old
      · exact (Array.mem_replicate.1 new).2
    · rw [Machine.apply, Array.size_append, Array.size_replicate]
      exact modest

/-- The counter may be moved by a reading. -/
theorem moved (h : m.Orderly) {pc : Int} (within : pc = m.pc ∨ Fetch.Within m pc) :
    ({ m with pc } : Machine).Orderly := by
  refine { h with pc := ?_ }
  have := h.pc
  rcases within with rfl | ⟨low, high⟩
  · exact h.pc
  · constructor
    · show -0x80000000 ≤ pc
      omega
    · show pc ≤ m.program.size + 0x80000000
      omega

end Orderly

/-! ### Steps, runs and calls -/

/-- What using a machine does to it: what holds of it goes on to hold, and program and heap only
    grow. -/
structure Evolves (m m' : Machine) : Prop where
  orderly : m.Orderly → m'.Orderly
  program : m.program.toList <+: m'.program.toList
  heap : m.heap.size ≤ m'.heap.size

namespace Evolves

variable {m m' m'' : Machine}

theorem refl (m : Machine) : Evolves m m := ⟨fun h => h, List.prefix_rfl, Nat.le_refl _⟩

theorem trans (h : Evolves m m') (h' : Evolves m' m'') : Evolves m m'' where
  orderly o := h'.orderly (h.orderly o)
  program := h.program.trans h'.program
  heap := Nat.le_trans h.heap h'.heap

/-- Nothing depends on why a machine has stopped. -/
theorem stopped (m : Machine) (stop : Option Stop) (diagnosis : Option Trap) :
    Evolves m { m with stop, diagnosis } :=
  ⟨fun h => { h with }, List.prefix_rfl, Nat.le_refl _⟩

theorem append (m : Machine) (bytes : List UInt8) : Evolves m (m.append bytes) where
  orderly h := h.append bytes
  program := by rw [append_program_toList]; exact List.prefix_append ..
  heap := Nat.le_refl _

theorem moved {pc : Int} (within : pc = m.pc ∨ Fetch.Within m pc) : Evolves m { m with pc } :=
  ⟨fun h => h.moved within, List.prefix_rfl, Nat.le_refl _⟩

theorem apply {e : Effect} (modest : m.Orderly → e.Modest m) : Evolves m (m.apply e) where
  orderly h := h.apply (modest h)
  program := by simp
  heap := by cases e <;> simp [Machine.apply, write]

theorem execNext (m : Machine) : Evolves m m.execNext.2 := by
  have within := Fetch.staysWithin_instruction m m.pc
  cases hr : Fetch.instruction.result m m.pc with
  | ok e pc =>
    rw [Fetch.landing_of_ok hr] at within
    rw [execNext_of_ok hr]
    exact (moved within).trans (apply fun h => Fetch.modest_instruction (m := m) h.registers hr)
  | error t pc =>
    rw [Fetch.landing_of_error hr] at within
    rw [execNext_of_error hr]
    exact moved within

theorem completes (h : m.Completes m') : Evolves m m' := by
  have executed := (stopped m none none).trans (execNext m.cleared)
  rwa [h.2] at executed

end Evolves

theorem Stepped.evolves {m : Machine} {r : Bool × Machine} (h : Stepped m r) : Evolves m r.2 := by
  cases h with
  | outside _ => exact .stopped m _ _
  | halted at_pc _ | illegal at_pc _ =>
    have behind : Evolves m { m with pc := m.pc + 1 } :=
      .moved (.inr (Fetch.within_of_byteAt? at_pc))
    exact behind.trans (.stopped _ _ _)
  | faulted _ _ _ => exact .stopped m _ _
  | @ended m' done _ => exact (Evolves.completes done).trans (.stopped m' _ _)
  | continued done _ => exact .completes done

theorem evolves_step (m : Machine) : Evolves m m.step.2 := m.step_stepped.evolves

theorem GoesOn.evolves {n : Nat} {m m' : Machine} (h : m.GoesOn n m') : Evolves m m' := by
  induction n generalizing m with
  | zero =>
    obtain rfl := h
    exact .refl m'
  | succ n ih =>
    obtain ⟨mid, first, on⟩ := h
    have start := m.evolves_step
    rw [first] at start
    exact start.trans (ih on)

theorem Runs.evolves {limit : Option Int} {m m' : Machine} (h : m.Runs limit m') :
    Evolves m m' := by
  rcases h.cases with ⟨n, last, on, stops⟩ | ⟨n, last, on, rfl⟩
  · have final := last.evolves_step
    rw [stops] at final
    exact on.evolves.trans final
  · exact on.evolves.trans (.stopped last _ _)

theorem evolves_of_leaves {m m' : Machine} {c : Call} (leaves : c.Leaves m m') :
    Evolves m m' := by
  cases c with
  | append values =>
    obtain ⟨bytes, rfl⟩ := exists_append_of_ints leaves
    exact .append m bytes
  | appendGroups groups =>
    obtain ⟨bytes, rfl⟩ := exists_append_of_groups leaves
    exact .append m bytes
  | step =>
    obtain rfl := leaves
    exact m.evolves_step
  | run limit => exact Runs.evolves leaves

/-- One use of a machine: a call, or the bare execution of an instruction, which sets no stop field
    and does not take the counter back. -/
inductive Used (m : Machine) : Machine → Prop where
  | call {m' : Machine} (c : Call) (leaves : c.Leaves m m') : Used m m'
  | execNext : Used m m.execNext.2

/-- A sequence of uses leads from one machine to the other. -/
abbrev Reaches : Machine → Machine → Prop := Relation.ReflTransGen Used

theorem Reaches.evolves {m m' : Machine} (h : m.Reaches m') : Evolves m m' := by
  induction h with
  | refl => exact .refl m
  | tail _ last ih =>
    cases last with
    | call c leaves => exact ih.trans (evolves_of_leaves leaves)
    | execNext => exact ih.trans (.execNext _)

/-- The output of a machine is the flag or the register that it names. -/
theorem output_eq (m : Machine) :
    (m.out.index = -1 ∧ m.output = if m.flag then 1 else 0) ∨
      (0 ≤ m.out.index ∧ m.out.index ≤ 31 ∧
        m.registers.toList[m.out.index.toNat]? = some m.output) := by
  rw [output]
  cases m.out with
  | flag => exact .inl ⟨rfl, rfl⟩
  | register r =>
    have bound : r.val < 32 := r.isLt
    refine .inr ⟨?_, ?_, ?_⟩
    · simp [Output.index]
    · simp only [Output.index]
      omega
    · simp [Output.index]

/-- A machine keeps within its bounds whatever calls it has gone through, failed ones included, and
    if it is used on, its program and its heap only grow. -/
theorem bounds_of_reached {m : Machine} (reached : fresh.Reaches m) :
    m.registers.toList.length = 32 ∧
    (∀ value ∈ m.registers.toList, -0x80000000 ≤ value ∧ value < 0x80000000) ∧
    (0 ≤ m.remainder ∧ m.remainder < 0x100000000) ∧
    ((m.out.index = -1 ∧ m.output = if m.flag then 1 else 0) ∨
      (0 ≤ m.out.index ∧ m.out.index ≤ 31 ∧
        m.registers.toList[m.out.index.toNat]? = some m.output)) ∧
    (∀ b ∈ m.program.toList, b.toNat ≤ 255) ∧
    (∀ b ∈ m.heap.toList, b = 0) ∧ m.heap.size ≤ heapLimit ∧
    (-0x80000000 ≤ m.pc ∧ m.pc ≤ m.program.size + 0x80000000) ∧
    (∀ m', m.Reaches m' →
      m.program.toList <+: m'.program.toList ∧ m.heap.size ≤ m'.heap.size) := by
  have orderly := reached.evolves.orderly orderly_fresh
  refine ⟨by simp, ?_, orderly.remainder, m.output_eq, ?_, ?_, orderly.heap_size, orderly.pc, ?_⟩
  · intro value mem
    obtain ⟨i, hi, rfl⟩ := List.getElem_of_mem mem
    exact orderly.registers ⟨i, by simpa using hi⟩
  · intro b _
    have := b.toNat_lt
    omega
  · intro b mem
    exact orderly.heap_zero b (by simpa using mem)
  · intro m' used
    exact ⟨used.evolves.program, used.evolves.heap⟩

/-- A jump is cut off behind its code byte, and tried without taking the counter back; then bytes
    are refused, and a run ends at once. -/
theorem bounds_of_reached_cut_jump :
    let m : Machine := { fresh with
      pc := 5, registers := fresh.registers.set 0 (-1), program := #[1, 0, 0xFF, 0xFF, 8],
      stop := some .ended }
    fresh.Reaches m ∧ m.registers.toList[m.out.index.toNat]? = some m.output ∧
      ∀ m', m.Reaches m' → [1, 0, 0xFF, 0xFF, 8] <+: m'.program.toList := by
  intro m
  have reached : fresh.Reaches m := by
    refine Relation.ReflTransGen.refl.tail (.call (.append [1, 0, 0xFF, 0xFF, 8]) rfl)
      |>.tail (.call .step rfl) |>.tail .execNext |>.tail (.call (.append [300]) rfl)
      |>.tail (.call (.run (some 1)) ⟨0, ?_⟩)
    decide +kernel
  obtain ⟨-, -, -, output, -, -, -, -, grows⟩ := bounds_of_reached reached
  refine ⟨reached, ?_, fun m' used => (grows m' used).1⟩
  rcases output with ⟨is_flag, -⟩ | ⟨-, -, found⟩
  · exact absurd is_flag (by decide)
  · exact found

end Machine

end RegisterMachine
