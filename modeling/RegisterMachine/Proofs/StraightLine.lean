import RegisterMachine.Execution
import RegisterMachine.Proofs.Budget
import RegisterMachine.Proofs.Loading
import RegisterMachine.Proofs.Simulation

/-! Programs without jumps. Each statement that completes leaves the counter at the next one, so the
    statements take effect in the order in which they are written, and what a run comes to is found
    by folding their effects. The fold breaks off at the first statement that halts or is faulty;
    if there is none, the counter leaves the program behind its last word. Main statement
    (`ends_of_straight`). -/

namespace RegisterMachine

/-- The operations that may set the counter. -/
def Opcode.jumps : List Opcode := [.jmp, .jmpf, .jmpb, .jeq]

namespace Statement

/-- What statements make of a machine one after the other, up to the first that traps. -/
def effects (m : Machine) (ss : List Statement) : Except Trap Machine := ss.foldlM effect m

@[simp] theorem effects_nil (m : Machine) : effects m [] = .ok m := rfl

theorem effects_cons (m : Machine) (s : Statement) (ss : List Statement) :
    effects m (s :: ss) = (s.effect m).bind (effects · ss) := rfl

theorem effects_append (m : Machine) (ss ss' : List Statement) :
    effects m (ss ++ ss') = (effects m ss).bind (effects · ss') :=
  List.foldlM_append ..

theorem effects_singleton (m : Machine) (s : Statement) : effects m [s] = s.effect m := by
  rw [effects_cons]
  cases s.effect m <;> rfl

/-! ### The effect of a statement that does not jump -/

/-- The machine has got to the next word, and what no instruction changes is as it was. -/
structure Passed (m m' : Machine) : Prop where
  pc : m'.pc = m.pc + 4
  program : m'.program = m.program
  stop : m'.stop = m.stop
  diagnosis : m'.diagnosis = m.diagnosis

/-- The computation gives a value with the property, or a fault that is not due to the end of the
    program. -/
def OkOrFault {α : Type} (P : α → Prop) : Except Trap α → Prop
  | .ok x => P x
  | .error t => ∃ cause, t = .fault cause ∧ ∀ address, cause ≠ .pastEnd address

theorem OkOrFault.bind {α β : Type} {P : α → Prop} {Q : β → Prop} {e : Except Trap α}
    {f : α → Except Trap β} (he : OkOrFault P e) (hf : ∀ x, P x → OkOrFault Q (f x)) :
    OkOrFault Q (e >>= f) := by
  cases e with
  | ok x => exact hf x he
  | error t => exact he

/-- A check in front of the rest of a computation. -/
theorem OkOrFault.check {α : Type} {P : α → Prop} {c : Prop} [Decidable c] {cause : Fault}
    {rest : PUnit → Except Trap α} (due : ∀ address, cause ≠ .pastEnd address)
    (h : ¬ c → OkOrFault P (rest ⟨⟩)) :
    OkOrFault P (if c then throw (.fault cause) >>= rest else rest ⟨⟩) := by
  split
  · exact ⟨cause, rfl, due⟩
  · exact h ‹_›

theorem okOrFault_named (index : Int) : OkOrFault (fun _ => True) (named index) := by
  rw [named]
  split
  · trivial
  · exact ⟨_, rfl, by simp⟩

theorem okOrFault_valueOf (m : Machine) (index : Int) :
    OkOrFault (fun _ => True) (valueOf m index) :=
  (okOrFault_named index).bind fun _ _ => trivial

variable {m : Machine}

theorem okOrFault_combine (f : Int → Int → Int) (left right dest : Int) :
    OkOrFault (Passed m) (combine f m left right dest) := by
  refine (okOrFault_valueOf m left).bind fun a _ => (okOrFault_valueOf m right).bind fun b _ => ?_
  exact (okOrFault_named dest).bind fun d _ => ⟨rfl, rfl, rfl, rfl⟩

theorem okOrFault_divide (left right dest : Int) :
    OkOrFault (Passed m) (divide m left right dest) := by
  refine (okOrFault_valueOf m left).bind fun a _ => (okOrFault_valueOf m right).bind fun b _ => ?_
  refine OkOrFault.check nofun fun _ => ?_
  exact (okOrFault_named dest).bind fun d _ => ⟨rfl, rfl, rfl, rfl⟩

theorem okOrFault_test (f : Int → Int → Bool) (left right : Int) :
    OkOrFault (Passed m) (test f m left right) := by
  refine (okOrFault_valueOf m left).bind fun a _ => (okOrFault_valueOf m right).bind fun b _ => ?_
  exact ⟨rfl, rfl, rfl, rfl⟩

theorem okOrFault_allocate (register : Int) : OkOrFault (Passed m) (allocate m register) := by
  refine (okOrFault_valueOf m register).bind fun size _ => ?_
  refine OkOrFault.check nofun fun _ => OkOrFault.check nofun fun _ => ?_
  exact ⟨rfl, rfl, rfl, rfl⟩

/-- Unless it is a halt, a statement that does not jump gets to the next word or is faulty. -/
theorem okOrFault_effect {s : Statement} (legal : s.op ≠ .illegal) (no_halt : s.op ≠ .hlt)
    (no_jump : s.op ∉ Opcode.jumps) : OkOrFault (Passed m) (s.effect m) := by
  obtain ⟨op, arguments⟩ := s
  cases op with
  | hlt => exact absurd rfl no_halt
  | illegal => exact absurd rfl legal
  | jmp | jmpf | jmpb | jeq => simp [Opcode.jumps] at no_jump
  | load =>
    cases arguments
    exact (okOrFault_named _).bind fun d _ => ⟨rfl, rfl, rfl, rfl⟩
  | add | sub | mul => cases arguments; exact okOrFault_combine _ _ _ _
  | div => cases arguments; exact okOrFault_divide _ _ _
  | eq | neq | gt | lt | gteq | lteq => cases arguments; exact okOrFault_test _ _ _
  | alloc => cases arguments; exact okOrFault_allocate _

/-- The statement can be assembled and does not jump. -/
structure Straight (s : Statement) : Prop where
  fits : s.Fits
  no_jump : s.op ∉ Opcode.jumps

theorem Straight.halts_or_okOrFault {s : Statement} (h : s.Straight) (m : Machine) :
    (s.op = .hlt ∧ s.effect m = .error .halt) ∨ OkOrFault (Passed m) (s.effect m) := by
  by_cases is_halt : s.op = .hlt
  · obtain ⟨op, arguments⟩ := s
    subst is_halt
    cases arguments
    exact .inl ⟨rfl, rfl⟩
  · exact .inr (okOrFault_effect h.fits.1 is_halt h.no_jump)

theorem Straight.passed {s : Statement} {m' : Machine} (h : s.Straight)
    (done : s.effect m = .ok m') : Passed m m' := by
  rcases h.halts_or_okOrFault m with ⟨-, halts⟩ | gives
  · rw [done] at halts
    cases halts
  · rwa [done] at gives

theorem Straight.trap_cases {s : Statement} {t : Trap} (h : s.Straight)
    (trapped : s.effect m = .error t) : (s.op = .hlt ∧ t = .halt) ∨
      ∃ cause, t = .fault cause ∧ ∀ address, cause ≠ .pastEnd address := by
  rcases h.halts_or_okOrFault m with ⟨is_halt, halts⟩ | gives
  · rw [trapped] at halts
    exact .inl ⟨is_halt, Except.error.inj halts⟩
  · rw [trapped] at gives
    exact .inr gives

end Statement

/-! ### Statements at the counter -/

namespace Machine

/-- The words of the statements stand at the counter, and the given bytes from there to the end of
    the program. -/
def Faces (m : Machine) (ss : List Statement) (behind : List UInt8) : Prop :=
  ∃ front, m.program.toList =
      front ++ (Instruction.encodeAll (ss.map Statement.instruction) ++ behind) ∧
    m.pc = front.length

variable {m m' : Machine} {s : Statement} {ss : List Statement} {behind : List UInt8}

theorem Faces.standsAt (h : m.Faces (s :: ss) behind) : m.StandsAt s := by
  obtain ⟨front, loaded, pc_eq⟩ := h
  intro j hj
  have place : m.pc + j = ((front.length + j : Nat) : Int) := by omega
  have short : j < s.instruction.encode.length := by rwa [Instruction.length_encode]
  rw [place, byteAt?_natCast, loaded, List.getElem?_append_right (by omega),
    Nat.add_sub_cancel_left, List.map_cons, Instruction.encodeAll, List.flatMap_cons,
    List.append_assoc, List.getElem?_append_left short]

theorem Faces.passed (h : m.Faces (s :: ss) behind) (passed : Statement.Passed m m') :
    m'.Faces ss behind := by
  obtain ⟨front, loaded, pc_eq⟩ := h
  have four : s.instruction.encode.length = 4 := Instruction.length_encode _
  refine ⟨front ++ s.instruction.encode, ?_, ?_⟩
  · rw [passed.program, loaded]
    simp [Instruction.encodeAll]
  · rw [passed.pc, pc_eq, List.length_append, four]
    omega

/-- The counter is outside the program only if nothing stands at it. -/
theorem Faces.inBounds_iff (h : m.Faces ss behind) : m.inBounds ↔ ss ≠ [] ∨ behind ≠ [] := by
  cases ss with
  | nil =>
    obtain ⟨front, loaded, pc_eq⟩ := h
    have size_eq : m.program.size = front.length + behind.length := by
      rw [← Array.length_toList, loaded]
      simp [Instruction.encodeAll]
    rw [inBounds, pc_eq, size_eq, decide_eq_true_iff, ← List.length_pos_iff, ← List.length_pos_iff,
      List.length_nil]
    omega
  | cons s ss =>
    have at_pc := h.standsAt 0 (by decide)
    rw [Int.natCast_zero, Int.add_zero] at at_pc
    rw [inBounds_eq_isSome, at_pc]
    exact iff_of_true rfl (.inl (List.cons_ne_nil s ss))

theorem Faces.step_of_ok (h : m.Faces (s :: ss) behind) (straight : s.Straight)
    (clear : m.cleared = m) (done : s.effect m = .ok m') :
    m.step = if m'.inBounds then (true, m') else (false, { m' with stop := some .ended }) := by
  rw [h.standsAt.step_eq straight.fits.2, Statement.step, clear, done]

theorem Faces.step_of_error (h : m.Faces (s :: ss) behind) (straight : s.Straight)
    (clear : m.cleared = m) {t : Trap} (trapped : s.effect m = .error t) :
    (s.op = .hlt ∧
        m.step = (false, { m with pc := m.pc + 1, stop := some .halt, diagnosis := none })) ∨
      ∃ cause, t = .fault cause ∧ (∀ address, cause ≠ .pastEnd address) ∧
        m.step = (false, { m with stop := some .fault, diagnosis := some t }) := by
  have step_eq := h.standsAt.step_eq straight.fits.2
  rw [Statement.step, clear, trapped] at step_eq
  rcases straight.trap_cases trapped with ⟨is_halt, rfl⟩ | ⟨cause, rfl, due⟩
  · exact .inl ⟨is_halt, step_eq⟩
  · exact .inr ⟨cause, rfl, due, step_eq⟩

/-- Statements that complete are done one after the other, as long as something stands behind
    them. -/
theorem Faces.goesOn {rest : List Statement} (h : m.Faces (ss ++ rest) behind)
    (straight : ∀ s ∈ ss, s.Straight) (clear : m.cleared = m)
    (done : Statement.effects m ss = .ok m') (more : rest ≠ [] ∨ behind ≠ []) :
    m.GoesOn ss.length m' ∧ m'.Faces rest behind ∧ m'.cleared = m' ∧
      m'.pc = m.pc + 4 * ss.length := by
  induction ss generalizing m with
  | nil =>
    cases done
    exact ⟨rfl, h, clear, by simp⟩
  | cons s ss ih =>
    obtain ⟨first, others⟩ := List.forall_mem_cons.1 straight
    rw [Statement.effects_cons] at done
    cases effect_eq : s.effect m with
    | error t => rw [effect_eq] at done; cases done
    | ok mid =>
      rw [effect_eq] at done
      have passed := first.passed effect_eq
      have next : mid.Faces (ss ++ rest) behind := Faces.passed h passed
      have inside : mid.inBounds :=
        next.inBounds_iff.2 (more.imp_left (List.append_ne_nil_of_right_ne_nil ss))
      have step_eq := Faces.step_of_ok h first clear effect_eq
      rw [if_pos inside] at step_eq
      obtain ⟨on, faces, clear', pc_eq⟩ :=
        ih next others (completes_of_step step_eq).cleared_eq done
      refine ⟨⟨mid, step_eq, on⟩, faces, clear', ?_⟩
      rw [pc_eq, passed.pc, List.length_cons]
      omega

/-- Statements that all complete end with the program. -/
theorem Faces.stopsAfter_of_ok (h : m.Faces ss []) (nonempty : ss ≠ [])
    (straight : ∀ s ∈ ss, s.Straight) (clear : m.cleared = m)
    (done : Statement.effects m ss = .ok m') :
    ∃ k, k + 1 = ss.length ∧ m.StopsAfter k { m' with stop := some .ended, diagnosis := none } ∧
      m'.pc = m.pc + 4 * ss.length := by
  obtain ⟨init, last, rfl⟩ : ∃ init last, ss = init ++ [last] :=
    ⟨_, _, (List.dropLast_concat_getLast nonempty).symm⟩
  rw [Statement.effects_append] at done
  cases effects_eq : Statement.effects m init with
  | error t => rw [effects_eq] at done; cases done
  | ok before =>
    rw [effects_eq] at done
    have effect_eq : last.effect before = .ok m' := by
      rw [← Statement.effects_singleton]
      exact done
    obtain ⟨on, faces, clear', pc_eq⟩ :=
      h.goesOn (fun s hs => straight s (by simp [hs])) clear effects_eq (.inl (by simp))
    have straight_last := straight last (by simp)
    have step_eq := faces.step_of_ok straight_last clear' effect_eq
    have passed := straight_last.passed effect_eq
    have outside : ¬ m'.inBounds := by
      rw [(faces.passed passed).inBounds_iff]; simp
    have no_diagnosis : m'.diagnosis = none := by
      rw [passed.diagnosis, ← clear']; rfl
    rw [if_neg outside] at step_eq
    refine ⟨init.length, by simp, ⟨before, on, by rw [step_eq, no_diagnosis]⟩, ?_⟩
    rw [passed.pc, pc_eq, List.length_append, List.length_singleton]
    omega

/-! ### Runs over statements that complete -/

theorem exists_runs_of_cleared {limit : Option Int} {left : Machine}
    (runs : m.cleared.Runs limit left) :
    ∃ left', m.Runs limit left' ∧ left'.snapshot = left.snapshot := by
  cases limit with
  | none => exact ⟨left, runs_cleared_iff.1 runs, rfl⟩
  | some n =>
    obtain rfl := runs_some_iff.1 runs
    refine ⟨m.runFor n.toNat, runs_some_iff.2 rfl, ?_⟩
    cases n.toNat with
    | zero => rfl
    | succ k => rw [runFor, runFor, cleared_step]

/-- At the end of the program a run has no more to do, whatever further steps are allowed. -/
theorem Faces.exists_runs_to_end {limit : Option Int} (h : m.Faces ss [])
    (straight : ∀ s ∈ ss, s.Straight) (clear : m.cleared = m)
    (done : Statement.effects m ss = .ok m') (enough : ∀ n ∈ limit, (ss.length : Int) ≤ n) :
    ∃ left, m.Runs limit left ∧ left.snapshot = m'.snapshot := by
  by_cases empty : ss = []
  · subst empty
    cases done
    have outside : ¬ m.inBounds := by rw [h.inBounds_iff]; simp
    have step_eq := step_of_outside (eq_false_of_ne_true outside)
    cases limit with
    | none => exact ⟨_, (runs_none_of_stops step_eq).2 rfl, rfl⟩
    | some n =>
      refine ⟨m.runFor n.toNat, runs_some_iff.2 rfl, ?_⟩
      cases n.toNat with
      | zero => rfl
      | succ k => rw [runFor, step_eq]; rfl
  · obtain ⟨k, last, stops, -⟩ := h.stopsAfter_of_ok empty straight clear done
    cases limit with
    | none => exact ⟨_, runs_none_iff.2 ⟨k, stops⟩, rfl⟩
    | some n =>
      have allowed := enough n rfl
      exact ⟨_, runs_some_iff.2 (runFor_of_stopsAfter stops (by omega)).symm, rfl⟩

/-- A run that gets through the statements and no further leaves what they make of the machine. -/
theorem Faces.exists_runs {limit : Option Int} (h : m.Faces ss behind)
    (straight : ∀ s ∈ ss, s.Straight) (done : Statement.effects m.cleared ss = .ok m')
    (through : limit = some (ss.length : Int) ∨ behind = [] ∧ ∀ n ∈ limit, (ss.length : Int) ≤ n) :
    ∃ left, m.Runs limit left ∧ left.snapshot = m'.snapshot := by
  have faces : m.cleared.Faces ss behind := h
  obtain ⟨left, runs, snapshot_eq⟩ :
      ∃ left, m.cleared.Runs limit left ∧ left.snapshot = m'.snapshot := by
    by_cases at_end : behind = []
    · subst at_end
      have enough : ∀ n ∈ limit, (ss.length : Int) ≤ n := by
        rcases through with rfl | ⟨-, enough⟩
        · simp
        · exact enough
      exact faces.exists_runs_to_end straight rfl done enough
    · obtain rfl := through.resolve_right fun h => at_end h.1
      have whole : m.cleared.Faces (ss ++ []) behind := by rwa [List.append_nil]
      obtain ⟨on, -⟩ := whole.goesOn straight rfl done (.inr at_end)
      exact ⟨_, runs_some_iff.2 (runFor_of_goesOn on 0).symm, rfl⟩
  obtain ⟨left', runs', same⟩ := exists_runs_of_cleared runs
  exact ⟨left', runs', same.trans snapshot_eq⟩

end Machine

namespace Statement

/-- What breaks off a row of statements is the trap of one of them, and those in front of it
    complete. -/
theorem exists_of_effects_error {m : Machine} {ss : List Statement} {t : Trap}
    (h : effects m ss = .error t) : ∃ front s back before, ss = front ++ s :: back ∧
      effects m front = .ok before ∧ s.effect before = .error t := by
  induction ss generalizing m with
  | nil => cases h
  | cons s ss ih =>
    rw [effects_cons] at h
    cases effect_eq : s.effect m with
    | error t' =>
      rw [effect_eq] at h
      cases h
      exact ⟨[], s, ss, m, rfl, rfl, effect_eq⟩
    | ok mid =>
      rw [effect_eq] at h
      obtain ⟨front, s', back, before, rfl, reached, trapped⟩ := ih h
      refine ⟨s :: front, s', back, before, rfl, ?_, trapped⟩
      rw [effects_cons, effect_eq]
      exact reached

/-- A row of statements that starts at `m` ends at the first of them that halts or is faulty, or
    behind the last, and leaves what those in front have made of the machine. -/
inductive Ends (m : Machine) (ss : List Statement) : Machine → Prop where
  | halted {front back : List Statement} {s : Statement} {before : Machine}
      (split : ss = front ++ s :: back) (reached : effects m front = .ok before)
      (is_halt : s.op = .hlt) :
    Ends m ss { before with
      pc := m.pc + 4 * front.length + 1, stop := some .halt, diagnosis := none }
  | faulted {front back : List Statement} {s : Statement} {before : Machine} {cause : Fault}
      (split : ss = front ++ s :: back) (reached : effects m front = .ok before)
      (faulty : s.effect before = .error (.fault cause))
      (present : ∀ address, cause ≠ .pastEnd address) :
    Ends m ss { before with
      pc := m.pc + 4 * front.length, stop := some .fault, diagnosis := some (.fault cause) }
  | ended {after : Machine} (reached : effects m ss = .ok after) :
    Ends m ss { after with
      pc := m.pc + 4 * ss.length, stop := some .ended, diagnosis := none }

end Statement

/-- A row of statements without jumps that stands at the end of the program stops after at most as
    many steps as there are statements. -/
theorem Machine.Faces.exists_stopsAfter {m : Machine} {ss : List Statement} (h : m.Faces ss [])
    (nonempty : ss ≠ []) (straight : ∀ s ∈ ss, s.Straight) (clear : m.cleared = m) :
    ∃ k m', k < ss.length ∧ m.StopsAfter k m' ∧ Statement.Ends m ss m' := by
  cases effects_eq : Statement.effects m ss with
  | ok after =>
    obtain ⟨k, last, stops, pc_eq⟩ := h.stopsAfter_of_ok nonempty straight clear effects_eq
    refine ⟨k, _, by omega, stops, ?_⟩
    have ended := Statement.Ends.ended effects_eq
    rwa [← pc_eq] at ended
  | error t =>
    obtain ⟨front, s, back, before, split, reached, trapped⟩ :=
      Statement.exists_of_effects_error effects_eq
    have straight_s : s.Straight := straight s (by simp [split])
    have place : front.length < ss.length := by simp [split]
    rw [split] at h straight
    obtain ⟨on, faces, clear', pc_eq⟩ :=
      h.goesOn (fun s hs => straight s (by simp [hs])) clear reached (.inl (by simp))
    rcases faces.step_of_error straight_s clear' trapped with
      ⟨is_halt, step_eq⟩ | ⟨cause, rfl, due, step_eq⟩
    · refine ⟨front.length, _, place, ⟨before, on, step_eq⟩, ?_⟩
      have halted := Statement.Ends.halted split reached is_halt
      rwa [← pc_eq] at halted
    · refine ⟨front.length, _, place, ⟨before, on, step_eq⟩, ?_⟩
      have faulted := Statement.Ends.faulted split reached trapped due
      rwa [← pc_eq] at faulted

namespace Assembly

/-- Programs without jumps come to an end, in the order in which they are written: at a halt, at a
    fault that is not for want of an operand, or behind the last statement. -/
theorem ends_of_straight {text : String} {is : List Instruction} (assembled : program text = .ok is)
    (nonempty : is ≠ []) (no_jump : ∀ i ∈ is, i.op ∉ Opcode.jumps) :
    ∃ (ss : List Statement) (k : Nat) (m' : Machine),
      Located.tokens (Located.ofText text) = .ok (ss.flatMap Statement.tokens) ∧
      ss.map Statement.instruction = is ∧
      Statement.Ends (Machine.fresh.appendInstructions is) ss m' ∧
      k < is.length ∧ (Machine.fresh.appendInstructions is).StopsAfter k m' ∧
      (∀ fuel limit, is.length ≤ fuel → (∀ n ∈ limit, is.length ≤ n) →
        executeText? fuel limit text = some (.ok m')) ∧
      m'.stop ≠ some .illegal ∧ m'.stop ≠ some .stepLimit ∧
      ∀ address, m'.diagnosis ≠ some (.fault (.pastEnd address)) := by
  obtain ⟨ss, fit, rfl, spelled⟩ := exists_statements assembled
  have straight : ∀ s ∈ ss, s.Straight := by
    intro s hs
    exact ⟨fit s hs, no_jump _ (List.mem_map_of_mem hs)⟩
  have faces : (Machine.fresh.appendInstructions (ss.map Statement.instruction)).Faces ss [] := by
    refine ⟨[], ?_, rfl⟩
    rw [Machine.appendInstructions, Machine.append_program_toList, List.append_nil]
    rfl
  obtain ⟨k, m', short, stops, ends⟩ :=
    faces.exists_stopsAfter (by simpa using nonempty) straight rfl
  have short' : k < (ss.map Statement.instruction).length := by rwa [List.length_map]
  refine ⟨ss, k, m', Located.tokens_eq_ok_iff.2 spelled, rfl, ends, short', stops, ?_, ?_,
    stops.stop_ne_stepLimit, ?_⟩
  · intro fuel limit enough allowed
    have runs : (Machine.fresh.appendInstructions (ss.map Statement.instruction)).runWithin?
        fuel limit = some m' := by
      cases limit with
      | none => exact Machine.run?_eq_some_iff.2 ⟨k, by omega, stops⟩
      | some n =>
        have enough_steps := allowed n rfl
        exact congrArg some (Machine.runFor_of_stopsAfter stops (by omega))
    rw [executeText?, assembled]
    dsimp only
    rw [runs]; rfl
  · cases ends <;> simp
  · intro address
    cases ends with
    | halted _ _ _ | ended _ => simp
    | faulted _ _ _ present => simpa using present address

/-- A division by zero behind an allocation, with a halt that is not reached. -/
theorem ends_of_straight_division :
    let text := "load $1 #5 alloc $1 div $1 $0 $2 hlt"
    let is : List Instruction :=
      [⟨.load, .integer 1 5⟩, ⟨.alloc, .unary 1⟩, ⟨.div, .binary 1 0 2⟩, ⟨.hlt, .nullary⟩]
    let ss : List Statement :=
      [⟨.load, .integer 1 5⟩, ⟨.alloc, .unary 1⟩, ⟨.div, .binary 1 0 2⟩, ⟨.hlt, .nullary⟩]
    let m' : Machine := { Machine.fresh with
      pc := 8, registers := Machine.fresh.registers.set 1 5, out := .register 1,
      heap := #[0, 0, 0, 0, 0], program := (Instruction.encodeAll is).toArray,
      stop := some .fault, diagnosis := some (.fault .divisionByZero) }
    program text = .ok is ∧ is ≠ [] ∧ (∀ i ∈ is, i.op ∉ Opcode.jumps) ∧
      Statement.Ends (Machine.fresh.appendInstructions is) ss m' ∧
      executeText? 4 (some 4) text = some (.ok m') := by
  intro text is ss m'
  have all_eq : all (Located.ofText text) = { instructions := is, error := none, rest := [] } := by
    decide +kernel
  have assembled : program text = .ok is := by rw [program, all_eq]
  have no_jump : ∀ i ∈ is, i.op ∉ Opcode.jumps := by decide
  obtain ⟨ss', k, left, read, -, ends, short, stops, executes, -⟩ :=
    ends_of_straight assembled (List.cons_ne_nil _ _) no_jump
  have spelled : Located.tokens (Located.ofText text) = .ok (ss.flatMap Statement.tokens) :=
    Located.tokens_eq_ok_iff.2 (by rw [Located.Spell]; decide +kernel)
  obtain rfl : ss = ss' :=
    Statement.eq_of_flatMap_tokens_eq (Except.ok.inj (spelled.symm.trans read))
  have run_eq : (Machine.fresh.appendInstructions is).runFor 4 = m' := by decide +kernel
  obtain rfl : m' = left := run_eq.symm.trans (Machine.runFor_of_stopsAfter stops short)
  exact ⟨assembled, List.cons_ne_nil _ _, no_jump, ends,
    executes 4 (some 4) (by decide) (by decide)⟩

end Assembly

end RegisterMachine
