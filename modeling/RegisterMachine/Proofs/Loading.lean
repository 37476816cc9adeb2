import Mathlib.Logic.Relation
import RegisterMachine.Proofs.Calls

/-! Loading a program piece by piece. A reading that does not run into the end of the program gives
    the same when bytes are added behind it, so every instruction that completes on a part of a
    program completes in the same way on the whole of it, and an instruction that does not complete
    leaves no trace. Main statement (`run_of_calls`): unless a halt or an illegal byte was met, it
    makes no difference to a run how the program was loaded and what was tried in between. -/

namespace RegisterMachine

namespace Machine

@[simp] theorem append_cleared (m : Machine) (bytes : List UInt8) :
    (m.append bytes).cleared = m.cleared.append bytes := rfl

theorem append_program_toList (m : Machine) (bytes : List UInt8) :
    (m.append bytes).program.toList = m.program.toList ++ bytes := by
  simp [append]

theorem append_nil (m : Machine) : m.append [] = m := by simp [append]

theorem append_append (m : Machine) (first second : List UInt8) :
    (m.append first).append second = m.append (first ++ second) := by
  have program_eq : m.program ++ first ++ second = m.program ++ (first ++ second) :=
    Array.toList_inj.1 (by simp)
  simp only [append, program_eq]

theorem byteAt?_append {m : Machine} {address : Int} {b : UInt8} (h : m.byteAt? address = some b)
    (bytes : List UInt8) : (m.append bytes).byteAt? address = some b := by
  rw [byteAt?, ← Array.getElem?_toList] at h ⊢
  rw [append_program_toList]
  split at h
  · rename_i nonneg
    obtain ⟨bound, -⟩ := List.getElem?_eq_some_iff.1 h
    rw [if_pos nonneg, List.getElem?_append_left bound, h]
  · cases h

theorem inBounds_append {m : Machine} (inside : m.inBounds) (bytes : List UInt8) :
    (m.append bytes).inBounds := by
  rw [inBounds_eq_isSome, Option.isSome_iff_exists] at inside ⊢
  obtain ⟨code, at_pc⟩ := inside
  exact ⟨code, byteAt?_append at_pc bytes⟩

theorem apply_append (m : Machine) (bytes : List UInt8) (e : Effect) :
    (m.append bytes).apply e = (m.apply e).append bytes := by
  cases e <;> rfl

end Machine

/-! ### Readings -/

namespace Fetch

/-- A reading that gives the same when bytes are added to the program, unless it runs into the end
    of it. -/
def Steady {α : Type} (f : Fetch α) : Prop :=
  ∀ (m : Machine) (address : Int) (bytes : List UInt8),
    (∃ place behind, f.result m address = .error (.fault (.pastEnd place)) behind) ∨
      f.result (m.append bytes) address = f.result m address

theorem steady_compositional : Compositional @Steady where
  pure _ _ _ _ := .inr rfl
  counter _ _ _ := .inr rfl
  fail _ _ _ _ := .inr rfl
  view _ hg m := hg m.snapshot m
  bind {_ _ f g} hf hg := by
    intro m address bytes
    rcases hf m address bytes with ⟨place, behind, h⟩ | same
    · exact .inl ⟨place, behind, result_bind_of_error h g⟩
    · rw [result_bind, result_bind, same]
      cases f.result m address with
      | ok x mid => exact hg x m mid bytes
      | error t mid => exact .inr rfl
  byte := by
    intro m address bytes
    rw [result_byte, result_byte]
    cases h : m.byteAt? address with
    | none => exact .inl ⟨_, _, rfl⟩
    | some b => rw [m.byteAt?_append h]; exact .inr rfl
  half := by
    intro m address bytes
    rw [result_half, result_half]
    cases high : m.byteAt? address with
    | none => exact .inl ⟨_, _, rfl⟩
    | some b =>
      cases low : m.byteAt? (address + 1) with
      | none => exact .inl ⟨_, _, rfl⟩
      | some c => rw [m.byteAt?_append high, m.byteAt?_append low]; exact .inr rfl

theorem steady_operands (address : Int) (code : UInt8) (op : Opcode) :
    Steady (operands address code op) := by
  by_cases halt : op = .hlt
  · subst halt; exact fun _ _ _ => .inr rfl
  by_cases illegal : op = .illegal
  · subst illegal; exact fun _ _ _ => .inr rfl
  exact steady_compositional.operands address code halt illegal

theorem steady_instruction : Steady instruction :=
  steady_compositional.bind steady_compositional.counter fun address =>
    steady_compositional.bind steady_compositional.byte fun code => steady_operands address code _

end Fetch

/-! ### Instructions -/

namespace Machine

/-- An instruction that completes also completes when bytes are added to the program. -/
theorem Completes.append {m m' : Machine} (h : m.Completes m') (bytes : List UInt8) :
    (m.append bytes).Completes (m'.append bytes) := by
  obtain ⟨effect, pc, fetched, rfl⟩ := h.exists_effect
  refine ⟨inBounds_append h.1 bytes, ?_⟩
  rcases Fetch.steady_instruction m.cleared m.pc bytes with ⟨place, behind, h⟩ | same
  · rw [fetched] at h; cases h
  · rw [fetched] at same
    rw [append_cleared, execNext_of_ok same, ← apply_append]
    rfl

theorem Completes.cleared_eq {m m' : Machine} (h : m.Completes m') : m'.cleared = m' := by
  rw [cleared, ← h.stop, ← h.diagnosis]

/-- A run may as well start behind an instruction that completes. -/
theorem Completes.runs_iff {m m' r : Machine} (h : m.Completes m') :
    m.Runs none r ↔ m'.Runs none r := by
  have step_eq := step_of_completes h
  by_cases inside : m'.inBounds
  · rw [if_pos inside] at step_eq
    exact runs_none_of_goesOn step_eq
  · rw [if_neg inside] at step_eq
    have ended := step_of_outside (eq_false_of_ne_true inside)
    rw [← h.diagnosis] at ended
    rw [runs_none_of_stops step_eq, runs_none_of_stops ended]

theorem runs_cleared_iff {m r : Machine} : m.cleared.Runs none r ↔ m.Runs none r := by
  rcases hs : m.step with ⟨_ | _, mid⟩
  · rw [runs_none_of_stops hs, runs_none_of_stops (m.cleared_step.trans hs)]
  · rw [runs_none_of_goesOn hs, runs_none_of_goesOn (m.cleared_step.trans hs)]

/-! ### Sequences of instructions -/

/-- A row of instructions that complete leads from one machine to the other. -/
abbrev Advances : Machine → Machine → Prop := Relation.ReflTransGen Completes

theorem Advances.runs_iff {m m' r : Machine} (h : m.Advances m') :
    m.Runs none r ↔ m'.Runs none r := by
  induction h with
  | refl => rfl
  | tail _ last ih => rw [ih, last.runs_iff]

theorem Advances.program {m m' : Machine} (h : m.Advances m') : m'.program = m.program := by
  induction h with
  | refl => rfl
  | tail _ last ih => rw [last.program, ih]

theorem Advances.append {m m' : Machine} (h : m.Advances m') (bytes : List UInt8) :
    (m.append bytes).Advances (m'.append bytes) := by
  induction h with
  | refl => exact .refl
  | tail _ last ih => exact ih.tail (last.append bytes)

/-- The last step did not stop with a halt or at an illegal byte. -/
def Undisturbed (m : Machine) : Prop := m.stop ≠ some .halt ∧ m.stop ≠ some .illegal

/-- A step that does not stop so either completes an instruction or leaves no trace. -/
theorem Stepped.advances {m : Machine} {r : Bool × Machine} (h : Stepped m r)
    (quiet : r.2.Undisturbed) : m.cleared.Advances r.2.cleared := by
  cases h with
  | outside _ => exact .refl
  | halted _ _ => exact absurd rfl quiet.1
  | illegal _ _ => exact absurd rfl quiet.2
  | faulted _ _ _ => exact .refl
  | @ended m' done _ =>
    have kept : ({ m' with stop := some .ended } : Machine).cleared = m' := done.cleared_eq
    rw [kept]; exact .single done
  | continued done _ => rw [done.cleared_eq]; exact .single done

theorem GoesOn.advances {n : Nat} {m m' : Machine} (h : m.GoesOn n m') :
    m.cleared.Advances m'.cleared := by
  induction n generalizing m with
  | zero =>
    obtain rfl := h
    exact .refl
  | succ n ih =>
    obtain ⟨mid, h, on⟩ := h
    have done := completes_of_step h
    have first : m.cleared.Advances mid.cleared := by rw [done.cleared_eq]; exact .single done
    exact first.trans (ih on)

theorem Runs.advances {limit : Option Int} {m m' : Machine} (h : m.Runs limit m')
    (quiet : m'.Undisturbed) : m.cleared.Advances m'.cleared := by
  rcases h.cases with ⟨n, last, on, stops⟩ | ⟨n, last, on, rfl⟩
  · have stepped := last.step_stepped
    rw [stops] at stepped
    exact on.advances.trans (stepped.advances quiet)
  · exact on.advances

/-! ### Calls -/

/-- The machine has come to where it is by instructions of its whole program. -/
def InStep (m : Machine) : Prop := (fresh.append m.program.toList).Advances m.cleared

theorem InStep.append {m : Machine} (h : m.InStep) (bytes : List UInt8) :
    (m.append bytes).InStep := by
  rw [InStep, append_program_toList, ← append_append]
  exact Advances.append h bytes

theorem InStep.of_advances {m m' : Machine} (h : m.InStep) (on : m.cleared.Advances m'.cleared) :
    m'.InStep := by
  have program_eq : m'.program = m.program := on.program
  rw [InStep, program_eq]
  exact h.trans on

theorem exists_appendGroups_eq (groups : List (List UInt8)) (m : Machine) :
    ∃ bytes, (m.appendGroups groups).2 = m.append bytes := by
  induction groups generalizing m with
  | nil => exact ⟨[], by simp [appendGroups, append]⟩
  | cons g gs ih =>
    rw [appendGroups]
    split
    · obtain ⟨bytes, h⟩ := ih (m.append g)
      exact ⟨g ++ bytes, by rw [h, append_append]⟩
    · exact ⟨[], by simp [append]⟩

theorem exists_append_of_ints {values : List Int} {m m' : Machine}
    (leaves : (Call.append values).Leaves m m') : ∃ bytes, m' = m.append bytes := by
  rw [Call.Leaves, appendInts] at leaves
  cases read : values.mapM Word.byte? with
  | none =>
    rw [read] at leaves
    exact ⟨[], leaves.trans m.append_nil.symm⟩
  | some bytes =>
    rw [read] at leaves
    exact ⟨bytes, leaves⟩

theorem exists_append_of_groups {groups : List (List UInt8)} {m m' : Machine}
    (leaves : (Call.appendGroups groups).Leaves m m') : ∃ bytes, m' = m.append bytes := by
  obtain ⟨bytes, appended⟩ := exists_appendGroups_eq groups m
  exact ⟨bytes, leaves.trans appended⟩

theorem InStep.call {m m' : Machine} {c : Call} (h : m.InStep) (leaves : c.Leaves m m')
    (quiet : m'.Undisturbed) : m'.InStep := by
  cases c with
  | append values =>
    obtain ⟨bytes, rfl⟩ := exists_append_of_ints leaves
    exact h.append bytes
  | appendGroups groups =>
    obtain ⟨bytes, rfl⟩ := exists_append_of_groups leaves
    exact h.append bytes
  | step =>
    rw [Call.Leaves] at leaves
    subst leaves
    exact h.of_advances (m.step_stepped.advances quiet)
  | run limit => exact h.of_advances (Runs.advances leaves quiet)

theorem InStep.calls {calls : List Call} {m m' : Machine} (h : m.InStep)
    (led : Call.Lead Undisturbed calls m m') : m'.InStep := by
  induction calls generalizing m with
  | nil =>
    obtain rfl := led
    exact h
  | cons c cs ih =>
    obtain ⟨mid, leaves, quiet, rest⟩ := led
    exact ih (h.call leaves quiet) rest

theorem inStep_fresh : fresh.InStep := .refl

theorem InStep.runs_iff {m r : Machine} (h : m.InStep) :
    (fresh.append m.program.toList).Runs none r ↔ m.Runs none r :=
  (Advances.runs_iff h).trans runs_cleared_iff

/-- A step that stopped with a fault is made again as if bytes that come later had been there. -/
theorem step_append_of_fault {m : Machine} (faulted : m.step.2.stop = some .fault)
    (bytes : List UInt8) : (m.step.2.append bytes).step = (m.append bytes).step := by
  have kept : m.step.2.cleared = m.cleared := by
    rcases hs : m.step with ⟨go, m'⟩
    have stepped := m.step_stepped
    rw [hs] at stepped faulted
    cases stepped with
    | faulted _ _ _ => rfl
    | continued done _ => simp [done.stop] at faulted
    | outside _ | halted _ _ | illegal _ _ | ended _ _ => simp at faulted
  rw [← cleared_step, append_cleared, kept, ← append_cleared, cleared_step]

/-- Loading piece by piece comes to the same as loading at once, as long as no step on the way was
    stopped by a halt or an illegal byte. -/
theorem run_of_calls {calls : List Call} {m : Machine}
    (led : Call.Lead Undisturbed calls fresh m) :
    ((∃ r, m.Runs none r) ↔ ∃ r, (fresh.append m.program.toList).Runs none r) ∧
    (∀ r r', m.Runs none r → (fresh.append m.program.toList).Runs none r' → r = r') ∧
    (∀ bytes, m.step.2.stop = some .fault →
      (m.step.2.append bytes).step = (m.append bytes).step) := by
  have in_step := inStep_fresh.calls led
  refine ⟨exists_congr fun r => in_step.runs_iff.symm, ?_, ?_⟩
  · intro r r' runs loaded
    exact runs.unique (in_step.runs_iff.1 loaded)
  · intro bytes faulted
    exact step_append_of_fault faulted bytes

/-- A load that is cut off faults, and after a vain attempt to load what is no byte it is completed
    and carried out. -/
theorem run_of_calls_cut_load :
    let calls : List Call :=
      [.append [1, 0, 1], .step, .append [0xF4, 300], .appendGroups [[0xF4]], .append [0xF4], .step]
    let m : Machine := { fresh with
      pc := 4, registers := fresh.registers.set 0 500, program := #[1, 0, 1, 0xF4],
      stop := some .ended }
    Call.Lead Undisturbed calls fresh m ∧
      ∃ r, m.Runs none r ∧ (fresh.append [1, 0, 1, 0xF4]).Runs none r := by
  intro calls m
  have led : Call.Lead Undisturbed calls fresh m := by
    refine ⟨_, rfl, ⟨by decide, by decide⟩, _, rfl, ⟨by decide, by decide⟩, _, rfl,
      ⟨by decide, by decide⟩, _, rfl, ⟨by decide, by decide⟩, _, rfl, ⟨by decide, by decide⟩,
      m, ?_, ⟨by decide, by decide⟩, rfl⟩
    rw [Call.Leaves]; decide +kernel
  have stops : m.Runs none m := ⟨1, by decide +kernel⟩
  obtain ⟨r, loaded⟩ := (run_of_calls led).1.1 ⟨m, stops⟩
  obtain rfl := (run_of_calls led).2.1 m r stops loaded
  exact ⟨led, m, stops, loaded⟩

end Machine

end RegisterMachine
