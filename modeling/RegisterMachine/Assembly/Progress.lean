import RegisterMachine.Assembly.Basic

/-! Readings never put anything back. Main statement: an instruction leaves less of the source than
    it found, so that instructions can be read until none is left. -/

namespace RegisterMachine.Assembly

/-! ### Properties of all operands -/

/-- A property that the building blocks of the operands have and that sequences keep. An operand
    is a token that is looked at, and may not be the end of input. -/
structure Compositional (P : ∀ {α : Type}, Assembly α → Prop) : Prop where
  pure : ∀ {α : Type} (x : α), P (Pure.pure x : Assembly α)
  error : ∀ {α : Type} (e : AssemblyError), P (throw e : Assembly α)
  bind : ∀ {α β : Type} {a : Assembly α} {f : α → Assembly β}, P a → (∀ x, P (f x)) → P (a >>= f)
  operand : ∀ {α : Type} {f : Token → Assembly α}, (∀ t, P (f t)) →
    f .endOfInput = refuse .unexpectedEnd .endOfInput → P (token >>= f)

namespace Compositional

variable {P : ∀ {α : Type}, Assembly α → Prop} (h : Compositional P)
include h

theorem register : P register := by
  refine h.operand (fun t => ?_) rfl
  split
  · split
    · exact h.error _
    · exact h.pure _
  · exact h.error _
  · exact h.error _

theorem integer : P integer := by
  refine h.operand (fun t => ?_) rfl
  split
  · split
    · exact h.error _
    · exact h.pure _
  · exact h.error _
  · exact h.error _

theorem byte (index : Int) : P (byte index) := by
  rw [Assembly.byte]
  split
  · exact h.pure _
  · exact h.error _

theorem operands : ∀ s : Shape, P (operands s)
  | .nullary => h.pure _
  | .integer => h.bind h.register fun _ => h.bind h.integer fun _ => h.bind (h.byte _) fun _ =>
      h.pure _
  | .binary => h.bind h.register fun _ => h.bind h.register fun _ => h.bind h.register fun _ =>
      h.bind (h.byte _) fun _ => h.bind (h.byte _) fun _ => h.bind (h.byte _) fun _ => h.pure _
  | .compare => h.bind h.register fun _ => h.bind h.register fun _ => h.bind (h.byte _) fun _ =>
      h.bind (h.byte _) fun _ => h.pure _
  | .unary => h.bind h.register fun _ => h.bind (h.byte _) fun _ => h.pure _

end Compositional

/-! ### Length of the source -/

/-- The source that a reading leaves. -/
def left {α : Type} (a : Assembly α) (source : List Located) : List Located :=
  match a.run source with
  | .ok _ rest => rest
  | .error _ rest => rest

/-- A reading that leaves no more than it found. -/
def Shrinks {α : Type} (a : Assembly α) : Prop := ∀ source, (a.left source).length ≤ source.length

theorem shrinks_pure {α : Type} (x : α) : Shrinks (pure x) := fun _ => Nat.le_refl _

theorem shrinks_throw {α : Type} (e : AssemblyError) : Shrinks (throw e : Assembly α) :=
  fun _ => Nat.le_refl _

theorem shrinks_bind {α β : Type} {a : Assembly α} {f : α → Assembly β} (ha : Shrinks a)
    (hf : ∀ x, Shrinks (f x)) : Shrinks (a >>= f) := by
  intro source
  have h := ha source
  simp only [left, EStateM.run, bind, EStateM.bind] at h ⊢
  cases hr : a source with
  | error e rest => simpa [hr] using h
  | ok x rest => simp only [hr] at h ⊢; exact Nat.le_trans (hf x rest) h

theorem shrinks_token : Shrinks token
  | [] => Nat.le_refl _
  | ⟨.token _, _⟩ :: _ => Nat.le_succ _
  | ⟨.tooLong _, _⟩ :: _ => Nat.zero_le _

theorem shrinks_compositional : Compositional @Shrinks where
  pure := shrinks_pure
  error := shrinks_throw
  bind := shrinks_bind
  operand hf _ := shrinks_bind shrinks_token hf

theorem shrinks_instructionFrom (t : Token) : Shrinks (instructionFrom t) := by
  rw [instructionFrom.eq_def]
  split
  · exact shrinks_pure _
  · exact shrinks_throw _
  · exact shrinks_bind (shrinks_compositional.operands _) fun _ => shrinks_pure _
  · exact shrinks_throw _

/-- An instruction takes at least its operator from the source. -/
theorem length_lt_of_instruction : ∀ {source rest : List Located} {i : Instruction},
    instruction.run source = .ok (some i) rest → rest.length < source.length
  | [], _, _, h => nomatch h
  | ⟨.tooLong _, _⟩ :: _, _, _, h => nomatch h
  | ⟨.token t, _⟩ :: tail, rest, _, h => by
    have run_eq : (instructionFrom t).run tail = _ := h
    have shrunk := shrinks_instructionFrom t tail
    rw [left, run_eq] at shrunk
    exact Nat.lt_succ_of_le shrunk

end RegisterMachine.Assembly
