import RegisterMachine.Proofs.Effect

/-! Readings of the instruction stream, seen from outside: what a reading that starts at an address
    of a machine gives, and where it leaves the counter. All operations but two are put together
    from the same few readings, so a property that these readings have and that sequences keep is a
    property of the operands of every such operation (`Compositional.operands`). -/

namespace RegisterMachine

namespace Fetch

variable {α β : Type}

/-- What a reading gives that starts at the given address. -/
def result (f : Fetch α) (m : Machine) (address : Int) : EStateM.Result Trap Int α :=
  (f.run m).run address

@[simp] theorem result_pure (x : α) (m : Machine) (address : Int) :
    (pure x : Fetch α).result m address = .ok x address := rfl

@[simp] theorem result_counter (m : Machine) (address : Int) :
    counter.result m address = .ok address address := rfl

@[simp] theorem result_read_bind (g : Machine → Fetch α) (m : Machine) (address : Int) :
    (read >>= g).result m address = (g m).result m address := rfl

theorem result_bind (f : Fetch α) (g : α → Fetch β) (m : Machine) (address : Int) :
    (f >>= g).result m address = match f.result m address with
      | .ok x behind => (g x).result m behind
      | .error t behind => .error t behind := by
  show EStateM.bind (f m) (fun x => g x m) address = _
  rw [EStateM.bind]
  cases h : f m address <;> simp only [result, ReaderT.run, EStateM.run, h]

theorem result_bind_of_ok {f : Fetch α} {m : Machine} {address behind : Int} {x : α}
    (h : f.result m address = .ok x behind) (g : α → Fetch β) :
    (f >>= g).result m address = (g x).result m behind := by
  rw [result_bind, h]

theorem result_bind_of_error {f : Fetch α} {m : Machine} {address behind : Int} {t : Trap}
    (h : f.result m address = .error t behind) (g : α → Fetch β) :
    (f >>= g).result m address = .error t behind := by
  rw [result_bind, h]

theorem result_byte (m : Machine) (address : Int) :
    byte.result m address = match m.byteAt? address with
      | some b => .ok b (address + 1)
      | none => .error (.fault (.pastEnd address)) address := by
  show (match m.byteAt? address with
    | some b => (do set (address + 1); return b : Fetch UInt8)
    | none => fail (.pastEnd address)).result m address = _
  cases m.byteAt? address <;> rfl

theorem result_half (m : Machine) (address : Int) :
    half.result m address = match m.byteAt? address, m.byteAt? (address + 1) with
      | some high, some low => .ok (high.toNat * 256 + low.toNat) (address + 2)
      | _, _ => .error (.fault (.pastEnd address)) address := by
  show (match m.byteAt? address, m.byteAt? (address + 1) with
    | some high, some low => (do set (address + 2); return high.toNat * 256 + low.toNat : Fetch Nat)
    | _, _ => fail (.pastEnd address)).result m address = _
  cases m.byteAt? address <;> cases m.byteAt? (address + 1) <;> rfl

/-! ### Properties of all operands -/

/-- A property that the building blocks of the operations have and that sequences keep. What a
    reading sees of the machine, apart from the bytes it takes, is the snapshot. -/
structure Compositional (P : ∀ {α : Type}, Fetch α → Prop) : Prop where
  pure : ∀ {α : Type} (x : α), P (Pure.pure x : Fetch α)
  fail : ∀ {α : Type} (cause : Fault), P (fail cause : Fetch α)
  bind : ∀ {α β : Type} {f : Fetch α} {g : α → Fetch β}, P f → (∀ x, P (g x)) → P (f >>= g)
  view : ∀ {α : Type} (g : Snapshot → Fetch α), (∀ s, P (g s)) →
    P (read >>= fun m => g m.snapshot)
  counter : P counter
  byte : P byte
  half : P half

namespace Compositional

variable {P : ∀ {α : Type}, Fetch α → Prop} (h : Compositional P)
include h

theorem register : P register := by
  refine h.bind h.byte fun index => ?_
  split
  · exact h.pure _
  · exact h.fail _

theorem source : P source :=
  h.bind h.register fun r => h.view (fun s => Pure.pure (s.registers.get r)) fun _ => h.pure _

theorem load : P load :=
  h.bind h.register fun _ => h.bind (h.bind h.half fun _ => h.pure _) fun _ => h.pure _

/-- A check in front of the rest of a reading. -/
theorem check {α : Type} (c : Prop) [Decidable c] (cause : Fault) {rest : PUnit → Fetch α}
    (hr : ∀ u, P (rest u)) : P (if c then Fetch.fail cause >>= rest else rest ⟨⟩) := by
  split
  · exact h.bind (h.fail cause) hr
  · exact hr _

theorem arithmetic (f : Int → Int → Int) : P (arithmetic f) :=
  h.bind h.source fun _ => h.bind h.source fun _ => h.bind h.register fun _ => h.pure _

theorem division : P division := by
  refine h.bind h.source fun _ => h.bind h.source fun _ => ?_
  split
  · exact h.fail .divisionByZero
  · exact h.bind h.register fun _ => h.pure _

theorem comparison (f : Int → Int → Bool) : P (comparison f) :=
  h.bind h.source fun _ => h.bind h.source fun _ => h.bind h.byte fun _ => h.pure _

theorem branch (f : Int → Int → Int) : P (branch f) :=
  h.bind h.source fun _ => h.bind h.counter fun _ => h.pure _

theorem conditional : P conditional := by
  refine h.bind h.source fun target => ?_
  refine h.view (fun s => if s.flag then Pure.pure (Effect.jump target) else
    Fetch.half >>= fun _ => Pure.pure Effect.nothing) fun s => ?_
  split
  · exact h.pure _
  · exact h.bind h.half fun _ => h.pure _

theorem allocation : P allocation := by
  refine h.bind h.source fun size => h.check (size < 0) (.negativeAllocation size) fun _ => ?_
  refine h.view (fun s => if s.heap.size + size > heapLimit then
    Fetch.fail (.heapExceeded size) >>= fun (_ : PUnit) =>
      Fetch.half >>= fun _ => Pure.pure (Effect.grow size.toNat)
    else Fetch.half >>= fun _ => Pure.pure (Effect.grow size.toNat)) fun s => ?_
  exact h.check _ _ fun _ => h.bind h.half fun _ => h.pure _

/-- The operands of every operation but a halt and an illegal byte. -/
theorem operands (address : Int) (code : UInt8) {op : Opcode} (hlt : op ≠ .hlt)
    (legal : op ≠ .illegal) : P (operands address code op) := by
  cases op with
  | hlt => exact absurd rfl hlt
  | illegal => exact absurd rfl legal
  | load => exact h.load
  | add | sub | mul => exact h.arithmetic _
  | div => exact h.division
  | jmp | jmpf | jmpb => exact h.branch _
  | eq | neq | gt | lt | gteq | lteq => exact h.comparison _
  | jeq => exact h.conditional
  | alloc => exact h.allocation

end Compositional

end Fetch

end RegisterMachine
