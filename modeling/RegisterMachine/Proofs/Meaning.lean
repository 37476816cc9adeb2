import RegisterMachine.Proofs.Statement
import RegisterMachine.Proofs.Step

/-! What statements mean. The effect of a statement on a machine is told from its operands as they
    are written, with no byte of the program in sight: registers are looked up by their indices, and
    the counter moves by the size of a word or is set by a jump. Checks are made in the order in
    which they are written here, and the first that fails decides. -/

namespace RegisterMachine

namespace Statement

/-- The register with the given index. -/
def named (index : Int) : Except Trap Register :=
  if h : 0 ≤ index ∧ index < registerCount then return ⟨index.toNat, by omega⟩
  else throw (.fault (.noRegister (UInt8.ofNat index.toNat)))

/-- The value of the register with the given index. -/
def valueOf (m : Machine) (index : Int) : Except Trap Int := return m.registers.get (← named index)

/-- The machine at the word behind its counter. -/
def following (m : Machine) : Machine := { m with pc := m.pc + 4 }

/-- The machine with a new value in a register, which becomes the output. -/
def setRegister (m : Machine) (r : Register) (value : Int) : Machine :=
  { m with registers := m.registers.set r value r.isLt, out := .register r }

/-- Combines two registers into a third. -/
def combine (f : Int → Int → Int) (m : Machine) (left right dest : Int) : Except Trap Machine := do
  let a ← valueOf m left
  let b ← valueOf m right
  let d ← named dest
  return setRegister (following m) d (Word.signed (f a b))

/-- Divides two registers; the remainder has a place of its own. -/
def divide (m : Machine) (left right dest : Int) : Except Trap Machine := do
  let a ← valueOf m left
  let b ← valueOf m right
  if b = 0 then throw (.fault .divisionByZero)
  let d ← named dest
  let quotient := a.tdiv b
  return { setRegister (following m) d (Word.signed quotient) with
    remainder := Word.unsigned (a - quotient * b) }

/-- Compares two registers. -/
def test (f : Int → Int → Bool) (m : Machine) (left right : Int) : Except Trap Machine := do
  let a ← valueOf m left
  let b ← valueOf m right
  return { following m with flag := f a b, out := .flag }

/-- Moves the counter to a place that is found from the value of a register. -/
def jump (target : Int → Int) (m : Machine) (register : Int) : Except Trap Machine := do
  let value ← valueOf m register
  return { m with pc := target value }

/-- Moves the counter to the value of a register if the flag is set. -/
def jumpIf (m : Machine) (register : Int) : Except Trap Machine := do
  let target ← valueOf m register
  return if m.flag then { m with pc := target } else following m

/-- Adds as many zero bytes to the heap as a register says. -/
def allocate (m : Machine) (register : Int) : Except Trap Machine := do
  let size ← valueOf m register
  if size < 0 then throw (.fault (.negativeAllocation size))
  if m.heap.size + size > heapLimit then throw (.fault (.heapExceeded size))
  return { following m with heap := m.heap ++ Array.replicate size.toNat 0 }

/-- What a statement makes of a machine whose counter stands at it, or why it makes nothing. -/
def effect (m : Machine) : Statement → Except Trap Machine
  | ⟨.hlt, .nullary⟩ => throw .halt
  | ⟨.load, .integer dest value⟩ => do
    let d ← named dest
    return setRegister (following m) d (if value ≥ 0x8000 then value - 0x10000 else value)
  | ⟨.add, .binary left right dest⟩ => combine (· + ·) m left right dest
  | ⟨.sub, .binary left right dest⟩ => combine (· - ·) m left right dest
  | ⟨.mul, .binary left right dest⟩ => combine (· * ·) m left right dest
  | ⟨.div, .binary left right dest⟩ => divide m left right dest
  | ⟨.jmp, .unary register⟩ => jump (fun value => value) m register
  | ⟨.jmpf, .unary register⟩ => jump (fun value => m.pc + 2 + value) m register
  | ⟨.jmpb, .unary register⟩ => jump (fun value => m.pc + 2 - value) m register
  | ⟨.eq, .compare left right⟩ => test (fun a b => a = b) m left right
  | ⟨.neq, .compare left right⟩ => test (fun a b => a ≠ b) m left right
  | ⟨.gt, .compare left right⟩ => test (fun a b => a > b) m left right
  | ⟨.lt, .compare left right⟩ => test (fun a b => a < b) m left right
  | ⟨.gteq, .compare left right⟩ => test (fun a b => a ≥ b) m left right
  | ⟨.lteq, .compare left right⟩ => test (fun a b => a ≤ b) m left right
  | ⟨.jeq, .unary register⟩ => jumpIf m register
  | ⟨.alloc, .unary register⟩ => allocate m register
  | ⟨.illegal, .nullary⟩ => throw (.illegal Opcode.illegal.byte m.pc)

/-- What a step does that meets the statement: a halt leaves the counter one byte further, and a
    fault leaves all as it was. -/
def step (s : Statement) (m : Machine) : Bool × Machine :=
  match s.effect m.cleared with
  | .ok m' => if m'.inBounds then (true, m') else (false, { m' with stop := some .ended })
  | .error .halt => (false, { m with pc := m.pc + 1, stop := some .halt, diagnosis := none })
  | .error (.illegal code address) => (false, { m with
      pc := m.pc + 1, stop := some .illegal, diagnosis := some (.illegal code address) })
  | .error (.fault cause) =>
    (false, { m with stop := some .fault, diagnosis := some (.fault cause) })

end Statement

end RegisterMachine
