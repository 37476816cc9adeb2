import RegisterMachine.Machine.Basic

/-! Reading the instruction stream. A fetch looks at the machine and moves the counter, and changes
    nothing else; where it fails the counter stays behind the bytes that were read. -/

namespace RegisterMachine

/-- A reading that starts at a counter of a machine. -/
abbrev Fetch := ReaderT Machine (EStateM Trap Int)

namespace Fetch

/-- Gives up because of a fault. -/
def fail {α : Type} (cause : Fault) : Fetch α := throw (.fault cause)

/-- The address of the next byte. -/
def counter : Fetch Int := get

/-- One byte. -/
def byte : Fetch UInt8 := do
  let address ← counter
  match (← read).byteAt? address with
  | some b => set (address + 1); return b
  | none => fail (.pastEnd address)

/-- Two bytes, the higher one first; they are read together or not at all. -/
def half : Fetch Nat := do
  let address ← counter
  let m ← read
  match m.byteAt? address, m.byteAt? (address + 1) with
  | some high, some low => set (address + 2); return high.toNat * 256 + low.toNat
  | _, _ => fail (.pastEnd address)

/-- Two bytes as a signed integer. -/
def signedHalf : Fetch Int := return ((← half : Nat) : Int).bmod 65536

/-- A byte that names a register. -/
def register : Fetch Register := do
  let index ← byte
  if h : index.toNat < registerCount then return ⟨index.toNat, h⟩ else fail (.noRegister index)

/-- The value of the register that the next byte names. -/
def source : Fetch Int := do
  let r ← register
  return (← read).registers.get r

end Fetch

/-- Reads from the counter on and moves it. -/
def Machine.fetch {α : Type} (m : Machine) (f : Fetch α) : Except Trap α × Machine :=
  match (f.run m).run m.pc with
  | .ok a pc => (.ok a, { m with pc })
  | .error t pc => (.error t, { m with pc })

end RegisterMachine
