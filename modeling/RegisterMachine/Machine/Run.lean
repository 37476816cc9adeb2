import RegisterMachine.Machine.Handler

/-! Steps and runs. A step executes one instruction; a fault takes the counter back to where the
    instruction starts, so that it can be tried again, while a halt or an illegal byte leaves the
    counter behind the code byte. A bounded run makes at most so many steps. A run without a bound
    may never stop: it is given as the bounded search for its stop, `run? fuel`, which finds the
    same state for every fuel that suffices. -/

namespace RegisterMachine.Machine

/-- Executes one instruction and tells whether execution may go on. -/
def step (m : Machine) : Bool × Machine :=
  let start := { m with stop := none, diagnosis := none }
  if start.inBounds then
    match start.execNext with
    | (none, m') => if m'.inBounds then (true, m') else (false, { m' with stop := some .ended })
    | (some .halt, m') => (false, { m' with stop := some .halt })
    | (some (.illegal byte address), m') =>
      (false, { m' with stop := some .illegal, diagnosis := some (.illegal byte address) })
    | (some (.fault cause), m') =>
      (false, { m' with pc := m.pc, stop := some .fault, diagnosis := some (.fault cause) })
  else (false, { start with stop := some .ended })

/-- Steps until a stop, at most `limit` times. -/
def runFor : Nat → Machine → Machine
  | 0, m => { m with stop := some .stepLimit }
  | limit + 1, m =>
    match m.step with
    | (true, m') => runFor limit m'
    | (false, m') => m'

/-- Steps until a stop; none if `fuel` steps do not reach one. -/
def run? : Nat → Machine → Option Machine
  | 0, _ => none
  | fuel + 1, m =>
    match m.step with
    | (true, m') => run? fuel m'
    | (false, m') => some m'

/-- Runs with the given limit on the number of steps, or without one. -/
def runWithin? (fuel : Nat) (limit : Option Nat) (m : Machine) : Option Machine :=
  match limit with
  | some limit => some (m.runFor limit)
  | none => m.run? fuel

end RegisterMachine.Machine
