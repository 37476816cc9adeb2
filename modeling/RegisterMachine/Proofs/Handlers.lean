import RegisterMachine.Proofs.Reading

/-! Handlers write last. A handler could write between two fetches, and what it has written would
    stay; but each of them makes its fetches and its checks in the order in which the operands are
    read, and comes to its writes with nothing left that can break it off. Main statement
    (`execNext_eq`): an instruction that is carried out in place comes to its effect, or to a trap
    that leaves all but the counter as it was. -/

namespace RegisterMachine

namespace Fetch

variable {α β : Type}

/-- The reading does not look at the counter of the machine, only at where it starts itself. -/
def PcFree (f : Fetch α) : Prop :=
  ∀ (m : Machine) (pc address : Int), f.result { m with pc } address = f.result m address

theorem PcFree.bind {f : Fetch α} {g : α → Fetch β} (hf : f.PcFree) (hg : ∀ x, (g x).PcFree) :
    (f >>= g).PcFree := by
  intro m pc address
  rw [result_bind, result_bind, hf]
  split
  · exact hg _ _ _ _
  · rfl

theorem pcFree_byte : byte.PcFree := by
  intro m pc address
  rw [result_byte, result_byte]
  rfl

theorem pcFree_half : half.PcFree := by
  intro m pc address
  rw [result_half, result_half]
  rfl

theorem pcFree_signedHalf : signedHalf.PcFree := pcFree_half.bind fun _ _ _ _ => rfl

theorem pcFree_register : register.PcFree := by
  refine pcFree_byte.bind fun index => ?_
  split <;> exact fun _ _ _ => rfl

theorem pcFree_source : source.PcFree := pcFree_register.bind fun _ _ _ _ => rfl

end Fetch

namespace Handler

variable {α β : Type}

theorem bind_apply (h : Handler α) (k : α → Handler β) (m : Machine) :
    (h >>= k) m = match h m with
      | .ok x m' => k x m'
      | .error t m' => .error t m' := by
  show EStateM.bind h k m = _
  rw [EStateM.bind]
  cases h m <;> rfl

theorem fetch_apply (f : Fetch α) (m : Machine) : fetch f m = match f.result m m.pc with
    | .ok x pc => .ok x { m with pc }
    | .error t pc => .error t { m with pc } := by
  rw [fetch, Machine.fetch, ← Fetch.result]
  cases f.result m m.pc <;> rfl

/-- Wherever the counter stands, the handler comes to the effect that is read from there on, and
    where the reading breaks off it has written nothing. -/
def CarriesOut (h : Handler Unit) (f : Fetch Effect) : Prop :=
  ∀ (m : Machine) (address : Int), h { m with pc := address } = match f.result m address with
    | .ok effect behind => .ok () ({ m with pc := behind }.apply effect)
    | .error trap behind => .error trap { m with pc := behind }

/-- After a fetch the handler goes on where the reading does. -/
theorem CarriesOut.fetch {f : Fetch α} {h : α → Handler Unit} {g : α → Fetch Effect}
    (free : f.PcFree) (rest : ∀ x, CarriesOut (h x) (g x)) :
    CarriesOut (Handler.fetch f >>= h) (f >>= g) := by
  intro m address
  rw [bind_apply, fetch_apply, free, Fetch.result_bind]
  cases f.result m address with
  | ok x behind => exact rest x m behind
  | error t behind => rfl

/-- A check in front of the rest of a handler. -/
theorem CarriesOut.check {c : Prop} [Decidable c] {cause : Fault} {h : PUnit → Handler Unit}
    {f : PUnit → Fetch Effect} (rest : CarriesOut (h ⟨⟩) (f ⟨⟩)) :
    CarriesOut (if c then Handler.fetch (Fetch.fail cause) >>= h else h ⟨⟩)
      (if c then Fetch.fail cause >>= f else f ⟨⟩) := by
  split
  · exact fun _ _ => rfl
  · exact rest

/-- A look at the machine, which the counter makes no difference to. -/
theorem CarriesOut.view {h : Machine → Handler Unit} {g : Machine → Fetch Effect}
    (rest : ∀ (m : Machine) (address : Int), CarriesOut (h { m with pc := address }) (g m)) :
    CarriesOut (get >>= h) (read >>= g) :=
  fun m address => rest m address m address

theorem carriesOut_writeNext (value : Int) :
    CarriesOut (writeNext value) (Fetch.register >>= fun dest => return .write dest value) :=
  .fetch Fetch.pcFree_register fun _ _ _ => rfl

theorem carriesOut_load : CarriesOut load Fetch.load :=
  .fetch Fetch.pcFree_register fun _ => .fetch Fetch.pcFree_signedHalf fun _ _ _ => rfl

theorem carriesOut_arithmetic (f : Int → Int → Int) :
    CarriesOut (arithmetic f) (Fetch.arithmetic f) :=
  .fetch Fetch.pcFree_source fun _ => .fetch Fetch.pcFree_source fun _ => carriesOut_writeNext _

/-- The remainder is written behind the last fetch, which is that of the destination. -/
theorem carriesOut_division : CarriesOut division Fetch.division := by
  refine .fetch Fetch.pcFree_source fun a => .fetch Fetch.pcFree_source fun b => ?_
  cases Word.quotient? a b with
  | none => exact fun _ _ => rfl
  | some q =>
    show CarriesOut ((Handler.fetch Fetch.register >>= fun dest => modify (·.write dest q)) >>= _) _
    rw [bind_assoc]
    exact .fetch Fetch.pcFree_register fun _ _ _ => rfl

theorem carriesOut_comparison (f : Int → Int → Bool) :
    CarriesOut (comparison f) (Fetch.comparison f) :=
  .fetch Fetch.pcFree_source fun _ => .fetch Fetch.pcFree_source fun _ =>
    .fetch Fetch.pcFree_byte fun _ _ _ => rfl

theorem carriesOut_branch (f : Int → Int → Int) : CarriesOut (branch f) (Fetch.branch f) :=
  .fetch Fetch.pcFree_source fun _ _ _ => rfl

theorem carriesOut_conditional : CarriesOut conditional Fetch.conditional := by
  refine .fetch Fetch.pcFree_source fun target => .view fun m address => ?_
  dsimp only
  split
  · exact fun _ _ => rfl
  · exact .fetch Fetch.pcFree_half fun _ _ _ => rfl

theorem carriesOut_allocation : CarriesOut allocation Fetch.allocation :=
  .fetch Fetch.pcFree_source fun _ => .check <| .view fun _ _ => .check <|
    .fetch Fetch.pcFree_half fun _ _ _ => rfl

/-- The handler of an operation whose code byte stands right before the counter. -/
theorem operation_apply (m : Machine) (address : Int) (code : UInt8) (op : Opcode) :
    operation code op { m with pc := address + 1 } =
      match (Fetch.operands address code op).result m (address + 1) with
      | .ok effect behind => .ok () ({ m with pc := behind }.apply effect)
      | .error trap behind => .error trap { m with pc := behind } := by
  cases op with
  | hlt => rfl
  | illegal =>
    -- The handler does not know the address and counts it back.
    have back : address + 1 - 1 = address := by omega
    show EStateM.Result.error (Trap.illegal code (address + 1 - 1)) _ = _
    rw [back]
    rfl
  | load => exact carriesOut_load m _
  | add | sub | mul => exact carriesOut_arithmetic _ m _
  | div => exact carriesOut_division m _
  | jmp => exact carriesOut_branch (fun _ target => target) m _
  | jmpf | jmpb => exact carriesOut_branch _ m _
  | eq | neq | gt | lt | gteq | lteq => exact carriesOut_comparison _ m _
  | jeq => exact carriesOut_conditional m _
  | alloc => exact carriesOut_allocation m _

theorem carriesOut_instruction : CarriesOut instruction Fetch.instruction := by
  intro m address
  rw [instruction, Fetch.instruction, Fetch.result_bind_of_ok (Fetch.result_counter m address)]
  show (fetch Fetch.byte >>= fun code => operation code (Opcode.ofByte code)) _ = _
  rw [bind_apply, fetch_apply, Fetch.pcFree_byte, Fetch.result_bind, Fetch.result_byte]
  cases m.byteAt? address with
  | none => rfl
  | some code => exact operation_apply m address code _

end Handler

/-- An instruction that is carried out in place comes to its effect, or to a trap that leaves all
    but the counter as it was. -/
theorem Machine.execNext_eq (m : Machine) : m.execNext = match m.fetch Fetch.instruction with
    | (.ok effect, m') => (none, m'.apply effect)
    | (.error trap, m') => (some trap, m') := by
  have carried := Handler.carriesOut_instruction m m.pc
  rw [execNext, carryOut, fetch, ← Fetch.result, EStateM.run, carried]
  cases Fetch.instruction.result m m.pc <;> rfl

end RegisterMachine
