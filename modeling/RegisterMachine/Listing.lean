import RegisterMachine.Text.HexBytes

/-! Programs as rows of hexadecimal bytes. -/

namespace RegisterMachine.Listing

/-- Cuts a list into pieces of `n + 1` elements; the last one may be shorter. -/
def chunks {α : Type} (n : Nat) : List α → List (List α)
  | [] => []
  | x :: xs => (x :: xs.take n) :: chunks n (xs.drop n)
termination_by xs => xs.length
decreasing_by simp only [List.length_drop, List.length_cons]; omega

/-- The bytes of a program in rows of the given width. A negative width gives no rows at all, and
    there are no rows of width zero. -/
def rows? (width : Int) (program : List UInt8) : Option (List String) :=
  if width = 0 then none
  else if width < 0 then some []
  else some ((chunks (width.toNat - 1) program).map Text.hexRow)

/-- The bytes of a program, one instruction in a row. -/
def program (program : List UInt8) : List String := (chunks 3 program).map Text.hexRow

end RegisterMachine.Listing
