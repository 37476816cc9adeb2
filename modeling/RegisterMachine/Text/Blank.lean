/-! White space in general: the characters that Unicode counts as such, and the four information
    separators. -/

namespace RegisterMachine.Text

/-- A character of white space. -/
def isBlank (c : Char) : Bool :=
  let n := c.toNat
  (0x09 ≤ n && n ≤ 0x0D) || (0x1C ≤ n && n ≤ 0x20) || n == 0x85 || n == 0xA0 || n == 0x1680
    || (0x2000 ≤ n && n ≤ 0x200A) || n == 0x2028 || n == 0x2029 || n == 0x202F || n == 0x205F
    || n == 0x3000

/-- The text without the characters of a class at both of its ends. -/
def trim (p : Char → Bool) (cs : List Char) : List Char :=
  ((cs.dropWhile p).reverse.dropWhile p).reverse

/-- The text without white space at both of its ends. -/
def strip (text : String) : String := String.ofList (trim isBlank text.toList)

/-- The longest pieces of a text that hold no white space. -/
def fields : List Char → List (List Char)
  | [] => []
  | c :: cs =>
    if isBlank c then fields cs
    else (c :: cs.takeWhile (! isBlank ·)) :: fields (cs.dropWhile (! isBlank ·))
termination_by cs => cs.length
decreasing_by
  · simp
  · have := (List.dropWhile_sublist (l := cs) (! isBlank ·)).length_le
    simp only [List.length_cons]; omega

end RegisterMachine.Text
