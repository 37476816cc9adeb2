/-! Lines of a text. -/

namespace RegisterMachine.Text

/-- The text with every line end written as a line feed: a carriage return with or without a line
    feed behind it ends a line too. -/
def unifyLineEnds : List Char → List Char
  | [] => []
  | '\r' :: '\n' :: cs => '\n' :: unifyLineEnds cs
  | '\r' :: cs => '\n' :: unifyLineEnds cs
  | c :: cs => c :: unifyLineEnds cs

/-- The lines of a text, without the line feeds that end them. A text that ends with a line feed
    has no line behind it. -/
def lines : List Char → List (List Char)
  | [] => []
  | c :: cs =>
    (c :: cs).takeWhile (· ≠ '\n') :: lines (((c :: cs).dropWhile (· ≠ '\n')).drop 1)
termination_by cs => cs.length
decreasing_by
  have := (List.dropWhile_sublist (l := c :: cs) (· ≠ '\n')).length_le
  simp only [List.length_drop, List.length_cons] at this ⊢; omega

end RegisterMachine.Text
