/-! Tabs as spaces. A tab reaches to the next column that is a multiple of the tab width; columns
    count characters and start again behind a line feed and behind a carriage return. -/

namespace RegisterMachine.Text

/-- The distance between tab stops. -/
def tabWidth : Nat := 8

/-- The text with its tabs replaced by spaces, starting in the given column. -/
def expandTabs (column : Nat) : List Char → List Char
  | [] => []
  | c :: cs =>
    if c = '\t' then
      let width := tabWidth - column % tabWidth
      List.replicate width ' ' ++ expandTabs (column + width) cs
    else c :: expandTabs (if c = '\n' ∨ c = '\r' then 0 else column + 1) cs

end RegisterMachine.Text
