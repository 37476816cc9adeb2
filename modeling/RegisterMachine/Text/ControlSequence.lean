/-! Terminal control sequences: an escape character and a bracket, then parameters, then
    intermediate characters, then one final character. The four classes have no character in
    common, so a sequence can be read without looking back. -/

namespace RegisterMachine.Text

/-- The escape character. -/
def escape : Char := '\x1b'

def isParameter (c : Char) : Bool := '0' ≤ c && c ≤ '?'
def isIntermediate (c : Char) : Bool := ' ' ≤ c && c ≤ '/'
def isFinal (c : Char) : Bool := '@' ≤ c && c ≤ '~'

/-- What follows the parameters of a sequence, if they are the start of one. -/
def afterBracket? (cs : List Char) : Option (List Char) :=
  match (cs.dropWhile isParameter).dropWhile isIntermediate with
  | c :: rest => if isFinal c then some rest else none
  | [] => none

theorem length_lt_of_afterBracket? {cs rest : List Char} (h : afterBracket? cs = some rest) :
    rest.length < cs.length := by
  have h₁ := (List.dropWhile_sublist (l := cs) isParameter).length_le
  have h₂ := (List.dropWhile_sublist (l := cs.dropWhile isParameter) isIntermediate).length_le
  rw [afterBracket?] at h
  split at h
  · next heq =>
    rw [heq, List.length_cons] at h₂
    split at h
    · cases h; omega
    · cases h
  · cases h

/-- The text without its control sequences. -/
def dropControls : List Char → List Char
  | [] => []
  | [c] => [c]
  | c :: b :: cs =>
    if c = escape ∧ b = '[' then
      match h : afterBracket? cs with
      | some rest =>
        have := length_lt_of_afterBracket? h
        dropControls rest
      | none => c :: dropControls (b :: cs)
    else c :: dropControls (b :: cs)
termination_by cs => cs.length

end RegisterMachine.Text
