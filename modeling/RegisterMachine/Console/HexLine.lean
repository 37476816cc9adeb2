import RegisterMachine.Text.Numeral
import RegisterMachine.Word

/-! Lines of hexadecimal bytes. -/

namespace RegisterMachine.HexLine

/-- The bytes of a line. Entries are parted by white space; those that are no hexadecimal number
    or no byte are passed over. -/
def bytes (line : String) : List UInt8 :=
  (Text.fields line.toList).filterMap fun entry => (Text.hexInt? entry).bind Word.byte?

end RegisterMachine.HexLine
