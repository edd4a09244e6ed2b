import Isolate.Numeric.Decimal
import Isolate.Text.Radix
import Isolate.Value.Basic

/-!
# Values as text
-/

namespace Isolate

/-- A slot index in eight hexadecimal digits. -/
def Handle.text (h : Handle) : String := "0x" ++ Text.hexPadded 8 h.index

namespace Value

/-- The text of a value.  References show their kind and slot. -/
def text : Value → String
  | nil => "nil"
  | boolean b => if b then "true" else "false"
  | integer i => toString i.toInt
  | float x => x.text
  | string s => s
  | light a => "lightuserdata: 0x" ++ Text.hex a.toNat
  | table h => "table: " ++ h.text
  | function h => "function: " ++ h.text
  | native name => "function: builtin: " ++ name
  | proxy p => p.kind.name ++ ": " ++ p.host.token
  | userdata h => "userdata: " ++ h.text

/-- The text of a string or number; other values are not converted. -/
def stringOrNumberText? : Value → Option String
  | string s => some s
  | integer i => some (integer i).text
  | float x => some (float x).text
  | _ => none

end Value

end Isolate
