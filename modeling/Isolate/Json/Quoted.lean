import Isolate.Text.Radix

/-!
# Quoted strings
-/

namespace Isolate.Json

/-- A character inside a quoted string: quotes, backslashes and control
characters are escaped. -/
def quotedChar (c : Char) : String :=
  if c = '"' then "\\\""
  else if c = '\\' then "\\\\"
  else if c = '\x08' then "\\b"
  else if c = '\x0c' then "\\f"
  else if c = '\n' then "\\n"
  else if c = '\r' then "\\r"
  else if c = '\t' then "\\t"
  else if c.toNat < 32 then "\\u" ++ Text.hexPadded 4 c.toNat
  else c.toString

def quoted (text : String) : String :=
  "\"" ++ String.join (text.toList.map quotedChar) ++ "\""

end Isolate.Json
