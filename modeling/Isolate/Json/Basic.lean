/-!
# JSON documents

A document keeps what a reader of settings needs.  A string is its bytes after
unescaping, where a lone surrogate takes the three bytes that UTF-8 forbids, so
a string that is not well formed is refused where it is used and passes where it
is ignored.
-/

namespace Isolate

inductive Json
  | null
  | bool (value : Bool)
  /-- A number, with its value if it is written with digits only. -/
  | number (natural : Option Nat)
  | string (bytes : List UInt8)
  | array (items : List Json)
  | object (members : List (List UInt8 × Json))
  deriving Inhabited

namespace Json

/-- The text of string bytes, if they are well formed. -/
def textOf? (bytes : List UInt8) : Option String :=
  String.fromUTF8? ⟨bytes.toArray⟩

end Json

end Isolate
