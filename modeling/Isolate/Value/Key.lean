import Isolate.Value.Basic

/-!
# Table keys

Every value except nil and NaN is a key.  A float that is an integer becomes
that integer, so equal keys are exactly the equal values.
-/

namespace Isolate

inductive Key
  | boolean (value : Bool)
  | integer (value : Int64)
  /-- A float that is neither a 64-bit integer nor NaN. -/
  | float (value : Binary64)
  | string (value : String)
  | light (address : UInt64)
  | table (handle : Handle)
  | function (handle : Handle)
  | native (name : String)
  | proxy (value : Proxy)
  | userdata (handle : Handle)
  deriving DecidableEq, Inhabited

namespace Key

def toValue : Key → Value
  | boolean b => .boolean b
  | integer i => .integer i
  | float x => .float x
  | string s => .string s
  | light a => .light a
  | table h => .table h
  | function h => .function h
  | native n => .native n
  | proxy p => .proxy p
  | userdata h => .userdata h

def handle? (key : Key) : Option Handle := key.toValue.handle?

end Key

/-- The key of a value. -/
def Value.key? : Value → Option Key
  | .nil => none
  | .boolean b => some (.boolean b)
  | .integer i => some (.integer i)
  | .float x =>
    if x.isNaN then none
    else
      match x.toInt64? with
      | some i => some (.integer i)
      | none => some (.float x)
  | .string s => some (.string s)
  | .light a => some (.light a)
  | .table h => some (.table h)
  | .function h => some (.function h)
  | .native n => some (.native n)
  | .proxy p => some (.proxy p)
  | .userdata h => some (.userdata h)

end Isolate
