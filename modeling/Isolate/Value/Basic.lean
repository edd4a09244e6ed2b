import Isolate.Numeric.Binary64
import Isolate.Code.Prototype

/-!
# Values

Plain data is held by value.  Tables, script functions and userdata are handles
into the heap of one context and mean nothing in another; a proxy names a host
object that all contexts share.
-/

namespace Isolate

/-- The index of a heap slot of one context.  Heaps of fewer than 2^32 slots are
meant: slots are numbered by 32-bit words, which never wrap there. -/
structure Handle where
  index : Nat
  deriving DecidableEq, Inhabited

/-- How scripts see a host object. -/
inductive ProxyKind
  | ofClass
  | ofInstance
  | ofArray
  deriving DecidableEq, Inhabited

def ProxyKind.name : ProxyKind → String
  | ofClass => "class"
  | ofInstance => "instance"
  | ofArray => "array"

/-- A host object, known by a token: equal tokens are the same object. -/
structure Host where
  token : String
  deriving DecidableEq, Inhabited

structure Proxy where
  kind : ProxyKind
  host : Host
  deriving DecidableEq, Inhabited

inductive Value
  | nil
  | boolean (value : Bool)
  | integer (value : Int64)
  | float (value : Binary64)
  | string (value : String)
  /-- An untyped host address. -/
  | light (address : UInt64)
  | table (handle : Handle)
  | function (handle : Handle)
  /-- A native function, known by its name. -/
  | native (name : String)
  | proxy (value : Proxy)
  | userdata (handle : Handle)
  deriving DecidableEq, Inhabited

/-- The type of a value as scripts see it. -/
inductive Kind
  | nil
  | boolean
  | number
  | string
  | light
  | table
  | function
  | userdata
  deriving DecidableEq, Inhabited

def Kind.name : Kind → String
  | nil => "nil"
  | boolean => "boolean"
  | number => "number"
  | string => "string"
  | light => "lightuserdata"
  | table => "table"
  | function => "function"
  | userdata => "userdata"

namespace Value

def ofConstant : Constant → Value
  | .nil => nil
  | .boolean b => boolean b
  | .integer i => integer i
  | .float x => float x
  | .string s => string s

def kind : Value → Kind
  | nil => .nil
  | boolean _ => .boolean
  | integer _ | float _ => .number
  | string _ => .string
  | light _ => .light
  | table _ => .table
  | function _ | native _ => .function
  | proxy _ | userdata _ => .userdata

def kindName (v : Value) : String := v.kind.name

/-- The heap object a value refers to. -/
def handle? : Value → Option Handle
  | table h | function h | userdata h => some h
  | _ => none

def proxyKind? : Value → Option ProxyKind
  | proxy p => some p.kind
  | _ => none

/-- Only nil and false are not truthy. -/
def truthy : Value → Bool
  | nil | boolean false => false
  | _ => true

def isNil : Value → Bool
  | nil => true
  | _ => false

/-- The number a value is, as a float; an integer goes to the nearest one. -/
def toNumber? : Value → Option Binary64
  | integer i => some (.ofInt i.toInt)
  | float x => some x
  | _ => none

/-- The integer a value is; a float has to be exactly one. -/
def toInteger? : Value → Option Int64
  | integer i => some i
  | float x => x.toInt64?
  | _ => none

/-- Equality of values: an integer equals the float of the same value, floats
compare as numbers, and references by identity. -/
def rawEqual : Value → Value → Bool
  | integer i, float x | float x, integer i => decide (x.toInt64? = some i)
  | float x, float y => x.equal y
  | a, b => decide (a = b)

end Value

end Isolate
