import Isolate.Context.Tables
import Isolate.Native.Basic

/-!
# The standard native functions
-/

namespace Isolate.Native

/-- The complaint about an argument list whose length is not between two
bounds. -/
def arityComplaint (name : String) (least most got : Nat) : String :=
  let expected := if least = most then toString least
    else toString least ++ " to " ++ toString most
  "wrong number of arguments to '" ++ name ++ "' (expected " ++
    expected ++ ", got " ++ toString got ++ ")"

/-- The complaint about an argument, counted from one. -/
def argumentComplaint (name : String) (number : Nat) (expected : String)
    (got : Value) : String :=
  "bad argument #" ++ toString number ++ " to '" ++ name ++ "' (" ++ expected
    ++ " expected, got " ++ got.kindName ++ ")"

/-- A native function that only looks at the context. -/
def ofQuery (f : Context → List Value → Except String Value) : Native :=
  fun _ arguments => do
    pure (f (← get) arguments)

/-- A native function of one argument that only looks at the context. -/
def ofOne (name : String)
    (f : Context → Value → Except String Value) : Native :=
  ofQuery fun ctx arguments =>
    match arguments with
    | [value] => f ctx value
    | _ => .error (arityComplaint name 1 1 arguments.length)

def type : Native := ofOne "type" fun _ value => .ok (.string value.kindName)

def rawlen : Native := ofOne "rawlen" fun ctx value =>
  match value with
  | .string _ | .table _ =>
    match ctx.lengthOf value with
    | .ok n => .ok (.integer (.ofNat n))
    | .error error => .error error.message
  | _ => .error (argumentComplaint "rawlen" 1 "table or string" value)

def rawequal : Native := ofQuery fun _ arguments =>
  match arguments with
  | [left, right] => .ok (.boolean (left.rawEqual right))
  | _ => .error (arityComplaint "rawequal" 2 2 arguments.length)

def tostring : Native :=
  ofOne "tostring" fun _ value => .ok (.string value.text)

/-- Gives its first argument back if that is truthy, and complains with the
text of the second otherwise. -/
def assert : Native := ofQuery fun _ arguments =>
  match arguments with
  | [value] => if value.truthy then .ok value else .error "assertion failed!"
  | [value, message] => if value.truthy then .ok value else .error message.text
  | _ => .error (arityComplaint "assert" 1 2 arguments.length)

/-- The class proxy of a host class. -/
def bindClass : Native := ofOne "bind_class" fun ctx value =>
  match value with
  | .string name =>
    match ctx.bindings.find? name with
    | some host => .ok (.proxy ⟨.ofClass, host⟩)
    | none => .error ("no host class named '" ++ name ++ "'")
  | _ => .error (argumentComplaint "bind_class" 1 "string" value)

def standard : Natives
  | "type" => some type
  | "rawlen" => some rawlen
  | "rawequal" => some rawequal
  | "tostring" => some tostring
  | "assert" => some assert
  | "bind_class" => some bindClass
  | _ => none

end Isolate.Native
