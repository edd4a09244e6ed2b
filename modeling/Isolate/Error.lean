import Isolate.Chunk.Error
import Isolate.Text.Radix
import Isolate.Value.Basic

/-!
# Why an operation fails
-/

namespace Isolate

/-- The arithmetic of scripts, as named in errors. -/
inductive Arithmetic
  | add
  | sub
  | mul
  | div
  | concat
  | negate
  deriving DecidableEq, Inhabited

def Arithmetic.symbol : Arithmetic → String
  | add => "+"
  | sub => "-"
  | mul => "*"
  | div => "/"
  | concat => ".."
  | negate => "unm"

/-- Why an operation on a context, or a script, failed. -/
inductive RuntimeError
  | invalidIndex (index : Int)
  | stackUnderflow
  | stackOverflow (limit : Nat)
  | callDepthExceeded (limit : Nat)
  | typeMismatch (expected found : String)
  /-- A table key was nil, or else NaN. -/
  | invalidKey (isNil : Bool)
  | notCallable (kind : String)
  | arithmetic (op : Arithmetic) (left right : String)
  /-- A function has no upvalue of this number, counted from one. -/
  | noSuchUpvalue (number : Nat)
  /-- A handle names no object. -/
  | danglingHandle (handle : Handle)
  /-- A native function complained. -/
  | native (name message : String)
  | dump (error : DumpError)
  | load (error : LoadError)
  /-- Two values have no order. -/
  | compare (left right : String)
  /-- An operand runs past the end of the code. -/
  | codeOverrun (offset : Nat)
  /-- A call took more steps than it was given. -/
  | budgetSpent
  deriving DecidableEq, Inhabited

def RuntimeError.message : RuntimeError → String
  | invalidIndex index => "invalid stack index " ++ toString index
  | stackUnderflow => "stack underflow"
  | stackOverflow limit =>
    "stack overflow (limit " ++ toString limit ++ " slots)"
  | callDepthExceeded limit =>
    "call depth exceeded (limit " ++ toString limit ++ ")"
  | typeMismatch expected found => expected ++ " expected, got " ++ found
  | invalidKey isNil => "table index is " ++ (if isNil then "nil" else "NaN")
  | notCallable kind => "attempt to call a " ++ kind ++ " value"
  | arithmetic op left right =>
    "attempt to perform arithmetic (" ++ op.symbol ++ ") on " ++ left ++
      " and " ++ right
  | noSuchUpvalue number => "no upvalue at index " ++ toString number
  | danglingHandle handle =>
    "dangling heap handle 0x" ++ Text.hexPadded 8 handle.index
  | native name message => name ++ ": " ++ message
  | dump error => "dump failed: " ++ error.message
  | load error => "load failed: " ++ error.message
  | compare left right => "attempt to compare " ++ left ++ " with " ++ right
  | codeOverrun offset =>
    "operand past the end of the code at offset " ++ toString offset
  | budgetSpent => "step budget spent"

/-- What a failure to dump or load a function came from. -/
def RuntimeError.cause? : RuntimeError → Option String
  | dump error => some error.message
  | load error => some error.message
  | _ => none

/-- Why a value was not copied into another context. -/
inductive TransferError
  /-- A kind of value that cannot cross contexts. -/
  | unsupported (kind : String)
  | dump (error : DumpError)
  | load (error : LoadError)
  | runtime (error : RuntimeError)
  deriving DecidableEq, Inhabited

namespace TransferError

def message : TransferError → String
  | unsupported kind => "cannot transfer a " ++ kind ++ " value"
  | dump error => "function dump failed: " ++ error.message
  | load error => "function load failed: " ++ error.message
  | runtime error => error.message

/-- What an error that wraps another came from. -/
def cause? : TransferError → Option String
  | unsupported _ => none
  | dump error => some error.message
  | load error => some error.message
  | runtime error => some error.message

/-- Failures to dump or load stay such failures. -/
def ofRuntime : RuntimeError → TransferError
  | .dump error => dump error
  | .load error => load error
  | error => runtime error

end TransferError

/-- Why an operation on two or more sessions failed. -/
inductive SessionError
  | sameSession
  | transfer (error : TransferError)
  | runtime (error : RuntimeError)
  deriving DecidableEq, Inhabited

def SessionError.message : SessionError → String
  | sameSession => "source and destination are the same session"
  | transfer error => "transfer failed: " ++ error.message
  | runtime error => error.message

/-- What an error that wraps another came from. -/
def SessionError.cause? : SessionError → Option String
  | sameSession => none
  | transfer error => some error.message
  | runtime error => some error.message

end Isolate
