import Isolate.Context.Basic

/-!
# The value stack

A positive index counts from the bottom and a negative one from the top, both
from one.
-/

namespace Isolate.Context

/-- The slot of a stack index, if the stack has it. -/
def slot? (ctx : Context) (index : Int) : Option Nat :=
  let height := ctx.stack.size
  if 0 < index ∧ index ≤ height then some (index.toNat - 1)
  else if index < 0 ∧ -index ≤ height then some (height - index.natAbs)
  else none

def slotOf (ctx : Context) (index : Int) : Except RuntimeError Nat :=
  match ctx.slot? index with
  | some slot => .ok slot
  | none => .error (.invalidIndex index)

def value? (ctx : Context) (index : Int) : Option Value :=
  (ctx.slot? index).map fun slot => ctx.stack.getD slot .nil

def valueAt (ctx : Context) (index : Int) : Except RuntimeError Value :=
  match ctx.value? index with
  | some value => .ok value
  | none => .error (.invalidIndex index)

/-- The positive form of an index. -/
def absoluteIndex (ctx : Context) (index : Int) : Except RuntimeError Int :=
  (ctx.slotOf index).map fun slot => slot + 1

def height (ctx : Context) : Nat := ctx.stack.size

def kindAt (ctx : Context) (index : Int) : Except RuntimeError Kind :=
  (ctx.valueAt index).map Value.kind

def integerAt? (ctx : Context) (index : Int) : Option Int64 :=
  (ctx.value? index).bind Value.toInteger?

def numberAt? (ctx : Context) (index : Int) : Option Binary64 :=
  (ctx.value? index).bind Value.toNumber?

/-- Whether the value is truthy; an index outside the stack is not. -/
def truthyAt (ctx : Context) (index : Int) : Bool :=
  ((ctx.value? index).map Value.truthy).getD false

/-- The text of a string or number. -/
def textAt? (ctx : Context) (index : Int) : Option String :=
  (ctx.value? index).bind Value.stringOrNumberText?

def proxyKindAt? (ctx : Context) (index : Int) : Option ProxyKind :=
  (ctx.value? index).bind Value.proxyKind?

/-- Cuts the stack down to a height; a stack below it stays as it is. -/
def truncateStack (height : Nat) (ctx : Context) : Context :=
  { ctx with stack := ctx.stack.shrink height }

/-- Cuts the stack down or fills it up with nil to a height. -/
def resizeStack (height : Nat) (ctx : Context) : Context :=
  { ctx with
    stack :=
      if ctx.stack.size < height then
        ctx.stack ++ Array.replicate (height - ctx.stack.size) Value.nil
      else ctx.stack.shrink height }

def push (value : Value) : Action Unit :=
  modify fun ctx => { ctx with stack := ctx.stack.push value }

def popTop : Action Value := fun ctx =>
  match ctx.stack.back? with
  | some value => .ok value { ctx with stack := ctx.stack.pop }
  | none => .error .stackUnderflow ctx

/-- Drops so many values. -/
def pop (count : Nat) : Action Unit := fun ctx =>
  if count ≤ ctx.stack.size then
    .ok () (ctx.truncateStack (ctx.stack.size - count))
  else .error .stackUnderflow ctx

/-- Sets the height.  A negative index keeps everything up to and including its
position. -/
def setHeight (index : Int) : Action Unit := fun ctx =>
  let height? :=
    if 0 ≤ index then some index.toNat
    else if index.natAbs - 1 ≤ ctx.stack.size then
      some (ctx.stack.size - (index.natAbs - 1))
    else none
  match height? with
  | none => .error (.invalidIndex index) ctx
  | some height =>
    if ctx.settings.maxStack < height then
      .error (.stackOverflow ctx.settings.maxStack) ctx
    else .ok () (ctx.resizeStack height)

def duplicate (index : Int) : Action Unit := do
  let value ← query (·.valueAt index)
  push value

/-- Takes a value out, moving the ones above it down. -/
def remove (index : Int) : Action Value := do
  let slot ← query (·.slotOf index)
  let value ← query (·.valueAt index)
  modify fun ctx => { ctx with stack := ctx.stack.eraseIdxIfInBounds slot }
  pure value

def pushGlobals : Action Unit := do
  push (← get).globalsValue

/-- Pushes a new empty table. -/
def newTable : Action Unit := do
  collectIfDue
  let handle ← allocate (.table .empty)
  push (.table handle)

/-- Pushes a new block of host memory. -/
def newUserdata (typeName : String) (bytes : List UInt8) : Action Unit := do
  collectIfDue
  let handle ← allocate (.userdata { typeName, bytes })
  push (.userdata handle)

/-! ## Pins -/

/-- Pins a value. -/
def pinValue (value : Value) : Action Pin := fun ctx =>
  let (pin, registry) := ctx.registry.pin value
  .ok pin { ctx with registry }

/-- Pins the value at an index, which stays on the stack. -/
def pin (index : Int) : Action Pin := do
  let value ← query (·.valueAt index)
  pinValue value

def pinned? (ctx : Context) (pin : Pin) : Option Value := ctx.registry.get? pin

/-- Pushes a pinned value.  The error shows the slot number as a signed 32-bit
stack index. -/
def pushPinned (pin : Pin) : Action Unit := do
  match (← get).pinned? pin with
  | some value => push value
  | none => throw (.invalidIndex ((pin.slot : Int).bmod UInt32.size))

def unpin (pin : Pin) : Action Unit :=
  modify fun ctx => { ctx with registry := ctx.registry.unpin pin }

end Isolate.Context
