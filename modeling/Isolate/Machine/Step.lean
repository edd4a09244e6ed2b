import Isolate.Context.Tables
import Isolate.Machine.Operators
import Isolate.Machine.Traceback
import Isolate.Native.Basic

/-!
# One instruction

The innermost frame owns the stack slots of its locals, and its operands lie
above them.  Instructions never take an operand from the locals.
-/

namespace Isolate.Machine

open Context

/-! ## The innermost frame -/

def innermost : Action Frame := do
  match (← get).frames.back? with
  | some frame => pure frame
  | none => throw .stackUnderflow

/-- Moves the innermost frame to an offset. -/
def moveTo (offset : Nat) : Action Unit :=
  modify fun ctx =>
    { ctx with
      frames := ctx.frames.modify (ctx.frames.size - 1) fun frame =>
        { frame with ip := offset } }

/-- Pushes an operand, within the stack limit. -/
def putOperand (value : Value) : Action Unit := do
  let ctx ← get
  if ctx.settings.maxStack ≤ ctx.stack.size then
    throw (.stackOverflow ctx.settings.maxStack)
  else push value

/-- Takes the operand on top, which is never one of the locals. -/
def takeOperand : Action Value := do
  let frame ← innermost
  if (← get).stack.size ≤ frame.localsEnd then throw .stackUnderflow
  else popTop

/-- The stack slot of a local of the innermost frame. -/
def slotOfLocal (index : Nat) : Action Nat := do
  let frame ← innermost
  let slot := frame.base + index
  if frame.localsEnd ≤ slot ∨ (← get).stack.size ≤ slot then
    throw .stackUnderflow else pure slot

/-- The cell of an upvalue of the innermost frame, counted from zero. -/
def cellOfUpvalue (index : Nat) : Action Handle := do
  let frame ← innermost
  match frame.cells[index]? with
  | some cell => pure cell
  | none => throw (.noSuchUpvalue (index + 1))

/-! ## Reading the code -/

def byteOperand (proto : Prototype) (offset : Nat) : Action Nat :=
  match proto.code.byteAt? offset with
  | some operand => pure operand
  | none => throw (.codeOverrun offset)

def pairOperand (proto : Prototype) (offset : Nat) : Action Nat :=
  match proto.code.pairAt? offset with
  | some operand => pure operand
  | none => throw (.codeOverrun offset)

/-- A literal of the prototype; `offset` is shown when there is none. -/
def literal (proto : Prototype) (index offset : Nat) : Action Value :=
  match proto.constants[index]? with
  | some constant => pure (.ofConstant constant)
  | none => throw (.load (.operandOutOfRange offset))

/-! ## Tables -/

def indexed (target key : Value) : Action Value :=
  match target with
  | .table handle => query (·.lookupKey handle key)
  | other => throw (.typeMismatch "table" other.kindName)

def assign (target key value : Value) : Action Unit :=
  match target with
  | .table handle => bindKey handle key value
  | other => throw (.typeMismatch "table" other.kindName)

/-! ## Operators -/

def unary (f : Value → Except RuntimeError Value) : Action Unit := do
  let operand ← takeOperand
  let result ← query fun _ => f operand
  putOperand result

/-- Takes the right operand from the top and the left one from below it. -/
def binary (f : Value → Value → Except RuntimeError Value) : Action Unit := do
  let right ← takeOperand
  let left ← takeOperand
  let result ← query fun _ => f left right
  putOperand result

/-! ## Calls -/

/-- Enters a script function.  Extra arguments are dropped; missing ones and
the other locals start as nil. -/
def enterClosure (handle : Handle)
    (calleeSlot argumentCount : Nat) : Action Unit := do
  let ctx ← get
  if ctx.settings.maxCallDepth ≤ ctx.frames.size then
    throw (.callDepthExceeded ctx.settings.maxCallDepth)
  let closure ← query (·.closureOf handle)
  let base := calleeSlot + 1
  let frame : Frame :=
    { closure := handle, proto := closure.proto, cells := closure.cells, base }
  if ctx.settings.maxStack < frame.localsEnd then
    throw (.stackOverflow ctx.settings.maxStack)
  modify fun ctx =>
    let ctx :=
      ctx.truncateStack (base + min argumentCount closure.proto.numParams.toNat)
    let ctx := ctx.resizeStack frame.localsEnd
    { ctx with frames := ctx.frames.push frame }

/-- Runs a native function on the values above the callee and leaves its result
in the callee's place. -/
def runNative (natives : Natives) (callBack : CallBack) (name : String)
    (calleeSlot : Nat) : Action Unit := do
  match natives name with
  | none => throw (.notCallable Kind.function.name)
  | some native => do
    let arguments := ((← get).stack.extract (calleeSlot + 1)).toList
    match ← native callBack arguments with
    | .error message => throw (.native name message)
    | .ok result => do
      modify (truncateStack calleeSlot)
      putOperand result

/-- Starts a call of the value in a stack slot with the values above it.
Natives run to their end; a script function gets a frame. -/
def startCall (natives : Natives) (callBack : CallBack)
    (calleeSlot argumentCount : Nat) : Action Unit := do
  match (← get).stack.getD calleeSlot .nil with
  | .function handle => enterClosure handle calleeSlot argumentCount
  | .native name => runNative natives callBack name calleeSlot
  | other => throw (.notCallable other.kindName)

/-- Leaves the innermost frame and puts a result in its callee's place. -/
def returnValue (result : Value) : Action Unit := do
  let frame ← innermost
  modify fun ctx => { ctx with frames := ctx.frames.pop }
  modify (truncateStack (frame.base - 1))
  push result

/-! ## Closures -/

/-- The cells of a new closure in order.  A captured local is copied into a new
cell, and a cell of the enclosing function is shared. -/
def captureCells (frame : Frame) : List Upvalue → Action (List Handle)
  | [] => pure []
  | upvalue :: rest => do
    let cell ← match upvalue.capture with
      | .ofLocal slot => do
        let value := (← get).stack.getD (frame.base + slot.toNat) .nil
        allocate (.cell value)
      | .ofEnclosing slot =>
        match frame.cells[slot.toNat]? with
        | some cell => pure cell
        | none => throw (.noSuchUpvalue (slot.toNat + 1))
    let others ← captureCells frame rest
    pure (cell :: others)

/-- Pushes a closure over a nested prototype. -/
def instantiate (proto : Prototype) (index : Nat) : Action Unit :=
  match proto.protos[index]? with
  | none => throw (.load (.operandOutOfRange index))
  | some child => do
    collectIfDue
    let frame ← innermost
    let cells ← captureCells frame child.upvalues.toList
    let handle ← allocate (.closure { proto := child, cells := cells.toArray })
    putOperand (.function handle)

/-! ## Instructions -/

/-- Executes the instruction at an offset, once the frame stands behind it. -/
def execute (natives : Natives) (callBack : CallBack) (proto : Prototype)
    (offset : Nat) :
    Opcode → Action Unit
  | .constant => do
    let index ← pairOperand proto (offset + 1)
    let value ← literal proto index offset
    putOperand value
  | .loadNil => putOperand .nil
  | .loadTrue => putOperand (.boolean true)
  | .loadFalse => putOperand (.boolean false)
  | .pop => do
    let _ ← takeOperand
  | .getLocal => do
    let index ← byteOperand proto (offset + 1)
    let slot ← slotOfLocal index
    putOperand ((← get).stack.getD slot .nil)
  | .setLocal => do
    let index ← byteOperand proto (offset + 1)
    let slot ← slotOfLocal index
    let value ← takeOperand
    modify fun ctx => { ctx with stack := ctx.stack.setIfInBounds slot value }
  | .getUpvalue => do
    let index ← byteOperand proto (offset + 1)
    let cell ← cellOfUpvalue index
    let value ← query (·.cellOf cell)
    putOperand value
  | .setUpvalue => do
    let index ← byteOperand proto (offset + 1)
    let cell ← cellOfUpvalue index
    let value ← takeOperand
    storeCell cell value
  | .getTabUp => do
    let index ← byteOperand proto (offset + 1)
    let field ← pairOperand proto (offset + 2)
    let key ← literal proto field field
    let cell ← cellOfUpvalue index
    let target ← query (·.cellOf cell)
    let value ← indexed target key
    putOperand value
  | .setTabUp => do
    let index ← byteOperand proto (offset + 1)
    let field ← pairOperand proto (offset + 2)
    let key ← literal proto field field
    let cell ← cellOfUpvalue index
    let value ← takeOperand
    let target ← query (·.cellOf cell)
    assign target key value
  | .newTable => do
    newTable
    let ctx ← get
    if ctx.settings.maxStack < ctx.stack.size then
      modify fun ctx => { ctx with stack := ctx.stack.pop }
      throw (.stackOverflow ctx.settings.maxStack)
  | .getIndex => do
    let key ← takeOperand
    let target ← takeOperand
    let value ← indexed target key
    putOperand value
  | .setIndex => do
    let value ← takeOperand
    let key ← takeOperand
    let target ← takeOperand
    assign target key value
  | .add => binary Value.add
  | .sub => binary Value.sub
  | .mul => binary Value.mul
  | .div => binary Value.div
  | .concat => binary Value.concat
  | .minus => unary Value.negate
  | .not => unary fun value => .ok (.boolean !value.truthy)
  | .len => do
    let operand ← takeOperand
    let length ← query (·.lengthOf operand)
    putOperand (.integer (.ofNat length))
  | .equal => binary fun left right => .ok (.boolean (left.rawEqual right))
  | .lessThan => binary fun left right => (left.lessThan right).map .boolean
  | .jump => do
    let target ← pairOperand proto (offset + 1)
    moveTo target
  | .jumpIfFalse => do
    let condition ← takeOperand
    unless condition.truthy do
      let target ← pairOperand proto (offset + 1)
      moveTo target
  | .call => do
    let argumentCount ← byteOperand proto (offset + 1)
    let frame ← innermost
    let height := (← get).stack.size
    if frame.localsEnd + argumentCount + 1 ≤ height then
      startCall natives callBack (height - (argumentCount + 1)) argumentCount
    else throw .stackUnderflow
  | .ret => do
    let frame ← innermost
    let result ←
      if frame.localsEnd < (← get).stack.size then popTop else pure .nil
    returnValue result
  | .closure => do
    let index ← pairOperand proto (offset + 1)
    instantiate proto index

/-- Reports the instruction at an offset if the context traces. -/
def report (proto : Prototype) (offset : Nat) (op : Opcode) : Action Unit := do
  let ctx ← get
  if ctx.tracing then
    match proto.code.operandsAt? (offset + 1) op.widths with
    | none => throw (.codeOverrun offset)
    | some operands =>
      modify (note (.executing (proto.location offset) offset op operands
        ctx.frames.size ctx.stack.size))

/-- One turn of the innermost frame, whose prototype is at hand: its next
instruction, or a return of nil at the end of the code. -/
def turn (natives : Natives) (callBack : CallBack)
    (proto : Prototype) : Action Unit := do
  let offset := (← innermost).ip
  match proto.code[offset]? with
  | none => returnValue .nil
  | some byte =>
    match Opcode.ofByte? byte with
    | none => throw (.load (.invalidOpcode offset byte))
    | some op => do
      report proto offset op
      moveTo (offset + op.length)
      execute natives callBack proto offset op

end Isolate.Machine
