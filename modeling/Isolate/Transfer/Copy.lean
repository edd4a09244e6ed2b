import Isolate.Context.Functions
import Isolate.Context.Tables
import Isolate.Transfer.Copies

/-!
# Copying values between contexts

A copy keeps identity: a table or function of the source that is reached twice
becomes one object of the destination.  Objects are created empty and pinned at
once, and filling them waits on a worklist, so the depth of nesting does not
matter.  The source context is only read.
-/

namespace Isolate

/-- An object of the destination that has not been filled yet. -/
inductive Filling
  /-- The bindings of a source table have to be copied. -/
  | table (source : Handle) (copy : Pin)
  /-- The captured variables of a source function have to be copied. -/
  | captured (source : Value) (copy : Pin)

/-- The state of one transfer. -/
structure Transfer where
  dest : Context
  copies : Copies := {}
  /-- What is still to be filled, the latest in front. -/
  fillings : List Filling := []
  /-- The tables and functions created so far. -/
  copied : Nat := 0

/-- A step of a transfer. -/
abbrev Copying := EStateM TransferError Transfer

/-- Whether an upvalue holds the environment: by its name, or, without names, by
holding the globals. -/
def Context.bindsGlobals (source : Context) (name : String)
    (value : Value) : Bool :=
  decide (name = environmentName) ||
    (name.isEmpty && decide (value = source.globalsValue))

namespace Transfer

def start (dest : Context) : Transfer := { dest }

/-- Acts on the destination. -/
def onDest {α : Type} (action : Action α) : Copying α := fun
  | ⟨dest, copies, fillings, copied⟩ =>
    match action dest with
    | .ok a dest => .ok a ⟨dest, copies, fillings, copied⟩
    | .error error dest =>
      .error (.ofRuntime error) ⟨dest, copies, fillings, copied⟩

/-- Ends a transfer: releases its pins and gives their number. -/
def finish : Transfer → Nat × Context
  | ⟨dest, copies, _, _⟩ =>
    match copies.release dest with
    | .ok () dest | .error _ dest => (copies.size, dest)

/-- Cuts the destination stack back to a height. -/
def truncateDest (height : Nat) : Transfer → Transfer
  | ⟨dest, copies, fillings, copied⟩ =>
    ⟨dest.truncateStack height, copies, fillings, copied⟩

/-- Pins the value on top of the destination, records it as the copy of an
identity, and queues the filling of it. -/
def recordTop (identity : Nat) (fill : Pin → Filling) : Copying Unit := do
  let pin ← onDest (Context.pin (-1))
  match (← get).copies.find? identity with
  | some previous => onDest (Context.unpin previous)
  | none => pure ()
  modify fun
    | ⟨dest, copies, fillings, copied⟩ =>
      ⟨dest, copies.insert identity pin, fill pin :: fillings, copied + 1⟩

/-- Pushes an empty copy of a table. -/
def pushTableImage (identity : Nat) (handle : Handle) : Copying Unit := do
  onDest Context.newTable
  recordTop identity (.table handle)

/-- Pushes a copy of a function, which travels as a chunk. -/
def pushFunctionImage (source : Context) (settings : TransferSettings)
    (identity : Nat) (function : Value) : Copying Unit :=
  match source.chunkOf function settings.stripDebug with
  | .error error => throw (.dump error)
  | .ok bytes => do
    onDest (Context.loadChunk bytes settings.chunkName)
    recordTop identity (.captured function)

/-- Pushes the copy of an identity, made by `create` if there is none yet. -/
def pushSharedImage (identity : Nat) (create : Copying Unit) :
    Copying Unit := do
  match (← get).copies.find? identity with
  | some pin => onDest (Context.pushPinned pin)
  | none => create

/-- Pushes the copy of a value; a new object is pushed empty. -/
def pushImage (source : Context) (settings : TransferSettings) (value : Value) :
    Copying Unit :=
  match value with
  | .table handle =>
    pushSharedImage handle.index (pushTableImage handle.index handle)
  | .function handle =>
    pushSharedImage handle.index
      (pushFunctionImage source settings handle.index value)
  | .native name => throw (.dump (.nativeFunction name))
  | .userdata _ => throw (.unsupported value.kindName)
  | plain => onDest (Context.push plain)

/-- Copies the bindings of a table into its copy. -/
def fillBindings (source : Context) (settings : TransferSettings)
    (handle : Handle) (copy : Pin) : Copying Unit :=
  match source.tableOf handle with
  | .error error => throw (.ofRuntime error)
  | .ok table => do
    onDest (Context.pushPinned copy)
    let slot := (← get).dest.height
    table.entries.forM fun (key, value) => do
      pushImage source settings key.toValue
      pushImage source settings value
      onDest (Context.rawSet slot)
    onDest (Context.pop 1)

/-- Copies captured variables, counted on from a number, into the function in a
stack slot.  A first upvalue that holds the environment is bound to the globals
of the destination instead. -/
def fillCapturedFrom (source : Context) (settings : TransferSettings)
    (slot : Nat) :
    Nat → List (String × Value) → Copying Unit
  | _, [] => pure ()
  | number, (name, value) :: rest => do
    if number = 1 && source.bindsGlobals name value then
      onDest Context.pushGlobals else pushImage source settings value
    let _ ← onDest (Context.setUpvalue slot number)
    fillCapturedFrom source settings slot (number + 1) rest

def fillCaptured (source : Context) (settings : TransferSettings)
    (function : Value) (copy : Pin) : Copying Unit := do
  onDest (Context.pushPinned copy)
  let slot := (← get).dest.height
  fillCapturedFrom source settings slot 1 (source.upvalues function)
  onDest (Context.pop 1)

def fill (source : Context) (settings : TransferSettings) :
    Filling → Copying Unit
  | .table handle copy => fillBindings source settings handle copy
  | .captured function copy => fillCaptured source settings function copy

/-- Takes what was queued last. -/
def nextFilling : Copying (Option Filling) := fun
  | ⟨dest, copies, filling :: rest, copied⟩ =>
    .ok (some filling) ⟨dest, copies, rest, copied⟩
  | transfer => .ok none transfer

/-- Fills what is queued, at most `steps` objects. -/
def settleWithin (source : Context) (settings : TransferSettings) :
    Nat → Copying Unit
  | 0 => pure ()
  | steps + 1 => do
    match ← nextFilling with
    | none => pure ()
    | some filling => do
      fill source settings filling
      settleWithin source settings steps

/-- Fills queued objects until none is left.  Every object of the source is
queued at most once, and filling one that is not there fails, so the slots of
the source bound the number of steps. -/
def settle (source : Context) (settings : TransferSettings) : Copying Unit :=
  settleWithin source settings (source.heap.slots.size + 1)

/-- Pushes the whole copy of a value.  A failure leaves the destination stack as
it was. -/
def copy (source : Context) (settings : TransferSettings) (value : Value) :
    Copying Unit :=
  fun transfer =>
    let height := transfer.dest.stack.size
    let steps : Copying Unit := do
      pushImage source settings value
      settle source settings
    match steps transfer with
    | .ok () transfer => .ok () transfer
    | .error error transfer =>
      .error error (truncateDest height { transfer with fillings := [] })

/-- Pushes the whole copy of the source value at an index. -/
def copyAt (source : Context) (settings : TransferSettings) (index : Int) :
    Copying Unit :=
  match source.valueAt index with
  | .ok value => copy source settings value
  | .error error => throw (.ofRuntime error)

end Transfer

/-- An action on a destination context that copies into it. -/
abbrev Receiving := EStateM TransferError Context

namespace Context

/-- Copies the value at an index of the source onto the stack.  A failure leaves
the stack as it was. -/
def receive (source : Context) (index : Int) (settings : TransferSettings) :
    Receiving Unit := fun dest =>
  match source.valueAt index with
  | .error error => .error (.ofRuntime error) dest
  | .ok value =>
    let dest := dest.note (.transferStarted value.kindName)
    let height := dest.stack.size
    match Transfer.copy source settings value (.start dest) with
    | .ok () transfer =>
      let copied := transfer.copied
      let (released, dest) := transfer.finish
      .ok () (dest.note (.transferDone copied released))
    | .error error transfer =>
      let (released, dest) := transfer.finish
      .error error
        ((dest.truncateStack height).note (.transferFailed error released))

end Context

end Isolate
