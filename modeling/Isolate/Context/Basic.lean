import Isolate.Bindings
import Isolate.Chunk.Cache
import Isolate.Heap.Collection
import Isolate.Notice
import Isolate.Registry

/-!
# Contexts

A context is one independent instance: a value stack, a heap, a registry of
pins, a table of globals, and the frames of the script functions that are
running.  Its operations are actions that may fail; a failed action keeps the
changes it made before it failed.
-/

namespace Isolate

/-- The activation of a script function. -/
structure Frame where
  closure : Handle
  proto : Prototype
  cells : Array Handle
  /-- The offset of the next instruction. -/
  ip : Nat := 0
  /-- The stack slot of the first local. -/
  base : Nat
  deriving Inhabited

/-- The first stack slot above the locals. -/
def Frame.localsEnd (frame : Frame) : Nat :=
  frame.base + frame.proto.numLocals.toNat

structure Context where
  heap : Heap
  stack : Array Value := #[]
  /-- The innermost frame is last. -/
  frames : Array Frame := #[]
  registry : Registry := {}
  globals : Handle
  bindings : Bindings
  cache : Chunk.Cache
  settings : ContextSettings
  tracing : Bool
  /-- What was reported, the latest last. -/
  journal : Array Notice := #[]

abbrev Action := EStateM RuntimeError Context

namespace Context

/-- The native functions that every context starts with. -/
def standardNatives : List String :=
  ["type", "rawlen", "rawequal", "tostring", "assert", "bind_class"]

/-- A fresh context, whose globals hold the standard natives under their
names. -/
def create (settings : ContextSettings) (bindings : Bindings) : Context :=
  let globals := standardNatives.foldl
    (fun table name => table.set (.string name) (.native name)) Table.empty
  let (handle, heap) := Heap.allocate
    { threshold := settings.gcThreshold, enabled := settings.gcEnabled }
    (.table globals)
  { heap
    globals := handle
    bindings
    cache := { capacity := settings.chunkCacheCapacity }
    settings
    tracing := settings.trace }

instance : Inhabited Context := ⟨create {} {}⟩

def globalsValue (ctx : Context) : Value := .table ctx.globals

/-- Runs a query that may fail. -/
def query {α : Type} (f : Context → Except RuntimeError α) :
    Action α := fun ctx =>
  match f ctx with
  | .ok a => .ok a ctx
  | .error error => .error error ctx

def note (notice : Notice) (ctx : Context) : Context :=
  { ctx with journal := ctx.journal.push notice }

/-! ## Collection -/

/-- The values that keep objects alive: the stack and the pins. -/
def rootValues (ctx : Context) : List Value :=
  ctx.stack.toList ++ ctx.registry.values

/-- The objects that stay alive without a value: the globals and the functions
that are running. -/
def rootHandles (ctx : Context) : List Handle :=
  ctx.globals :: ctx.frames.toList.map (·.closure)

/-- Collects and gives the number of objects freed. -/
def collect : Action Nat := fun ctx =>
  let (freed, heap) := ctx.heap.collect ctx.rootValues ctx.rootHandles
  .ok freed ({ ctx with heap }.note (.collected freed heap.liveCount))

/-- Collects if the heap says that it is due. -/
def collectIfDue : Action Unit := do
  if (← get).heap.due then
    let _ ← collect

def liveCount (ctx : Context) : Nat := ctx.heap.liveCount

/-! ## Heap access -/

/-- The object behind a handle, which has to be of a kind. -/
def objectAs {α : Type} (expected : String) (select : Object → Option α)
    (handle : Handle) (ctx : Context) : Except RuntimeError α :=
  match ctx.heap.get? handle with
  | some object =>
    match select object with
    | some a => .ok a
    | none => .error (.typeMismatch expected object.kindName)
  | none => .error (.danglingHandle handle)

def tableOf (ctx : Context) (handle : Handle) : Except RuntimeError Table :=
  ctx.objectAs "table" (fun
    | .table t => some t
    | _ => none) handle

def closureOf (ctx : Context) (handle : Handle) : Except RuntimeError Closure :=
  ctx.objectAs "function" (fun
    | .closure c => some c
    | _ => none) handle

/-- The value of a captured variable. -/
def cellOf (ctx : Context) (handle : Handle) : Except RuntimeError Value :=
  match ctx.heap.get? handle with
  | some (.cell value) => .ok value
  | _ => .error (.danglingHandle handle)

def allocate (object : Object) : Action Handle := fun ctx =>
  let (handle, heap) := ctx.heap.allocate object
  .ok handle { ctx with heap }

/-- Binds a key of the table behind a handle. -/
def storeKey (handle : Handle) (key : Key) (value : Value) : Action Unit := do
  let _ ← query (·.tableOf handle)
  modify fun ctx =>
    { ctx with
      heap := ctx.heap.update handle fun
        | .table t => .table (t.set key value)
        | object => object }

/-- Assigns a captured variable. -/
def storeCell (handle : Handle) (value : Value) : Action Unit := do
  let _ ← query (·.cellOf handle)
  modify fun ctx =>
    { ctx with heap := ctx.heap.update handle fun _ => .cell value }

/-- The value bound to a key of the table behind a handle; values that are no
keys are bound to nothing. -/
def lookupKey (ctx : Context) (handle : Handle) (key : Value) :
    Except RuntimeError Value := do
  let table ← ctx.tableOf handle
  match key.key? with
  | some key => pure (table.get key)
  | none => pure .nil

/-- Binds a value as a key of the table behind a handle. -/
def bindKey (handle : Handle) (key value : Value) : Action Unit :=
  match key.key? with
  | some key => storeKey handle key value
  | none => throw (.invalidKey key.isNil)

/-- One line about the context. -/
def summary (ctx : Context) : String :=
  "Context \x7b top: " ++ toString ctx.stack.size ++ ", frames: "
    ++ toString ctx.frames.size ++ ", pinned: " ++
    toString ctx.registry.pinnedCount
    ++ ", heap: " ++ ctx.heap.summary ++ " \x7d"

end Context

end Isolate
