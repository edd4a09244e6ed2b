import Isolate.Chunk.Reader
import Isolate.Context.Stack

/-!
# Functions of a context

Loading, dumping, and the captured variables of script functions.
-/

namespace Isolate.Context

/-- The name and value of an upvalue, counted from one.  A stripped function
has empty names. -/
def upvalue? (ctx : Context) (function : Value) (number : Nat) :
    Option (String × Value) :=
  match function, number with
  | .function handle, slot + 1 => do
    let closure ← (ctx.closureOf handle).toOption
    let cell ← closure.cells[slot]?
    let value ← (ctx.cellOf cell).toOption
    some ((closure.proto.upvalueName slot).getD "", value)
  | _, _ => none

/-- The upvalues from a number on, up to the first that is missing, at most
`count` of them. -/
def upvaluesFrom (ctx : Context) (function : Value) (number : Nat) :
    Nat → List (String × Value)
  | 0 => []
  | count + 1 =>
    match ctx.upvalue? function number with
    | some upvalue => upvalue :: ctx.upvaluesFrom function (number + 1) count
    | none => []

/-- The upvalues of a function in order, up to the first that is missing. -/
def upvalues (ctx : Context) (function : Value) : List (String × Value) :=
  match function with
  | .function handle =>
    match ctx.closureOf handle with
    | .ok closure => ctx.upvaluesFrom function 1 closure.cells.size
    | .error _ => []
  | _ => []

/-- Pushes an upvalue of the function at an index and gives its name; pushes
nothing when there is no such upvalue. -/
def getUpvalue (index : Int) (number : Nat) : Action (Option String) := do
  let function ← query (·.valueAt index)
  match (← get).upvalue? function number with
  | some (name, value) => do
    push value
    pure (some name)
  | none => pure none

/-- Pops the value on top into an upvalue of the function at an index and gives
its name; pops nothing when there is no such upvalue. -/
def setUpvalue (index : Int) (number : Nat) : Action (Option String) := do
  match ← query (·.valueAt index), number with
  | .function handle, number => do
    let closure ← query (·.closureOf handle)
    match number with
    | 0 => pure none
    | slot + 1 =>
      match closure.cells[slot]? with
      | none => pure none
      | some cell => do
        let value ← popTop
        storeCell cell value
        pure (some ((closure.proto.upvalueName slot).getD ""))
  | _, _ => pure none

/-- New cells for the upvalues of a main function: the globals, then nil. -/
def newCells : Nat → Value → Action (List Handle)
  | 0, _ => pure []
  | count + 1, value => do
    let cell ← allocate (.cell value)
    let others ← newCells count .nil
    pure (cell :: others)

/-- Pushes a function made from a prototype, whose first upvalue holds the
globals and whose other upvalues hold nil. -/
def pushMain (proto : Prototype) : Action Unit := do
  collectIfDue
  let cells ← newCells proto.upvalues.size (← get).globalsValue
  let handle ← allocate (.closure { proto, cells := cells.toArray })
  push (.function handle)

/-- Verifies a prototype and pushes a function made from it. -/
def loadPrototype (proto : Prototype) (chunkName : String) : Action Unit :=
  match proto.verify with
  | .error error => throw (.load error)
  | .ok () => pushMain (proto.attributedTo chunkName)

/-- Reads a chunk, which is reported when it is accepted. -/
def readChunk (bytes : List UInt8) (chunkName : String) :
    Action Prototype := fun ctx =>
  match Chunk.load bytes with
  | .error error => .error (.load error) ctx
  | .ok chunk =>
    .ok (chunk.main.attributedTo chunkName)
      (ctx.note (.chunkLoaded chunkName bytes.length chunk.stripped))

/-- Looks a chunk up in the cache. -/
def cachedChunk (key : List UInt8) : Action (Option Prototype) := fun ctx =>
  let (found, cache) := ctx.cache.get key
  .ok found { ctx with cache }

/-- Puts a chunk into the cache. -/
def rememberChunk (key : List UInt8) (proto : Prototype) : Action Unit :=
  modify fun ctx =>
    let ctx := if ctx.cache.overflows key then
        ctx.note (.cacheCleared ctx.cache.size)
      else ctx
    { ctx with cache := ctx.cache.insert key proto }

/-- Loads a chunk through the cache and pushes its function. -/
def loadChunk (bytes : List UInt8) (chunkName : String) : Action Unit := do
  if (← get).cache.enabled then
    let key := Chunk.cacheKey bytes chunkName
    match ← cachedChunk key with
    | some proto => pushMain proto
    | none => do
      let proto ← readChunk bytes chunkName
      rememberChunk key proto
      pushMain proto
  else
    let proto ← readChunk bytes chunkName
    pushMain proto

/-- Writes a function as a chunk. -/
def chunkOf (ctx : Context) (value : Value) (strip : Bool) :
    Except DumpError (List UInt8) :=
  match value with
  | .function handle =>
    match ctx.closureOf handle with
    | .ok closure => Chunk.dump closure.proto strip ctx.settings.maxChunkSize
    | .error _ => .error (.notAFunction "function")
  | .native name => .error (.nativeFunction name)
  | other => .error (.notAFunction other.kindName)

/-- Writes the function at an index as a chunk. -/
def dump (ctx : Context) (index : Int) (strip : Bool) :
    Except DumpError (List UInt8) :=
  match ctx.value? index with
  | some value => ctx.chunkOf value strip
  | none => .error (.notAFunction "no value")

end Isolate.Context
