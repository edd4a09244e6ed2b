import Isolate.Context.Stack

/-!
# Raw table access

Reading and writing table entries from the stack.
-/

namespace Isolate.Context

/-- The handle of the table at an index. -/
def tableRefAt (ctx : Context) (index : Int) : Except RuntimeError Handle := do
  match ← ctx.valueAt index with
  | .table handle => .ok handle
  | other => .error (.typeMismatch "table" other.kindName)

def tableAt (ctx : Context) (index : Int) : Except RuntimeError Table := do
  let handle ← ctx.tableRefAt index
  ctx.tableOf handle

def pushKind (value : Value) : Action Kind := do
  push value
  pure value.kind

/-- Replaces the key on top by what the table at an index binds to it, and gives
the kind of that. -/
def rawGet (index : Int) : Action Kind := do
  let handle ← query (·.tableRefAt index)
  let key ← popTop
  let value ← query (·.lookupKey handle key)
  pushKind value

/-- Pops a value and the key below it into the table at an index. -/
def rawSet (index : Int) : Action Unit := do
  let handle ← query (·.tableRefAt index)
  if (← get).stack.size < 2 then throw .stackUnderflow
  let value ← popTop
  let key ← popTop
  bindKey handle key value

/-- Pushes what the table at an index binds to a key, and gives the kind of
that. -/
def rawGetKey (index : Int) (key : Key) : Action Kind := do
  let table ← query (·.tableAt index)
  pushKind (table.get key)

/-- Pops the value on top into a key of the table at an index. -/
def rawSetKey (index : Int) (key : Key) : Action Unit := do
  let handle ← query (·.tableRefAt index)
  let value ← popTop
  storeKey handle key value

def rawGetField (index : Int) (name : String) : Action Kind :=
  rawGetKey index (.string name)

def rawSetField (index : Int) (name : String) : Action Unit :=
  rawSetKey index (.string name)

def rawGetIndex (index : Int) (n : Int64) :
    Action Kind := rawGetKey index (.integer n)

def rawSetIndex (index : Int) (n : Int64) :
    Action Unit := rawSetKey index (.integer n)

/-- The bytes of a string, or the border of a table. -/
def lengthOf (ctx : Context) : Value → Except RuntimeError Nat
  | .string s => .ok s.utf8ByteSize
  | .table handle => (ctx.tableOf handle).map Table.border
  | other => .error (.typeMismatch "table or string" other.kindName)

def rawLength (ctx : Context) (index : Int) : Except RuntimeError Nat := do
  ctx.lengthOf (← ctx.valueAt index)

/-- All bindings of the table at an index. -/
def tablePairs (ctx : Context) (index : Int) :
    Except RuntimeError (List (Value × Value)) := do
  let table ← ctx.tableAt index
  pure (table.entries.map fun (key, value) => (key.toValue, value))

/-- Pushes a global, nil if there is none, and gives its kind. -/
def getGlobal (name : String) : Action Kind := do
  let ctx ← get
  match ctx.tableOf ctx.globals with
  | .ok table => pushKind (table.get (.string name))
  | .error _ => pushKind .nil

/-- Pops the value on top into a global. -/
def setGlobal (name : String) : Action Unit := do
  let value ← popTop
  storeKey (← get).globals (.string name) value

end Isolate.Context
