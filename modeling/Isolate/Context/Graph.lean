import Isolate.Context.Functions
import Isolate.Context.Tables
import Isolate.Value.Order

/-!
# Object graphs

The objects that a value leads to, numbered breadth first in the order they are
first mentioned.  The globals of the context are a leaf.
-/

namespace Isolate

/-- What a value is in a graph. -/
inductive Node
  | plain (value : Value)
  | globals
  /-- The object of a number; the value says its kind. -/
  | object (value : Value) (number : Nat)

/-- The contents of an object in a graph. -/
inductive NodeContents
  | table (entries : Except RuntimeError (List (Node × Node)))
  | function (chunk : Except DumpError (List UInt8))
      (upvalues : List (String × Node))
  | userdata

/-- The references mentioned so far, each at the place of its number. -/
abbrev Mentions := StateM (Array Value)

namespace Mentions

/-- Gives an object the next number. -/
def add (value : Value) : Mentions Node := fun mentioned =>
  (.object value mentioned.size, mentioned.push value)

/-- The node of a value, which gets a number if it is a reference mentioned for
the first time.  An object is known by its slot, so references of two kinds to
one slot share a number and the contents of the one mentioned first. -/
def node (ctx : Context) (value : Value) : Mentions Node := do
  match value.handle? with
  | none => pure (.plain value)
  | some _ =>
    if value = ctx.globalsValue then pure .globals
    else
      match (← get).findIdx? (·.handle? = value.handle?) with
      | some number => pure (.object value number)
      | none => add value

/-- The contents of an object, its table entries sorted by key. -/
def contents (ctx : Context) (value : Value) : Mentions NodeContents := do
  match value with
  | .table handle =>
    match ctx.tableOf handle with
    | .error error => pure (.table (.error error))
    | .ok table => do
      let entries ← (Key.sorted table.entries).mapM fun (key, value) => do
        let key ← node ctx key.toValue
        let value ← node ctx value
        pure (key, value)
      pure (.table (.ok entries))
  | .function _ => do
    let upvalues ← (ctx.upvalues value).mapM fun (name, value) => do
      pure (name, ← node ctx value)
    pure (.function (ctx.chunkOf value false) upvalues)
  | _ => pure .userdata

/-- The contents of the objects from a number on, at most `steps` of them. -/
def contentsFrom (ctx : Context) (number : Nat) :
    Nat → Mentions (List NodeContents)
  | 0 => pure []
  | steps + 1 => do
    match (← get)[number]? with
    | none => pure []
    | some value => do
      let first ← contents ctx value
      let others ← contentsFrom ctx (number + 1) steps
      pure (first :: others)

end Mentions

structure Graph where
  root : Node
  objects : List NodeContents

namespace Context

/-- How often the objects of the heap mention another. -/
def mentionCount (ctx : Context) : Nat :=
  ctx.heap.slots.foldl
    (fun count slot =>
      count + (slot.map fun entry => entry.object.children.length).getD 0) 0

/-- The graph below a root node; each object but the root is mentioned by one of
the heap. -/
def graphFrom (ctx : Context) (root : Mentions Node) : Graph :=
  let steps : Mentions Graph := do
    let root ← root
    let objects ← Mentions.contentsFrom ctx 0 (ctx.mentionCount + 1)
    pure { root, objects }
  (steps #[]).1

/-- The graph of the value at an index. -/
def graphAt (ctx : Context) (index : Int) : Except RuntimeError Graph :=
  (ctx.valueAt index).map fun value => ctx.graphFrom (Mentions.node ctx value)

/-- The graph of the globals, which are its first object. -/
def globalsGraph (ctx : Context) : Graph :=
  ctx.graphFrom (Mentions.add ctx.globalsValue)

end Context

end Isolate
