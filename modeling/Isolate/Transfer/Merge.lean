import Isolate.Transfer.Copy

/-!
# Merging tables

A merge adds to a table of the destination the bindings of a source table whose
keys are not bound there.  If one binding cannot be copied, those added before
it are removed again.
-/

namespace Isolate

namespace Transfer

/-- Copies one binding into the table in a stack slot unless its key is bound
there.  Gives the copied key if the binding was added. -/
def mergeBinding (source : Context) (settings : TransferSettings)
    (target : Handle) (slot : Int) (key value : Value) :
    Copying (Option Value) := do
  copy source settings key
  let key ← onDest (Context.query (·.valueAt (-1)))
  let present ← onDest (Context.query (·.lookupKey target key))
  if present.isNil then
    tryCatch (copy source settings value) fun error => do
      onDest (Context.pop 1)
      throw error
    onDest (Context.rawSet slot)
    pure (some key)
  else
    onDest (Context.pop 1)
    pure none

/-- Removes keys from a table again, in the order they were added. -/
def removeKeys (target : Handle) (added : List Value) : Copying Unit :=
  added.reverse.forM fun key => onDest (Context.bindKey target key .nil)

/-- Merges bindings; `added` holds the keys added so far, the latest in
front. -/
def mergeBindings (source : Context) (settings : TransferSettings)
    (target : Handle) (slot : Int) (added : List Value) :
    List (Key × Value) → Copying Nat
  | [] => pure added.length
  | (key, value) :: rest => do
    let added ← tryCatch
      (do
        match ← mergeBinding source settings target slot key.toValue value with
        | some key => pure (key :: added)
        | none => pure added)
      fun error => do
        removeKeys target added
        throw error
    mergeBindings source settings target slot added rest

/-- Merges a source table into the destination table at an index and gives the
number of bindings added.  The table itself is not recorded as a copy, so a way
back to the source table leads to a new one. -/
def mergeTable (source : Context) (settings : TransferSettings)
    (handle : Handle) (index : Int) : Copying Nat := do
  match ← onDest (Context.query (·.valueAt index)) with
  | .table target => do
    let slot ← onDest (Context.query (·.absoluteIndex index))
    match source.tableOf handle with
    | .error error => throw (.ofRuntime error)
    | .ok table => mergeBindings source settings target slot [] table.entries
  | other => throw (.runtime (.typeMismatch "table" other.kindName))

end Transfer

namespace Context

/-- Merges the source table at an index into the table on top of the stack.
Nothing is pushed, and a failure leaves the table as it was. -/
def receiveBindings (source : Context) (index : Int)
    (settings : TransferSettings) : Receiving Nat := fun dest =>
  match source.tableRefAt index with
  | .error error => .error (.ofRuntime error) dest
  | .ok handle =>
    let height := dest.stack.size
    let dest := dest.note (.mergeStarted height)
    match Transfer.mergeTable source settings handle height (.start dest) with
    | .ok added transfer =>
      let (released, dest) := transfer.finish
      .ok added (dest.note (.mergeDone added released))
    | .error error transfer =>
      let (released, dest) := transfer.finish
      .error error
        ((dest.truncateStack height).note (.mergeFailed error released))

end Context

end Isolate
