import Isolate.Machine.Run
import Isolate.Session.Locking
import Isolate.Transfer.Merge

/-!
# Sessions

A session owns one context.  Its operations copy values into other sessions and
run functions there.
-/

namespace Isolate

structure Session where
  id : SessionId
  context : Context
  transfer : TransferSettings
  deriving Inhabited

namespace Session

/-- A session with a fresh context. -/
def create (id : SessionId) (settings : Settings) (bindings : Bindings) :
    Session where
  id := id
  context := .create settings.context bindings
  transfer := settings.transfer

/-- Copies the value at an index into another session and pins it there. -/
def send (source : Session) (index : Int) (dest : Session) :
    Except SessionError Pin × Session :=
  match SessionId.pairOrder? source.id dest.id with
  | none => (.error .sameSession, dest)
  | some _ =>
    match source.context.receive index source.transfer dest.context with
    | .error error context => (.error (.transfer error), { dest with context })
    | .ok () context =>
      let pinTop : Action Pin := do
        let pin ← Context.pin (-1)
        Context.pop 1
        pure pin
      match pinTop context with
      | .ok pin context => (.ok pin, { dest with context })
      | .error error context => (.error (.runtime error), { dest with context })

/-- The stack slot of the function below so many arguments.  The argument count
is a 64-bit word, and so is the sum of it and one. -/
def functionSlot? (source : Context) (argumentCount : UInt64) : Option Nat :=
  let needed := (argumentCount + 1).toNat
  if needed ≤ source.stack.size then some (source.stack.size - needed) else none

/-- Merges the source globals into those of the target on behalf of a function
that uses them.  Failing to do so is only reported. -/
def mergeGlobals (source : Context) (settings : TransferSettings)
    (target : Context) : Context :=
  let height := target.stack.size
  let target := { target with stack := target.stack.push target.globalsValue }
  match Transfer.mergeTable source settings source.globals (-1)
    (.start target) with
  | .ok added transfer =>
    (transfer.finish.2.note (.globalsMerged added)).truncateStack height
  | .error error transfer =>
    (transfer.finish.2.note (.globalsNotMerged error)).truncateStack height

/-- Whether the first upvalue of a function holds its environment. -/
def usesGlobals (source : Context) (function : Value) : Bool :=
  match source.upvalue? function 1 with
  | some (name, value) => source.bindsGlobals name value
  | none => false

/-- Copies so many arguments, the first from a stack index, and pushes nil for
one that cannot be copied. -/
def copyArguments (source : Context) (settings : TransferSettings) (index : Int)
    (number : Nat) : Nat → Context → Context
  | 0, target => target
  | count + 1, target =>
    let target := match source.receive index settings target with
      | .ok () target => target
      | .error error target =>
        let target := target.note (.argumentReplaced number error)
        { target with stack := target.stack.push .nil }
    copyArguments source settings (index + 1) (number + 1) count target

/-- Copies the function in a stack slot and its arguments into a target, merges
the globals it uses, and calls it.  The result is left on top of the target. -/
def runIn (natives : Natives) (budget : Nat) (source : Context) (slot : Nat)
    (argumentCount : UInt64) (settings : TransferSettings) (target : Context) :
    Except SessionError Unit × Context :=
  let index : Int := slot + 1
  match source.receive index settings target with
  | .error error target => (.error (.transfer error), target)
  | .ok () target =>
    match source.valueAt index with
    | .error error => (.error (.runtime error), target)
    | .ok function =>
      let target := if usesGlobals source function then
          mergeGlobals source settings target else target
      let count := argumentCount.toNat
      let target := copyArguments source settings (index + 1) 1 count target
      match Machine.call natives budget count target with
      | .ok () target => (.ok (), target)
      | .error error target => (.error (.runtime error), target)

/-- Copies the result on top of a worker back, if there is one. -/
def fetchResult (settings : TransferSettings) (worker : Context)
    (outcome : Except SessionError Unit) (source : Context) :
    Except SessionError Unit × Context :=
  match outcome with
  | .error error => (.error error, source)
  | .ok () =>
    match worker.receive (-1) settings source with
    | .ok () source => (.ok (), source)
    | .error error source => (.error (.transfer error), source)

/-- Runs the function below the top values of the source in another session, and
replaces function and arguments by the result.  Function and arguments are
dropped on every path, and the stack of the other session is left as it was. -/
def callIn (natives : Natives) (budget : Nat) (source : Session)
    (argumentCount : UInt64) (dest : Session) :
    Except SessionError Unit × Session × Session :=
  match SessionId.pairOrder? source.id dest.id with
  | none => (.error .sameSession, source, dest)
  | some _ =>
    match functionSlot? source.context argumentCount with
    | none => (.error (.runtime .stackUnderflow), source, dest)
    | some slot =>
      let height := dest.context.stack.size
      let (outcome, target) :=
        runIn natives budget source.context slot argumentCount source.transfer
          dest.context
      let (result, context) :=
        fetchResult source.transfer target outcome
          (source.context.truncateStack slot)
      (result, { source with context },
       { dest with context := target.truncateStack height })

/-- Copies the results of the workers back in order, with nil for a worker that
failed, and cuts every worker's stack back to its height before. -/
def collectResults (settings : TransferSettings) (source : Context) :
    List (Session × Except SessionError Unit × Context) →
    List (Except SessionError Unit) × Context × List Session
  | [] => ([], source, [])
  | (worker, outcome, context) :: rest =>
    let (result, source) := fetchResult settings context outcome source
    let source := match result with
      | .ok () => source
      | .error _ => { source with stack := source.stack.push .nil }
    let worker :=
      { worker with context := context.truncateStack worker.context.stack.size }
    let (results, source, workers) := collectResults settings source rest
    (result :: results, source, worker :: workers)

/-- A remote call in every worker at once.  One result for each worker is
pushed, in order, and nil where the worker failed. -/
def callInEach (natives : Natives) (budget : Nat) (source : Session)
    (argumentCount : UInt64) (workers : List Session) :
    Except SessionError (List (Except SessionError Unit)) × Session ×
      List Session :=
  match SessionId.lockOrder? (source.id :: workers.map (·.id)) with
  | none => (.error .sameSession, source, workers)
  | some _ =>
    match functionSlot? source.context argumentCount with
    | none => (.error (.runtime .stackUnderflow), source, workers)
    | some slot =>
      let runs := workers.map fun worker =>
        (worker, runIn natives budget source.context slot argumentCount
          source.transfer worker.context)
      let (results, context, workers) :=
        collectResults source.transfer (source.context.truncateStack slot) runs
      (.ok results, { source with context }, workers)

end Session

end Isolate
