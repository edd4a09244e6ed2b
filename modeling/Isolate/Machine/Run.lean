import Isolate.Machine.Step

/-!
# Running scripts

A call takes a budget of steps.  The loop takes turns with the innermost frame
until the frames are back to their number before the call.
-/

namespace Isolate.Machine

open Context

/-- Runs an action; if it fails, reports the failure and cuts frames and stack
back to what they were before the callee. -/
def unwinding (frameCount calleeSlot : Nat) (action : Action Unit) :
    Action Unit := fun ctx =>
  match action ctx with
  | .ok () ctx => .ok () ctx
  | .error error ctx =>
    let ctx := ctx.note (.callFailed error)
    .error error
      ({ ctx with frames := ctx.frames.shrink frameCount }.truncateStack
        calleeSlot)

mutual

/-- Calls the function below the top values, so many of which are its
arguments, and replaces them all by the one result.  A failed call removes them
and pushes nothing. -/
def call (natives : Natives) : Nat → Nat → Action Unit
  | 0, _ => throw .budgetSpent
  | budget + 1, argumentCount => do
    let ctx ← get
    let height := ctx.stack.size
    let frameCount := ctx.frames.size
    if height ≤ argumentCount then throw .stackUnderflow
    else
      let calleeSlot := height - argumentCount - 1
      collectIfDue
      unwinding frameCount calleeSlot do
        startCall natives (call natives budget) calleeSlot argumentCount
        match (← get).frames.back? with
        | some frame =>
          loop natives budget frameCount (← get).frames.size frame.proto
        | none => pure ()

/-- Takes turns until there are at most `entry` frames.  The prototype of the
innermost frame is kept at hand together with the number of frames, and is
fetched again when that number has changed. -/
def loop (natives : Natives) : Nat → Nat → Nat → Prototype → Action Unit
  | 0, _, _, _ => throw .budgetSpent
  | budget + 1, entry, depth, proto => do
    let frameCount := (← get).frames.size
    if frameCount ≤ entry then pure ()
    else
      let proto ← if frameCount = depth then pure proto
        else (·.proto) <$> innermost
      turn natives (call natives budget) proto
      loop natives budget entry frameCount proto

end

end Isolate.Machine
