import Isolate.Context.Stack
import Isolate.Machine.Traceback
import Isolate.Native.Basic

/-!
# Native functions for probing a context

They let a script look at the context that runs it, collect, fail, and make a
protected call.
-/

namespace Isolate.Native

def traceback : Native := fun _ _ => do
  pure (.ok (.string (",".intercalate (← get).traceback)))

def collect : Native := fun _ _ => do
  let freed ← Context.collect
  pure (.ok (.integer (.ofNat freed)))

def live : Native := fun _ _ => do
  pure (.ok (.integer (.ofNat (← get).liveCount)))

def top : Native := fun _ _ => do
  pure (.ok (.integer (.ofNat (← get).height)))

def fail : Native := fun _ arguments =>
  pure (.error ("failed with " ++ toString arguments.length))

/-- The outcome of an action as a value: a failure becomes text.  Running out
of steps ends the protected call too. -/
def protect (action : Action Value) : Action (Except String Value) := fun ctx =>
  match action ctx with
  | .ok value ctx => .ok (.ok value) ctx
  | .error .budgetSpent ctx => .error .budgetSpent ctx
  | .error error ctx => .ok (.ok (.string ("error: " ++ error.message))) ctx

/-- Calls its first argument with the others and gives the result, or the text
of the failure. -/
def pcall : Native := fun callBack arguments =>
  match arguments with
  | [] => pure (.error "nothing to call")
  | function :: others => do
    (function :: others).forM Context.push
    protect do
      callBack others.length
      Context.popTop

def probe : Natives
  | "traceback" => some traceback
  | "collect" => some collect
  | "live" => some live
  | "top" => some top
  | "fail" => some fail
  | "pcall" => some pcall
  | _ => none

end Isolate.Native
