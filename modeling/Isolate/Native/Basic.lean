import Isolate.Context.Basic

/-!
# Native functions

A native function gets the arguments of its call, which stay on the stack while
it runs, and the means to call the function below the top values in turn.  It
gives a value or a complaint.
-/

namespace Isolate

/-- Calls the function below the given number of top values. -/
abbrev CallBack := Nat → Action Unit

abbrev Native := CallBack → List Value → Action (Except String Value)

/-- The native functions that scripts may reach, by name. -/
abbrev Natives := String → Option Native

end Isolate
