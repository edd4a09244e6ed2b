import Isolate.Value.Basic

/-!
# Host classes

The classes that the host offers to scripts by name.
-/

namespace Isolate

structure Bindings where
  classes : List (String × Host) := []
  deriving Inhabited

namespace Bindings

def find? (bindings : Bindings) (name : String) : Option Host :=
  bindings.classes.lookup name

/-- Binds a name, replacing an earlier binding of it. -/
def bind (bindings : Bindings) (name : String) (host : Host) : Bindings :=
  ⟨(name, host) :: bindings.classes.filter fun entry => entry.1 ≠ name⟩

def size (bindings : Bindings) : Nat := bindings.classes.length

def isEmpty (bindings : Bindings) : Bool := bindings.classes.isEmpty

/-- The bound names in ascending order. -/
def names (bindings : Bindings) : List String :=
  (bindings.classes.map Prod.fst).mergeSort fun a b => decide (a ≤ b)

end Bindings

end Isolate
