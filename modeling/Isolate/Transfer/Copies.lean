import Isolate.Context.Stack

/-!
# Copies made so far

Objects of a source context, known by identity, with the pins of their copies in
the destination.
-/

namespace Isolate

/-- The identity of a reference within its context. -/
def Value.identity? (value : Value) : Option Nat := value.handle?.map (·.index)

structure Copies where
  entries : List (Nat × Pin) := []
  deriving Inhabited

namespace Copies

def find? (copies : Copies) (identity : Nat) : Option Pin :=
  copies.entries.lookup identity

def contains (copies : Copies) (identity : Nat) :
    Bool := (copies.find? identity).isSome

def size (copies : Copies) : Nat := copies.entries.length

def isEmpty (copies : Copies) : Bool := copies.entries.isEmpty

/-- Records the pin of a copy, replacing what was recorded before. -/
def insert (copies : Copies) (identity : Nat) (pin : Pin) : Copies :=
  ⟨(identity, pin) :: copies.entries.filter fun entry => entry.1 ≠ identity⟩

/-- Releases every recorded pin. -/
def release (copies : Copies) : Action Unit :=
  copies.entries.forM fun entry => Context.unpin entry.2

end Copies

end Isolate
