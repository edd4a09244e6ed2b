import Isolate.Value.Basic

/-!
# The registry

Pinned values live in numbered slots.  A freed slot is handed out again before
the registry grows, the one freed last coming first.
-/

namespace Isolate

/-- The slot number of a pin.  Registries of fewer than 2^32 slots are meant:
slots are numbered by 32-bit words, which never wrap there. -/
structure Pin where
  slot : Nat
  deriving DecidableEq, Inhabited

def Pin.text (pin : Pin) : String := "ref#" ++ toString pin.slot

structure Registry where
  slots : Array (Option Value) := #[]
  free : List Nat := []

namespace Registry

instance : Inhabited Registry := ⟨{}⟩

def get? (registry : Registry) (pin : Pin) : Option Value :=
  registry.slots[pin.slot]?.join

def pin (registry : Registry) (value : Value) : Pin × Registry :=
  match registry.free with
  | slot :: rest =>
    (⟨slot⟩, {
      slots := registry.slots.setIfInBounds slot (some value)
      free := rest })
  | [] =>
    (⟨registry.slots.size⟩,
      { slots := registry.slots.push (some value), free := [] })

/-- Releases a pin.  A slot that is free or was never handed out stays as it
is. -/
def unpin (registry : Registry) (pin : Pin) : Registry :=
  match registry.get? pin with
  | some _ =>
    { slots := registry.slots.setIfInBounds pin.slot none
      free := pin.slot :: registry.free }
  | none => registry

def pinnedCount (registry : Registry) : Nat :=
  registry.slots.size - registry.free.length

/-- The pinned values in the order of their slots. -/
def values (registry : Registry) : List Value :=
  registry.slots.toList.filterMap id

end Registry

end Isolate
