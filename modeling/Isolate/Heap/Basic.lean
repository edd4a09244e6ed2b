import Isolate.Table
import Isolate.Value.Text

/-!
# The heap

Objects live in numbered slots.  A new object takes the slot freed last, or a
new slot when none is free.  The heap counts its allocations since the last
collection and says when the next one is due.
-/

namespace Isolate

/-- A script function: a prototype and one cell for each captured variable. -/
structure Closure where
  proto : Prototype
  cells : Array Handle
  deriving Inhabited

/-- A block of host memory. -/
structure Userdata where
  typeName : String
  bytes : List UInt8
  deriving DecidableEq, Inhabited

inductive Object
  | table (table : Table)
  | closure (closure : Closure)
  /-- A captured variable. -/
  | cell (value : Value)
  | userdata (block : Userdata)
  deriving Inhabited

namespace Object

def kindName : Object → String
  | table _ => "table"
  | closure _ => "function"
  | cell _ => "upvalue"
  | userdata _ => "userdata"

/-- The handles an object holds. -/
def children : Object → List Handle
  | table t => t.entries.flatMap fun (key, value) =>
      key.handle?.toList ++ value.handle?.toList
  | closure c => c.cells.toList
  | cell value => value.handle?.toList
  | userdata _ => []

end Object

/-- An occupied slot with its mark bit, which is set only during a
collection. -/
structure Entry where
  object : Object
  marked : Bool := false
  deriving Inhabited

structure Heap where
  slots : Array (Option Entry) := #[]
  /-- The free slots, the one freed last in front. -/
  free : List Nat := []
  /-- The allocations since the last collection. -/
  allocated : Nat := 0
  threshold : UInt64 := 10000
  enabled : Bool := true
  collections : Nat := 0
  allocations : Nat := 0

namespace Heap

instance : Inhabited Heap := ⟨{}⟩

def minThreshold : UInt64 := 64

def maxThreshold : UInt64 := 1000000

/-- Sets the collection threshold, which is at least 64. -/
def setThreshold (heap : Heap) (threshold : UInt64) : Heap :=
  { heap with threshold := max threshold minThreshold }

/-- Whether a collection is due. -/
def due (heap : Heap) : Bool :=
  heap.enabled && decide (heap.threshold.toNat ≤ heap.allocated)

def get? (heap : Heap) (handle : Handle) : Option Object :=
  heap.slots[handle.index]?.join.map (·.object)

def liveCount (heap : Heap) : Nat := heap.slots.countP (·.isSome)

def allocate (heap : Heap) (object : Object) : Handle × Heap :=
  let entry : Entry := { object }
  match heap.free with
  | slot :: rest =>
    (⟨slot⟩,
     { heap with
       slots := heap.slots.setIfInBounds slot (some entry)
       free := rest
       allocated := heap.allocated + 1
       allocations := heap.allocations + 1 })
  | [] =>
    (⟨heap.slots.size⟩,
     { heap with
       slots := heap.slots.push (some entry)
       allocated := heap.allocated + 1
       allocations := heap.allocations + 1 })

/-- Changes the object of an occupied slot in place. -/
def update (heap : Heap) (handle : Handle) (f : Object → Object) : Heap :=
  { heap with
    slots := heap.slots.modify handle.index fun slot =>
      slot.map fun entry => { entry with object := f entry.object } }

/-- One line about the heap. -/
def summary (heap : Heap) : String :=
  "GcHeap \x7b live: " ++ toString heap.liveCount ++ ", threshold: "
    ++ toString heap.threshold.toNat ++ ", collections: "
    ++ toString heap.collections ++ " \x7d"

end Heap

end Isolate
