import Isolate.Value.Key

/-!
# Tables

A table is a list of bindings with distinct keys and without nil values.  The
order of the list has no meaning; operations that visit all bindings follow it.
-/

namespace Isolate

structure Table where
  entries : List (Key × Value)
  distinct : (entries.map Prod.fst).Nodup
  bound : ∀ entry ∈ entries, entry.2 ≠ .nil

namespace Table

def empty : Table := ⟨[], by simp, by simp⟩

instance : Inhabited Table := ⟨empty⟩

def find? (t : Table) (key : Key) : Option Value := t.entries.lookup key

def contains (t : Table) (key : Key) : Bool := (t.find? key).isSome

/-- The value bound to a key, or nil. -/
def get (t : Table) (key : Key) : Value := (t.find? key).getD .nil

def size (t : Table) : Nat := t.entries.length

def isEmpty (t : Table) : Bool := t.entries.isEmpty

/-- Removes a binding. -/
def erase (t : Table) (key : Key) : Table where
  entries := t.entries.filter fun entry => entry.1 ≠ key
  distinct := (List.filter_sublist.map Prod.fst).nodup t.distinct
  bound := fun entry h => t.bound entry (List.mem_filter.1 h).1

/-- Puts a binding with a new key in front. -/
def add (t : Table) (key : Key) (value : Value)
    (hvalue : value ≠ .nil) : Table where
  entries := (key, value) :: (t.erase key).entries
  distinct := by
    refine List.nodup_cons.2 ⟨?_, (t.erase key).distinct⟩
    simp [erase]
  bound := by
    intro entry h
    rcases List.mem_cons.1 h with rfl | h
    · exact hvalue
    · exact (t.erase key).bound entry h

/-- Binds a key to a value.  Binding a key to nil removes it. -/
def set (t : Table) (key : Key) (value : Value) : Table :=
  if h : value = .nil then t.erase key else t.add key value h

/-- Counts on from `n` while the next index is bound, at most `steps` times. -/
def borderFrom (t : Table) : Nat → Nat → Nat
  | 0, n => n
  | steps + 1, n =>
    if t.contains (.integer (Int64.ofNat (n + 1))) then
      t.borderFrom steps (n + 1) else n

/-- The number `n` such that the indices from 1 to `n` are bound and the next
one is not.  The indices are distinct keys, so the size bounds the count. -/
def border (t : Table) : Nat := t.borderFrom t.size 0

end Table

end Isolate
