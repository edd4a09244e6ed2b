import Isolate.Code.Prototype
import Isolate.Digest.Sha256

/-!
# The cache of loaded chunks

Functions loaded from chunks are kept under a digest of the bytes and the chunk
name, so a chunk that comes again is neither read nor verified again.  A cache
that is full drops everything before it takes a new key.
-/

namespace Isolate.Chunk

/-- The key of a chunk loaded under a name. -/
def cacheKey (bytes : List UInt8) (name : String) : List UInt8 :=
  sha256 (sha256 bytes ++ sha256 name.toUTF8.toList)

structure Cache where
  /-- Zero turns the cache off. -/
  capacity : Nat
  entries : List (List UInt8 × Prototype) := []
  hits : Nat := 0
  misses : Nat := 0

namespace Cache

def enabled (cache : Cache) : Bool := decide (0 < cache.capacity)

def size (cache : Cache) : Nat := cache.entries.length

def find? (cache : Cache) (key : List UInt8) : Option Prototype :=
  cache.entries.lookup key

/-- Looks a key up and counts the hit or miss. -/
def get (cache : Cache) (key : List UInt8) : Option Prototype × Cache :=
  match cache.find? key with
  | some proto => (some proto, { cache with hits := cache.hits + 1 })
  | none => (none, { cache with misses := cache.misses + 1 })

/-- Whether a key can only be taken by dropping what is there. -/
def overflows (cache : Cache) (key : List UInt8) : Bool :=
  cache.enabled && decide (cache.capacity ≤ cache.size) &&
    (cache.find? key).isNone

def insert (cache : Cache) (key : List UInt8) (proto : Prototype) : Cache :=
  if cache.enabled then
    let kept := if cache.overflows key then []
      else cache.entries.filter fun entry => entry.1 ≠ key
    { cache with entries := (key, proto) :: kept }
  else cache

def clear (cache : Cache) : Cache := { cache with entries := [] }

end Cache

end Isolate.Chunk
