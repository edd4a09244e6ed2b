import Isolate.Code.Prototype
import Isolate.Chunk.Error

/-!
# Writing chunks

A chunk is the little-endian byte form of a prototype: a signature, a format
version, a flag byte, and one function record.  A record holds the parameter
and local counts, then the code, the constants, the upvalues and the nested
records, each with a count in front, and at last the debug information.  The
writer refuses at the first byte past its limit.
-/

namespace Isolate.Chunk

/-- The four bytes every chunk begins with. -/
def signature : List UInt8 := [0x1b, 0x46, 0x72, 0x79]

def formatVersion : Nat := 1

/-- The bytes of a number in a fixed count, least significant first. -/
def littleEndian : Nat → Nat → List UInt8
  | 0, _ => []
  | count + 1, n => UInt8.ofNat n :: littleEndian count (n / 256)

/-- The bytes written so far and how many there may be. -/
structure Sink where
  bytes : Array UInt8
  limit : Nat

abbrev Writer := StateT Sink (Except DumpError) Unit

namespace Writer

def put (bytes : List UInt8) : Writer := fun sink =>
  if sink.limit < sink.bytes.size + bytes.length then
    .error (.tooLarge sink.limit)
  else .ok ((), { sink with bytes := sink.bytes ++ bytes.toArray })

def byte (b : UInt8) : Writer := put [b]

/-- A count takes four bytes, and one that does not fit is too large. -/
def count (n : Nat) : Writer := fun sink =>
  if n < UInt32.size then put (littleEndian 4 n) sink
  else .error (.tooLarge sink.limit)

def string (text : String) : Writer := do
  count text.utf8ByteSize
  put text.toUTF8.toList

def optionalString : Option String → Writer
  | none => byte 0
  | some text => do
    byte 1
    string text

def constant : Constant → Writer
  | .nil => byte 0
  | .boolean false => byte 1
  | .boolean true => byte 2
  | .integer value => do
    byte 3
    put (littleEndian 8 value.toUInt64.toNat)
  | .float value => do
    byte 4
    put (littleEndian 8 value.bits.toNat)
  | .string value => do
    byte 5
    string value

def upvalue (strip : Bool) (u : Upvalue) : Writer := do
  match u.capture with
  | .ofLocal slot => put [0, slot]
  | .ofEnclosing slot => put [1, slot]
  optionalString (if strip then none else u.name)

def line (entry : UInt32 × UInt32) : Writer := do
  put (littleEndian 4 entry.1.toNat)
  put (littleEndian 4 entry.2.toNat)

def debugInfo : Option DebugInfo → Writer
  | none => byte 0
  | some info => do
    byte 1
    optionalString info.name
    optionalString info.source
    count info.lines.size
    info.lines.toList.forM line

mutual

/-- One function record.  Stripping leaves out names, sources and lines. -/
def prototype (strip : Bool) : Prototype → Writer
  | ⟨code, constants, upvalues, protos, numParams, numLocals, debug⟩ => do
    byte numParams
    byte numLocals
    count code.size
    put code.toList
    count constants.size
    constants.toList.forM constant
    count upvalues.size
    upvalues.toList.forM (upvalue strip)
    count protos.length
    prototypes strip protos
    debugInfo (if strip then none else debug)

def prototypes (strip : Bool) : List Prototype → Writer
  | [] => pure ()
  | proto :: rest => do
    prototype strip proto
    prototypes strip rest

end

end Writer

/-- Writes a prototype as a chunk of at most `limit` bytes. -/
def dump (proto : Prototype) (strip : Bool) (limit : Nat) :
    Except DumpError (List UInt8) := do
  let writer : Writer := do
    Writer.put signature
    Writer.put (littleEndian 2 formatVersion)
    Writer.byte (if strip then 1 else 0)
    Writer.prototype strip proto
  let (_, sink) ← writer { bytes := #[], limit }
  pure sink.bytes.toList

end Isolate.Chunk
