import Isolate.Chunk.Verify
import Isolate.Chunk.Writer

/-!
# Reading chunks

Readers take bytes from the front of a list and give back the rest.  A count is
refused at once when the rest cannot hold that many elements of their least
size, and records nest only to a fixed depth.
-/

namespace Isolate.Chunk

abbrev Reader := StateT (List UInt8) (Except LoadError)

namespace Reader

def fail {α : Type} (error : LoadError) : Reader α := fun _ => .error error

def byte : Reader UInt8
  | [] => .error .truncated
  | b :: rest => .ok (b, rest)

/-- The next so many bytes. -/
def take (n : Nat) : Reader (List UInt8) := fun bytes =>
  let (taken, rest) := bytes.splitAt n
  if taken.length = n then .ok (taken, rest) else .error .truncated

/-- A number in so many bytes, least significant first. -/
def number : Nat → Reader Nat
  | 0 => pure 0
  | width + 1 => do
    let low ← byte
    let high ← number width
    pure (low.toNat + 256 * high)

/-- A count of elements that take at least `least` bytes each. -/
def count (least : Nat) : Reader Nat := do
  let n ← number 4
  fun rest =>
    let size := n * least
    if (rest.take size).length < size then .error .truncated else .ok (n, rest)

def many {α : Type} (element : Reader α) : Nat → Reader (List α)
  | 0 => pure []
  | n + 1 => do
    let first ← element
    let others ← many element n
    pure (first :: others)

def string : Reader String := do
  let length ← number 4
  let bytes ← take length
  match String.fromUTF8? ⟨bytes.toArray⟩ with
  | some text => pure text
  | none => fail .invalidUtf8

/-- Every nonzero flag announces a string. -/
def optionalString : Reader (Option String) := do
  let flag ← byte
  if flag = 0 then pure none else some <$> string

def constant : Reader Constant := do
  let tag ← byte
  match tag.toNat with
  | 0 => pure .nil
  | 1 => pure (.boolean false)
  | 2 => pure (.boolean true)
  | 3 => do
    let n ← number 8
    pure (.integer (UInt64.ofNat n).toInt64)
  | 4 => do
    let n ← number 8
    pure (.float ⟨UInt64.ofNat n⟩)
  | 5 => .string <$> string
  | _ => fail (.invalidConstantTag tag)

def upvalue : Reader Upvalue := do
  let kind ← byte
  let slot ← byte
  let capture ← match kind.toNat with
    | 0 => pure (Capture.ofLocal slot)
    | 1 => pure (Capture.ofEnclosing slot)
    | _ => fail (.invalidUpvalueKind kind)
  let name ← optionalString
  pure { name, capture }

def line : Reader (UInt32 × UInt32) := do
  let offset ← number 4
  let line ← number 4
  pure (UInt32.ofNat offset, UInt32.ofNat line)

def debugInfo : Reader (Option DebugInfo) := do
  let flag ← byte
  if flag = 0 then pure none
  else
    let name ← optionalString
    let source ← optionalString
    let n ← count 8
    let lines ← many line n
    pure (some { name, source, lines := lines.toArray })

/-- One function record with so many levels left, its own included. -/
def prototype : Nat → Reader Prototype
  | 0 => fail .tooDeep
  | levels + 1 => do
    let numParams ← byte
    let numLocals ← byte
    let codeLength ← count 1
    let code ← take codeLength
    let constantCount ← count 1
    let constants ← many constant constantCount
    let upvalueCount ← count 3
    let upvalues ← many upvalue upvalueCount
    let protoCount ← count 1
    let protos ← many (prototype levels) protoCount
    let debug ← debugInfo
    pure { code := code.toArray, constants := constants.toArray,
           upvalues := upvalues.toArray, protos, numParams, numLocals, debug }

/-- The signature, the version and the flags; the lowest flag says that the
chunk is stripped. -/
def header : Reader Bool := do
  let start ← fun bytes =>
    match take signature.length bytes with
    | .ok result => .ok result
    | .error _ => .error .notBinary
  if start = signature then
    let version ← number 2
    if version = formatVersion then
      let flags ← byte
      pure (flags.toNat % 2 = 1)
    else fail (.unsupportedVersion version)
  else fail .notBinary

end Reader

/-- The flag and the outermost function of a chunk. -/
structure Contents where
  stripped : Bool
  main : Prototype

def contents : Reader Contents := do
  let stripped ← Reader.header
  let main ← Reader.prototype Prototype.maxLevels
  pure { stripped, main }

/-- Reads a whole chunk and verifies its function. -/
def load (bytes : List UInt8) : Except LoadError Contents := do
  let (chunk, rest) ← contents bytes
  if rest.isEmpty then
    chunk.main.verify
    pure chunk
  else .error (.trailingBytes rest.length)

/-- The function of a chunk.  Functions without a source get the chunk's
name. -/
def undump (bytes : List UInt8) (name : String) :
    Except LoadError Prototype := do
  let chunk ← load bytes
  pure (chunk.main.attributedTo name)

/-- What can be told of a chunk without accepting it. -/
structure Summary where
  formatVersion : Nat
  stripped : Bool
  size : Nat
  name : Option String
  numParams : UInt8
  numLocals : UInt8
  codeLength : Nat
  constants : Nat
  upvalues : List (Option String)
  protos : Nat

/-- Describes the front of a byte list; what follows the function record is not
looked at, and the function is not verified. -/
def inspect (bytes : List UInt8) : Except LoadError Summary := do
  let (chunk, _) ← contents bytes
  let main := chunk.main
  pure {
    formatVersion
    stripped := chunk.stripped
    size := bytes.length
    name := main.name
    numParams := main.numParams
    numLocals := main.numLocals
    codeLength := main.code.size
    constants := main.constants.size
    upvalues := main.upvalues.toList.map (·.name)
    protos := main.protos.length }

end Isolate.Chunk
