/-!
# Why a function cannot be written or loaded
-/

namespace Isolate

/-- Why a value could not be written as a chunk. -/
inductive DumpError
  /-- Native functions have no code to write. -/
  | nativeFunction (name : String)
  | notAFunction (kind : String)
  | tooLarge (limit : Nat)
  deriving DecidableEq, Inhabited

def DumpError.message : DumpError → String
  | nativeFunction name => "unable to dump native function '" ++ name ++ "'"
  | notAFunction kind => "unable to dump a " ++ kind ++ " value"
  | tooLarge limit => "chunk exceeds the " ++ toString limit ++ " byte limit"

/-- Why bytes or a prototype were rejected. -/
inductive LoadError
  | notBinary
  | unsupportedVersion (version : Nat)
  | truncated
  | invalidUtf8
  | invalidOpcode (offset : Nat) (byte : UInt8)
  | invalidConstantTag (tag : UInt8)
  | invalidUpvalueKind (kind : UInt8)
  /-- An operand or a capture names something that does not exist. -/
  | operandOutOfRange (offset : Nat)
  | tooDeep
  | trailingBytes (count : Nat)
  deriving DecidableEq, Inhabited

def LoadError.message : LoadError → String
  | notBinary => "not a binary chunk"
  | unsupportedVersion version =>
    "unsupported chunk format version " ++ toString version
  | truncated => "truncated chunk"
  | invalidUtf8 => "chunk string is not valid UTF-8"
  | invalidOpcode offset byte =>
    "invalid opcode " ++ toString byte.toNat ++ " at offset " ++ toString offset
  | invalidConstantTag tag => "invalid constant tag " ++ toString tag.toNat
  | invalidUpvalueKind kind => "invalid upvalue kind " ++ toString kind.toNat
  | operandOutOfRange offset =>
    "operand out of range at offset " ++ toString offset
  | tooDeep => "function prototypes nested too deeply"
  | trailingBytes count => toString count ++ " unexpected bytes after chunk"

end Isolate
