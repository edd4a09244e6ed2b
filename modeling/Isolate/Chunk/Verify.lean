import Isolate.Code.Prototype
import Isolate.Chunk.Error

/-!
# Verification of prototypes

A prototype is accepted when its code is a sequence of whole instructions whose
operands name things that exist, when the captures of its nested prototypes
name its own locals and upvalues, and when the same holds of those prototypes
down to a fixed depth.
-/

namespace Isolate.Prototype

/-- How many levels of prototypes a chunk may have, the outermost included. -/
def maxLevels : Nat := 201

/-- Whether the operands of an instruction name things that exist.  A jump may
also lead to the end of the code. -/
def admits (proto : Prototype) : Opcode → List Nat → Bool
  | .constant, [i] => i < proto.constants.size
  | .getLocal, [i] | .setLocal, [i] => i < proto.numLocals.toNat
  | .getUpvalue, [i] | .setUpvalue, [i] => i < proto.upvalues.size
  | .getTabUp, [i, k] | .setTabUp, [i, k] =>
    i < proto.upvalues.size && k < proto.constants.size
  | .jump, [target] | .jumpIfFalse, [target] => target ≤ proto.code.size
  | .closure, [i] => i < proto.protos.length
  | _, _ => true

/-- Checks the instructions from an offset to the end of the code. -/
def verifyCode (proto : Prototype) (offset : Nat) : Except LoadError Unit :=
  if h : offset < proto.code.size then
    match Opcode.ofByte? proto.code[offset] with
    | none => .error (.invalidOpcode offset proto.code[offset])
    | some op =>
      match proto.code.operandsAt? (offset + 1) op.widths with
      | none => .error .truncated
      | some operands =>
        if proto.admits op operands then proto.verifyCode (offset + op.length)
        else .error (.operandOutOfRange offset)
  else .ok ()
termination_by proto.code.size - offset
decreasing_by
  have := op.length_pos
  omega

/-- Whether a capture of a nested prototype names something of this one. -/
def provides (proto : Prototype) : Capture → Bool
  | .ofLocal slot => slot < proto.numLocals
  | .ofEnclosing slot => slot.toNat < proto.upvalues.size

def verifyCaptures (proto child : Prototype) : Except LoadError Unit :=
  if child.upvalues.all fun u => proto.provides u.capture then .ok ()
  else .error (.operandOutOfRange 0)

/-- Checks a prototype with so many levels left, its own included. -/
def verifyWithin : Nat → Prototype → Except LoadError Unit
  | 0, _ => .error .tooDeep
  | levels + 1, proto => do
    proto.verifyCode 0
    proto.protos.forM fun child => do
      proto.verifyCaptures child
      verifyWithin levels child

def verify (proto : Prototype) : Except LoadError Unit :=
  verifyWithin maxLevels proto

end Isolate.Prototype
