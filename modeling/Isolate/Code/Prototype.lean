import Isolate.Code.Instruction
import Isolate.Numeric.Binary64

/-!
# Function prototypes

A prototype is a compiled function body: code, literals, capture descriptors,
nested prototypes and optional debug information.  It never changes, so every
closure made from it shares it.
-/

namespace Isolate

/-- A literal in a constant pool. -/
inductive Constant
  | nil
  | boolean (value : Bool)
  | integer (value : Int64)
  | float (value : Binary64)
  | string (value : String)
  deriving DecidableEq, Inhabited

/-- Equality of literals where floats compare as numbers. -/
def Constant.equal : Constant → Constant → Bool
  | .float x, .float y => x.equal y
  | x, y => decide (x = y)

/-- Where a new closure finds the cell of one of its upvalues: a fresh cell
with the value of a local of the enclosing function, or a cell that the
enclosing closure already has. -/
inductive Capture
  | ofLocal (slot : UInt8)
  | ofEnclosing (slot : UInt8)
  deriving DecidableEq, Inhabited

structure Upvalue where
  /-- Absent in a stripped prototype. -/
  name : Option String
  capture : Capture
  deriving DecidableEq, Inhabited

/-- The upvalue name through which a function reaches its globals. -/
def environmentName : String := "_ENV"

structure DebugInfo where
  name : Option String := none
  source : Option String := none
  /-- Offsets at which a line starts, in ascending order, with the line. -/
  lines : Array (UInt32 × UInt32) := #[]
  deriving DecidableEq, Inhabited

namespace DebugInfo

/-- Halves the `size` entries from `base` on down to one: on a sorted table the
last entry whose offset is at most `offset`, or the first entry. -/
def searchFrom (lines : Array (UInt32 × UInt32)) (offset : UInt32)
    (base size : Nat) : Nat :=
  if size ≤ 1 then base
  else
    let half := size / 2
    let middle := base + half
    let above := match lines[middle]? with
      | some entry => decide (offset < entry.1)
      | none => true
    searchFrom lines offset (if above then base else middle) (size - half)
termination_by size

/-- The line of the instruction at an offset, which is cut to 32 bits. -/
def lineAt (info : DebugInfo) (offset : Nat) : Option UInt32 :=
  let offset := UInt32.ofNat offset
  match info.lines[searchFrom info.lines offset 0 info.lines.size]? with
  | some entry => if entry.1 ≤ offset then some entry.2 else none
  | none => none

end DebugInfo

structure Prototype where
  code : Code := #[]
  constants : Array Constant := #[]
  upvalues : Array Upvalue := #[]
  protos : List Prototype := []
  numParams : UInt8 := 0
  numLocals : UInt8 := 0
  debug : Option DebugInfo := none
  deriving Inhabited

namespace Prototype

def name (proto : Prototype) : Option String := proto.debug.bind (·.name)

def source (proto : Prototype) : Option String := proto.debug.bind (·.source)

def upvalueName (proto : Prototype) (slot : Nat) : Option String :=
  proto.upvalues[slot]?.bind (·.name)

mutual

/-- The prototype without names, sources and lines, at every level. -/
def stripped : Prototype → Prototype
  | ⟨code, constants, upvalues, protos, numParams, numLocals, _⟩ =>
    ⟨code, constants, upvalues.map fun u => { u with name := none },
     strippedAll protos, numParams, numLocals, none⟩

def strippedAll : List Prototype → List Prototype
  | [] => []
  | proto :: rest => stripped proto :: strippedAll rest

end

mutual

/-- Names the source of the prototype and of every nested one that has none. -/
def attributedTo (source : String) : Prototype → Prototype
  | ⟨code, constants, upvalues, protos, numParams, numLocals, debug⟩ =>
    let info := debug.getD {}
    ⟨code, constants, upvalues, attributedAllTo source protos,
      numParams, numLocals,
      some { info with source := some (info.source.getD source) }⟩

def attributedAllTo (source : String) : List Prototype → List Prototype
  | [] => []
  | proto :: rest => attributedTo source proto :: attributedAllTo source rest

end

mutual

/-- Equality of all parts, where float literals compare as numbers. -/
def equal : Prototype → Prototype → Bool
  | ⟨code, constants, upvalues, protos, numParams, numLocals, debug⟩,
    ⟨code', constants', upvalues', protos', numParams', numLocals', debug'⟩ =>
    code == code'
      && constants.isEqv constants' Constant.equal
      && upvalues == upvalues'
      && equalAll protos protos'
      && numParams == numParams'
      && numLocals == numLocals'
      && debug == debug'

def equalAll : List Prototype → List Prototype → Bool
  | [], [] => true
  | x :: xs, y :: ys => equal x y && equalAll xs ys
  | _, _ => false

end

end Prototype

end Isolate
