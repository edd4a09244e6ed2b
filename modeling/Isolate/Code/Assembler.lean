import Isolate.Code.Prototype

/-!
# Assembling prototypes

An assembler collects the parts of one function.  Literals are interned by
their bits, nested prototypes and upvalues get the next index, and a line is
recorded at the first instruction emitted under it.
-/

namespace Isolate

structure Assembler where
  name : String
  code : Code := #[]
  constants : Array Constant := #[]
  upvalues : Array Upvalue := #[]
  protos : List Prototype := []
  numParams : UInt8 := 0
  numLocals : UInt8 := 0
  lines : Array (UInt32 × UInt32) := #[]
  currentLine : Option UInt32 := none

namespace Assembler

/-- Declares parameters, which occupy the first local slots. -/
def params (a : Assembler) (count : UInt8) : Assembler :=
  { a with numParams := count, numLocals := max a.numLocals count }

/-- Reserves local slots, those of the parameters included. -/
def locals (a : Assembler) (count : UInt8) : Assembler :=
  { a with numLocals := max count a.numParams }

/-- Declares the next upvalue and gives its slot, which is cut to one byte. -/
def upvalue (a : Assembler) (name : String) (capture : Capture) :
    UInt8 × Assembler :=
  (UInt8.ofNat a.upvalues.size,
   { a with upvalues := a.upvalues.push { name := some name, capture } })

/-- The assembler of a main function, whose first upvalue holds the globals. -/
def mainFunction : Assembler :=
  (Assembler.upvalue { name := "main" } environmentName (.ofEnclosing 0)).2

/-- Interns a literal and gives its index.  Float literals are the same literal
when their bits agree. -/
def constant (a : Assembler) (literal : Constant) : Nat × Assembler :=
  match a.constants.findIdx? (· = literal) with
  | some index => (index, a)
  | none => (a.constants.size, { a with constants := a.constants.push literal })

def string (a : Assembler) (text : String) : Nat × Assembler :=
  a.constant (.string text)

/-- Adds a nested prototype and gives its index. -/
def child (a : Assembler) (proto : Prototype) : Nat × Assembler :=
  (a.protos.length, { a with protos := a.protos ++ [proto] })

/-- Sets the line of the instructions emitted from now on. -/
def line (a : Assembler) (line : UInt32) : Assembler :=
  { a with currentLine := some line }

/-- The line table once an instruction is emitted at the end of the code: a
line is recorded unless it is the one recorded last. -/
def nextLines (a : Assembler) : Array (UInt32 × UInt32) :=
  match a.currentLine with
  | some line =>
    if a.lines.back?.map Prod.snd = some line then a.lines
    else a.lines.push (UInt32.ofNat a.code.size, line)
  | none => a.lines

/-- Appends an instruction and gives its offset. -/
def emit (a : Assembler) (op : Opcode) (operands : List Nat) :
    Nat × Assembler :=
  (a.code.size,
   { a with
     lines := a.nextLines, code := a.code ++ (op.encode operands).toArray })

/-- The offset of the next instruction. -/
def offset (a : Assembler) : Nat := a.code.size

/-- Points the jump at an offset to a target.  Offsets are words of 64 bits, and
what lies past the last one is counted from the start again. -/
def patchJump (a : Assembler) (jump target : Nat) : Assembler :=
  let high := (jump + 1) % UInt64.size
  let low := (jump + 2) % UInt64.size
  { a with
    code := (a.code.setIfInBounds high
      (UInt8.ofNat (target / 256))).setIfInBounds low (UInt8.ofNat target) }

def build (a : Assembler) : Prototype where
  code := a.code
  constants := a.constants
  upvalues := a.upvalues
  protos := a.protos
  numParams := a.numParams
  numLocals := a.numLocals
  debug := some { name := some a.name, lines := a.lines }

end Assembler

end Isolate
