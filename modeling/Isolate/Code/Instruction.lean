import Isolate.Text.Radix

/-!
# Instructions

An instruction is one opcode byte followed by operands of one or two bytes,
most significant byte first.  Listing walks the code from its start and stops
at the first byte that begins no complete instruction.
-/

namespace Isolate

inductive Opcode
  | constant
  | loadNil
  | loadTrue
  | loadFalse
  | pop
  | getLocal
  | setLocal
  | getUpvalue
  | setUpvalue
  | getTabUp
  | setTabUp
  | newTable
  | getIndex
  | setIndex
  | add
  | sub
  | mul
  | div
  | minus
  | not
  | equal
  | lessThan
  | concat
  | len
  | jump
  | jumpIfFalse
  | call
  | ret
  | closure
  deriving DecidableEq, Inhabited, Repr

namespace Opcode

/-- All opcodes in the order of their bytes. -/
def all : List Opcode :=
  [constant, loadNil, loadTrue, loadFalse, pop, getLocal, setLocal, getUpvalue,
   setUpvalue, getTabUp, setTabUp, newTable, getIndex, setIndex, add, sub, mul,
   div, minus, not, equal, lessThan, concat, len, jump, jumpIfFalse, call, ret,
   closure]

def byte (op : Opcode) : UInt8 := UInt8.ofNat (all.idxOf op)

def ofByte? (byte : UInt8) : Option Opcode := all[byte.toNat]?

@[simp]
theorem ofByte?_byte (op : Opcode) : ofByte? op.byte = some op := by
  cases op <;> rfl

def name : Opcode → String
  | constant => "OpConstant"
  | loadNil => "OpNil"
  | loadTrue => "OpTrue"
  | loadFalse => "OpFalse"
  | pop => "OpPop"
  | getLocal => "OpGetLocal"
  | setLocal => "OpSetLocal"
  | getUpvalue => "OpGetUpvalue"
  | setUpvalue => "OpSetUpvalue"
  | getTabUp => "OpGetTabUp"
  | setTabUp => "OpSetTabUp"
  | newTable => "OpNewTable"
  | getIndex => "OpGetIndex"
  | setIndex => "OpSetIndex"
  | add => "OpAdd"
  | sub => "OpSub"
  | mul => "OpMul"
  | div => "OpDiv"
  | minus => "OpMinus"
  | not => "OpNot"
  | equal => "OpEqual"
  | lessThan => "OpLessThan"
  | concat => "OpConcat"
  | len => "OpLen"
  | jump => "OpJump"
  | jumpIfFalse => "OpJumpIfFalse"
  | call => "OpCall"
  | ret => "OpReturn"
  | closure => "OpClosure"

/-- The byte widths of the operands.  The two table accesses through an upvalue
take the upvalue slot and then the constant that names the field. -/
def widths : Opcode → List Nat
  | constant | jump | jumpIfFalse | closure => [2]
  | getLocal | setLocal | getUpvalue | setUpvalue | call => [1]
  | getTabUp | setTabUp => [1, 2]
  | _ => []

/-- The length of a whole instruction in bytes. -/
def length (op : Opcode) : Nat := op.widths.foldr (· + ·) 1

theorem length_pos (op : Opcode) : 0 < op.length := by
  cases op <;> decide

/-- An operand in a width of one or two bytes; higher bits are dropped. -/
def operandBytes (width operand : Nat) : List UInt8 :=
  match width with
  | 1 => [UInt8.ofNat operand]
  | 2 => [UInt8.ofNat (operand / 256), UInt8.ofNat operand]
  | _ => []

/-- The bytes of an instruction.  Operands past the widths are ignored, and
operands that are not given are left out. -/
def encode (op : Opcode) (operands : List Nat) : List UInt8 :=
  op.byte ::
    (op.widths.zip operands).flatMap fun (width, x) => operandBytes width x

end Opcode

/-- Instruction bytes of one function. -/
abbrev Code := Array UInt8

namespace Code

def byteAt? (code : Code) (offset : Nat) : Option Nat :=
  code[offset]?.map UInt8.toNat

/-- Two bytes as a number, most significant first. -/
def pairAt? (code : Code) (offset : Nat) : Option Nat := do
  let high ← code.byteAt? offset
  let low ← code.byteAt? (offset + 1)
  pure (high * 256 + low)

/-- The operands of the given widths from an offset on, if the code is long
enough to hold them. -/
def operandsAt? (code : Code) (offset : Nat) : List Nat → Option (List Nat)
  | [] => some []
  | width :: rest => do
    let operand ← if width = 1 then code.byteAt? offset else code.pairAt? offset
    let others ← code.operandsAt? (offset + width) rest
    pure (operand :: others)

/-- One line of a listing. -/
inductive Line
  | instruction (offset : Nat) (op : Opcode) (operands : List Nat)
  | invalid (offset : Nat) (byte : UInt8)
  | truncated (offset : Nat) (op : Opcode)
  deriving DecidableEq

namespace Line

def operandText (operands : List Nat) : String :=
  String.join (operands.map fun x => " " ++ toString x)

def text : Line → String
  | instruction offset op operands =>
    Text.decimal 4 offset ++ " " ++ op.name ++ operandText operands ++ "\n"
  | invalid offset byte =>
    Text.decimal 4 offset ++ " <invalid " ++ toString byte.toNat ++ ">\n"
  | truncated offset op =>
    Text.decimal 4 offset ++ " " ++ op.name ++ " <truncated>\n"

end Line

/-- The lines from an offset on, up to the end of the code or the first byte
that begins no complete instruction. -/
def listingFrom (code : Code) (offset : Nat) : List Line :=
  if h : offset < code.size then
    match Opcode.ofByte? code[offset] with
    | none => [.invalid offset code[offset]]
    | some op =>
      match code.operandsAt? (offset + 1) op.widths with
      | none => [.truncated offset op]
      | some operands =>
        .instruction offset op operands :: code.listingFrom (offset + op.length)
  else []
termination_by code.size - offset
decreasing_by
  have := op.length_pos
  omega

def listing (code : Code) : List Line := code.listingFrom 0

def disassemble (code : Code) : String :=
  String.join (code.listing.map Line.text)

end Code

end Isolate
