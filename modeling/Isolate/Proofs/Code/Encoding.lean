import Isolate.Code.Instruction
import Mathlib.Algebra.Group.Nat.Defs
import Mathlib.Data.List.Nodup

/-!
# Encoded instructions

An instruction is an opcode with one operand for each of its widths, each
within its width.  What the walk reads at an offset is exactly the instruction
whose encoding the code holds there, so bytes decode in at most one way.
-/

namespace Isolate

namespace Opcode

theorem width_eq (op : Opcode) :
    ∀ width ∈ op.widths, width = 1 ∨ width = 2 := by
  cases op <;> decide

theorem length_eq (op : Opcode) :
    op.length = 1 + op.widths.foldr (· + ·) 0 := by
  cases op <;> decide

theorem nodup_all : all.Nodup := by decide

theorem ofByte?_eq_some_iff {b : UInt8} {op : Opcode} :
    ofByte? b = some op ↔ b = op.byte := by
  constructor
  · intro h
    obtain ⟨hlt, hop⟩ := List.getElem?_eq_some_iff.1 h
    have hindex : all.idxOf op = b.toNat := by
      rw [← hop, nodup_all.idxOf_getElem]
    rw [byte, hindex, UInt8.ofNat_toNat]
  · rintro rfl
    exact ofByte?_byte op

/-- One operand for each width, and none that the encoding would cut. -/
def Fits (op : Opcode) (operands : List Nat) : Prop :=
  List.Forall₂ (fun width x => x < 256 ^ width) op.widths operands

/-- The operand bytes of an instruction in these widths. -/
def operandsBytes (widths operands : List Nat) : List UInt8 :=
  (widths.zip operands).flatMap fun (width, x) => operandBytes width x

theorem encode_eq (op : Opcode) (operands : List Nat) :
    op.encode operands = op.byte :: operandsBytes op.widths operands := rfl

theorem length_operandBytes {width : Nat}
    (hwidth : width = 1 ∨ width = 2) (x : Nat) :
    (operandBytes width x).length = width := by
  rcases hwidth with rfl | rfl <;> rfl

theorem length_operandsBytes {widths operands : List Nat}
    (hwidths : ∀ width ∈ widths, width = 1 ∨ width = 2)
    (h : List.Forall₂ (fun width x => x < 256 ^ width) widths operands) :
    (operandsBytes widths operands).length = widths.foldr (· + ·) 0 := by
  induction h with
  | nil => rfl
  | @cons width x widths operands _ _ ih =>
    have hwidth := hwidths width List.mem_cons_self
    have hrest := ih fun w hw => hwidths w (List.mem_cons_of_mem width hw)
    calc (operandsBytes (width :: widths) (x :: operands)).length
        = (operandBytes width x ++ operandsBytes widths operands).length := rfl
      _ = width + widths.foldr (· + ·) 0 := by
        rw [List.length_append, length_operandBytes hwidth, hrest]

theorem length_encode {op : Opcode} {operands : List Nat}
    (h : op.Fits operands) : (op.encode operands).length = op.length := by
  rw [encode_eq, List.length_cons, length_operandsBytes op.width_eq h,
    length_eq, Nat.add_comm]

end Opcode

/-- An opcode with all its operands. -/
structure Instruction where
  op : Opcode
  operands : List Nat
  fits : op.Fits operands

namespace Instruction

def bytes (i : Instruction) : List UInt8 := i.op.encode i.operands

theorem length_bytes (i : Instruction) : i.bytes.length = i.op.length :=
  Opcode.length_encode i.fits

end Instruction

namespace Code

variable {code : Code} {offset : Nat}

/-- The opcode of the byte at an offset. -/
def opcodeAt? (code : Code) (offset : Nat) : Option Opcode :=
  code[offset]?.bind Opcode.ofByte?

/-- The bytes from an offset on, as the walk sees them. -/
def suffix (code : Code) (offset : Nat) : List UInt8 := code.toList.drop offset

theorem length_suffix (code : Code) (offset : Nat) :
    (code.suffix offset).length = code.size - offset := by
  rw [suffix, List.length_drop, Array.length_toList]

theorem suffix_zero (code : Code) : code.suffix 0 = code.toList := rfl

theorem suffix_eq_nil_iff : code.suffix offset = [] ↔ code.size ≤ offset := by
  rw [suffix, List.drop_eq_nil_iff, Array.length_toList]

theorem suffix_add (code : Code) (offset n : Nat) :
    code.suffix (offset + n) = (code.suffix offset).drop n := by
  rw [suffix, suffix, List.drop_drop]

/-- What follows the bytes at an offset. -/
theorem suffix_of_eq_append {front rest : List UInt8}
    (h : code.suffix offset = front ++ rest) :
    code.suffix (offset + front.length) = rest := by
  rw [suffix_add, h, List.drop_left]

theorem cons_prefix_suffix_iff {b : UInt8} {rest : List UInt8} :
    b :: rest <+: code.suffix offset ↔
      code[offset]? = some b ∧ rest <+: code.suffix (offset + 1) := by
  rcases Nat.lt_or_ge offset code.size with hlt | hle
  · have hcons :
        code.suffix offset = code[offset] :: code.suffix (offset + 1) := by
      rw [suffix, suffix,
        List.drop_eq_getElem_cons (by rwa [Array.length_toList]),
        Array.getElem_toList]
    rw [hcons, List.cons_prefix_cons, Array.getElem?_eq_getElem hlt,
      Option.some_inj, eq_comm]
  · rw [suffix_eq_nil_iff.2 hle, Array.getElem?_eq_none hle]
    simp

theorem append_prefix_suffix_iff {front rest : List UInt8} :
    front ++ rest <+: code.suffix offset ↔
      front <+: code.suffix offset ∧
        rest <+: code.suffix (offset + front.length) := by
  constructor
  · rintro ⟨others, hothers⟩
    rw [List.append_assoc] at hothers
    have hrest := suffix_of_eq_append hothers.symm
    exact ⟨⟨_, hothers⟩, ⟨others, hrest.symm⟩⟩
  · rintro ⟨⟨middle, hmiddle⟩, hrest⟩
    rw [suffix_of_eq_append hmiddle.symm] at hrest
    obtain ⟨others, rfl⟩ := hrest
    exact ⟨others, by rw [List.append_assoc, hmiddle]⟩

/-! ## What is read at an offset -/

theorem opcodeAt?_eq_some_iff {op : Opcode} :
    code.opcodeAt? offset = some op ↔
      ∃ h : offset < code.size, Opcode.ofByte? code[offset] = some op := by
  rw [opcodeAt?, Option.bind_eq_some_iff]
  constructor
  · rintro ⟨byte, hbyte, hop⟩
    obtain ⟨h, rfl⟩ := Array.getElem?_eq_some_iff.1 hbyte
    exact ⟨h, hop⟩
  · rintro ⟨h, hop⟩
    exact ⟨code[offset], Array.getElem?_eq_getElem h, hop⟩

theorem byteAt?_eq_some_iff {x : Nat} :
    code.byteAt? offset = some x ↔
      x < 256 ∧ Opcode.operandBytes 1 x <+: code.suffix offset := by
  rw [Opcode.operandBytes, cons_prefix_suffix_iff, byteAt?,
    Option.map_eq_some_iff]
  constructor
  · rintro ⟨b, hb, rfl⟩
    rw [UInt8.ofNat_toNat]
    exact ⟨b.toNat_lt, hb, List.nil_prefix⟩
  · rintro ⟨hx, hb, -⟩
    exact ⟨UInt8.ofNat x, hb, UInt8.toNat_ofNat_of_lt' hx⟩

theorem pairAt?_eq_some_iff {x : Nat} :
    code.pairAt? offset = some x ↔
      x < 65536 ∧ Opcode.operandBytes 2 x <+: code.suffix offset := by
  have hbytes : Opcode.operandBytes 2 x =
      Opcode.operandBytes 1 (x / 256) ++ Opcode.operandBytes 1 (x % 256) := by
    have hlow : UInt8.ofNat (x % 256) = UInt8.ofNat x := UInt8.ofNat_mod_size
    rw [Opcode.operandBytes, Opcode.operandBytes, Opcode.operandBytes, hlow]
    rfl
  rw [hbytes, append_prefix_suffix_iff, pairAt?, Option.bind_eq_bind,
    Option.bind_eq_some_iff]
  constructor
  · rintro ⟨high, hhigh, h⟩
    obtain ⟨low, hlow, h⟩ := Option.bind_eq_some_iff.1 h
    obtain rfl : high * 256 + low = x := Option.some.inj h
    obtain ⟨hhigh256, hhigh⟩ := byteAt?_eq_some_iff.1 hhigh
    obtain ⟨hlow256, hlow⟩ := byteAt?_eq_some_iff.1 hlow
    have hdiv : (high * 256 + low) / 256 = high := by omega
    have hmod : (high * 256 + low) % 256 = low := by omega
    rw [hdiv, hmod]
    exact ⟨by omega, hhigh, hlow⟩
  · rintro ⟨hx, hhigh, hlow⟩
    have hhigh256 : x / 256 < 256 := by omega
    have hlow256 : x % 256 < 256 := Nat.mod_lt x (by decide)
    refine ⟨x / 256, byteAt?_eq_some_iff.2 ⟨hhigh256, hhigh⟩, ?_⟩
    rw [Option.bind_eq_some_iff]
    refine ⟨x % 256, byteAt?_eq_some_iff.2 ⟨hlow256, hlow⟩, ?_⟩
    exact congrArg some (Nat.div_add_mod' x 256)

theorem operandAt?_eq_some_iff {width x : Nat}
    (hwidth : width = 1 ∨ width = 2) :
    (if width = 1 then code.byteAt? offset else code.pairAt? offset) = some x ↔
      x < 256 ^ width ∧ Opcode.operandBytes width x <+: code.suffix offset := by
  rcases hwidth with rfl | rfl
  · exact byteAt?_eq_some_iff
  · exact pairAt?_eq_some_iff

theorem operandsAt?_cons (code : Code) (offset width : Nat)
    (widths : List Nat) :
    code.operandsAt? offset (width :: widths) =
      (if width = 1 then code.byteAt? offset
        else code.pairAt? offset).bind fun x =>
          (code.operandsAt? (offset + width) widths).map (x :: ·) := by
  simp only [operandsAt?, Option.map_eq_bind]
  split <;> rfl

theorem operandsAt?_eq_some_iff {widths operands : List Nat}
    (hwidths : ∀ width ∈ widths, width = 1 ∨ width = 2) :
    code.operandsAt? offset widths = some operands ↔
      List.Forall₂ (fun width x => x < 256 ^ width) widths operands ∧
        Opcode.operandsBytes widths operands <+: code.suffix offset := by
  induction widths generalizing offset operands with
  | nil =>
    rw [operandsAt?, List.forall₂_nil_left_iff, Option.some_inj, eq_comm]
    exact ⟨fun h => ⟨h, List.nil_prefix⟩, And.left⟩
  | cons width widths ih =>
    have hwidth := hwidths width List.mem_cons_self
    have hrest : ∀ w ∈ widths, w = 1 ∨ w = 2 := fun w hw =>
      hwidths w (List.mem_cons_of_mem width hw)
    have hlength := Opcode.length_operandBytes hwidth
    rw [operandsAt?_cons, Option.bind_eq_some_iff]
    constructor
    · rintro ⟨x, hx, h⟩
      obtain ⟨others, hothers, rfl⟩ := Option.map_eq_some_iff.1 h
      obtain ⟨hfits, hbytes⟩ := (operandAt?_eq_some_iff hwidth).1 hx
      obtain ⟨hothersFit, hothersBytes⟩ := (ih hrest).1 hothers
      refine ⟨.cons hfits hothersFit, append_prefix_suffix_iff.2 ⟨hbytes, ?_⟩⟩
      rwa [hlength]
    · rintro ⟨hfits, hbytes⟩
      cases hfits with
      | @cons _ x _ others hfits hothersFit =>
        obtain ⟨hbytes, hothersBytes⟩ := append_prefix_suffix_iff.1 hbytes
        rw [hlength] at hothersBytes
        have hothers := (ih hrest).2 ⟨hothersFit, hothersBytes⟩
        refine ⟨x, (operandAt?_eq_some_iff hwidth).2 ⟨hfits, hbytes⟩, ?_⟩
        rw [hothers, Option.map_some]

/-- Operands that can be read lie within the code. -/
theorem operandsAt?_le {widths operands : List Nat}
    (hwidths : ∀ width ∈ widths, width = 1 ∨ width = 2)
    (hoffset : offset ≤ code.size)
    (h : code.operandsAt? offset widths = some operands) :
    offset + widths.foldr (· + ·) 0 ≤ code.size := by
  obtain ⟨hfits, hbytes⟩ := (operandsAt?_eq_some_iff hwidths).1 h
  have hlength := hbytes.length_le
  rw [Opcode.length_operandsBytes hwidths hfits, length_suffix] at hlength
  omega

/-- Decoding at an offset finds exactly what is encoded there. -/
theorem decodes_iff {op : Opcode} {operands : List Nat} :
    code.opcodeAt? offset = some op ∧
      code.operandsAt? (offset + 1) op.widths = some operands ↔
      op.Fits operands ∧ op.encode operands <+: code.suffix offset := by
  rw [operandsAt?_eq_some_iff op.width_eq, Opcode.encode_eq,
    cons_prefix_suffix_iff, opcodeAt?, Option.bind_eq_some_iff]
  simp only [Opcode.ofByte?_eq_some_iff, exists_eq_right]
  exact and_left_comm

end Code

end Isolate
