import Isolate.Proofs.Chunk.RoundTrip
import Isolate.Proofs.Code.Boundary

/-!
# Well-formed prototypes

A prototype is well-formed when the whole tree below it is at most 200 levels
deep and each prototype of the tree is sound by itself: its code is a sequence
of whole instructions, what their operands name exists, and so does what its
children capture.  Verification accepts exactly the well-formed prototypes.
-/

namespace Isolate

/-- What an operand stands for. -/
inductive OperandKind
  | constant
  | slot
  | upvalue
  | nested
  | target
  /-- A number of arguments, which names nothing. -/
  | count

/-- The kinds of the operands, in the order of their widths. -/
def Opcode.kinds : Opcode → List OperandKind
  | constant => [.constant]
  | getLocal | setLocal => [.slot]
  | getUpvalue | setUpvalue => [.upvalue]
  | getTabUp | setTabUp => [.upvalue, .constant]
  | jump | jumpIfFalse => [.target]
  | call => [.count]
  | closure => [.nested]
  | _ => []

theorem Opcode.Fits.eq_nil {op : Opcode} {operands : List Nat}
    (h : op.Fits operands) (hwidths : op.widths = []) : operands = [] := by
  rw [Fits, hwidths] at h
  exact List.forall₂_nil_left_iff.1 h

theorem Opcode.Fits.eq_singleton {op : Opcode} {operands : List Nat}
    {width : Nat} (h : op.Fits operands) (hwidths : op.widths = [width]) :
    ∃ x, operands = [x] := by
  rw [Fits, hwidths] at h
  cases h with
  | cons _ h =>
    cases h
    exact ⟨_, rfl⟩

theorem Opcode.Fits.eq_pair {op : Opcode} {operands : List Nat}
    {first second : Nat} (h : op.Fits operands)
    (hwidths : op.widths = [first, second]) : ∃ x y, operands = [x, y] := by
  rw [Fits, hwidths] at h
  cases h with
  | cons _ h =>
    cases h with
    | cons _ h =>
      cases h
      exact ⟨_, _, rfl⟩

namespace Prototype

/-- There is what an operand of this kind names.  A jump may lead to the end of
the code. -/
def Has (proto : Prototype) : OperandKind → Nat → Prop
  | .constant, i => i < proto.constants.size
  | .slot, i => i < proto.numLocals.toNat
  | .upvalue, i => i < proto.upvalues.size
  | .nested, i => i < proto.protos.length
  | .target, i => i ≤ proto.code.size
  | .count, _ => True

/-- There is what the operands of an instruction name. -/
def Supports (proto : Prototype) (i : Instruction) : Prop :=
  List.Forall₂ proto.Has i.op.kinds i.operands

/-- There is what a nested prototype captures. -/
inductive Grants (proto : Prototype) : Capture → Prop
  | ofLocal {slot : UInt8} (h : slot.toNat < proto.numLocals.toNat) :
    Grants proto (.ofLocal slot)
  | ofEnclosing {slot : UInt8} (h : slot.toNat < proto.upvalues.size) :
    Grants proto (.ofEnclosing slot)

/-- What one prototype of a tree has to satisfy by itself. -/
structure Sound (proto : Prototype) : Prop where
  code : ∃ instructions : List Instruction,
    proto.code.toList = instructions.flatMap Instruction.bytes ∧
      ∀ i ∈ instructions, proto.Supports i
  captures : ∀ child ∈ proto.protos,
    ∀ upvalue ∈ child.upvalues, proto.Grants upvalue.capture

/-- The prototypes that lie so many levels below a root. -/
inductive Nested : Prototype → Nat → Prototype → Prop
  | root (proto : Prototype) : Nested proto 0 proto
  | child {proto child inner : Prototype} {n : Nat}
      (hchild : child ∈ proto.protos) (h : Nested child n inner) :
        Nested proto (n + 1) inner

structure WellFormed (proto : Prototype) : Prop where
  depth : ∀ {n inner}, Nested proto n inner → n ≤ 200
  sound : ∀ {n inner}, Nested proto n inner → inner.Sound

/-! ## One prototype -/

theorem admits_eq_true_iff (proto : Prototype) (i : Instruction) :
    proto.admits i.op i.operands = true ↔ proto.Supports i := by
  obtain ⟨op, operands, fits⟩ := i
  cases op with
  | getTabUp | setTabUp =>
    obtain ⟨x, y, rfl⟩ := fits.eq_pair rfl
    simp [admits, Supports, Opcode.kinds, Has]
  | constant | getLocal | setLocal | getUpvalue | setUpvalue | jump
  | jumpIfFalse | call
  | closure =>
    obtain ⟨x, rfl⟩ := fits.eq_singleton rfl
    simp [admits, Supports, Opcode.kinds, Has]
  | _ =>
    obtain rfl := fits.eq_nil rfl
    simp [admits, Supports, Opcode.kinds]

/-- The walk from an offset reaches the end if what is left of the code is a
sequence of whole instructions and there is what they name. -/
theorem verifyCode_of_instructions {proto : Prototype}
    {instructions : List Instruction} {offset : Nat}
    (hcode : proto.code.suffix offset = instructions.flatMap Instruction.bytes)
    (hsupports : ∀ i ∈ instructions, proto.Supports i) :
    proto.verifyCode offset = .ok () := by
  induction instructions generalizing offset with
  | nil =>
    have hsize := Code.suffix_eq_nil_iff.1 hcode
    rw [verifyCode, dif_neg (Nat.not_lt.2 hsize)]
  | cons i instructions ih =>
    rw [List.flatMap_cons] at hcode
    obtain ⟨hi, hothers⟩ := List.forall_mem_cons.1 hsupports
    obtain ⟨hop, hoperands⟩ := Code.decodes_iff.2 ⟨i.fits, ⟨_, hcode.symm⟩⟩
    have hrest := Code.suffix_of_eq_append hcode
    rw [i.length_bytes] at hrest
    apply (verifyCode_eq_ok_iff (Code.opcodeAt?_eq_some_iff.1 hop).1).2
    exact ⟨i.op, hop,
      ⟨i.operands, hoperands, (proto.admits_eq_true_iff i).2 hi⟩,
      ih hrest hothers⟩

/-- A walk that reaches the end has come by whole instructions. -/
theorem instructions_of_verifyCode {proto : Prototype} {offset : Nat}
    (h : proto.verifyCode offset = .ok ()) : ∃ instructions : List Instruction,
      proto.code.suffix offset = instructions.flatMap Instruction.bytes ∧
        ∀ i ∈ instructions, proto.Supports i := by
  fun_induction verifyCode proto offset with
  | case1 | case2 | case4 => cases h
  | case3 offset hoffset op hop operands hoperands hadmits ih =>
    obtain ⟨instructions, hrest, hsupports⟩ := ih h
    have hopcode := Code.opcodeAt?_eq_some_iff.2 ⟨hoffset, hop⟩
    obtain ⟨hfits, rest, hbytes⟩ := Code.decodes_iff.1 ⟨hopcode, hoperands⟩
    have hleft := Code.suffix_of_eq_append hbytes.symm
    rw [Opcode.length_encode hfits, hrest] at hleft
    have hi := (proto.admits_eq_true_iff ⟨op, operands, hfits⟩).1 hadmits
    refine ⟨⟨op, operands, hfits⟩ :: instructions, ?_,
      List.forall_mem_cons.2 ⟨hi, hsupports⟩⟩
    calc proto.code.suffix offset = op.encode operands ++ rest := hbytes.symm
      _ = op.encode operands ++ instructions.flatMap Instruction.bytes := by
        rw [hleft]
      _ = _ := rfl
  | case5 offset hoffset =>
    have hend := Code.suffix_eq_nil_iff.2 (Nat.not_lt.1 hoffset)
    exact ⟨[], hend, fun i hi => absurd hi List.not_mem_nil⟩

theorem verifyCode_eq_ok_iff_instructions (proto : Prototype) :
    proto.verifyCode 0 = .ok () ↔ ∃ instructions : List Instruction,
      proto.code.toList = instructions.flatMap Instruction.bytes ∧
        ∀ i ∈ instructions, proto.Supports i := by
  rw [← Code.suffix_zero]
  constructor
  · exact instructions_of_verifyCode
  · rintro ⟨instructions, hcode, hsupports⟩
    exact verifyCode_of_instructions hcode hsupports

theorem provides_eq_true_iff (proto : Prototype) (capture : Capture) :
    proto.provides capture = true ↔ proto.Grants capture := by
  constructor
  · intro h
    cases capture with
    | ofLocal slot => exact .ofLocal (of_decide_eq_true h)
    | ofEnclosing slot => exact .ofEnclosing (of_decide_eq_true h)
  · intro h
    cases h with
    | ofLocal h => exact decide_eq_true h
    | ofEnclosing h => exact decide_eq_true h

theorem verifyCaptures_eq_ok_iff (proto child : Prototype) :
    proto.verifyCaptures child = .ok () ↔
      ∀ upvalue ∈ child.upvalues, proto.Grants upvalue.capture := by
  have hall : (child.upvalues.all fun u => proto.provides u.capture) = true ↔
      ∀ upvalue ∈ child.upvalues, proto.Grants upvalue.capture := by
    simp only [Array.all_eq_true_iff_forall_mem, provides_eq_true_iff]
  rw [verifyCaptures, ← hall]
  split
  case isTrue h => exact iff_of_true rfl h
  case isFalse h => exact iff_of_false (by simp) h

theorem sound_iff (proto : Prototype) :
    proto.Sound ↔ proto.verifyCode 0 = .ok () ∧
      ∀ child ∈ proto.protos, proto.verifyCaptures child = .ok () := by
  simp only [verifyCode_eq_ok_iff_instructions, verifyCaptures_eq_ok_iff]
  exact ⟨fun h => ⟨h.code, h.captures⟩, fun h => ⟨h.1, h.2⟩⟩

/-! ## The tree -/

theorem Nested.trans {proto middle inner : Prototype} {m n : Nat}
    (h : Nested proto m middle) (hinner : Nested middle n inner) :
    Nested proto (n + m) inner := by
  induction h with
  | root => exact hinner
  | child hchild _ ih => exact .child hchild (ih hinner)

/-- Verification with so many levels left accepts trees that have no more and
whose prototypes are sound. -/
theorem verifyWithin_eq_ok_iff (levels : Nat) (proto : Prototype) :
    verifyWithin levels proto = .ok () ↔
      ∀ {n inner}, Nested proto n inner → n < levels ∧ inner.Sound := by
  induction levels generalizing proto with
  | zero =>
    constructor
    · rintro ⟨⟩
    · intro h
      exact absurd (h (.root proto)).1 (Nat.lt_irrefl 0)
  | succ levels ih =>
    rw [verifyWithin_succ_eq_ok_iff]
    constructor
    · rintro ⟨hcode, hchildren⟩ n inner h
      cases h with
      | root =>
        exact ⟨Nat.succ_pos levels,
          (sound_iff proto).2
            ⟨hcode, fun child hchild => (hchildren child hchild).1⟩⟩
      | @child _ child _ n hchild h =>
        obtain ⟨hn, hsound⟩ := (ih child).1 (hchildren child hchild).2 h
        exact ⟨Nat.succ_lt_succ hn, hsound⟩
    · intro h
      obtain ⟨hcode, hcaptures⟩ := (sound_iff proto).1 (h (.root proto)).2
      refine ⟨hcode, fun child hchild =>
        ⟨hcaptures child hchild, (ih child).2 ?_⟩⟩
      intro n inner hinner
      obtain ⟨hn, hsound⟩ := h (.child hchild hinner)
      exact ⟨Nat.lt_of_succ_lt_succ hn, hsound⟩

theorem verify_iff (proto : Prototype) :
    proto.verify = .ok () ↔ proto.WellFormed := by
  rw [verify, verifyWithin_eq_ok_iff]
  constructor
  · intro h
    exact ⟨fun hinner => Nat.le_of_lt_succ (h hinner).1,
      fun hinner => (h hinner).2⟩
  · intro h n inner hinner
    exact ⟨Nat.lt_succ_of_le (h.depth hinner), h.sound hinner⟩

/-- A part of a well-formed tree is well-formed. -/
theorem WellFormed.of_nested {proto middle : Prototype} {m : Nat}
    (h : proto.WellFormed) (hmiddle : Nested proto m middle) :
    middle.WellFormed := by
  constructor
  case depth =>
    intro n inner hinner
    exact Nat.le_trans (Nat.le_add_right n m) (h.depth (hmiddle.trans hinner))
  case sound =>
    intro n inner hinner
    exact h.sound (hmiddle.trans hinner)

/-- Verification accepts exactly the well-formed prototypes, and with a tree it
accepts every prototype of the tree on its own. -/
theorem verify_eq_ok_iff_wellFormed (proto : Prototype) :
    (proto.verify = .ok () ↔ proto.WellFormed) ∧
      (proto.verify = .ok () →
        ∀ {n inner}, Nested proto n inner → inner.verify = .ok ()) := by
  constructor
  · exact proto.verify_iff
  · intro h n inner hinner
    exact inner.verify_iff.2 ((proto.verify_iff.1 h).of_nested hinner)

theorem verify_protos_capturing : Chunk.capturing.verify = .ok () ∧
    Chunk.capturing.WellFormed ∧
    ∀ child ∈ Chunk.capturing.protos, child.verify = .ok () := by
  obtain ⟨hiff, hnested⟩ := verify_eq_ok_iff_wellFormed Chunk.capturing
  have hverify := Chunk.verify_capturing
  exact ⟨hverify, hiff.1 hverify, fun child hchild =>
    hnested hverify (.child hchild (.root child))⟩

end Prototype

end Isolate
