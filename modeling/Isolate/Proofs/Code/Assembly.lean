import Isolate.Code.Assembler
import Isolate.Proofs.Code.Encoding

/-!
# Sequences of assembler calls

What an assembler has collected stays where it is: literals, upvalues and nested
prototypes are only appended, no literal is in the pool twice, and the bytes of
an instruction change only through the patches that write to them.
-/

namespace Isolate

namespace Opcode

/-- The operands as they are encoded, each cut to its width. -/
def cut (op : Opcode) (operands : List Nat) : List Nat :=
  List.zipWith (fun width x => x % 256 ^ width) op.widths operands

theorem operandBytes_mod {width : Nat}
    (hwidth : width = 1 ∨ width = 2) (x : Nat) :
    operandBytes width (x % 256 ^ width) = operandBytes width x := by
  have hlow : ∀ n, UInt8.ofNat (n % 256) = UInt8.ofNat n :=
    fun n => UInt8.ofNat_mod_size
  rcases hwidth with rfl | rfl
  · exact congrArg (fun b => [b]) (hlow x)
  · have hhigh : x % 256 ^ 2 / 256 = x / 256 % 256 := by omega
    have hmod : x % 256 ^ 2 % 256 = x % 256 := by omega
    rw [operandBytes, operandBytes, hhigh, hlow,
      ← hlow (x % 256 ^ 2), hmod, hlow]

theorem operandsBytes_zipWith_mod {widths operands : List Nat}
    (hwidths : ∀ width ∈ widths, width = 1 ∨ width = 2) :
    operandsBytes widths
      (List.zipWith (fun width x => x % 256 ^ width) widths operands) =
      operandsBytes widths operands := by
  induction widths generalizing operands with
  | nil => rfl
  | cons width widths ih =>
    cases operands with
    | nil => rfl
    | cons x operands =>
      have hrest : operandsBytes widths
          (List.zipWith (fun width x => x % 256 ^ width) widths operands) =
            operandsBytes widths operands :=
        ih fun w hw => hwidths w (List.mem_cons_of_mem width hw)
      calc operandsBytes (width :: widths)
            (List.zipWith (fun width x => x % 256 ^ width) (width :: widths)
              (x :: operands))
          = operandBytes width (x % 256 ^ width) ++ operandsBytes widths
              (List.zipWith (fun width x => x % 256 ^ width) widths operands) :=
        rfl
        _ = operandBytes width x ++ operandsBytes widths operands := by
          rw [operandBytes_mod (hwidths width List.mem_cons_self), hrest]

theorem encode_cut (op : Opcode) (operands : List Nat) :
    op.encode (op.cut operands) = op.encode operands := by
  rw [encode_eq, encode_eq, cut, operandsBytes_zipWith_mod op.width_eq]

/-- What is cut fits, if there is one operand for each width. -/
theorem fits_cut {op : Opcode} {operands : List Nat}
    (h : operands.length = op.widths.length) : op.Fits (op.cut operands) := by
  rw [Fits, cut]
  generalize op.widths = widths at h ⊢
  induction widths generalizing operands with
  | nil =>
    rw [List.zipWith_nil_left]
    exact .nil
  | cons width widths ih =>
    cases operands with
    | nil => cases h
    | cons x operands =>
      exact .cons (Nat.mod_lt x (Nat.pow_pos (by decide))) (ih (Nat.succ.inj h))

end Opcode

/-- Bytes at an offset, one by one. -/
theorem Code.prefix_suffix_iff {code : Code} {offset : Nat}
    {bytes : List UInt8} :
    bytes <+: code.suffix offset ↔
      ∀ i (h : i < bytes.length), code[offset + i]? = some bytes[i] := by
  rw [List.prefix_iff_getElem?, suffix]
  simp only [List.getElem?_drop, Array.getElem?_toList]

namespace Assembler

/-- One call on an assembler. -/
inductive Step
  | params (count : UInt8)
  | locals (count : UInt8)
  | upvalue (name : String) (capture : Capture)
  | constant (literal : Constant)
  | string (text : String)
  | child (proto : Prototype)
  | line (line : UInt32)
  | emit (op : Opcode) (operands : List Nat)
  | offset
  | patchJump (jump target : Nat)

namespace Step

/-- The number that the call gives, if it gives one, and the
assembler after it. -/
def call (a : Assembler) : Step → Option Nat × Assembler
  | params count => (none, a.params count)
  | locals count => (none, a.locals count)
  | upvalue name capture =>
    ((a.upvalue name capture).1.toNat, (a.upvalue name capture).2)
  | constant literal => ((a.constant literal).1, (a.constant literal).2)
  | string text => ((a.string text).1, (a.string text).2)
  | child proto => ((a.child proto).1, (a.child proto).2)
  | line number => (none, a.line number)
  | emit op operands => ((a.emit op operands).1, (a.emit op operands).2)
  | offset => (a.offset, a)
  | patchJump jump target => (none, a.patchJump jump target)

def answer (a : Assembler) (step : Step) : Option Nat := (step.call a).1

def run (a : Assembler) (step : Step) : Assembler := (step.call a).2

end Step

/-- The assembler after calls. -/
def after (a : Assembler) (steps : List Step) :
    Assembler := steps.foldl Step.run a

/-- An assembler at its beginning. -/
inductive Fresh : Assembler → Prop
  | named (name : String) : Fresh { name }
  | main : Fresh mainFunction

variable {a b c : Assembler} {offset : Nat}

theorem after_append (a : Assembler) (before later : List Step) :
    a.after (before ++ later) = (a.after before).after later :=
  List.foldl_append

theorem after_cons (a : Assembler) (step : Step) (later : List Step) :
    a.after (step :: later) = (step.run a).after later := rfl

/-! ## What is collected -/

/-- Everything that the first assembler has is at the same place in the
second. -/
structure Extends (a b : Assembler) : Prop where
  constants : a.constants.toList <+: b.constants.toList
  upvalues : a.upvalues.toList <+: b.upvalues.toList
  protos : a.protos <+: b.protos
  size : a.code.size ≤ b.code.size

theorem Extends.refl (a : Assembler) : Extends a a where
  constants := List.prefix_rfl
  upvalues := List.prefix_rfl
  protos := List.prefix_rfl
  size := Nat.le_refl _

theorem Extends.trans (h : Extends a b) (h' : Extends b c) : Extends a c where
  constants := h.constants.trans h'.constants
  upvalues := h.upvalues.trans h'.upvalues
  protos := h.protos.trans h'.protos
  size := Nat.le_trans h.size h'.size

/-- A literal gets the place of the literal that is like it, or else the next
one. -/
theorem constant_cases (a : Assembler) (literal : Constant) :
    (a.constants[(a.constant literal).1]? = some literal ∧
      (a.constant literal).2 = a) ∨
      (literal ∉ a.constants.toList ∧
        (a.constant literal).1 = a.constants.size ∧
        (a.constant literal).2 =
          { a with constants := a.constants.push literal }) := by
  rw [constant]
  cases h : a.constants.findIdx? (· = literal) with
  | some index =>
    obtain ⟨hlt, hsame, -⟩ := Array.findIdx?_eq_some_iff_getElem.1 h
    refine Or.inl ⟨?_, rfl⟩
    rw [Array.getElem?_eq_getElem hlt, of_decide_eq_true hsame]
  | none =>
    refine Or.inr ⟨fun hmem => ?_, rfl, rfl⟩
    have hdiffers :=
      Array.findIdx?_eq_none_iff.1 h literal (Array.mem_toList_iff.1 hmem)
    exact absurd hdiffers (by simp)

/-- Interning a literal changes the pool only. -/
theorem constant_snd (a : Assembler) (literal : Constant) :
    (a.constant literal).2 =
      { a with constants := (a.constant literal).2.constants } := by
  rcases a.constant_cases literal with ⟨-, h⟩ | ⟨-, -, h⟩ <;> rw [h]

theorem extends_constant (a : Assembler) (literal : Constant) :
    Extends a (a.constant literal).2 := by
  rcases a.constant_cases literal with ⟨-, h⟩ | ⟨-, -, h⟩
  · rw [h]
    exact .refl a
  · rw [h]
    refine { Extends.refl a with constants := ?_ }
    rw [Array.toList_push]
    exact List.prefix_append _ _

theorem extends_run (a : Assembler) (step : Step) : Extends a (step.run a) := by
  cases step with
  | params | locals | line | offset => exact { Extends.refl a with }
  | constant literal => exact a.extends_constant literal
  | string text => exact a.extends_constant (.string text)
  | upvalue name capture =>
    refine { Extends.refl a with upvalues := ?_ }
    rw [Step.run, Step.call, upvalue, Array.toList_push]
    exact List.prefix_append _ _
  | child proto =>
    exact { Extends.refl a with protos := List.prefix_append _ _ }
  | emit op operands =>
    refine { Extends.refl a with size := ?_ }
    rw [Step.run, Step.call, emit, Array.size_append]
    exact Nat.le_add_right _ _
  | patchJump jump target =>
    refine { Extends.refl a with size := Nat.le_of_eq ?_ }
    rw [Step.run, Step.call, patchJump, Array.size_setIfInBounds,
      Array.size_setIfInBounds]

theorem extends_after (a : Assembler) (steps : List Step) :
    Extends a (a.after steps) := by
  induction steps generalizing a with
  | nil => exact .refl a
  | cons step steps ih => exact (a.extends_run step).trans (ih _)

theorem nodup_constants_run (step : Step) (h : a.constants.toList.Nodup) :
    (step.run a).constants.toList.Nodup := by
  have hintern : ∀ literal, (a.constant literal).2.constants.toList.Nodup := by
    intro literal
    rcases a.constant_cases literal with ⟨-, hsame⟩ | ⟨hnew, -, hpushed⟩
    · rw [hsame]
      exact h
    · rw [hpushed, Array.toList_push]
      exact List.nodup_append.2 ⟨h, List.nodup_singleton literal,
          fun x hx y hy => by
            rw [List.mem_singleton.1 hy]
            rintro rfl
            exact hnew hx⟩
  cases step with
  | constant literal => exact hintern literal
  | string text => exact hintern (.string text)
  | _ => exact h

/-- No literal is in the pool twice. -/
theorem nodup_constants_after (steps : List Step)
    (h : a.constants.toList.Nodup) :
    (a.after steps).constants.toList.Nodup := by
  induction steps generalizing a with
  | nil => exact h
  | cons step steps ih => exact ih (nodup_constants_run step h)

theorem Fresh.nodup_constants (h : a.Fresh) : a.constants.toList.Nodup := by
  cases h <;> exact List.nodup_nil

/-! ## Bytes of the code -/

namespace Step

/-- The call does not write to the bytes from an offset on. -/
def Spares (offset length : Nat) : Step → Prop
  | patchJump jump _ =>
    ∀ i ∈ [(jump + 1) % UInt64.size, (jump + 2) % UInt64.size],
      i < offset ∨ offset + length ≤ i
  | _ => True

/-- The target to which the call points the jump at an offset. -/
def target? (offset : Nat) (op : Opcode) : Step → Option Nat
  | patchJump jump target =>
    if jump = offset ∧ offset + 2 < UInt64.size ∧
        (op = .jump ∨ op = .jumpIfFalse) then
      some target
    else none
  | _ => none

/-- The call leaves an instruction as it is, or points it to another target. -/
def Respects (offset : Nat) (op : Opcode) (step : Step) : Prop :=
  step.Spares offset op.length ∨ (step.target? offset op).isSome

/-- The operands given to the instruction at an offset, after the call. -/
def operandsAfter (offset : Nat) (op : Opcode) (operands : List Nat)
    (step : Step) : List Nat :=
  ((step.target? offset op).map ([·])).getD operands

end Step

/-- The operands given to the instruction at an offset, after calls. -/
def operandsAfter (offset : Nat) (op : Opcode) (operands : List Nat)
    (later : List Step) : List Nat :=
  later.foldl (Step.operandsAfter offset op) operands

/-- The code has an instruction with all its operands, as far as they
fit, at an offset. -/
structure Has (a : Assembler) (offset : Nat) (op : Opcode)
    (operands : List Nat) : Prop where
  full : operands.length = op.widths.length
  bytes : op.encode operands <+: a.code.suffix offset

theorem Has.decodes {op : Opcode} {operands : List Nat}
    (h : a.Has offset op operands) :
    a.code.opcodeAt? offset = some op ∧
      a.code.operandsAt? (offset + 1) op.widths = some (op.cut operands) :=
  Code.decodes_iff.2 ⟨Opcode.fits_cut h.full, by
    rw [op.encode_cut]
    exact h.bytes⟩

theorem has_emit (a : Assembler) {op : Opcode} {operands : List Nat}
    (h : operands.length = op.widths.length) :
    (a.emit op operands).2.Has a.code.size op operands where
  full := h
  bytes := by
    have hsuffix : (a.emit op operands).2.code.suffix a.code.size =
        op.encode operands := by
      rw [emit, Code.suffix, Array.toList_append,
        List.drop_left' Array.length_toList]
    exact hsuffix ▸ List.prefix_rfl

/-- Bytes that a call spares are the same after it. -/
theorem prefix_suffix_run {bytes : List UInt8}
    (h : bytes <+: a.code.suffix offset) {step : Step}
    (hspares : step.Spares offset bytes.length) :
    bytes <+: (step.run a).code.suffix offset := by
  cases step with
  | params | locals | upvalue | child | line | offset => exact h
  | constant literal =>
    rw [Step.run, Step.call, constant_snd]
    exact h
  | string text =>
    rw [Step.run, Step.call, string, constant_snd]
    exact h
  | emit op operands =>
    rw [Step.run, Step.call, emit, Code.suffix, Array.toList_append,
      List.drop_append]
    exact h.trans (List.prefix_append _ _)
  | patchJump jump target =>
    rw [Code.prefix_suffix_iff] at h ⊢
    intro i hi
    have hother :
        ∀ place ∈ [(jump + 1) % UInt64.size, (jump + 2) % UInt64.size],
          place ≠ offset + i := by
      rintro place hplace rfl
      have houtside := hspares _ hplace
      omega
    rw [Step.run, Step.call, patchJump,
      Array.getElem?_setIfInBounds_ne (hother _ (by simp)),
      Array.getElem?_setIfInBounds_ne (hother _ (by simp))]
    exact h i hi

/-- A patch that points a jump to a target leaves the jump with that target. -/
theorem Has.run_of_target? {op : Opcode} {operands : List Nat}
    (h : a.Has offset op operands) {step : Step} {target : Nat}
    (htarget : step.target? offset op = some target) :
    (step.run a).Has offset op [target] := by
  cases step with
  | patchJump jump given =>
    rw [Step.target?, Option.ite_none_right_eq_some] at htarget
    obtain ⟨⟨rfl, hword, hop⟩, hgiven⟩ := htarget
    obtain rfl := Option.some.inj hgiven
    have hwidths : op.widths = [2] := by rcases hop with rfl | rfl <;> rfl
    have hfull := h.full
    rw [hwidths] at hfull
    obtain ⟨x, rfl⟩ := List.length_eq_one_iff.1 hfull
    have hencode :
        ∀ x,
          op.encode [x] = [op.byte, UInt8.ofNat (x / 256), UInt8.ofNat x] := by
      intro x
      rw [Opcode.encode_eq, hwidths]
      rfl
    have hbytes := h.bytes
    rw [hencode, Code.cons_prefix_suffix_iff, Code.cons_prefix_suffix_iff,
      Code.cons_prefix_suffix_iff] at hbytes
    obtain ⟨hfirst, hsecond, hthird, -⟩ := hbytes
    have hsize := (Array.getElem?_eq_some_iff.1 hthird).1
    refine ⟨by rw [hwidths]; rfl, ?_⟩
    rw [hencode, Code.cons_prefix_suffix_iff, Code.cons_prefix_suffix_iff,
      Code.cons_prefix_suffix_iff, Step.run, Step.call, patchJump]
    dsimp only
    rw [Nat.mod_eq_of_lt hword, Nat.mod_eq_of_lt (Nat.lt_of_succ_lt hword)]
    refine ⟨?_, ?_, ?_, List.nil_prefix⟩
    · rw [Array.getElem?_setIfInBounds_ne (by omega),
        Array.getElem?_setIfInBounds_ne (by omega)]
      exact hfirst
    · rw [Array.getElem?_setIfInBounds_ne (by omega),
        Array.getElem?_setIfInBounds_self_of_lt (Nat.lt_of_succ_lt hsize)]
    · rw [Array.getElem?_setIfInBounds_self_of_lt]
      rw [Array.size_setIfInBounds]
      exact hsize
  | _ => cases htarget

/-- A call that respects an instruction leaves it with the operands given
last. -/
theorem Has.run {op : Opcode} {operands : List Nat}
    (h : a.Has offset op operands) {step : Step}
    (hrespects : step.Respects offset op) :
    (step.run a).Has offset op (step.operandsAfter offset op operands) := by
  rw [Step.operandsAfter]
  cases htarget : step.target? offset op with
  | some target => exact h.run_of_target? htarget
  | none =>
    refine ⟨h.full, prefix_suffix_run h.bytes ?_⟩
    rw [← op.encode_cut, Opcode.length_encode (Opcode.fits_cut h.full)]
    exact hrespects.resolve_right (by rw [htarget]; decide)

theorem Has.after {op : Opcode} {operands : List Nat}
    (h : a.Has offset op operands) {later : List Step}
    (hlater : ∀ step ∈ later, step.Respects offset op) :
    (a.after later).Has offset op (operandsAfter offset op operands later) := by
  induction later generalizing a operands with
  | nil => exact h
  | cons step later ih =>
    obtain ⟨hstep, hlater⟩ := List.forall_mem_cons.1 hlater
    exact ih (h.run hstep) hlater

end Assembler

end Isolate
