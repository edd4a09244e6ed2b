import Isolate.Proofs.Chunk.Acceptance
import Isolate.Proofs.Code.Assembly

/-!
# What operands of assembled code name

A call that puts something into a prototype gives a number for it, and that
number is given as an operand later.  Slots of upvalues are cut to a byte when
they are given back, and every operand is cut to its width when it is encoded,
so an operand names what it was made for exactly while the place of that is
within the width.
-/

namespace Isolate

/-- The width in which operands of a kind are encoded. -/
def OperandKind.width : OperandKind → Nat
  | .constant | .nested | .target => 2
  | .slot | .upvalue | .count => 1

/-- The number that is given back for a place. -/
def OperandKind.answer : OperandKind → Nat → Nat
  | .upvalue, place => place % 256
  | _, place => place

theorem Opcode.widths_eq_map_kinds (op : Opcode) :
    op.widths = op.kinds.map OperandKind.width := by
  cases op <;> rfl

theorem OperandKind.answer_mod (kind : OperandKind) (place : Nat) :
    kind.answer place % 256 ^ kind.width = place % 256 ^ kind.width := by
  cases kind with
  | upvalue => exact Nat.mod_mod place 256
  | _ => rfl

/-- An operand is cut to the width of its kind. -/
theorem Opcode.getElem?_cut {op : Opcode} {operands : List Nat} {p x : Nat}
    {kind : OperandKind} (hkind : op.kinds[p]? = some kind)
    (hx : operands[p]? = some x) :
    (op.cut operands)[p]? = some (x % 256 ^ kind.width) := by
  rw [cut, List.getElem?_zipWith, widths_eq_map_kinds,
    List.getElem?_map, hkind, hx]
  rfl

/-- What a call was given is at its place. -/
def Prototype.Keeps (proto : Prototype) (place : Nat) : Assembler.Step → Prop
  | .upvalue name capture =>
    proto.upvalues[place]? = some { name := some name, capture }
  | .constant literal => proto.constants[place]? = some literal
  | .string text => proto.constants[place]? = some (.string text)
  | .child inner => proto.protos[place]? = some inner
  | _ => place ≤ proto.code.size

namespace Assembler

variable {a b start : Assembler} {steps : List Step} {made : Step}
  {kind : OperandKind} {place answer : Nat}

/-- Where a call puts what it is given: the next place of its kind, but for a
literal the place where it is interned.  An emission and a question for the
offset mark the end of the code. -/
def Step.placement (a : Assembler) : Step → Option (OperandKind × Nat)
  | .upvalue _ _ => some (.upvalue, a.upvalues.size)
  | .constant literal => some (.constant, (a.constant literal).1)
  | .string text => some (.constant, (a.string text).1)
  | .child _ => some (.nested, a.protos.length)
  | .emit _ _ | .offset => some (.target, a.code.size)
  | .params _ | .locals _ | .line _ | .patchJump _ _ => none

/-- A call of the sequence puts something at a place and gives a number for
it. -/
def Gives (start : Assembler) (steps : List Step) (made : Step)
    (kind : OperandKind) (place answer : Nat) : Prop :=
  ∃ before later, steps = before ++ made :: later ∧
    made.placement (start.after before) = some (kind, place) ∧
    made.answer (start.after before) = some answer

theorem Step.answer_of_placement (h : made.placement a = some (kind, place)) :
    made.answer a = some (kind.answer place) := by
  cases made with
  | upvalue | constant | string | child | emit | offset =>
    obtain ⟨rfl, rfl⟩ := Prod.mk.inj (Option.some.inj h)
    rfl
  | params | locals | line | patchJump => cases h

theorem keeps_constant (a : Assembler) (literal : Constant) :
    (a.constant literal).2.constants[(a.constant literal).1]? =
      some literal := by
  rcases a.constant_cases literal with ⟨hplace, h⟩ | ⟨-, hplace, h⟩
  · rw [h]
    exact hplace
  · rw [h, hplace]
    exact Array.getElem?_push_size

theorem Step.keeps_of_placement (h : made.placement a = some (kind, place)) :
    (made.run a).build.Keeps place made := by
  cases made with
  | upvalue name capture =>
    obtain ⟨rfl, rfl⟩ := Prod.mk.inj (Option.some.inj h)
    exact Array.getElem?_push_size
  | constant literal =>
    obtain ⟨rfl, rfl⟩ := Prod.mk.inj (Option.some.inj h)
    exact a.keeps_constant literal
  | string text =>
    obtain ⟨rfl, rfl⟩ := Prod.mk.inj (Option.some.inj h)
    exact a.keeps_constant (.string text)
  | child proto =>
    obtain ⟨rfl, rfl⟩ := Prod.mk.inj (Option.some.inj h)
    exact List.getElem?_concat_length
  | emit | offset =>
    obtain ⟨rfl, rfl⟩ := Prod.mk.inj (Option.some.inj h)
    exact (a.extends_run _).size
  | params | locals | line | patchJump => cases h

/-- What is at its place stays there. -/
theorem Extends.keeps (h : Extends a b) (hkeeps : a.build.Keeps place made) :
    b.build.Keeps place made := by
  have hkept : ∀ {α : Type} {xs ys : List α} {x : α}, xs <+: ys →
      xs[place]? = some x → ys[place]? = some x := by
    rintro α xs _ x ⟨others, rfl⟩ hx
    rw [List.getElem?_append_left (List.getElem?_eq_some_iff.1 hx).1]
    exact hx
  cases made with
  | upvalue name capture =>
    rw [Prototype.Keeps, ← Array.getElem?_toList] at hkeeps ⊢
    exact hkept h.upvalues hkeeps
  | constant literal =>
    rw [Prototype.Keeps, ← Array.getElem?_toList] at hkeeps ⊢
    exact hkept h.constants hkeeps
  | string text =>
    rw [Prototype.Keeps, ← Array.getElem?_toList] at hkeeps ⊢
    exact hkept h.constants hkeeps
  | child proto => exact hkept h.protos hkeeps
  | params | locals | line | emit | offset | patchJump =>
    exact Nat.le_trans hkeeps h.size

theorem Gives.keeps (h : Gives start steps made kind place answer) :
    (start.after steps).build.Keeps place made := by
  obtain ⟨before, later, rfl, hplace, -⟩ := h
  rw [after_append, after_cons]
  exact (extends_after _ later).keeps (Step.keeps_of_placement hplace)

theorem Gives.answer_eq (h : Gives start steps made kind place answer) :
    answer = kind.answer place := by
  obtain ⟨before, later, -, hplace, hanswer⟩ := h
  exact Option.some.inj (hanswer.symm.trans (Step.answer_of_placement hplace))

/-- What is collected stays at its place and no literal is collected twice.  An
instruction with all its operands decodes to the operands that it was given
last, cut to their widths, so one that was made for a place names that place
exactly when the place is within the width. -/
theorem references_faithful (hstart : start.Fresh) (steps : List Step) :
    (start.after steps).build.constants.toList.Nodup ∧
    (∀ made kind place answer, Gives start steps made kind place answer →
      (start.after steps).build.Keeps place made ∧ answer = kind.answer place) ∧
    ∀ before op operands later offset (given : List Nat),
      steps = before ++ .emit op operands :: later →
      operands.length = op.widths.length →
      offset = (start.after before).code.size →
      (∀ step ∈ later, step.Respects offset op) →
      given = operandsAfter offset op operands later →
      (start.after steps).build.code.opcodeAt? offset = some op ∧
      (start.after steps).build.code.operandsAt? (offset + 1) op.widths =
        some (op.cut given) ∧
      ∀ (p : Nat) made kind place answer,
        Gives start steps made kind place answer →
          op.kinds[p]? = some kind → given[p]? = some answer →
          (op.cut given)[p]? = some (place % 256 ^ kind.width) ∧
          ((op.cut given)[p]? = some place ↔ place < 256 ^ kind.width) := by
  refine ⟨nodup_constants_after steps hstart.nodup_constants,
    fun made kind place answer h => ⟨h.keeps, h.answer_eq⟩, ?_⟩
  rintro before op operands later offset given rfl hfull rfl hlater rfl
  have hhas := ((start.after before).has_emit hfull).after hlater
  rw [after_append, after_cons]
  obtain ⟨hop, hoperands⟩ := hhas.decodes
  refine ⟨hop, hoperands, ?_⟩
  intro p made kind place answer hgives hkind hgiven
  have hcut := Opcode.getElem?_cut hkind hgiven
  rw [hgives.answer_eq, kind.answer_mod] at hcut
  refine ⟨hcut, ?_⟩
  rw [hcut, Option.some_inj]
  exact ⟨fun h => h ▸ Nat.mod_lt place (Nat.pow_pos (by decide)),
    Nat.mod_eq_of_lt⟩

/-- A jump that is pointed over the load of a literal. -/
def patchedJump : List Step :=
  [.emit .jump [0], .string "x", .emit .constant [0], .offset, .patchJump 0 6]

theorem references_faithful_patchedJump :
    ({ name := "f" } : Assembler).Fresh ∧
      (after { name := "f" } patchedJump).build.code.operandsAt? 1
        [2] = some [6] := by
  have hlater : ∀ step ∈ patchedJump.tail, step.Respects 0 .jump := by
    simp [patchedJump, Step.Respects, Step.Spares, Step.target?]
    decide
  obtain ⟨-, -, hdecodes⟩ := references_faithful (.named "f") patchedJump
  exact ⟨.named "f", (hdecodes [] .jump [0] _ 0 [6] rfl rfl rfl hlater rfl).2.1⟩

/-- One upvalue more than there are slots, and an instruction that reads it by
the number that was given for it. -/
def lastUpvalueRead : List Step :=
  List.replicate 256 (.upvalue "outer" (.ofLocal 0)) ++
    [.upvalue "inner" (.ofLocal 1), .emit .getUpvalue [0]]

/-- The number given for the last upvalue names the first one. -/
theorem lastUpvalueRead_names_first :
    Gives { name := "f" } lastUpvalueRead (.upvalue "inner" (.ofLocal 1))
      .upvalue 256 0 ∧
      (after { name := "f" } lastUpvalueRead).build.code.opcodeAt? 0 =
        some .getUpvalue ∧
      (after { name := "f" } lastUpvalueRead).build.code.operandsAt? 1
        [1] = some [0] ∧
      ¬(after { name := "f" } lastUpvalueRead).build.Keeps 0
        (.upvalue "inner" (.ofLocal 1)) := by
  have hfirst : (after { name := "f" } lastUpvalueRead).build.upvalues[0]? =
      some { name := some "outer", capture := .ofLocal 0 } := by
    decide +kernel
  have hsize : (after { name := "f" }
      (List.replicate 256 (.upvalue "outer" (.ofLocal 0)))).upvalues.size =
      256 := by
    decide +kernel
  have hplacement :
      (Step.upvalue "inner" (.ofLocal 1)).placement (after { name := "f" }
        (List.replicate 256 (.upvalue "outer" (.ofLocal 0)))) =
          some (.upvalue, 256) := by
    rw [Step.placement, hsize]
  refine ⟨⟨List.replicate 256 (.upvalue "outer" (.ofLocal 0)), _,
    rfl, hplacement, Step.answer_of_placement hplacement⟩, ?_, ?_, ?_⟩
  · decide +kernel
  · decide +kernel
  · rw [Prototype.Keeps, hfirst]
    decide

end Assembler

end Isolate
