import Isolate.Proofs.Code.Boundary
import Isolate.Proofs.Context.Queries
import Isolate.Proofs.Machine.Layout

/-!
# What the parts of an instruction keep

Every action that instructions are made of keeps the invariant of a running
context, whether it succeeds or fails.  Where its operands name things that
exist, its failure is none of those that come from reading past the tables of a
prototype.
-/

namespace Isolate

/-! ## Operators -/

/-- The failures of operators. -/
def RuntimeError.Inapplicable : RuntimeError → Prop
  | .arithmetic .. | .compare .. => True
  | _ => False

/-- The result of an operator refers to nothing, and its failure is that the
operands do not go with it. -/
def Operates : Except RuntimeError Value → Prop
  | .ok value => value.handle? = none
  | .error e => e.Inapplicable

theorem operates_arithmetic (op : Arithmetic)
    (onIntegers : Option (Int64 → Int64 → Int64))
    (onFloats : Binary64 → Binary64 → Binary64) (left right : Value) :
    Operates (Value.arithmetic op onIntegers onFloats left right) := by
  simp only [Value.arithmetic]
  split
  · rfl
  · split
    · rfl
    · trivial

theorem operates_concat (left right : Value) :
    Operates (Value.concat left right) := by
  simp only [Value.concat]
  split
  · rfl
  · trivial

theorem operates_negate (operand : Value) : Operates operand.negate := by
  cases operand <;> first | rfl | trivial

theorem operates_lessThan (left right : Value) :
    Operates ((left.lessThan right).map Value.boolean) := by
  simp only [Value.lessThan]
  split
  · rfl
  · rfl
  · split
    · rfl
    · trivial

/-! ## Failures of unchecked code -/

/-- The failures of code that reads past the tables of its prototype. -/
def RuntimeError.Overreaches : RuntimeError → Prop
  | .load _ | .noSuchUpvalue _ | .codeOverrun _ => True
  | _ => False

theorem RuntimeError.Missed.not_overreaches {e : RuntimeError} (h : e.Missed) :
    ¬e.Overreaches := by
  cases e with
  | load => exact h.elim
  | noSuchUpvalue => exact h.elim
  | codeOverrun => exact h.elim
  | _ => exact id

theorem RuntimeError.Inapplicable.not_overreaches {e : RuntimeError}
    (h : e.Inapplicable) : ¬e.Overreaches := by
  cases e with
  | arithmetic => exact id
  | compare => exact id
  | _ => exact h.elim

theorem Operates.not_overreaches {result : Except RuntimeError Value}
    {e : RuntimeError} (h : Operates result) (herror : result = .error e) :
    ¬e.Overreaches := by
  rw [herror] at h
  exact RuntimeError.Inapplicable.not_overreaches h

namespace Machine

open Context

variable {good : Prototype → Prop} {frames : List Frame} {frame : Frame}
  {outer : List Frame} {ctx : Context} {clean : Prop} {α : Type}

/-- A failure that keeps the invariant.  It does not come from overreaching if
the code was clean. -/
structure Fails (good : Prototype → Prop) (frames : List Frame) (clean : Prop)
    (error : RuntimeError) (ctx : Context) : Prop where
  within : clean → ¬error.Overreaches
  runs : ctx.Runs good frames

theorem Fails.of_not {error : RuntimeError} (h : ctx.Runs good frames)
    (herror : ¬error.Overreaches) : Fails good frames clean error ctx :=
  ⟨fun _ => herror, h⟩

/-! ## Heap access -/

/-- A query keeps everything. -/
theorem ends_query_of {f : Context → Except RuntimeError α}
    (h : ctx.Runs good frames) (hf : ∀ e, f ctx = .error e → ¬e.Overreaches) :
    Ends (query f ctx) (fun a c => f ctx = .ok a ∧ c = ctx)
      (Fails good frames clean) :=
  ends_query.2 ⟨fun _ ha => ⟨ha, rfl⟩, fun e he => .of_not h (hf e he)⟩

theorem ends_storeKey (h : ctx.Runs good frames) (handle : Handle) (key : Key)
    (value : Value) :
    Ends (storeKey handle key value ctx) (fun _ c => c.Runs good frames)
      (Fails good frames clean) := by
  refine (ends_query_of h fun e he =>
    (missed_of_objectAs he).not_overreaches).bind fun table c hc => ?_
  rw [ends_modify, hc.2]
  refine h.withHeap (h.closures.update fun object closure hobject => ?_)
  split at hobject
  · cases hobject
  · exact hobject

theorem ends_bindKey (h : ctx.Runs good frames) (handle : Handle)
    (key value : Value) :
    Ends (bindKey handle key value ctx) (fun _ c => c.Runs good frames)
      (Fails good frames clean) := by
  simp only [bindKey]
  cases key.key? with
  | some key => exact ends_storeKey h handle key value
  | none => exact .of_not h id

theorem ends_storeCell (h : ctx.Runs good frames) (handle : Handle)
    (value : Value) :
    Ends (storeCell handle value ctx) (fun _ c => c.Runs good frames)
      (Fails good frames clean) := by
  refine (ends_query_of h fun e he =>
    (missed_of_cellOf he).not_overreaches).bind fun old c hc => ?_
  rw [ends_modify, hc.2]
  exact h.withHeap
    (h.closures.update fun object closure hobject => nomatch hobject)

theorem ends_allocate (h : ctx.Runs good frames) (object : Object)
    (hobject : ∀ closure, object = .closure closure →
      Runnable good closure.proto closure.cells)
    {onError : RuntimeError → Context → Prop} :
    Ends (allocate object ctx) (fun _ c =>
      c.Runs good frames ∧ c.stack = ctx.stack) onError :=
  ⟨h.withHeap (h.closures.allocate hobject), rfl⟩

theorem ends_collectIfDue (h : ctx.Runs good frames)
    {onError : RuntimeError → Context → Prop} :
    Ends (collectIfDue ctx)
      (fun _ c =>
        c.Runs good frames ∧ c.stack = ctx.stack ∧ c.settings = ctx.settings)
      onError := by
  simp only [collectIfDue]
  rw [ends_bind, ends_get]
  split
  · exact ⟨(h.withHeap h.closures.collect).note _, rfl, rfl⟩
  · exact ⟨h, rfl, rfl⟩

/-! ## The innermost frame -/

theorem innermost_of_back? (hback : ctx.frames.back? = some frame) :
    innermost ctx = .ok frame ctx := by
  have hget : (get : Action Context) ctx = .ok ctx ctx := rfl
  rw [innermost, bind_of_ok hget, hback]
  rfl

theorem innermost_eq (h : ctx.Runs good (frame :: outer)) :
    innermost ctx = .ok frame ctx :=
  innermost_of_back? h.back?

theorem ends_innermost (h : ctx.Runs good (frame :: outer))
    {onError : RuntimeError → Context → Prop} :
    Ends (innermost ctx) (fun found c => found = frame ∧ c = ctx) onError := by
  rw [innermost_eq h]
  exact ⟨rfl, rfl⟩

theorem ends_moveTo (h : ctx.Runs good (frame :: outer)) (offset : Nat)
    {onError : RuntimeError → Context → Prop} :
    Ends (moveTo offset ctx)
      (fun _ c =>
        c.Runs good ({ frame with ip := offset } :: outer) ∧
            c.stack = ctx.stack)
      onError :=
  ⟨h.moved offset, rfl⟩

theorem ends_push (h : ctx.Runs good frames) (value : Value)
    {onError : RuntimeError → Context → Prop} :
    Ends (push value ctx)
      (fun _ c =>
        c.Runs good frames ∧ c.stack.size = ctx.stack.size + 1) onError := by
  refine ⟨h.withStack ?_, Array.size_push value⟩
  rw [Array.size_push]
  exact Nat.le_succ_of_le h.floor_le

theorem ends_putOperand (h : ctx.Runs good frames) (value : Value) :
    Ends (putOperand value ctx)
      (fun _ c => c.Runs good frames ∧ c.stack.size = ctx.stack.size + 1)
      (fun e c => ¬e.Overreaches ∧ c = ctx) := by
  simp only [putOperand]
  rw [ends_bind, ends_get]
  split
  · exact ⟨id, rfl⟩
  · exact ends_push h value

theorem ends_putOperand_last (h : ctx.Runs good frames) (value : Value) :
    Ends (putOperand value ctx) (fun _ c => c.Runs good frames)
      (Fails good frames clean) := by
  refine (ends_putOperand h value).mono (fun _ c hc => hc.1) fun e c hc => ?_
  rw [hc.2]
  exact .of_not h hc.1

/-- An operand is taken from the top of the stack, above the locals. -/
theorem ends_takeOperand (h : ctx.Runs good (frame :: outer)) :
    Ends (takeOperand ctx)
      (fun value c =>
        c.Runs good (frame :: outer) ∧ ctx.stack.back? = some value)
      (Fails good (frame :: outer) clean) := by
  refine (ends_innermost h).bind fun found c hc => ?_
  rw [hc.1, hc.2, ends_bind, ends_get]
  split
  · exact .of_not h id
  · next hheight =>
    simp only [popTop]
    cases hback : ctx.stack.back? with
    | none => exact .of_not h id
    | some value =>
      refine ⟨h.withStack ?_, rfl⟩
      rw [Array.size_pop]
      exact Nat.le_sub_one_of_lt (Nat.lt_of_not_le hheight)

theorem ends_slotOfLocal (h : ctx.Runs good (frame :: outer)) (index : Nat) :
    Ends (slotOfLocal index ctx) (fun _ c => c = ctx)
      (Fails good (frame :: outer) clean) := by
  refine (ends_innermost h).bind fun found c hc => ?_
  rw [hc.1, hc.2, ends_bind, ends_get]
  split
  · exact .of_not h id
  · rfl

/-- A local that the prototype has is on the stack. -/
theorem slotOfLocal_eq (h : ctx.Runs good (frame :: outer)) {index : Nat}
    (hindex : index < frame.proto.numLocals.toNat) :
    slotOfLocal index ctx = .ok (frame.base + index) ctx := by
  have hlocals : frame.base + frame.proto.numLocals.toNat ≤ ctx.stack.size :=
    h.layout.2.1
  have hslot :
      ¬(frame.localsEnd ≤ frame.base + index ∨
        ctx.stack.size ≤ frame.base + index) := by
    simp only [Frame.localsEnd]
    omega
  change EStateM.bind innermost _ ctx = _
  simp only [EStateM.bind]
  rw [innermost_eq h]
  change (if frame.localsEnd ≤ frame.base + index ∨
      ctx.stack.size ≤ frame.base + index then
    (throw .stackUnderflow : Action Nat) else pure (frame.base + index)) ctx = _
  rw [if_neg hslot]
  rfl

theorem ends_cellOfUpvalue (h : ctx.Runs good (frame :: outer)) {index : Nat}
    (hindex : clean → index < frame.proto.upvalues.size) :
    Ends (cellOfUpvalue index ctx) (fun _ c => c = ctx)
      (Fails good (frame :: outer) clean) := by
  refine (ends_innermost h).bind fun found c hc => ?_
  rw [hc.1, hc.2]
  cases hcell : frame.cells[index]? with
  | some cell => rfl
  | none =>
    refine ⟨fun hclean => ?_, h⟩
    have hcells := (h.runnable frame List.mem_cons_self).cells
    have hindex := hindex hclean
    rw [Array.getElem?_eq_none_iff] at hcell
    omega

/-! ## Reading the code -/

theorem ends_byteOperand (h : ctx.Runs good frames) {proto : Prototype}
    {offset : Nat} (hread : clean → (proto.code.byteAt? offset).isSome) :
    Ends (byteOperand proto offset ctx)
      (fun operand c => proto.code.byteAt? offset = some operand ∧ c = ctx)
      (Fails good frames clean) := by
  simp only [byteOperand]
  cases hoperand : proto.code.byteAt? offset with
  | some operand => exact ⟨rfl, rfl⟩
  | none =>
    refine ⟨fun hclean => ?_, h⟩
    rw [hoperand] at hread
    cases hread hclean

theorem ends_pairOperand (h : ctx.Runs good frames) {proto : Prototype}
    {offset : Nat} (hread : clean → (proto.code.pairAt? offset).isSome) :
    Ends (pairOperand proto offset ctx)
      (fun operand c => proto.code.pairAt? offset = some operand ∧ c = ctx)
      (Fails good frames clean) := by
  simp only [pairOperand]
  cases hoperand : proto.code.pairAt? offset with
  | some operand => exact ⟨rfl, rfl⟩
  | none =>
    refine ⟨fun hclean => ?_, h⟩
    rw [hoperand] at hread
    cases hread hclean

theorem ends_literal (h : ctx.Runs good frames) {proto : Prototype}
    {index offset : Nat} (hindex : clean → index < proto.constants.size) :
    Ends (literal proto index offset ctx) (fun _ c => c = ctx)
      (Fails good frames clean) := by
  simp only [literal]
  cases hconstant : proto.constants[index]? with
  | some constant => rfl
  | none =>
    refine ⟨fun hclean => ?_, h⟩
    have hindex := hindex hclean
    rw [Array.getElem?_eq_none_iff] at hconstant
    omega

/-! ## Tables and operators -/

theorem ends_indexed (h : ctx.Runs good frames) (target key : Value) :
    Ends (indexed target key ctx) (fun _ c => c = ctx)
      (Fails good frames clean) := by
  simp only [indexed]
  split
  · exact (ends_query_of h fun e he =>
      (missed_of_lookupKey he).not_overreaches).mono
      (fun _ _ hc => hc.2) fun _ _ hc => hc
  · exact .of_not h id

theorem ends_assign (h : ctx.Runs good frames) (target key value : Value) :
    Ends (assign target key value ctx) (fun _ c => c.Runs good frames)
      (Fails good frames clean) := by
  simp only [assign]
  split
  · exact ends_bindKey h _ key value
  · exact .of_not h id

theorem ends_unary (h : ctx.Runs good (frame :: outer))
    {f : Value → Except RuntimeError Value}
    (hf : ∀ operand, Operates (f operand)) :
    Ends (unary f ctx) (fun _ c => c.Runs good (frame :: outer))
      (Fails good (frame :: outer) clean) := by
  refine (ends_takeOperand h).bind fun operand c hc => ?_
  refine (ends_query_of hc.1 fun e => (hf operand).not_overreaches).bind
    fun result c' hc' => ?_
  exact ends_putOperand_last (hc'.2 ▸ hc.1) result

theorem ends_binary (h : ctx.Runs good (frame :: outer))
    {f : Value → Value → Except RuntimeError Value}
    (hf : ∀ left right, Operates (f left right)) :
    Ends (binary f ctx) (fun _ c => c.Runs good (frame :: outer))
      (Fails good (frame :: outer) clean) := by
  refine (ends_takeOperand h).bind fun right c hc => ?_
  refine (ends_takeOperand hc.1).bind fun left c' hc' => ?_
  refine (ends_query_of hc'.1 fun e => (hf left right).not_overreaches).bind
    fun result c'' hc'' => ?_
  exact ends_putOperand_last (hc''.2 ▸ hc'.1) result

end Machine

end Isolate
