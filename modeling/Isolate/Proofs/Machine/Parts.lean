import Isolate.Machine.Step
import Isolate.Proofs.Outcome

/-!
# What instructions are made of

An instruction is a sequence of a few parts: it looks at the innermost frame, at
its locals and at the code, takes operands and puts them, and reads, writes and
makes objects.  A property that these parts have, and that sequences have if
their members do, is one of every instruction but those that reach further: an
assignment to a local, a new table, a call and a return.  To lead to a related
context is such a property, for every relation that the few changes respect of
which the parts consist.
-/

namespace Isolate

/-- That a chunk was read and accepted. -/
def Notice.isLoad : Notice → Bool
  | chunkLoaded .. => true
  | _ => false

namespace Machine

open Context

/-- A property that the parts of instructions have, and that sequences have if
their members do.  Of the innermost frame it is known that it is running; of the
context no more is looked at than what a part says. -/
structure Parts (running : Frame → Prop)
    (holds : ∀ α : Type, Action α → Prop) : Prop where
  pure : ∀ {α : Type} (a : α), holds α (Pure.pure a)
  throw : ∀ {α : Type} (e : RuntimeError), holds α (MonadExcept.throw e)
  query : ∀ {α : Type} (f : Context → Except RuntimeError α),
    (∀ c d : Context, c.heap = d.heap → f c = f d) → holds α (Context.query f)
  bind : ∀ {α β : Type} {x : Action α} {f : α → Action β}, holds α x →
    (∀ a, holds β (f a)) → holds β (x >>= f)
  innermost : ∀ {α : Type} {f : Frame → Action α},
    (∀ frame, running frame → holds α (f frame)) → holds α (innermost >>= f)
  height : ∀ {α : Type} {f : Nat → Action α}, (∀ height, holds α (f height)) →
    holds α (get >>= fun ctx => f ctx.stack.size)
  inFrame : ∀ {α : Type} {frame : Frame}, running frame → ∀ (index : Nat)
    {f : Value → Action α}, (∀ value, holds α (f value)) →
      holds α (get >>= fun ctx => f (ctx.stack.getD (frame.base + index) .nil))
  moveTo : ∀ offset, holds Unit (moveTo offset)
  putOperand : ∀ value, holds Unit (putOperand value)
  takeOperand : holds Value takeOperand
  storeCell : ∀ handle value, holds Unit (storeCell handle value)
  storeKey : ∀ handle key value, holds Unit (storeKey handle key value)
  allocate : ∀ object, holds Handle (allocate object)
  collectIfDue : holds Unit collectIfDue
  report : ∀ proto offset op, holds Unit (report proto offset op)

/-! ## What only depends on the heap -/

theorem tableOf_congr {c d : Context} (h : c.heap = d.heap) (handle : Handle) :
    c.tableOf handle = d.tableOf handle := by
  simp only [tableOf, objectAs, h]

theorem closureOf_congr {c d : Context} (h : c.heap = d.heap)
    (handle : Handle) : c.closureOf handle = d.closureOf handle := by
  simp only [closureOf, objectAs, h]

theorem cellOf_congr {c d : Context} (h : c.heap = d.heap) (handle : Handle) :
    c.cellOf handle = d.cellOf handle := by
  simp only [cellOf, h]

theorem lookupKey_congr {c d : Context} (h : c.heap = d.heap) (handle : Handle)
    (key : Value) : c.lookupKey handle key = d.lookupKey handle key := by
  simp only [lookupKey, tableOf_congr h]

theorem lengthOf_congr {c d : Context} (h : c.heap = d.heap) (value : Value) :
    c.lengthOf value = d.lengthOf value := by
  cases value with
  | table handle => simp only [lengthOf, tableOf_congr h]
  | _ => rfl

namespace Parts

variable {running : Frame → Prop} {holds : ∀ α : Type, Action α → Prop}
  (h : Parts running holds) {natives : Natives} {callBack : CallBack}
include h

theorem slotOfLocal (index : Nat) : holds Nat (slotOfLocal index) := by
  refine h.innermost fun frame _ => ?_
  refine h.height (f := fun height =>
    if frame.localsEnd ≤ frame.base + index ∨ height ≤ frame.base + index then
      MonadExcept.throw .stackUnderflow
    else Pure.pure (frame.base + index)) fun height => ?_
  split
  · exact h.throw _
  · exact h.pure _

/-- A local is found among the slots of its frame. -/
theorem getLocal (index : Nat) : holds Unit (do
    let slot ← Machine.slotOfLocal index
    Machine.putOperand ((← get).stack.getD slot .nil)) := by
  simp only [Machine.slotOfLocal, bind_assoc]
  refine h.innermost fun frame hframe => ?_
  refine h.height (f := fun height =>
    (if frame.localsEnd ≤ frame.base + index ∨ height ≤ frame.base + index then
        MonadExcept.throw .stackUnderflow
      else Pure.pure (frame.base + index) : Action Nat) >>= fun slot => do
        Machine.putOperand ((← get).stack.getD slot .nil)) fun height => ?_
  split
  · exact h.throw .stackUnderflow
  · rw [pure_bind]
    exact h.inFrame hframe index h.putOperand

theorem cellOfUpvalue (index : Nat) : holds Handle (cellOfUpvalue index) := by
  refine h.innermost fun frame _ => ?_
  cases frame.cells[index]? with
  | none => exact h.throw _
  | some cell => exact h.pure _

theorem byteOperand (proto : Prototype) (offset : Nat) :
    holds Nat (byteOperand proto offset) := by
  simp only [Machine.byteOperand]
  cases proto.code.byteAt? offset with
  | none => exact h.throw _
  | some operand => exact h.pure _

theorem pairOperand (proto : Prototype) (offset : Nat) :
    holds Nat (pairOperand proto offset) := by
  simp only [Machine.pairOperand]
  cases proto.code.pairAt? offset with
  | none => exact h.throw _
  | some operand => exact h.pure _

theorem literal (proto : Prototype) (index offset : Nat) :
    holds Value (literal proto index offset) := by
  simp only [Machine.literal]
  cases proto.constants[index]? with
  | none => exact h.throw _
  | some constant => exact h.pure _

theorem indexed (target key : Value) : holds Value (indexed target key) := by
  cases target with
  | table handle =>
    exact h.query _ fun _ _ heap => lookupKey_congr heap handle key
  | _ => exact h.throw _

theorem assign (target key value : Value) :
    holds Unit (assign target key value) := by
  cases target with
  | table handle =>
    simp only [Machine.assign, bindKey]
    cases key.key? with
    | none => exact h.throw _
    | some key => exact h.storeKey handle key value
  | _ => exact h.throw _

theorem unary (f : Value → Except RuntimeError Value) : holds Unit (unary f) :=
  h.bind h.takeOperand fun _ => h.bind (h.query _ fun _ _ _ => rfl) h.putOperand

theorem binary (f : Value → Value → Except RuntimeError Value) :
    holds Unit (binary f) :=
  h.bind h.takeOperand fun _ => h.bind h.takeOperand fun _ =>
    h.bind (h.query _ fun _ _ _ => rfl) h.putOperand

theorem captureCells {frame : Frame} (hframe : running frame)
    (upvalues : List Upvalue) :
    holds (List Handle) (captureCells frame upvalues) := by
  induction upvalues with
  | nil => exact h.pure _
  | cons upvalue rest ih =>
    have hrest : ∀ cell : Handle, holds (List Handle) (do
        let others ← Machine.captureCells frame rest
        Pure.pure (cell :: others)) := fun cell => h.bind ih fun _ => h.pure _
    simp only [Machine.captureCells]
    cases upvalue.capture with
    | ofLocal slot =>
      exact h.inFrame hframe slot.toNat fun _ => h.bind (h.allocate _) hrest
    | ofEnclosing slot =>
      dsimp only
      cases frame.cells[slot.toNat]? with
      | none => exact h.bind (h.throw _) hrest
      | some cell => exact h.bind (h.pure _) hrest

theorem instantiate (proto : Prototype) (index : Nat) :
    holds Unit (instantiate proto index) := by
  simp only [Machine.instantiate]
  cases proto.protos[index]? with
  | none => exact h.throw _
  | some child =>
    exact h.bind h.collectIfDue fun _ => h.innermost fun frame hframe =>
      h.bind (h.captureCells hframe _) fun _ =>
        h.bind (h.allocate _) fun _ => h.putOperand _

/-- The instructions that reach no further than their parts. -/
theorem execute (proto : Prototype) (offset : Nat) {op : Opcode}
    (hfurther : op ∉ [Opcode.setLocal, .newTable, .call, .ret]) :
    holds Unit (execute natives callBack proto offset op) := by
  cases op with
  | constant =>
    exact h.bind (h.pairOperand proto _) fun _ =>
      h.bind (h.literal proto _ _) h.putOperand
  | loadNil => exact h.putOperand _
  | loadTrue => exact h.putOperand _
  | loadFalse => exact h.putOperand _
  | pop => exact h.bind h.takeOperand fun _ => h.pure _
  | getLocal =>
    exact h.bind (h.byteOperand proto _) h.getLocal
  | setLocal => exact absurd (by decide) hfurther
  | getUpvalue =>
    exact h.bind (h.byteOperand proto _) fun _ =>
      h.bind (h.cellOfUpvalue _) fun _ =>
        h.bind (h.query _ fun _ _ heap => cellOf_congr heap _) h.putOperand
  | setUpvalue =>
    exact h.bind (h.byteOperand proto _) fun _ =>
      h.bind (h.cellOfUpvalue _) fun cell =>
        h.bind h.takeOperand (h.storeCell cell)
  | getTabUp =>
    exact h.bind (h.byteOperand proto _) fun _ =>
      h.bind (h.pairOperand proto _) fun _ =>
        h.bind (h.literal proto _ _) fun key =>
          h.bind (h.cellOfUpvalue _) fun _ =>
            h.bind (h.query _ fun _ _ heap => cellOf_congr heap _) fun target =>
              h.bind (h.indexed target key) h.putOperand
  | setTabUp =>
    exact h.bind (h.byteOperand proto _) fun _ =>
      h.bind (h.pairOperand proto _) fun _ =>
        h.bind (h.literal proto _ _) fun key =>
          h.bind (h.cellOfUpvalue _) fun _ =>
            h.bind h.takeOperand fun value =>
              h.bind (h.query _ fun _ _ heap => cellOf_congr heap _)
                fun target =>
                  h.assign target key value
  | newTable => exact absurd (by decide) hfurther
  | getIndex =>
    exact h.bind h.takeOperand fun key => h.bind h.takeOperand fun target =>
      h.bind (h.indexed target key) h.putOperand
  | setIndex =>
    exact h.bind h.takeOperand fun value => h.bind h.takeOperand fun key =>
      h.bind h.takeOperand fun target => h.assign target key value
  | add => exact h.binary _
  | sub => exact h.binary _
  | mul => exact h.binary _
  | div => exact h.binary _
  | concat => exact h.binary _
  | minus => exact h.unary _
  | not => exact h.unary _
  | equal => exact h.binary _
  | lessThan => exact h.binary _
  | len =>
    exact h.bind h.takeOperand fun operand =>
      h.bind (h.query _ fun _ _ heap => lengthOf_congr heap operand)
        fun _ => h.putOperand _
  | jump => exact h.bind (h.pairOperand proto _) h.moveTo
  | jumpIfFalse =>
    refine h.bind h.takeOperand fun condition => ?_
    split
    · exact h.pure _
    · exact h.bind (h.pairOperand proto _) h.moveTo
  | call => exact absurd (by decide) hfurther
  | ret => exact absurd (by decide) hfurther
  | closure => exact h.bind (h.pairOperand proto _) (h.instantiate proto)

end Parts

/-! ## Related contexts -/

/-- An action that leads from a context to one that is related to it, or
fails in one that is. -/
def Leads {α : Type} (related failed : Context → Context → Prop)
    (action : Action α) : Prop :=
  ∀ ctx, Ends (action ctx) (fun _ c => related ctx c) fun _ c => failed ctx c

/-- Relations to the contexts that actions lead to and fail in, which the
changes respect that parts of instructions make. -/
structure Respected (related failed : Context → Context → Prop) : Prop where
  refl : ∀ ctx, related ctx ctx
  trans : ∀ {ctx c d : Context}, related ctx c → related c d → related ctx d
  fails : ∀ ctx, failed ctx ctx
  failsAfter : ∀ {ctx c d : Context}, related ctx c → failed c d → failed ctx d
  moved : ∀ (ctx : Context) (offset : Nat), related ctx
    { ctx with
      frames := ctx.frames.modify (ctx.frames.size - 1)
        ({ · with ip := offset }) }
  pushed : ∀ (ctx : Context) (value : Value),
    ctx.stack.size < ctx.settings.maxStack →
    related ctx { ctx with stack := ctx.stack.push value }
  popped : ∀ ctx : Context, related ctx { ctx with stack := ctx.stack.pop }
  withHeap : ∀ (ctx : Context) (heap : Heap), related ctx { ctx with heap }
  noted : ∀ (ctx : Context) {notice : Notice}, notice.isLoad = false →
    related ctx (ctx.note notice)

namespace Respected

variable {related failed : Context → Context → Prop}
  (h : Respected related failed) {α β : Type} {x : Action α} {f : α → Action β}
include h

theorem bind (hx : Leads related failed x)
    (hf : ∀ a, Leads related failed (f a)) :
    Leads related failed (x >>= f) := by
  intro ctx
  refine (hx ctx).bind fun a c hc => ?_
  exact (hf a c).mono (fun _ _ hd => h.trans hc hd)
    fun _ _ hd => h.failsAfter hc hd

theorem pure (a : α) : Leads related failed (Pure.pure a) := h.refl

theorem get : Leads related failed MonadState.get := h.refl

theorem throw (e : RuntimeError) :
    Leads related failed (MonadExcept.throw e : Action α) := h.fails

theorem query (f : Context → Except RuntimeError α) :
    Leads related failed (query f) :=
  fun ctx => ends_query.2 ⟨fun _ _ => h.refl ctx, fun _ _ => h.fails ctx⟩

theorem innermost : Leads related failed innermost := by
  refine h.bind h.get fun ctx => ?_
  cases ctx.frames.back? with
  | none => exact h.throw _
  | some frame => exact h.pure frame

/-- An operand is put only below the limit. -/
theorem putOperand (value : Value) :
    Leads related failed (putOperand value) := by
  intro ctx
  rw [Machine.putOperand, ends_bind, ends_get]
  split
  · exact h.fails ctx
  · next hroom => exact h.pushed ctx value (Nat.lt_of_not_le hroom)

theorem popTop : Leads related failed popTop := by
  intro ctx
  simp only [Context.popTop]
  cases ctx.stack.back? with
  | none => exact h.fails ctx
  | some value => exact h.popped ctx

theorem takeOperand : Leads related failed takeOperand := by
  refine h.bind h.innermost fun frame => h.bind h.get fun ctx => ?_
  split
  · exact h.throw _
  · exact h.popTop

theorem collectIfDue : Leads related failed collectIfDue := by
  refine h.bind h.get fun ctx => ?_
  split
  · exact fun ctx => h.trans (h.withHeap ctx _) (h.noted _ rfl)
  · exact h.pure _

theorem report (proto : Prototype) (offset : Nat) (op : Opcode) :
    Leads related failed (report proto offset op) := by
  refine h.bind h.get fun ctx => ?_
  split
  · cases proto.code.operandsAt? (offset + 1) op.widths with
    | none => exact h.throw _
    | some operands => exact fun ctx => h.noted ctx rfl
  · exact h.pure _

theorem parts :
    Parts (fun _ => True) fun _ action => Leads related failed action where
  pure := h.pure
  throw := h.throw
  query := fun f _ => h.query f
  bind := h.bind
  innermost := fun hf => h.bind h.innermost fun frame => hf frame trivial
  height := fun hf => h.bind h.get fun _ => hf _
  inFrame := fun _ _ _ hf => h.bind h.get fun _ => hf _
  moveTo := fun offset ctx => h.moved ctx offset
  putOperand := h.putOperand
  takeOperand := h.takeOperand
  storeCell := fun _ _ => h.bind (h.query _) fun _ ctx => h.withHeap ctx _
  storeKey := fun _ _ _ => h.bind (h.query _) fun _ ctx => h.withHeap ctx _
  allocate := fun _ ctx => h.withHeap ctx _
  collectIfDue := h.collectIfDue
  report := h.report

end Respected

end Machine

end Isolate
