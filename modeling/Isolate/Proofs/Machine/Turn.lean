import Isolate.Proofs.Context.WellFormed
import Isolate.Proofs.Machine.Action

/-!
# What a turn does to the frames

A turn leaves the outer frames alone.  It moves the innermost frame to the next
instruction or to the target of a jump, puts one new frame on it, or leaves it
with its result on top of the stack.
-/

namespace Isolate

/-- A call from a native function replaces the callee and its arguments by the
result, or removes at most those. -/
def Dependable (good : Prototype → Prop) (callBack : CallBack) : Prop :=
  ∀ (frames : List Frame) (ctx : Context) (argumentCount : Nat),
    ctx.Runs good frames → stackFloor frames + argumentCount < ctx.stack.size →
      Ends (callBack argumentCount ctx)
        (fun _ c =>
          c.Runs good frames ∧ c.stack.size = ctx.stack.size - argumentCount)
        (fun _ c =>
          c.Runs good frames ∧
            ctx.stack.size - (argumentCount + 1) ≤ c.stack.size)

/-- A native function leaves the frames and the values below its arguments
alone, if the calls that it makes do.  It complains by its result, and is
stopped only for want of budget. -/
def Native.Proper (native : Native) : Prop :=
  ∀ (good : Prototype → Prop), Hereditary good →
    ∀ (callBack : CallBack), Dependable good callBack →
      ∀ (frames : List Frame) (ctx : Context) (arguments : List Value),
      ctx.Runs good frames → Ends (native callBack arguments ctx)
          (fun _ c => c.Runs good frames ∧ ctx.stack.size ≤ c.stack.size)
          (fun e c =>
            e = .budgetSpent ∧ c.Runs good frames ∧
              ctx.stack.size ≤ c.stack.size)

def Natives.Proper (natives : Natives) : Prop :=
  ∀ name native, natives name = some native → Native.Proper native

namespace Machine

open Context

variable {good : Prototype → Prop} {frames : List Frame} {frame : Frame}
  {outer : List Frame} {ctx : Context} {clean : Prop} {natives : Natives}
  {callBack : CallBack}

/-! ## Calls -/

/-- A failure that leaves the values below a slot. -/
def FailsAbove (good : Prototype → Prop) (frames : List Frame) (slot : Nat)
    (error : RuntimeError) (ctx : Context) : Prop :=
  ¬error.Overreaches ∧ ctx.Runs good frames ∧ slot ≤ ctx.stack.size

theorem ends_enterClosure (h : ctx.Runs good frames) (handle : Handle)
    {calleeSlot argumentCount : Nat} (hfloor : stackFloor frames ≤ calleeSlot)
    (hslot : calleeSlot < ctx.stack.size) :
    Ends (enterClosure handle calleeSlot argumentCount ctx)
      (fun _ c => ∃ new : Frame, new.ip = 0 ∧ new.base = calleeSlot + 1 ∧
        c.Runs good (new :: frames))
      (FailsAbove good frames calleeSlot) := by
  have hfails : ∀ e : RuntimeError, ¬e.Overreaches →
      FailsAbove good frames calleeSlot e ctx :=
    fun e he => ⟨he, h, Nat.le_of_lt hslot⟩
  rw [enterClosure]
  rw [ends_bind, ends_get]
  dsimp only
  split
  · exact hfails _ id
  · rw [ends_bind, ends_query]
    refine ⟨fun closure hclosure => ?_,
      fun e he => hfails e (missed_of_objectAs he).not_overreaches⟩
    have hrunnable : Runnable good closure.proto closure.cells :=
      h.closures handle closure (closureOf_eq_ok_iff.1 hclosure)
    split
    · exact hfails _ id
    · let new : Frame :=
        ⟨handle, closure.proto, closure.cells, 0, calleeSlot + 1⟩
      have hnew : Runnable good new.proto new.cells := hrunnable
      exact ⟨new, rfl, rfl, h.entered hnew (Nat.succ_pos _) hfloor
        (Nat.le_of_eq (size_resizeStack new.localsEnd _).symm)⟩

theorem ends_runNative (hgood : Hereditary good) (hnatives : natives.Proper)
    (hcallBack : Dependable good callBack) (h : ctx.Runs good frames)
    (name : String) {calleeSlot : Nat} (hfloor : stackFloor frames ≤ calleeSlot)
    (hslot : calleeSlot < ctx.stack.size) :
    Ends (runNative natives callBack name calleeSlot ctx)
      (fun _ c => c.Runs good frames ∧ c.stack.size = calleeSlot + 1)
      (FailsAbove good frames calleeSlot) := by
  simp only [runNative]
  cases hnative : natives name with
  | none => exact ⟨id, h, Nat.le_of_lt hslot⟩
  | some native =>
    rw [ends_bind, ends_get, ends_bind]
    refine (hnatives name native hnative good hgood callBack hcallBack frames
      ctx _ h).mono (fun result c hc => ?_) fun e c hc => ?_
    · cases result with
      | error message =>
        exact ⟨id, hc.1, Nat.le_of_lt (Nat.lt_of_lt_of_le hslot hc.2)⟩
      | ok value =>
        have htruncated : (c.truncateStack calleeSlot).Runs good frames :=
          hc.1.truncateStack hfloor
        have hsize : (c.truncateStack calleeSlot).stack.size = calleeSlot := by
          change (c.stack.shrink calleeSlot).size = calleeSlot
          rw [Array.size_shrink]
          omega
        dsimp only
        rw [ends_bind, ends_modify]
        refine (ends_putOperand htruncated value).mono (fun _ c' hc' => ?_)
          fun e c' hc' => ?_
        · exact ⟨hc'.1, by rw [hc'.2, hsize]⟩
        · rw [hc'.2]
          exact ⟨hc'.1, htruncated, Nat.le_of_eq hsize.symm⟩
    · rw [hc.1]
      exact ⟨id, hc.2.1, Nat.le_of_lt (Nat.lt_of_lt_of_le hslot hc.2.2)⟩

/-- A call either has its result already or put one new frame on the others. -/
theorem ends_startCall (hgood : Hereditary good) (hnatives : natives.Proper)
    (hcallBack : Dependable good callBack) (h : ctx.Runs good frames)
    {calleeSlot argumentCount : Nat} (hfloor : stackFloor frames ≤ calleeSlot)
    (hslot : calleeSlot < ctx.stack.size) :
    Ends (startCall natives callBack calleeSlot argumentCount ctx)
      (fun _ c => (c.Runs good frames ∧ c.stack.size = calleeSlot + 1) ∨
        ∃ new : Frame, new.ip = 0 ∧ new.base = calleeSlot + 1 ∧
          c.Runs good (new :: frames))
      (FailsAbove good frames calleeSlot) := by
  simp only [startCall]
  rw [ends_bind, ends_get]
  cases ctx.stack.getD calleeSlot .nil with
  | function handle =>
    exact (ends_enterClosure h handle hfloor hslot).mono
      (fun _ _ hc => Or.inr hc) fun _ _ hc => hc
  | native name =>
    exact (ends_runNative hgood hnatives hcallBack h name hfloor hslot).mono
      (fun _ _ hc => Or.inl hc) fun _ _ hc => hc
  | _ => exact ⟨id, h, Nat.le_of_lt hslot⟩

/-- A return leaves the innermost frame with the result in its callee's slot. -/
theorem ends_returnValue (h : ctx.Runs good (frame :: outer)) (result : Value)
    {onError : RuntimeError → Context → Prop} :
    Ends (returnValue result ctx)
      (fun _ c => c.Runs good outer ∧ c.stack.size = frame.base) onError := by
  refine (ends_innermost h).bind fun found c hc => ?_
  rw [hc.1, hc.2, ends_bind, ends_modify, ends_bind, ends_modify]
  have htruncated := h.popped.truncateStack h.layout.2.2.floor_le
  refine (ends_push htruncated result).mono (fun _ c' hc' => ⟨hc'.1, ?_⟩)
    fun _ _ he => he
  have hbase : 0 < frame.base := h.layout.1
  have hlocals : frame.base + frame.proto.numLocals.toNat ≤ ctx.stack.size :=
    h.layout.2.1
  rw [hc'.2]
  change (ctx.stack.shrink (frame.base - 1)).size + 1 = frame.base
  rw [Array.size_shrink]
  omega

/-! ## Closures -/

theorem ends_captureCells (h : ctx.Runs good (frame :: outer))
    {upvalues : List Upvalue}
    (hupvalues : ∀ upvalue ∈ upvalues,
      frame.proto.provides upvalue.capture = true)
    (hcells : frame.cells.size = frame.proto.upvalues.size) :
    Ends (captureCells frame upvalues ctx)
      (fun cells c =>
        c.Runs good (frame :: outer) ∧ cells.length = upvalues.length)
      (Fails good (frame :: outer) clean) := by
  induction upvalues generalizing ctx with
  | nil => exact ⟨h, rfl⟩
  | cons upvalue rest ih =>
    obtain ⟨name, capture⟩ := upvalue
    have hprovides := hupvalues _ List.mem_cons_self
    have hrest : ∀ (cell : Handle) (c : Context), c.Runs good (frame :: outer) →
        Ends
          ((captureCells frame rest >>= fun others => pure (cell :: others)) c)
          (fun cells c => c.Runs good (frame :: outer) ∧
            cells.length = (⟨name, capture⟩ :: rest : List Upvalue).length)
          (Fails good (frame :: outer) clean) := by
      intro cell c hc
      refine (ih hc fun other hother =>
        hupvalues other (List.mem_cons_of_mem _ hother)).bind
        fun others c' hc' => ?_
      exact ⟨hc'.1, congrArg Nat.succ hc'.2⟩
    cases capture with
    | ofLocal slot =>
      let value := ctx.stack.getD (frame.base + slot.toNat) .nil
      exact (ends_allocate h (.cell value)
        fun _ hclosure => nomatch hclosure).bind
        fun cell c hc => hrest cell c hc.1
    | ofEnclosing slot =>
      have hslot : slot.toNat < frame.cells.size :=
        hcells ▸ of_decide_eq_true hprovides
      rw [captureCells]
      dsimp only
      rw [Array.getElem?_eq_getElem hslot]
      exact hrest _ ctx h

/-- A nested prototype of a good one makes a closure that can run. -/
theorem ends_instantiate (hgood : Hereditary good)
    (h : ctx.Runs good (frame :: outer)) {index : Nat}
    (hindex : clean → index < frame.proto.protos.length) :
    Ends (instantiate frame.proto index ctx)
      (fun _ c => c.Runs good (frame :: outer))
      (Fails good (frame :: outer) clean) := by
  obtain ⟨hproto, hcells⟩ := h.runnable frame List.mem_cons_self
  simp only [instantiate]
  cases hchild : frame.proto.protos[index]? with
  | none =>
    refine ⟨fun hclean => ?_, h⟩
    have hindex := hindex hclean
    rw [List.getElem?_eq_none_iff] at hchild
    omega
  | some child =>
    have hmem : child ∈ frame.proto.protos := List.mem_of_getElem? hchild
    have hcaptures : ∀ upvalue ∈ child.upvalues.toList,
        frame.proto.provides upvalue.capture := by
      have hverified :=
        Prototype.verifyCaptures_of_verify (hgood.verified _ hproto) hmem
      simp only [Prototype.verifyCaptures] at hverified
      split at hverified
      · next hall =>
        rw [Array.all_eq_true'] at hall
        exact fun upvalue hupvalue =>
          hall upvalue (Array.mem_toList_iff.1 hupvalue)
      · cases hverified
    refine (ends_collectIfDue h).bind fun _ c hc => ?_
    refine (ends_innermost hc.1).bind fun found c' hc' => ?_
    rw [hc'.1, hc'.2]
    refine (ends_captureCells hc.1 hcaptures hcells).bind
      fun cells c'' hc'' => ?_
    have hnew : Runnable good child cells.toArray := by
      refine ⟨hgood.nested _ hproto child hmem, ?_⟩
      rw [List.size_toArray, hc''.2, Array.length_toList]
    refine (ends_allocate hc''.1 _ fun closure hclosure => ?_).bind
      fun handle d hd => ?_
    · cases hclosure
      exact hnew
    · exact ends_putOperand_last hd.1 _

/-! ## Instructions -/

/-- Where an instruction jumps to, if it does: a conditional jump looks at the
operand on top. -/
def jumpTarget? (proto : Prototype) (offset : Nat) (top : Option Value) :
    Opcode → Option Nat
  | .jump => proto.code.pairAt? (offset + 1)
  | .jumpIfFalse =>
    match top with
    | some condition =>
      if condition.truthy then none else proto.code.pairAt? (offset + 1)
    | none => none
  | _ => none

/-- What an instruction makes of a frame that stands behind it. -/
inductive Moves (good : Prototype → Prop) (target? : Option Nat) (frame : Frame)
    (outer : List Frame) (ctx : Context) : Prop
  | stays
      (h : ctx.Runs good ({ frame with ip := target?.getD frame.ip } :: outer))
  | enters (new : Frame) (htarget : target? = none) (hip : new.ip = 0)
      (h : ctx.Runs good (new :: frame :: outer))
  | leaves (htarget : target? = none) (h : ctx.Runs good outer)
      (hsize : ctx.stack.size = frame.base)

theorem Moves.of_runs (h : ctx.Runs good (frame :: outer)) :
    Moves good none frame outer ctx :=
  .stays h

/-- An action that leaves the frames as they are, as an instruction. -/
theorem ends_moves {action : Action Unit}
    (h : Ends (action ctx) (fun _ c => c.Runs good (frame :: outer))
      (Fails good (frame :: outer) clean)) :
    Ends (action ctx) (fun _ c => Moves good none frame outer c)
      (Fails good (frame :: outer) clean) :=
  h.mono (fun _ _ hc => .of_runs hc) fun _ _ hc => hc

/-- An instruction that takes an upvalue and a constant reads them first. -/
theorem ends_field (h : ctx.Runs good (frame :: outer)) {offset : Nat}
    {op : Opcode} {rest : Value → Handle → Action Unit}
    (hwidths : op.widths = [1, 2])
    (hadmits : ∀ index field, frame.proto.admits op [index, field] = true →
      index < frame.proto.upvalues.size ∧ field < frame.proto.constants.size)
    (hrest : ∀ key cell,
      Ends (rest key cell ctx) (fun _ c => c.Runs good (frame :: outer))
        (Fails good (frame :: outer) (frame.proto.Decodes offset op))) :
    Ends ((do
        let index ← byteOperand frame.proto (offset + 1)
        let field ← pairOperand frame.proto (offset + 2)
        let key ← literal frame.proto field field
        let cell ← cellOfUpvalue index
        rest key cell : Action Unit) ctx)
      (fun _ c => Moves good none frame outer c)
      (Fails good (frame :: outer) (frame.proto.Decodes offset op)) := by
  apply ends_moves
  refine (ends_byteOperand h fun hd => ?_).bind fun index c hc => ?_
  · obtain ⟨index, field, hindex, -⟩ := hd.bytePair hwidths
    exact Option.isSome_of_mem hindex
  rw [hc.2]
  refine (ends_pairOperand h fun hd => ?_).bind fun field c' hc' => ?_
  · obtain ⟨index, field, -, hfield, -⟩ := hd.bytePair hwidths
    exact Option.isSome_of_mem hfield
  rw [hc'.2]
  have hbounds : frame.proto.Decodes offset op →
      index < frame.proto.upvalues.size ∧
        field < frame.proto.constants.size := by
    intro hd
    obtain ⟨index', field', hindex, hfield, hboth⟩ := hd.bytePair hwidths
    obtain rfl : index = index' := Option.some.inj (hc.1.symm.trans hindex)
    obtain rfl : field = field' := Option.some.inj (hc'.1.symm.trans hfield)
    exact hadmits index field hboth
  refine (ends_literal h fun hd => (hbounds hd).2).bind fun key c'' hc'' => ?_
  rw [hc'']
  refine (ends_cellOfUpvalue h fun hd => (hbounds hd).1).bind
    fun cell d hd => ?_
  rw [hd]
  exact hrest key cell

/-- An instruction that takes one byte reads it first. -/
theorem ends_withByte (h : ctx.Runs good (frame :: outer)) {offset : Nat}
    {op : Opcode} {rest : Nat → Action Unit} {onOk : Unit → Context → Prop}
    (hwidths : op.widths = [1])
    (hrest : ∀ index,
      (frame.proto.Decodes offset op → frame.proto.admits op [index] = true) →
      Ends (rest index ctx) onOk
        (Fails good (frame :: outer) (frame.proto.Decodes offset op))) :
    Ends ((byteOperand frame.proto (offset + 1) >>= rest) ctx) onOk
      (Fails good (frame :: outer) (frame.proto.Decodes offset op)) := by
  refine (ends_byteOperand h fun hd => ?_).bind fun index c hc => ?_
  · obtain ⟨index, hindex, -⟩ := hd.byte hwidths
    exact Option.isSome_of_mem hindex
  · rw [hc.2]
    refine hrest index fun hd => ?_
    obtain ⟨index', hindex, hadmits⟩ := hd.byte hwidths
    obtain rfl : index = index' := Option.some.inj (hc.1.symm.trans hindex)
    exact hadmits

/-- An instruction that takes two bytes reads them first. -/
theorem ends_withPair (h : ctx.Runs good (frame :: outer)) {offset : Nat}
    {op : Opcode} {rest : Nat → Action Unit} {onOk : Unit → Context → Prop}
    (hwidths : op.widths = [2])
    (hrest : ∀ index, frame.proto.code.pairAt? (offset + 1) = some index →
      (frame.proto.Decodes offset op → frame.proto.admits op [index] = true) →
      Ends (rest index ctx) onOk
        (Fails good (frame :: outer) (frame.proto.Decodes offset op))) :
    Ends ((pairOperand frame.proto (offset + 1) >>= rest) ctx) onOk
      (Fails good (frame :: outer) (frame.proto.Decodes offset op)) := by
  refine (ends_pairOperand h fun hd => ?_).bind fun index c hc => ?_
  · obtain ⟨index, hindex, -⟩ := hd.pair hwidths
    exact Option.isSome_of_mem hindex
  · rw [hc.2]
    refine hrest index hc.1 fun hd => ?_
    obtain ⟨index', hindex, hadmits⟩ := hd.pair hwidths
    obtain rfl : index = index' := Option.some.inj (hc.1.symm.trans hindex)
    exact hadmits

theorem ends_newTable (h : ctx.Runs good frames)
    {onError : RuntimeError → Context → Prop} :
    Ends (newTable ctx)
      (fun _ c =>
        c.Runs good frames ∧ c.stack.size = ctx.stack.size + 1) onError := by
  simp only [newTable]
  refine (ends_collectIfDue h).bind fun _ c hc => ?_
  refine (ends_allocate hc.1 (.table .empty)
    fun _ hclosure => nomatch hclosure).bind fun handle c' hc' => ?_
  have hstack : c'.stack = ctx.stack := by
    calc
      c'.stack = c.stack := hc'.2
      _ = ctx.stack := hc.2.1
  refine (ends_push hc'.1 _).mono (fun _ d hd => ⟨hd.1, ?_⟩) fun _ _ he => he
  rw [hd.2, hstack]

/-- A new table stays on the stack if there is room for it. -/
theorem ends_execute_newTable (h : ctx.Runs good (frame :: outer))
    (offset : Nat) :
    Ends (execute natives callBack frame.proto offset .newTable ctx)
      (fun _ c =>
        Moves good (jumpTarget? frame.proto offset ctx.stack.back? .newTable)
            frame outer c)
      (Fails good (frame :: outer) (frame.proto.Decodes offset .newTable)) := by
  refine ends_moves ((ends_newTable h).bind fun _ c hc => ?_)
  rw [ends_bind, ends_get]
  split
  · refine .of_not (hc.1.withStack ?_) id
    rw [Array.size_pop, hc.2]
    exact h.floor_le
  · exact hc.1

/-- The jump is taken exactly if the condition that is popped is false. -/
theorem ends_execute_jumpIfFalse (h : ctx.Runs good (frame :: outer))
    (offset : Nat) :
    Ends (execute natives callBack frame.proto offset .jumpIfFalse ctx)
      (fun _ c =>
        Moves good (jumpTarget? frame.proto offset ctx.stack.back? .jumpIfFalse)
            frame outer c)
      (Fails good (frame :: outer)
        (frame.proto.Decodes offset .jumpIfFalse)) := by
  refine (ends_takeOperand h).bind fun condition c hc => ?_
  cases htruthy : condition.truthy with
  | true =>
    have htarget :
        jumpTarget? frame.proto offset ctx.stack.back? .jumpIfFalse = none := by
      rw [hc.2, jumpTarget?]
      exact if_pos htruthy
    rw [htarget]
    exact Moves.of_runs hc.1
  | false =>
    have hpair : jumpTarget? frame.proto offset ctx.stack.back? .jumpIfFalse =
        frame.proto.code.pairAt? (offset + 1) := by
      rw [hc.2, jumpTarget?]
      exact if_neg (by rw [htruthy]; exact Bool.false_ne_true)
    refine ends_withPair hc.1 rfl fun target htarget _ => ?_
    refine (ends_moveTo hc.1 target).mono (fun _ c' hc' => .stays ?_)
      fun _ _ he => he
    rw [hpair, htarget]
    exact hc'.1

/-- A call enters a frame of its own, or is over at once. -/
theorem ends_execute_call (hgood : Hereditary good) (hnatives : natives.Proper)
    (hcallBack : Dependable good callBack) (h : ctx.Runs good (frame :: outer))
    (offset : Nat) :
    Ends (execute natives callBack frame.proto offset .call ctx)
      (fun _ c =>
        Moves good (jumpTarget? frame.proto offset ctx.stack.back? .call)
            frame outer c)
      (Fails good (frame :: outer) (frame.proto.Decodes offset .call)) := by
  refine ends_withByte h rfl fun argumentCount _ => ?_
  refine (ends_innermost h).bind fun found c hc => ?_
  rw [hc.1, hc.2, ends_bind, ends_get]
  split
  · next hheight =>
    have hfloor :
        stackFloor (frame :: outer) ≤ ctx.stack.size - (argumentCount + 1) :=
      Nat.le_sub_of_add_le hheight
    refine (ends_startCall hgood hnatives hcallBack h hfloor (by omega)).mono
      (fun _ c' hc' => ?_) fun e c' hc' => .of_not hc'.2.1 hc'.1
    rcases hc' with hc' | ⟨new, hip, -, hc'⟩
    · exact .of_runs hc'.1
    · exact .enters new rfl hip hc'
  · exact .of_not h id

/-- A return leaves the frame, whatever is left of its operands. -/
theorem ends_execute_ret (h : ctx.Runs good (frame :: outer)) (offset : Nat) :
    Ends (execute natives callBack frame.proto offset .ret ctx)
      (fun _ c =>
        Moves good (jumpTarget? frame.proto offset ctx.stack.back? .ret)
            frame outer c)
      (Fails good (frame :: outer) (frame.proto.Decodes offset .ret)) := by
  refine (ends_innermost h).bind fun found c hc => ?_
  rw [hc.1, hc.2, ends_bind, ends_get]
  have hreturn : ∀ (value : Value) (c : Context), c.Runs good (frame :: outer) →
      Ends (returnValue value c) (fun _ c => Moves good none frame outer c)
        (Fails good (frame :: outer) (frame.proto.Decodes offset .ret)) :=
    fun value c hc =>
    (ends_returnValue hc value).mono (fun _ _ hc' => .leaves rfl hc'.1 hc'.2)
      fun _ _ he => he
  split
  · next hheight =>
    rw [ends_bind]
    simp only [popTop]
    cases hback : ctx.stack.back? with
    | none =>
      rw [Array.back?_eq_none_iff] at hback
      rw [hback] at hheight
      cases hheight
    | some value =>
      refine hreturn value _ (h.withStack ?_)
      rw [Array.size_pop]
      exact Nat.le_sub_one_of_lt hheight
  · exact hreturn .nil ctx h

/-- What an instruction does to the frame that stands behind it. -/
theorem ends_execute (hgood : Hereditary good) (hnatives : natives.Proper)
    (hcallBack : Dependable good callBack) (h : ctx.Runs good (frame :: outer))
    (offset : Nat) (op : Opcode) :
    Ends (execute natives callBack frame.proto offset op ctx)
      (fun _ c =>
        Moves good (jumpTarget? frame.proto offset ctx.stack.back? op)
            frame outer c)
      (Fails good (frame :: outer) (frame.proto.Decodes offset op)) := by
  cases op with
  | constant =>
    refine ends_withPair h rfl fun index _ hadmits => ?_
    refine (ends_literal h fun hd => of_decide_eq_true (hadmits hd)).bind
      fun value c hc => ?_
    rw [hc]
    exact ends_moves (ends_putOperand_last h value)
  | loadNil => exact ends_moves (ends_putOperand_last h _)
  | loadTrue => exact ends_moves (ends_putOperand_last h _)
  | loadFalse => exact ends_moves (ends_putOperand_last h _)
  | pop =>
    exact ends_moves ((ends_takeOperand h).bind fun _ c hc => hc.1)
  | getLocal =>
    refine ends_withByte h rfl fun index _ => ?_
    refine (ends_slotOfLocal h index).bind fun slot c hc => ?_
    rw [hc, ends_bind, ends_get]
    exact ends_moves (ends_putOperand_last h _)
  | setLocal =>
    refine ends_withByte h rfl fun index _ => ?_
    refine (ends_slotOfLocal h index).bind fun slot c hc => ?_
    rw [hc]
    refine (ends_takeOperand h).bind fun value c' hc' => ?_
    refine .of_runs (hc'.1.withStack ?_)
    rw [Array.size_setIfInBounds]
    exact hc'.1.floor_le
  | getUpvalue =>
    refine ends_withByte h rfl fun index hadmits => ?_
    refine (ends_cellOfUpvalue h fun hd => of_decide_eq_true (hadmits hd)).bind
      fun cell c hc => ?_
    rw [hc]
    refine (ends_query_of h fun e he =>
      (missed_of_cellOf he).not_overreaches).bind fun value c' hc' => ?_
    rw [hc'.2]
    exact ends_moves (ends_putOperand_last h value)
  | setUpvalue =>
    refine ends_withByte h rfl fun index hadmits => ?_
    refine (ends_cellOfUpvalue h fun hd => of_decide_eq_true (hadmits hd)).bind
      fun cell c hc => ?_
    rw [hc]
    refine (ends_takeOperand h).bind fun value c' hc' => ?_
    exact ends_moves (ends_storeCell hc'.1 cell value)
  | getTabUp =>
    refine ends_field h rfl (fun index field hadmits => ?_) fun key cell => ?_
    · exact (Bool.and_eq_true_iff.1 hadmits).imp of_decide_eq_true
        of_decide_eq_true
    refine (ends_query_of h fun e he =>
      (missed_of_cellOf he).not_overreaches).bind fun target c hc => ?_
    rw [hc.2]
    refine (ends_indexed h target key).bind fun value c' hc' => ?_
    rw [hc']
    exact ends_putOperand_last h value
  | setTabUp =>
    refine ends_field h rfl (fun index field hadmits => ?_) fun key cell => ?_
    · exact (Bool.and_eq_true_iff.1 hadmits).imp of_decide_eq_true
        of_decide_eq_true
    refine (ends_takeOperand h).bind fun value c hc => ?_
    refine (ends_query_of hc.1 fun e he =>
      (missed_of_cellOf he).not_overreaches).bind fun target c' hc' => ?_
    rw [hc'.2]
    exact ends_assign hc.1 target key value
  | newTable => exact ends_execute_newTable h offset
  | getIndex =>
    refine (ends_takeOperand h).bind fun key c hc => ?_
    refine (ends_takeOperand hc.1).bind fun target c' hc' => ?_
    refine (ends_indexed hc'.1 target key).bind fun value c'' hc'' => ?_
    rw [hc'']
    exact ends_moves (ends_putOperand_last hc'.1 value)
  | setIndex =>
    refine (ends_takeOperand h).bind fun value c hc => ?_
    refine (ends_takeOperand hc.1).bind fun key c' hc' => ?_
    refine (ends_takeOperand hc'.1).bind fun target c'' hc'' => ?_
    exact ends_moves (ends_assign hc''.1 target key value)
  | add => exact ends_moves (ends_binary h (operates_arithmetic _ _ _))
  | sub => exact ends_moves (ends_binary h (operates_arithmetic _ _ _))
  | mul => exact ends_moves (ends_binary h (operates_arithmetic _ _ _))
  | div => exact ends_moves (ends_binary h (operates_arithmetic _ _ _))
  | concat => exact ends_moves (ends_binary h operates_concat)
  | minus => exact ends_moves (ends_unary h operates_negate)
  | not => exact ends_moves (ends_unary h fun _ => rfl)
  | equal => exact ends_moves (ends_binary h fun _ _ => rfl)
  | lessThan => exact ends_moves (ends_binary h operates_lessThan)
  | len =>
    refine (ends_takeOperand h).bind fun operand c hc => ?_
    refine (ends_query_of hc.1 fun e he =>
      (missed_of_lengthOf he).not_overreaches).bind fun length c' hc' => ?_
    rw [hc'.2]
    exact ends_moves (ends_putOperand_last hc.1 _)
  | jump =>
    refine ends_withPair h rfl fun target htarget _ => ?_
    refine (ends_moveTo h target).mono (fun _ c hc => .stays ?_)
      fun _ _ he => he
    rw [jumpTarget?, htarget]
    exact hc.1
  | jumpIfFalse => exact ends_execute_jumpIfFalse h offset
  | call => exact ends_execute_call hgood hnatives hcallBack h offset
  | ret => exact ends_execute_ret h offset
  | closure =>
    refine ends_withPair h rfl fun index _ hadmits => ?_
    exact ends_moves (ends_instantiate hgood h
      fun hd => of_decide_eq_true (hadmits hd))

end Machine

end Isolate
