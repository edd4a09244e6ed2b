import Isolate.Proofs.Machine.Intact
import Isolate.Proofs.Machine.Parts

/-!
# What scripts cannot change

Only the host pins values, loads chunks and chooses the globals.  No instruction
does, so a call leaves the pins, the cache and the table of globals of its
context as they are, whether it succeeds or fails, and reports no load.
-/

namespace Isolate

/-- The loads that a context has reported. -/
def Context.loadReports (ctx : Context) :
    List Notice := ctx.journal.toList.filter Notice.isLoad

theorem Context.loadReports_note (ctx : Context) (notice : Notice) :
    (ctx.note notice).loadReports =
      ctx.loadReports ++ if notice.isLoad then [notice] else [] := by
  change (ctx.journal.push notice).toList.filter Notice.isLoad = _
  rw [Array.toList_push, List.filter_append, List.filter_singleton]
  cases notice.isLoad <;> rfl

theorem Context.loadReports_note_of_not {ctx : Context} {notice : Notice}
    (h : notice.isLoad = false) :
    (ctx.note notice).loadReports = ctx.loadReports := by
  rw [loadReports_note, h]
  exact List.append_nil _

/-- Contexts with the same globals, pins and cached chunks, which
report the same loads. -/
structure Context.SameReserve (ctx c : Context) : Prop where
  globals : c.globals = ctx.globals
  registry : c.registry = ctx.registry
  cache : c.cache = ctx.cache
  loads : c.loadReports = ctx.loadReports

theorem Context.SameReserve.refl (ctx : Context) :
    ctx.SameReserve ctx := ⟨rfl, rfl, rfl, rfl⟩

theorem Context.SameReserve.note (ctx : Context) {notice : Notice}
    (h : notice.isLoad = false) : ctx.SameReserve (ctx.note notice) :=
  ⟨rfl, rfl, rfl, loadReports_note_of_not h⟩

theorem Context.SameReserve.trans {ctx c d : Context} (h : ctx.SameReserve c)
    (h' : c.SameReserve d) : ctx.SameReserve d where
  globals := h'.globals.trans h.globals
  registry := h'.registry.trans h.registry
  cache := h'.cache.trans h.cache
  loads := h'.loads.trans h.loads

namespace Machine

open Context

variable {natives : Natives} {callBack : CallBack} {α : Type}

/-- An action that leaves globals, pins and cache alone. -/
def Reserved (action : Action α) : Prop :=
  ∀ ctx, Ends (action ctx) (fun _ c => ctx.SameReserve c)
    fun _ c => ctx.SameReserve c

theorem respected_sameReserve : Respected SameReserve SameReserve where
  refl := .refl
  trans := .trans
  fails := .refl
  failsAfter := .trans
  moved := fun _ _ => ⟨rfl, rfl, rfl, rfl⟩
  pushed := fun _ _ _ => ⟨rfl, rfl, rfl, rfl⟩
  popped := fun _ => ⟨rfl, rfl, rfl, rfl⟩
  withHeap := fun _ _ => ⟨rfl, rfl, rfl, rfl⟩
  noted := fun ctx _ h => .note ctx h

theorem parts_reserved :
    Parts (fun _ => True) fun _ action => Reserved action :=
  respected_sameReserve.parts

theorem Reserved.bind {β : Type} {x : Action α} {f : α → Action β}
    (hx : Reserved x) (hf : ∀ a, Reserved (f a)) : Reserved (x >>= f) :=
  respected_sameReserve.bind hx hf

theorem Reserved.modify {f : Context → Context}
    (hf : ∀ ctx : Context, ctx.SameReserve (f ctx)) :
    Reserved (modify f : Action Unit) := hf

theorem reserved_get : Reserved (get : Action Context) :=
  respected_sameReserve.get

theorem reserved_throw (e : RuntimeError) : Reserved (throw e : Action α) :=
  respected_sameReserve.throw e

theorem reserved_query (f : Context → Except RuntimeError α) :
    Reserved (query f) :=
  respected_sameReserve.query f

theorem reserved_innermost : Reserved innermost :=
  respected_sameReserve.innermost

theorem reserved_popTop : Reserved popTop := respected_sameReserve.popTop

/-! ## Instructions that reach further -/

theorem reserved_returnValue (result : Value) : Reserved (returnValue result) :=
  reserved_innermost.bind fun _ =>
    Reserved.bind (.modify fun _ => ⟨rfl, rfl, rfl, rfl⟩) fun _ =>
      Reserved.bind (.modify fun _ => ⟨rfl, rfl, rfl, rfl⟩) fun _ =>
        .modify fun _ => ⟨rfl, rfl, rfl, rfl⟩

theorem reserved_enterClosure (handle : Handle)
    (calleeSlot argumentCount : Nat) :
    Reserved (enterClosure handle calleeSlot argumentCount) := by
  refine reserved_get.bind fun ctx => ?_
  dsimp only
  split
  · exact reserved_throw _
  · refine (reserved_query _).bind fun closure => ?_
    split
    · exact reserved_throw _
    · exact .modify fun _ => ⟨rfl, rfl, rfl, rfl⟩

theorem reserved_startCall (hnatives : natives.Quiet)
    (calleeSlot argumentCount : Nat) :
    Reserved (startCall natives callBack calleeSlot argumentCount) := by
  refine reserved_get.bind fun ctx => ?_
  cases ctx.stack.getD calleeSlot .nil with
  | function handle =>
    exact reserved_enterClosure handle calleeSlot argumentCount
  | native name =>
    simp only [runNative]
    cases hnative : natives name with
    | none => exact reserved_throw _
    | some native =>
      refine reserved_get.bind fun ctx =>
        Reserved.bind (fun c => ?_) fun result => ?_
      · exact (hnatives name native hnative callBack c _).mono
          (fun _ d hd => hd.1 ▸ .refl c) fun _ _ he => he.elim
      · cases result with
        | error message => exact reserved_throw _
        | ok value =>
          exact Reserved.bind (.modify fun _ => ⟨rfl, rfl, rfl, rfl⟩) fun _ =>
            parts_reserved.putOperand value
  | _ => exact reserved_throw _

theorem reserved_execute (hnatives : natives.Quiet) (proto : Prototype)
    (offset : Nat) (op : Opcode) :
    Reserved (execute natives callBack proto offset op) := by
  by_cases hfurther : op ∈ [Opcode.setLocal, .newTable, .call, .ret]
  · have hbyte := parts_reserved.byteOperand proto (offset + 1)
    rcases (by simpa using hfurther : op = .setLocal ∨ op = .newTable ∨
      op = .call ∨ op = .ret)
      with rfl | rfl | rfl | rfl
    · exact hbyte.bind fun index =>
        (parts_reserved.slotOfLocal index).bind fun slot =>
          parts_reserved.takeOperand.bind fun value =>
            .modify fun _ => ⟨rfl, rfl, rfl, rfl⟩
    · have hnew : Reserved newTable := parts_reserved.collectIfDue.bind fun _ =>
        (parts_reserved.allocate _).bind fun _ =>
          .modify fun _ => ⟨rfl, rfl, rfl, rfl⟩
      refine hnew.bind fun _ => reserved_get.bind fun ctx => ?_
      split
      · exact Reserved.bind (.modify fun _ => ⟨rfl, rfl, rfl, rfl⟩)
          fun _ => reserved_throw _
      · exact fun ctx => .refl ctx
    · refine hbyte.bind fun argumentCount =>
        reserved_innermost.bind fun frame =>
          reserved_get.bind fun ctx => ?_
      dsimp only
      split
      · exact reserved_startCall hnatives _ _
      · exact reserved_throw _
    · refine reserved_innermost.bind
        fun frame => reserved_get.bind fun ctx => ?_
      split
      · exact reserved_popTop.bind reserved_returnValue
      · exact reserved_returnValue .nil
  · exact parts_reserved.execute proto offset hfurther

/-! ## Turns and calls -/

theorem reserved_turn (hnatives : natives.Quiet) (proto : Prototype) :
    Reserved (turn natives callBack proto) := by
  refine reserved_innermost.bind fun frame => ?_
  dsimp only
  cases proto.code[frame.ip]? with
  | none => exact reserved_returnValue .nil
  | some byte =>
    dsimp only
    cases Opcode.ofByte? byte with
    | none => exact reserved_throw _
    | some op =>
      exact (parts_reserved.report proto frame.ip op).bind fun _ =>
        (parts_reserved.moveTo _).bind fun _ =>
          reserved_execute hnatives proto frame.ip op

theorem reserved_loop (hnatives : natives.Quiet) (budget entry depth : Nat)
    (proto : Prototype) : Reserved (loop natives budget entry depth proto) := by
  induction budget generalizing depth proto with
  | zero => exact reserved_throw _
  | succ budget ih =>
    intro ctx
    by_cases hentry : ctx.frames.size ≤ entry
    · rw [loop_of_le hentry]
      exact .refl ctx
    · rw [loop_round hentry]
      exact (reserved_turn hnatives _).bind (fun _ => ih _ _) ctx

/-- A call leaves globals, pins and cache alone, whether it succeeds, fails or
runs out of budget. -/
theorem reserved_call (hnatives : natives.Quiet) (budget argumentCount : Nat) :
    Reserved (call natives budget argumentCount) := by
  cases budget with
  | zero => exact reserved_throw _
  | succ budget =>
    intro ctx
    by_cases hroom : argumentCount < ctx.stack.size
    · have hentered :
          Reserved (enter natives budget (ctx.stack.size - argumentCount - 1)
            argumentCount) :=
      parts_reserved.collectIfDue.bind fun _ => reserved_startCall hnatives _ _
      have hfinished : Reserved (finish natives budget ctx.frames.size) := by
        refine reserved_get.bind fun c => ?_
        cases c.frames.back? with
        | none => exact fun ctx => .refl ctx
        | some frame =>
          exact reserved_get.bind fun c => reserved_loop hnatives _ _ _ _
      rw [call_eq hroom]
      refine ends_unwinding
        (((hentered.bind fun _ => hfinished) ctx).mono (fun _ _ hc => hc)
          fun _ _ he => ?_)
      exact ⟨he.globals, he.registry, he.cache,
        (loadReports_note_of_not rfl).trans he.loads⟩
    · rw [call, ends_bind, ends_get]
      rw [if_pos (Nat.le_of_not_lt hroom)]
      exact .refl ctx

end Machine

end Isolate
