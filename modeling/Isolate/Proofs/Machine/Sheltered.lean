import Isolate.Proofs.Context.Keeping
import Isolate.Proofs.Machine.Parts

/-!
# Instructions within a frame

An instruction takes no operand from the locals of its frame and writes to no
slot below them.  So whatever code a frame runs, everything below its first
local is left alone by all instructions but calls and returns, whether they
succeed or fail.  Nothing is asked of the context: its code may be anything, and
its handles may dangle.
-/

namespace Isolate

namespace Machine

open Context

variable {below : List Value} {outer : List Frame} {frame : Frame}
  {ctx : Context} {natives : Natives} {callBack : CallBack} {α β : Type}

/-! ## The innermost frame -/

/-- What was there before a call, under whatever the call has put on it. -/
structure Spares (below : List Value) (outer : List Frame)
    (ctx : Context) : Prop where
  stack : below <+: ctx.stack.toList
  frames : outer <+: ctx.frames.toList

/-- The innermost frame, wherever its code stands, has its locals on the stack
above the values that it must not touch. -/
structure Within (below : List Value) (outer : List Frame) (frame : Frame)
    (ctx : Context) : Prop where
  stack : below <+: ctx.stack.toList
  above : below.length ≤ frame.base
  locals : frame.localsEnd ≤ ctx.stack.size
  frames : ∃ ip, ctx.frames.toList = outer ++ [{ frame with ip }]

theorem Within.spares (h : Within below outer frame ctx) :
    Spares below outer ctx := by
  obtain ⟨ip, hframes⟩ := h.frames
  exact ⟨h.stack, hframes ▸ List.prefix_append _ _⟩

/-- An action that stays above the locals of the innermost frame. -/
def Sheltered (action : Action α) : Prop :=
  ∀ below outer frame ctx, Within below outer frame ctx →
    Ends (action ctx) (fun _ c => Within below outer frame c)
      fun _ c => Within below outer frame c

theorem Within.change (h : Within below outer frame ctx) {c : Context}
    (hstack : c.stack = ctx.stack) (hframes : c.frames = ctx.frames) :
    Within below outer frame c where
  stack := hstack ▸ h.stack
  above := h.above
  locals := hstack ▸ h.locals
  frames := hframes ▸ h.frames

theorem Within.push (h : Within below outer frame ctx) (value : Value) :
    Within below outer frame { ctx with stack := ctx.stack.push value } where
  stack := h.stack.trans (toList_prefix_push ctx.stack value)
  above := h.above
  locals := by
    have := h.locals
    rw [Array.size_push]
    omega
  frames := h.frames

/-- The value on top lies above the locals and is dropped. -/
theorem Within.pop (h : Within below outer frame ctx)
    (hroom : frame.localsEnd < ctx.stack.size) :
    Within below outer frame { ctx with stack := ctx.stack.pop } where
  stack := by
    have hlocals : frame.base ≤ frame.localsEnd := Nat.le_add_right _ _
    have habove := h.above
    rw [Array.toList_pop, List.dropLast_eq_take, Array.length_toList]
    exact List.prefix_take_iff.2 ⟨h.stack, by omega⟩
  above := h.above
  locals := by
    rw [Array.size_pop]
    omega
  frames := h.frames

theorem Within.ends_popTop (h : Within below outer frame ctx)
    (hroom : frame.localsEnd < ctx.stack.size) :
    Ends (popTop ctx) (fun _ c => Within below outer frame c)
      fun _ c => Within below outer frame c := by
  simp only [popTop]
  cases ctx.stack.back? with
  | none => exact h
  | some value => exact h.pop hroom

theorem back?_of_toList {frames : Array Frame} {last : Frame}
    (h : frames.toList = outer ++ [last]) :
    frames.back? = some last := by
  rw [← Array.getLast?_toList, h, List.getLast?_concat]

/-- The frame that is found has the locals of the one that is known. -/
theorem ends_innermost_within (h : Within below outer frame ctx)
    {onError : RuntimeError → Context → Prop} :
    Ends (innermost ctx) (fun found c => c = ctx ∧ found.base = frame.base ∧
      found.localsEnd = frame.localsEnd) onError := by
  obtain ⟨ip, hframes⟩ := h.frames
  simp only [innermost]
  rw [ends_bind, ends_get, back?_of_toList hframes]
  exact ⟨rfl, rfl, rfl⟩

theorem sheltered_innermost : Sheltered innermost :=
  fun _ _ _ _ h =>
    (ends_innermost_within h).mono (fun _ _ hc => hc.1 ▸ h) fun _ _ he => he

theorem sheltered_moveTo (offset : Nat) : Sheltered (moveTo offset) := by
  intro below outer frame ctx h
  obtain ⟨ip, hframes⟩ := h.frames
  refine ⟨h.stack, h.above, h.locals, offset, ?_⟩
  have hpush : ctx.frames = outer.toArray.push { frame with ip } := by
    apply Array.toList_inj.1
    rw [hframes, Array.toList_push]
  change (ctx.frames.modify (ctx.frames.size - 1) _).toList = _
  rw [hpush, Array.size_push, Array.toList_modify, Array.toList_push]
  simp [List.modify_eq_take_drop]

theorem sheltered_putOperand (value : Value) :
    Sheltered (putOperand value) := by
  intro below outer frame ctx h
  rw [putOperand, ends_bind, ends_get]
  split
  · exact h
  · exact h.push value

theorem sheltered_takeOperand : Sheltered takeOperand := by
  intro below outer frame ctx h
  refine (ends_innermost_within h).bind fun found c ⟨hc, _, hlocals⟩ => ?_
  rw [hc, ends_bind, ends_get, hlocals]
  split
  · exact h
  · next hroom => exact h.ends_popTop (Nat.lt_of_not_le hroom)

/-- A local lies above what the frame must not touch. -/
theorem ends_slotOfLocal_within (h : Within below outer frame ctx)
    (index : Nat) :
    Ends (slotOfLocal index ctx) (fun slot c => c = ctx ∧ frame.base ≤ slot)
      fun _ c => Within below outer frame c := by
  refine (ends_innermost_within h).bind fun found c ⟨hc, hbase, _⟩ => ?_
  rw [hc, ends_bind, ends_get]
  split
  · exact h
  · exact ⟨rfl, hbase ▸ Nat.le_add_right _ _⟩

theorem sheltered_collectIfDue : Sheltered collectIfDue := by
  intro below outer frame ctx h
  rw [collectIfDue, ends_bind, ends_get]
  split
  · exact h.change rfl rfl
  · exact h

theorem Sheltered.bind {x : Action α} {f : α → Action β} (hx : Sheltered x)
    (hf : ∀ a, Sheltered (f a)) : Sheltered (x >>= f) :=
  fun below outer frame ctx h => (hx below outer frame ctx h).bind fun a c hc =>
    hf a below outer frame c hc

theorem sheltered_get : Sheltered get := fun _ _ _ _ h => h

theorem sheltered_report (proto : Prototype) (offset : Nat) (op : Opcode) :
    Sheltered (report proto offset op) := by
  refine sheltered_get.bind fun ctx => ?_
  split
  · cases proto.code.operandsAt? (offset + 1) op.widths with
    | none => exact fun _ _ _ _ h => h
    | some operands => exact fun _ _ _ _ h => h.change rfl rfl
  · exact fun _ _ _ _ h => h

/-- The parts of instructions stay above the locals. -/
theorem parts_sheltered :
    Parts (fun _ => True) fun _ action => Sheltered action where
  pure := fun _ _ _ _ _ h => h
  throw := fun _ _ _ _ _ h => h
  query := fun _ _ _ _ _ _ h => ends_query.2 ⟨fun _ _ => h, fun _ _ => h⟩
  bind := .bind
  innermost := fun hf => sheltered_innermost.bind fun frame => hf frame trivial
  height := fun hf => sheltered_get.bind fun _ => hf _
  inFrame := fun _ _ _ hf => sheltered_get.bind fun _ => hf _
  moveTo := sheltered_moveTo
  putOperand := sheltered_putOperand
  takeOperand := sheltered_takeOperand
  storeCell := fun _ _ _ _ _ _ h => ends_bind.2 (ends_query.2
    ⟨fun _ _ => h.change rfl rfl, fun _ _ => h⟩)
  storeKey := fun _ _ _ _ _ _ _ h => ends_bind.2 (ends_query.2
    ⟨fun _ _ => h.change rfl rfl, fun _ _ => h⟩)
  allocate := fun _ _ _ _ _ h => h.change rfl rfl
  collectIfDue := sheltered_collectIfDue
  report := sheltered_report

/-! ## Instructions within a frame -/

/-- The new table of an instruction is dropped again where there is no room for
it. -/
theorem sheltered_execute_newTable (proto : Prototype) (offset : Nat) :
    Sheltered (execute natives callBack proto offset .newTable) := by
  intro below outer frame ctx h
  have hnew : Ends (newTable ctx)
      (fun _ c => Within below outer frame c ∧ frame.localsEnd < c.stack.size)
      fun _ c => Within below outer frame c := by
    refine (sheltered_collectIfDue below outer frame ctx h).bind
      fun _ c hc => ?_
    refine (parts_sheltered.allocate _ below outer frame c hc).bind
      fun handle d hd => ?_
    refine ⟨hd.push _, ?_⟩
    change frame.localsEnd < (d.stack.push _).size
    rw [Array.size_push]
    exact Nat.lt_succ_of_le hd.locals
  refine hnew.bind fun _ c hc => ?_
  rw [ends_bind, ends_get]
  split
  · exact hc.1.pop hc.2
  · exact hc.1

theorem sheltered_execute_setLocal (proto : Prototype) (offset : Nat) :
    Sheltered (execute natives callBack proto offset .setLocal) := by
  refine parts_sheltered.bind (parts_sheltered.byteOperand proto _)
    fun index => ?_
  intro below outer frame ctx h
  refine (ends_slotOfLocal_within h index).bind fun slot c ⟨hc, hslot⟩ => ?_
  rw [hc]
  refine (sheltered_takeOperand below outer frame ctx h).bind
    fun value d hd => ?_
  have habove : below.length ≤ slot := Nat.le_trans hd.above hslot
  refine ⟨?_, hd.above, ?_, hd.frames⟩
  · obtain ⟨rest, hrest⟩ := hd.stack
    change below <+: (d.stack.setIfInBounds slot value).toList
    rw [Array.toList_setIfInBounds, ← hrest,
      List.set_append_right slot value habove]
    exact List.prefix_append _ _
  · change frame.localsEnd ≤ (d.stack.setIfInBounds slot value).size
    rw [Array.size_setIfInBounds]
    exact hd.locals

/-- Every instruction but a call and a return stays within its frame. -/
theorem sheltered_execute (proto : Prototype) (offset : Nat) {op : Opcode}
    (hcall : op ≠ .call) (hret : op ≠ .ret) :
    Sheltered (execute natives callBack proto offset op) := by
  by_cases hlocal : op = .setLocal
  · rw [hlocal]
    exact sheltered_execute_setLocal proto offset
  · by_cases htable : op = .newTable
    · rw [htable]
      exact sheltered_execute_newTable proto offset
    · exact parts_sheltered.execute proto offset
        (by simp [hlocal, htable, hcall, hret])

end Machine

end Isolate
