import Isolate.Proofs.Machine.Intact
import Isolate.Proofs.Machine.Safety
import Isolate.Proofs.Machine.Sheltered

/-!
# The limits of a run

Scripts enter frames and put values on the stack only where the limits of their
context allow it.  So from one turn of a call to the next there are never more
frames and never more values than the limits allow, or than were there when the
call was made.
-/

namespace Isolate

/-- A context that came from another one under the same limits, with no more
frames and values than they allow or than were there. -/
structure Context.KeepsLimits (ctx c : Context) : Prop where
  settings : c.settings = ctx.settings
  depth : c.frames.size ≤ max ctx.settings.maxCallDepth ctx.frames.size
  height : c.stack.size ≤ max ctx.settings.maxStack ctx.stack.size

namespace Context.KeepsLimits

variable {ctx c d : Context}

theorem of_le (hsettings : c.settings = ctx.settings)
    (hframes : c.frames.size ≤ ctx.frames.size)
    (hstack : c.stack.size ≤ ctx.stack.size) : ctx.KeepsLimits c :=
  ⟨hsettings, Nat.le_trans hframes (Nat.le_max_right _ _),
    Nat.le_trans hstack (Nat.le_max_right _ _)⟩

theorem refl (ctx : Context) : ctx.KeepsLimits ctx :=
  .of_le rfl (Nat.le_refl _) (Nat.le_refl _)

theorem trans (h : ctx.KeepsLimits c) (h' : c.KeepsLimits d) :
    ctx.KeepsLimits d := by
  obtain ⟨hsettings, hdepth, hheight⟩ := h
  obtain ⟨hsettings', hdepth', hheight'⟩ := h'
  rw [hsettings] at hsettings' hdepth' hheight'
  exact ⟨hsettings', by omega, by omega⟩

end Context.KeepsLimits

namespace Machine

open Context

variable {natives : Natives} {callBack : CallBack} {ctx : Context} {α β : Type}

/-- An action that, where it succeeds, keeps the limits. -/
def Limited (action : Action α) : Prop :=
  ∀ ctx, Ends (action ctx) (fun _ c => ctx.KeepsLimits c) fun _ _ => True

theorem respected_keepsLimits : Respected KeepsLimits fun _ _ => True where
  refl := .refl
  trans := .trans
  fails := fun _ => trivial
  failsAfter := fun _ _ => trivial
  moved := fun _ _ =>
    .of_le rfl (Nat.le_of_eq Array.size_modify) (Nat.le_refl _)
  pushed := fun ctx value hroom => by
    refine ⟨rfl, Nat.le_max_right _ _, ?_⟩
    change (ctx.stack.push value).size ≤ _
    rw [Array.size_push]
    omega
  popped := fun ctx => by
    refine .of_le rfl (Nat.le_refl _) ?_
    change ctx.stack.pop.size ≤ _
    rw [Array.size_pop]
    exact Nat.sub_le _ _
  withHeap := fun _ _ => .of_le rfl (Nat.le_refl _) (Nat.le_refl _)
  noted := fun _ _ _ => .of_le rfl (Nat.le_refl _) (Nat.le_refl _)

theorem parts_limited : Parts (fun _ => True) fun _ action => Limited action :=
  respected_keepsLimits.parts

theorem Limited.bind {x : Action α} {f : α → Action β} (hx : Limited x)
    (hf : ∀ a, Limited (f a)) : Limited (x >>= f) :=
  respected_keepsLimits.bind hx hf

theorem limited_get : Limited get := respected_keepsLimits.get

theorem limited_throw (e : RuntimeError) : Limited (throw e : Action α) :=
  respected_keepsLimits.throw e

theorem limited_innermost : Limited innermost := respected_keepsLimits.innermost

theorem size_shrink_le (stack : Array α) (height : Nat) :
    (stack.shrink height).size ≤ stack.size := by
  rw [Array.size_shrink]
  exact Nat.min_le_right _ _

theorem limited_truncateStack (height : Nat) :
    Limited (modify (truncateStack height) : Action Unit) :=
  fun ctx => .of_le rfl (Nat.le_refl _) (size_shrink_le ctx.stack height)

/-! ## Instructions that reach further -/

/-- A function is entered only with room for its frame and its locals. -/
theorem limited_enterClosure (handle : Handle)
    (calleeSlot argumentCount : Nat) :
    Limited (enterClosure handle calleeSlot argumentCount) := by
  intro ctx
  rw [enterClosure, ends_bind, ends_get]
  dsimp only
  split
  · trivial
  · next hdepth =>
    rw [ends_bind, ends_query]
    refine ⟨fun closure _ => ?_, fun _ _ => trivial⟩
    split
    · trivial
    · next hroom =>
      refine ⟨rfl, ?_, ?_⟩
      · change (ctx.frames.push _).size ≤ _
        rw [Array.size_push]
        omega
      · refine Nat.le_trans (Nat.le_of_eq ?_) (Nat.le_trans (Nat.not_lt.1 hroom)
          (Nat.le_max_left _ _))
        exact size_resizeStack _ _

theorem limited_startCall (hnatives : natives.Quiet)
    (calleeSlot argumentCount : Nat) :
    Limited (startCall natives callBack calleeSlot argumentCount) := by
  refine limited_get.bind fun ctx => ?_
  cases ctx.stack.getD calleeSlot .nil with
  | function handle =>
    exact limited_enterClosure handle calleeSlot argumentCount
  | native name =>
    simp only [runNative]
    cases hnative : natives name with
    | none => exact limited_throw _
    | some native =>
      refine limited_get.bind fun ctx =>
        Limited.bind (fun c => ?_) fun result => ?_
      · exact (hnatives name native hnative callBack c _).mono
          (fun _ d hd => hd.1 ▸ .refl c) fun _ _ _ => trivial
      · cases result with
        | error message => exact limited_throw _
        | ok value =>
          exact (limited_truncateStack _).bind
            fun _ => parts_limited.putOperand value
  | _ => exact limited_throw _

/-- A new table that the limit has no room for is dropped again. -/
theorem limited_execute_newTable (proto : Prototype) (offset : Nat) :
    Limited (execute natives callBack proto offset .newTable) := by
  intro ctx
  have hnew : Ends (newTable ctx) (fun _ c => c.settings = ctx.settings ∧
      c.frames.size ≤ max ctx.settings.maxCallDepth ctx.frames.size)
      fun _ _ => True := by
    refine (parts_limited.collectIfDue ctx).bind fun _ c hc => ?_
    exact ⟨hc.settings, hc.depth⟩
  refine hnew.bind fun _ c ⟨hsettings, hdepth⟩ => ?_
  rw [ends_bind, ends_get]
  split
  · trivial
  · next hroom =>
    refine ⟨hsettings, hdepth, Nat.le_trans (Nat.not_lt.1 hroom) ?_⟩
    rw [hsettings]
    exact Nat.le_max_left _ _

/-- What is returned takes the place of the callee, below the locals
that are dropped. -/
theorem ends_returnValue_limited {frame : Frame} {outer : List Frame}
    (h : Within [] outer frame ctx) (hbase : 0 < frame.base) (result : Value) :
    Ends (returnValue result ctx) (fun _ c => ctx.KeepsLimits c)
      fun _ _ => True := by
  have hlocals : frame.base ≤ ctx.stack.size :=
    Nat.le_trans (Nat.le_add_right _ _) h.locals
  refine (ends_innermost_within h).bind fun found c ⟨hc, hfound, _⟩ => ?_
  rw [hc, ends_bind, ends_modify, ends_bind, ends_modify, hfound]
  refine .of_le rfl ?_ ?_
  · change ctx.frames.pop.size ≤ _
    rw [Array.size_pop]
    exact Nat.sub_le _ _
  · change ((ctx.stack.shrink (frame.base - 1)).push result).size ≤ _
    rw [Array.size_push, Array.size_shrink]
    omega

theorem ends_execute_limited (hnatives : natives.Quiet) {frame : Frame}
    {outer : List Frame} (h : Within [] outer frame ctx)
    (hbase : 0 < frame.base) (proto : Prototype) (offset : Nat) (op : Opcode) :
    Ends (execute natives callBack proto offset op ctx)
      (fun _ c => ctx.KeepsLimits c) fun _ _ => True := by
  -- Every other instruction is made of parts that push one value at a time.
  by_cases hfurther : op ∈ [Opcode.setLocal, .newTable, .call, .ret]
  · have hbyte := parts_limited.byteOperand proto (offset + 1)
    rcases (by simpa using hfurther : op = .setLocal ∨ op = .newTable ∨
      op = .call ∨ op = .ret)
      with rfl | rfl | rfl | rfl
    · refine (hbyte.bind fun index =>
        (parts_limited.slotOfLocal index).bind fun slot =>
          parts_limited.takeOperand.bind fun value c => ?_ : Limited _) ctx
      exact KeepsLimits.of_le rfl (Nat.le_refl _)
        (Nat.le_of_eq Array.size_setIfInBounds)
    · exact limited_execute_newTable proto offset ctx
    · refine (hbyte.bind fun argumentCount =>
        limited_innermost.bind fun frame =>
          limited_get.bind fun ctx => ?_ : Limited _) ctx
      dsimp only
      split
      · exact limited_startCall hnatives _ _
      · exact limited_throw _
    · have hpop : Ends (popTop ctx) (fun _ c => ctx.KeepsLimits c)
          fun _ _ => True :=
        respected_keepsLimits.popTop ctx
      simp only [execute]
      refine (ends_innermost_within h).bind fun found c ⟨hc, _, hlocals⟩ => ?_
      rw [hc, ends_bind, ends_get, hlocals]
      split
      · next hroom =>
        have hpopped := ((h.ends_popTop hroom).mono (fun _ _ hd => hd)
          fun _ _ _ => trivial).and hpop
        refine (hpopped.mono (fun _ _ hd => hd) fun _ _ _ => trivial).bind
          fun value d hd => ?_
        exact (ends_returnValue_limited hd.1 hbase value).mono
          (fun _ _ he => hd.2.trans he) fun _ _ he => he
      · exact ends_returnValue_limited h hbase .nil
  · exact parts_limited.execute proto offset hfurther ctx

/-! ## Turns and calls -/

theorem ends_turn_limited (hnatives : natives.Quiet) {frame : Frame}
    {outer : List Frame} (h : Within [] outer frame ctx)
    (hbase : 0 < frame.base) (proto : Prototype) :
    Ends (turn natives callBack proto ctx) (fun _ c => ctx.KeepsLimits c)
      fun _ _ => True := by
  simp only [turn]
  refine (ends_innermost_within h).bind fun found c hfound => ?_
  rw [hfound.1]
  cases proto.code[found.ip]? with
  | none => exact ends_returnValue_limited h hbase .nil
  | some byte =>
    dsimp only
    cases Opcode.ofByte? byte with
    | none => trivial
    | some op =>
      have hsheltered : Sheltered (do
          report proto found.ip op
          moveTo (found.ip + op.length)) :=
        (sheltered_report proto found.ip op).bind fun _ => sheltered_moveTo _
      have hlimited : Limited (do
          report proto found.ip op
          moveTo (found.ip + op.length)) :=
        (parts_limited.report proto found.ip op).bind
          fun _ => parts_limited.moveTo _
      have hmoved :=
        ((hsheltered _ _ _ _ h).mono (fun _ _ hd => hd)
          fun _ _ _ => trivial).and (hlimited ctx)
      dsimp only
      rw [← bind_assoc]
      refine (hmoved.mono (fun _ _ hd => hd) fun _ _ _ => trivial).bind
        fun _ d hd => ?_
      exact (ends_execute_limited hnatives hd.1 hbase proto found.ip op).mono
        (fun _ _ he => hd.2.trans he) fun _ _ he => he

end Machine

end Isolate
