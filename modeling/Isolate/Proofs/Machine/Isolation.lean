import Isolate.Native.Probe
import Isolate.Native.Standard
import Isolate.Proofs.Machine.Safety
import Isolate.Proofs.Machine.Sheltered

/-!
# Protected calls

A call owns the stack from the slot of its callee on and the frames that it
enters.  Every frame of it stands above that slot, so whatever code a call runs,
the values and the frames that it found are still there when it is over.
-/

namespace Isolate

/-- The values on the stack and the frames are still there; new values may
lie on the old ones. -/
structure Context.Retains (ctx c : Context) : Prop where
  stack : ctx.stack.toList <+: c.stack.toList
  frames : c.frames = ctx.frames

/-- What a protected call leaves: one result in the callee's slot, or nothing
from that slot on.  A call that has no budget does not begin. -/
structure CallBack.Isolated (callBack : CallBack) : Prop where
  room : ∀ (ctx : Context) (argumentCount : Nat),
    argumentCount < ctx.stack.size → Ends (callBack argumentCount ctx)
      (fun _ c => c.frames = ctx.frames ∧ ∃ result,
        c.stack =
          (ctx.stack.shrink (ctx.stack.size - (argumentCount + 1))).push result)
      fun e c => c.frames = ctx.frames ∧
        (c.stack = ctx.stack.shrink (ctx.stack.size - (argumentCount + 1)) ∨
          e = .budgetSpent ∧ c.stack = ctx.stack)
  noRoom : ∀ (ctx : Context) (argumentCount : Nat),
    ctx.stack.size ≤ argumentCount →
    Ends (callBack argumentCount ctx) (fun _ _ => False) fun _ c => c = ctx

/-- A native function that leaves the stack and the frames as it found them, but
for values that it pushed, as long as the calls that it makes are protected. -/
def Native.Balanced (native : Native) : Prop :=
  ∀ callBack : CallBack, callBack.Isolated → ∀ (ctx : Context)
    (arguments : List Value),
    Ends (native callBack arguments ctx) (fun _ c => ctx.Retains c)
      fun _ c => ctx.Retains c

def Natives.Balanced (natives : Natives) : Prop :=
  ∀ name native, natives name = some native → Native.Balanced native

namespace Machine

open Context

variable {below : List Value} {outer : List Frame} {frame : Frame}
  {ctx : Context} {natives : Natives} {callBack : CallBack} {α : Type}

/-! ## Frames on frames -/

/-- The frames of a call, the innermost first, stand on each other above a slot.
What the outermost returns goes into that slot. -/
def Stands (slot : Nat) : List Frame → Nat → Prop
  | [], height => height = slot + 1
  | frame :: rest, height =>
    frame.localsEnd ≤ height ∧ Stands slot rest frame.base

theorem Stands.lt {slot height : Nat} {frames : List Frame}
    (h : Stands slot frames height) : slot < height := by
  induction frames generalizing height with
  | nil =>
    rw [h]
    exact Nat.lt_succ_self slot
  | cons frame rest ih =>
    calc
      slot < frame.base := ih h.2
      _ ≤ frame.localsEnd := Nat.le_add_right _ _
      _ ≤ height := h.1

/-- A call with these frames is under way on what was there before it. -/
structure Calling (below : List Value) (outer inner : List Frame)
    (ctx : Context) : Prop where
  stack : below <+: ctx.stack.toList
  frames : ctx.frames.toList = outer ++ inner.reverse
  stands : Stands below.length inner ctx.stack.size

section Calling

variable {inner rest : List Frame}

theorem Calling.spares (h : Calling below outer inner ctx) :
    Spares below outer ctx :=
  ⟨h.stack, h.frames ▸ List.prefix_append _ _⟩

theorem Calling.frames_cons (h : Calling below outer (frame :: rest) ctx) :
    ctx.frames.toList = (outer ++ rest.reverse) ++ [frame] := by
  rw [h.frames, List.reverse_cons, List.append_assoc]

/-- The innermost frame of a call. -/
theorem Calling.within (h : Calling below outer (frame :: rest) ctx) :
    Within below (outer ++ rest.reverse) frame ctx where
  stack := h.stack
  above := Nat.le_of_lt h.stands.2.lt
  locals := h.stands.1
  frames := ⟨frame.ip, h.frames_cons⟩

theorem Within.spares_outer
    (h : Within below (outer ++ rest.reverse) frame ctx) :
    Spares below outer ctx :=
  ⟨h.stack, (List.prefix_append _ _).trans h.spares.frames⟩

/-- What stays within the innermost frame goes on with the call. -/
theorem Calling.of_within (hstands : Stands below.length rest frame.base)
    (h : Within below (outer ++ rest.reverse) frame ctx) :
    ∃ inner, Calling below outer inner ctx := by
  obtain ⟨ip, hframes⟩ := h.frames
  refine ⟨{ frame with ip } :: rest, h.stack, ?_, h.locals, hstands⟩
  rw [hframes, List.reverse_cons, List.append_assoc]

/-- A return leaves the innermost frame, and the result lies where its callee
was. -/
theorem Within.ends_returnValue
    (h : Within below (outer ++ rest.reverse) frame ctx)
    (hstands : Stands below.length rest frame.base) (result : Value)
    {onError : RuntimeError → Context → Prop} :
    Ends (returnValue result ctx)
      (fun _ c => Calling below outer rest c) onError := by
  have hbase : below.length < frame.base := hstands.lt
  have hheight : frame.base ≤ ctx.stack.size :=
    Nat.le_trans (Nat.le_add_right _ _) h.locals
  obtain ⟨ip, hframes⟩ := h.frames
  refine (ends_innermost_within h).bind fun found c ⟨hc, hfound, _⟩ => ?_
  rw [hc, ends_bind, ends_modify, ends_bind, ends_modify, hfound]
  refine ⟨?_, ?_, ?_⟩
  · change below <+: ((ctx.stack.shrink (frame.base - 1)).push result).toList
    refine List.IsPrefix.trans ?_ (toList_prefix_push _ result)
    rw [Array.toList_shrink]
    exact List.prefix_take_iff.2 ⟨h.stack, by omega⟩
  · change ctx.frames.pop.toList = _
    rw [Array.toList_pop, hframes, List.dropLast_concat]
  · change Stands below.length rest
      ((ctx.stack.shrink (frame.base - 1)).push result).size
    have hsize :
        ((ctx.stack.shrink (frame.base - 1)).push result).size =
          frame.base := by
      rw [Array.size_push, Array.size_shrink]
      omega
    rwa [hsize]

/-! ## Calls -/

section Starting

variable {calleeSlot argumentCount : Nat}

/-- A script function gets a frame above its callee's slot. -/
theorem ends_enterClosure_isolated (hstack : below <+: ctx.stack.toList)
    (hbelow : below.length ≤ calleeSlot) (handle : Handle) :
    Ends (enterClosure handle calleeSlot argumentCount ctx)
      (fun _ c => ∃ new : Frame,
        new.base = calleeSlot + 1 ∧ new.localsEnd ≤ c.stack.size ∧
          below <+: c.stack.toList ∧ c.frames = ctx.frames.push new)
      fun _ c => c = ctx := by
  rw [enterClosure, ends_bind, ends_get]
  dsimp only
  split
  · exact rfl
  · rw [ends_bind, ends_query]
    refine ⟨fun closure _ => ?_, fun _ _ => rfl⟩
    split
    · exact rfl
    · let new : Frame :=
        ⟨handle, closure.proto, closure.cells, 0, calleeSlot + 1⟩
      let cut :=
        ctx.truncateStack (calleeSlot + 1 +
          min argumentCount closure.proto.numParams.toNat)
      have hlocals : calleeSlot + 1 ≤ new.localsEnd := Nat.le_add_right _ _
      have hcut : below <+: cut.stack.toList := by
        change below <+: (ctx.stack.shrink _).toList
        rw [Array.toList_shrink]
        exact List.prefix_take_iff.2 ⟨hstack, by omega⟩
      refine ⟨new, rfl, ?_, ?_, rfl⟩
      · exact Nat.le_of_eq (size_resizeStack new.localsEnd cut).symm
      · change below <+: (resizeStack new.localsEnd cut).stack.toList
        rw [resizeStack]
        dsimp only
        split
        · rw [Array.toList_append]
          exact hcut.trans (List.prefix_append _ _)
        · rw [Array.toList_shrink]
          exact List.prefix_take_iff.2 ⟨hcut, by omega⟩

/-- A native function runs above its callee's slot and leaves its result
there. -/
theorem ends_runNative_isolated (hnatives : natives.Balanced)
    (hcallBack : callBack.Isolated) (hstack : below <+: ctx.stack.toList)
    (hbelow : below.length ≤ calleeSlot) (hroom : calleeSlot < ctx.stack.size)
    (name : String) :
    Ends (runNative natives callBack name calleeSlot ctx)
      (fun _ c => below <+: c.stack.toList ∧ c.stack.size = calleeSlot + 1 ∧
        c.frames = ctx.frames)
      fun _ c => below <+: c.stack.toList ∧ c.frames = ctx.frames := by
  simp only [runNative]
  cases hnative : natives name with
  | none => exact ⟨hstack, rfl⟩
  | some native =>
    rw [ends_bind, ends_get, ends_bind]
    refine (hnatives name native hnative callBack hcallBack ctx _).mono
      (fun result c hc => ?_) fun e c hc => ⟨hstack.trans hc.stack, hc.frames⟩
    cases result with
    | error message => exact ⟨hstack.trans hc.stack, hc.frames⟩
    | ok value =>
      have hheight : ctx.stack.size ≤ c.stack.size := by
        simpa using hc.stack.length_le
      have hcut : below <+: (c.stack.shrink calleeSlot).toList := by
        rw [Array.toList_shrink]
        exact List.prefix_take_iff.2 ⟨hstack.trans hc.stack, hbelow⟩
      dsimp only
      rw [ends_bind, ends_modify, putOperand, ends_bind, ends_get]
      split
      · exact ⟨hcut, hc.frames⟩
      · refine ⟨hcut.trans (toList_prefix_push _ value), ?_, hc.frames⟩
        change ((c.stack.shrink calleeSlot).push value).size = _
        rw [Array.size_push, Array.size_shrink]
        omega

/-- A call has its result already, or has put one new frame on the others. -/
theorem ends_startCall_isolated (hnatives : natives.Balanced)
    (hcallBack : callBack.Isolated) (hstack : below <+: ctx.stack.toList)
    (hframes : ctx.frames.toList = outer ++ inner.reverse)
    (hstands : Stands below.length inner (calleeSlot + 1))
    (hroom : calleeSlot < ctx.stack.size) :
    Ends (startCall natives callBack calleeSlot argumentCount ctx)
      (fun _ c => ∃ inner, Calling below outer inner c)
      fun _ c => Spares below outer c := by
  have hbelow : below.length ≤ calleeSlot := Nat.le_of_lt_succ hstands.lt
  have hspares :
      ∀ c : Context, below <+: c.stack.toList → c.frames = ctx.frames →
        Spares below outer c := fun c hc hsame =>
    ⟨hc, by rw [hsame, hframes]; exact List.prefix_append _ _⟩
  simp only [startCall]
  rw [ends_bind, ends_get]
  cases ctx.stack.getD calleeSlot .nil with
  | function handle =>
    refine (ends_enterClosure_isolated hstack hbelow handle).mono
      (fun _ c hc => ?_) fun e c hc => hc ▸ hspares ctx hstack rfl
    obtain ⟨new, hbase, hlocals, hc, hpushed⟩ := hc
    refine ⟨new :: inner, hc, ?_, hlocals, hbase ▸ hstands⟩
    rw [hpushed, Array.toList_push, hframes, List.reverse_cons,
      List.append_assoc]
  | native name =>
    refine (ends_runNative_isolated hnatives hcallBack hstack hbelow
      hroom name).mono
      (fun _ c hended => ?_) fun e c hfailed => hspares c hfailed.1 hfailed.2
    obtain ⟨hc, hsize, hsame⟩ := hended
    exact ⟨inner, hc, hsame ▸ hframes, hsize ▸ hstands⟩
  | _ => exact hspares ctx hstack rfl

end Starting

/-- A call of the innermost frame starts above the locals of that frame. -/
theorem Within.ends_execute_call (hnatives : natives.Balanced)
    (hcallBack : callBack.Isolated)
    (h : Within below (outer ++ rest.reverse) frame ctx)
    (hstands : Stands below.length rest frame.base) (proto : Prototype)
    (offset : Nat) :
    Ends (execute natives callBack proto offset .call ctx)
      (fun _ c => ∃ inner, Calling below outer inner c)
      fun _ c => Spares below outer c := by
  simp only [execute]
  refine ((parts_sheltered.byteOperand proto _ _ _ _ _ h).mono
    (fun _ _ hc => hc)
    fun _ _ he => he.spares_outer).bind fun argumentCount c hc => ?_
  refine (ends_innermost_within hc).bind fun found d ⟨hd, _, hlocals⟩ => ?_
  rw [hd, ends_bind, ends_get]
  obtain ⟨ip, hframes⟩ := hc.frames
  split
  · next hroom =>
    rw [hlocals] at hroom
    have hinner :
        c.frames.toList = outer ++ ({ frame with ip } :: rest).reverse := by
      rw [hframes, List.reverse_cons, List.append_assoc]
    refine ends_startCall_isolated hnatives hcallBack hc.stack hinner
      ⟨?_, hstands⟩ (by omega)
    change frame.localsEnd ≤ _
    omega
  · exact hc.spares_outer

/-- A return drops what is left of the operands of its frame. -/
theorem Within.ends_execute_ret
    (h : Within below (outer ++ rest.reverse) frame ctx)
    (hstands : Stands below.length rest frame.base) (proto : Prototype)
    (offset : Nat) :
    Ends (execute natives callBack proto offset .ret ctx)
      (fun _ c => ∃ inner, Calling below outer inner c)
      fun _ c => Spares below outer c := by
  have hreturn : ∀ result c, Within below (outer ++ rest.reverse) frame c →
      Ends (returnValue result c) (fun _ d =>
        ∃ inner, Calling below outer inner d)
        fun _ d => Spares below outer d := fun result c hc =>
    (hc.ends_returnValue hstands result).mono (fun _ d hd => ⟨rest, hd⟩)
      fun _ _ he => he
  simp only [execute]
  refine (ends_innermost_within h).bind fun found c ⟨hc, _, hlocals⟩ => ?_
  rw [hc, ends_bind, ends_get, hlocals]
  split
  · next hroom =>
    exact ((h.ends_popTop hroom).mono (fun _ _ hc => hc)
      fun _ _ he => he.spares_outer).bind hreturn
  · exact hreturn .nil ctx h

/-- A turn goes on with the call, whatever code is at hand. -/
theorem Calling.ends_turn (hnatives : natives.Balanced)
    (hcallBack : callBack.Isolated)
    (h : Calling below outer (frame :: rest) ctx) (proto : Prototype) :
    Ends (turn natives callBack proto ctx)
      (fun _ c => ∃ inner, Calling below outer inner c)
      fun _ c => Spares below outer c := by
  have hwithin := h.within
  have hstands : Stands below.length rest frame.base := h.stands.2
  simp only [turn]
  refine (ends_innermost_within hwithin).bind fun found c hfound => ?_
  rw [hfound.1]
  cases proto.code[found.ip]? with
  | none =>
    exact (hwithin.ends_returnValue hstands .nil).mono
      (fun _ d hd => ⟨rest, hd⟩) fun _ _ he => he
  | some byte =>
    dsimp only
    cases Opcode.ofByte? byte with
    | none => exact h.spares
    | some op =>
      have hstart : Sheltered (do
          report proto found.ip op
          moveTo (found.ip + op.length)) :=
        parts_sheltered.bind (parts_sheltered.report proto found.ip op)
          fun _ => sheltered_moveTo _
      have hmoved := (hstart _ _ _ _ hwithin).mono (fun _ _ hd => hd)
        fun _ _ he => he.spares_outer
      dsimp only
      rw [← bind_assoc]
      refine hmoved.bind fun _ d hd => ?_
      by_cases hcall : op = .call
      · rw [hcall]
        exact hd.ends_execute_call hnatives hcallBack hstands proto found.ip
      · by_cases hret : op = .ret
        · rw [hret]
          exact hd.ends_execute_ret hstands proto found.ip
        · exact (sheltered_execute proto found.ip hcall hret _ _ _ _ hd).mono
            (fun _ e he => Calling.of_within hstands he)
            fun _ _ he => he.spares_outer

/-- The loop ends with the result in the callee's slot, or fails with everything
there that was there before the call. -/
theorem Calling.ends_loop {budget : Nat} (hnatives : natives.Balanced)
    (hcall : ∀ less < budget, CallBack.Isolated (call natives less))
    (h : Calling below outer inner ctx) (depth : Nat) (proto : Prototype) :
    Ends (loop natives budget outer.length depth proto ctx)
      (fun _ c => Calling below outer [] c)
      fun _ c => Spares below outer c := by
  induction budget generalizing inner depth proto ctx with
  | zero => exact h.spares
  | succ budget ih =>
    have hsize : ctx.frames.size = outer.length + inner.length := by
      rw [← Array.length_toList, h.frames, List.length_append,
        List.length_reverse]
    cases inner with
    | nil =>
      have hentry : ctx.frames.size ≤ outer.length := Nat.le_of_eq hsize
      rw [loop_of_le hentry]
      exact h
    | cons frame rest =>
      have hentry : ¬ctx.frames.size ≤ outer.length := by
        rw [hsize, List.length_cons]
        omega
      rw [loop_round hentry]
      refine (h.ends_turn hnatives
        (hcall budget (Nat.lt_succ_self budget)) _).bind fun _ c hturned => ?_
      obtain ⟨inner, hc⟩ := hturned
      exact ih (fun less hless => hcall less (Nat.lt_succ_of_lt hless)) hc _ _

end Calling

theorem shrink_eq_of_below {xs ys : Array α} {n : Nat}
    (h : xs.toList <+: ys.toList) (hn : xs.size = n) : ys.shrink n = xs := by
  apply Array.toList_inj.1
  rw [Array.toList_shrink, ← hn, ← Array.length_toList]
  exact (List.prefix_iff_eq_take.1 h).symm

theorem exists_push_of_below {xs ys : Array α} (h : xs.toList <+: ys.toList)
    (hsize : ys.size = xs.size + 1) : ∃ x, ys = xs.push x := by
  obtain ⟨rest, hrest⟩ := h
  have hlength : rest.length = 1 := by
    have := congrArg List.length hrest
    simp only [List.length_append, Array.length_toList] at this
    omega
  obtain ⟨x, rfl⟩ := List.length_eq_one_iff.1 hlength
  exact ⟨x, Array.toList_inj.1 (by rw [Array.toList_push, hrest])⟩

theorem ends_enter_isolated {budget slot : Nat} (hnatives : natives.Balanced)
    (hcallBack : CallBack.Isolated (call natives budget))
    (hstack : below <+: ctx.stack.toList) (hslot : below.length = slot)
    (hroom : slot < ctx.stack.size) (argumentCount : Nat) :
    Ends (enter natives budget slot argumentCount ctx)
      (fun _ c => ∃ inner, Calling below ctx.frames.toList inner c)
      fun _ c => Spares below ctx.frames.toList c := by
  have hcollected : Ends (collectIfDue ctx)
      (fun _ c => c.stack = ctx.stack ∧ c.frames = ctx.frames)
      fun _ c => Spares below ctx.frames.toList c := by
    rw [collectIfDue, ends_bind, ends_get]
    split
    · exact ⟨rfl, rfl⟩
    · exact ⟨rfl, rfl⟩
  refine hcollected.bind fun _ c hc => ?_
  obtain ⟨hsame, hframes⟩ := hc
  have hinner :
      c.frames.toList = ctx.frames.toList ++ ([] : List Frame).reverse := by
    rw [hframes, List.reverse_nil, List.append_nil]
  exact ends_startCall_isolated hnatives hcallBack (hsame ▸ hstack) hinner
    (hslot ▸ rfl) (hsame ▸ hroom)

theorem Calling.ends_finish {budget : Nat} {inner : List Frame}
    (hnatives : natives.Balanced)
    (hcall : ∀ less < budget, CallBack.Isolated (call natives less))
    (h : Calling below outer inner ctx) :
    Ends (finish natives budget outer.length ctx)
      (fun _ c => Calling below outer [] c)
      fun _ c => Spares below outer c := by
  simp only [finish]
  rw [ends_bind, ends_get]
  cases hback : ctx.frames.back? with
  | none =>
    have hempty : ctx.frames.toList = [] := by
      rw [Array.back?_eq_none_iff.1 hback]
    obtain ⟨-, hinner⟩ := List.append_eq_nil_iff.1 (h.frames.symm.trans hempty)
    exact List.reverse_eq_nil_iff.1 hinner ▸ h
  | some frame =>
    dsimp only
    rw [ends_bind, ends_get]
    exact h.ends_loop hnatives hcall _ _

/-- A call with so much budget is protected if the calls with less are. -/
theorem ends_call_isolated {budget argumentCount : Nat}
    (hnatives : natives.Balanced)
    (hcall : ∀ less ≤ budget, CallBack.Isolated (call natives less))
    (hroom : argumentCount < ctx.stack.size) :
    Ends (call natives (budget + 1) argumentCount ctx)
      (fun _ c => c.frames = ctx.frames ∧ ∃ result,
        c.stack =
          (ctx.stack.shrink (ctx.stack.size - (argumentCount + 1))).push result)
      fun _ c => c.frames = ctx.frames ∧
        c.stack = ctx.stack.shrink (ctx.stack.size - (argumentCount + 1)) := by
  obtain ⟨slot, hslot⟩ : ∃ slot, slot = ctx.stack.size - (argumentCount + 1) :=
    ⟨_, rfl⟩
  have hslot' : ctx.stack.size - argumentCount - 1 = slot := by omega
  have hsize : (ctx.stack.shrink slot).size = slot := by
    rw [Array.size_shrink]
    omega
  have hcut : (ctx.stack.shrink slot).toList <+: ctx.stack.toList := by
    rw [Array.toList_shrink]
    exact List.take_prefix _ _
  have hentry : ctx.frames.toList.length = ctx.frames.size :=
    Array.length_toList
  have hentered := ends_enter_isolated hnatives
    (hcall budget (Nat.le_refl budget)) hcut (Array.length_toList.trans hsize)
    (by omega) argumentCount
  rw [call_eq hroom, hslot', ← hslot, ← hentry]
  refine ends_unwinding ((hentered.bind fun _ c ⟨inner, hc⟩ =>
    hc.ends_finish hnatives
      fun less hless => hcall less (Nat.le_of_lt hless)).mono
      (fun _ c hc => ?_) fun e c hc => ?_)
  · have hheight : c.stack.size = (ctx.stack.shrink slot).size + 1 := by
      have hstands : c.stack.size = (ctx.stack.shrink slot).toList.length + 1 :=
        hc.stands
      rwa [Array.length_toList] at hstands
    exact ⟨Array.toList_inj.1 (hc.frames.trans (List.append_nil _)),
      exists_push_of_below hc.stack hheight⟩
  · exact ⟨shrink_eq_of_below hc.frames hentry.symm,
      shrink_eq_of_below hc.stack hsize⟩

/-- Calls are protected with every budget, so native functions may rely on
it. -/
theorem isolated_call (hnatives : natives.Balanced) (budget : Nat) :
    CallBack.Isolated (call natives budget) := by
  induction budget using Nat.strongRecOn with
  | ind budget ih =>
    cases budget with
    | zero => exact ⟨fun _ _ _ => ⟨rfl, Or.inr ⟨rfl, rfl⟩⟩, fun _ _ _ => rfl⟩
    | succ budget =>
      refine ⟨fun ctx argumentCount hroom => ?_,
        fun ctx argumentCount hroom => ?_⟩
      · exact (ends_call_isolated hnatives
          (fun less hless => ih less (Nat.lt_succ_of_le hless)) hroom).mono
          (fun _ _ hc => hc) fun _ _ he => ⟨he.1, Or.inl he.2⟩
      · rw [call, ends_bind, ends_get]
        rw [if_pos hroom]
        exact rfl

/-- Whatever a call runs and however it ends, the frames are those from before
it, the values below its callee are too, and in the place of the callee and its
arguments there is one result, or nothing if it failed. -/
theorem call_isolated (hnatives : natives.Balanced) (budget argumentCount : Nat)
    (hroom : argumentCount < ctx.stack.size) :
    Ends (call natives (budget + 1) argumentCount ctx)
      (fun _ c => c.frames = ctx.frames ∧ ∃ result,
        c.stack =
          (ctx.stack.shrink (ctx.stack.size - (argumentCount + 1))).push result)
      fun _ c => c.frames = ctx.frames ∧
        c.stack = ctx.stack.shrink (ctx.stack.size - (argumentCount + 1)) :=
  ends_call_isolated hnatives (fun less _ => isolated_call hnatives less) hroom

end Machine

/-! ## Native functions -/

namespace Native

open Context

theorem balanced_ofQuery (f : Context → List Value → Except String Value) :
    Balanced (ofQuery f) :=
  fun _ _ _ _ => ⟨List.prefix_refl _, rfl⟩

theorem balanced_standard : Natives.Balanced standard := by
  intro name native hnative
  simp only [standard] at hnative
  split at hnative <;> cases hnative
  all_goals exact balanced_ofQuery _

theorem ends_forM_push_eq (values : List Value) (ctx : Context)
    {onError : RuntimeError → Context → Prop} :
    Ends (values.forM push ctx)
      (fun _ c =>
        c.stack = ctx.stack ++ values.toArray ∧ c.frames = ctx.frames)
      onError := by
  induction values generalizing ctx with
  | nil => exact ⟨(Array.append_empty).symm, rfl⟩
  | cons value rest ih =>
    rw [List.forM]
    have hpushed : Ends (push value ctx)
        (fun _ c => c.stack = ctx.stack.push value ∧ c.frames = ctx.frames)
        onError := ⟨rfl, rfl⟩
    refine hpushed.bind fun _ c hc => ?_
    obtain ⟨hstack, hframes⟩ := hc
    refine (ih c).mono (fun _ d hd => ⟨?_, hd.2.trans hframes⟩) fun _ _ he => he
    rw [hd.1, hstack]
    simp

/-- A native function that pushes a function and its arguments, calls it, and
takes the result off again. -/
theorem balanced_pcall : Balanced pcall := by
  intro callBack hcallBack ctx arguments
  cases arguments with
  | nil => exact ⟨List.prefix_refl _, rfl⟩
  | cons function others =>
    simp only [pcall]
    refine (ends_forM_push_eq (function :: others) ctx).bind fun _ c hc => ?_
    obtain ⟨hstack, hframes⟩ := hc
    have hheight : c.stack.size = ctx.stack.size + (others.length + 1) := by
      rw [hstack, Array.size_append]
      rfl
    have hprefix : ctx.stack.toList <+: c.stack.toList := by
      rw [hstack, Array.toList_append]
      exact List.prefix_append _ _
    have hcut :
        c.stack.shrink (c.stack.size - (others.length + 1)) = ctx.stack :=
      Machine.shrink_eq_of_below hprefix (by omega)
    have hprotected :
        Ends ((do callBack others.length; popTop : Action Value) c)
          (fun _ d => ctx.Retains d) fun _ d => ctx.Retains d := by
      rw [ends_bind]
      refine (hcallBack.room c others.length (by omega)).mono
        (fun _ d hcalled => ?_) fun e d hfailed => ⟨?_, hfailed.1.trans hframes⟩
      · obtain ⟨hsame, result, hd⟩ := hcalled
        rw [hcut] at hd
        simp only [popTop]
        rw [hd, Array.back?_push, Array.pop_push]
        exact ⟨List.prefix_refl _, hsame.trans hframes⟩
      · rw [hcut] at hfailed
        rcases hfailed.2 with hd | ⟨-, hd⟩
        · exact hd ▸ List.prefix_refl _
        · exact hd ▸ hprefix
    simp only [protect]
    cases hresult : (do callBack others.length; popTop : Action Value) c with
    | ok value d => exact hprotected.ok hresult
    | error e d =>
      have hd := hprotected.error hresult
      cases e <;> exact hd

theorem balanced_probe : Natives.Balanced probe := by
  intro name native hnative
  simp only [probe] at hnative
  split at hnative <;> cases hnative
  · exact fun _ _ _ _ => ⟨List.prefix_refl _, rfl⟩
  · exact fun _ _ _ _ => ⟨List.prefix_refl _, rfl⟩
  · exact fun _ _ _ _ => ⟨List.prefix_refl _, rfl⟩
  · exact fun _ _ _ _ => ⟨List.prefix_refl _, rfl⟩
  · exact fun _ _ _ _ => ⟨List.prefix_refl _, rfl⟩
  · exact balanced_pcall

end Native

/-! ## A protected call of faulty code -/

namespace Machine

open Context

/-- A number, and above it a protected call of a function that pops more than it
pushed. -/
def unbalanced : Context :=
  holding [.table .empty, .closure ⟨{ code := #[1, 4, 4] }, #[]⟩]
    #[.integer 7, .native "pcall", .function ⟨1⟩]

theorem isOk_call_unbalanced :
    (failureOf (call Native.probe 9 1 unbalanced)).isNone = true := by
  decide +kernel

theorem call_isolated_unbalanced : 1 < unbalanced.stack.size ∧
    ∃ c result, call Native.probe 9 1 unbalanced = .ok () c ∧
      c.frames = unbalanced.frames ∧ c.stack = #[.integer 7].push result := by
  have hroom : 1 < unbalanced.stack.size := by decide
  have hcall := call_isolated Native.balanced_probe 8 1 hroom
  refine ⟨hroom, ?_⟩
  cases hresult : call Native.probe 9 1 unbalanced with
  | ok _ c =>
    obtain ⟨hframes, result, hstack⟩ := hcall.ok hresult
    exact ⟨c, result, rfl, hframes, hstack⟩
  | error e c =>
    have hok := isOk_call_unbalanced
    rw [hresult] at hok
    cases hok

end Machine

end Isolate
