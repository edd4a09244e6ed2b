import Isolate.Proofs.Machine.Discipline

/-!
# Suspended frames

A frame on which another one stands waits behind the call that it made.  So a
native function that is called finds every frame behind a call, the innermost
one included.
-/

namespace Isolate

/-- The frame stands behind a call. -/
def Frame.Suspended (frame : Frame) : Prop :=
  ∃ offset, frame.proto.code.opcodeAt? offset = some .call ∧
    frame.ip = offset + Opcode.call.length

/-- All frames but the innermost one are suspended. -/
def Context.OuterSuspended (ctx : Context) : Prop :=
  ∀ frame ∈ ctx.frames.toList.reverse.tail, frame.Suspended

namespace Machine

open Context Code

variable {good : Prototype → Prop} {frame : Frame}
  {inner outer frames : List Frame} {ctx c : Context} {natives : Natives}
  {callBack : CallBack} {slot depth argumentCount : Nat} {proto : Prototype}

theorem outerSuspended_iff (h : ctx.Runs good frames) :
    ctx.OuterSuspended ↔ ∀ other ∈ frames.tail, other.Suspended := by
  rw [OuterSuspended, h.frames_eq]

theorem suspended_of_tail (hall : ∀ other ∈ frames, other.Suspended) :
    ∀ other ∈ frames.tail, other.Suspended :=
  fun other hother => hall other (List.mem_of_mem_tail hother)

/-! ## One turn -/

/-- A return leaves the frames below. -/
theorem ends_execute_ret_runs (h : ctx.Runs good (frame :: outer))
    (proto : Prototype) (offset : Nat) :
    Ends (execute natives callBack proto offset .ret ctx)
      (fun _ c => c.Runs good outer) fun _ _ => True := by
  have hreturn : ∀ (value : Value) (c : Context), c.Runs good (frame :: outer) →
      Ends (returnValue value c) (fun _ c => c.Runs good outer)
        fun _ _ => True :=
    fun value c hc =>
      (ends_returnValue hc value).mono (fun _ _ hd => hd.1) fun _ _ he => he
  refine (ends_innermost h).bind fun found c hc => ?_
  rw [hc.1, hc.2, ends_bind, ends_get]
  split
  · next hheight =>
    rw [ends_bind]
    simp only [popTop]
    cases ctx.stack.back? with
    | none => trivial
    | some value =>
      refine hreturn value _ (h.withStack ?_)
      rw [Array.size_pop]
      exact Nat.le_sub_one_of_lt hheight
  · exact hreturn .nil ctx h

/-- Only a call puts a frame on another one, and that one stands
behind the call then. -/
theorem ends_turn_suspended (hgood : Hereditary good)
    (hnatives : natives.Proper) (hcallBack : Dependable good callBack)
    (h : ctx.Runs good (frame :: outer)) (houter : ctx.OuterSuspended) :
    Ends (turn natives callBack frame.proto ctx) (fun _ c => c.OuterSuspended)
      fun _ _ => True := by
  rw [outerSuspended_iff h] at houter
  have hleft : ∀ c : Context, c.Runs good outer →
      c.OuterSuspended := fun c hc =>
    (outerSuspended_iff hc).2 (suspended_of_tail houter)
  cases hop : frame.proto.code.opcodeAt? frame.ip with
  | none =>
    refine (ends_innermost h).bind fun found d hd => ?_
    rw [hd.1, hd.2]
    cases hbyte : frame.proto.code[frame.ip]? with
    | none =>
      exact (ends_returnValue h .nil).mono (fun _ c hc => hleft c hc.1)
        fun _ _ he => he
    | some byte =>
      rw [opcodeAt?, hbyte, Option.bind_some] at hop
      dsimp only
      rw [hop]
      trivial
  | some op =>
    rw [turn_eq_of_opcode h hop]
    refine ((ends_fetch h op).mono (fun _ _ hc => hc) fun _ _ _ => trivial).bind
      fun _ c hc => ?_
    by_cases hcall : op = .call
    · subst hcall
      refine (ends_execute_call hgood hnatives hcallBack hc.1 frame.ip).mono
        (fun _ d hd => ?_) fun _ _ _ => trivial
      cases hd with
      | stays hd => exact (outerSuspended_iff hd).2 houter
      | enters new _ _ hd =>
        refine (outerSuspended_iff hd).2 fun other hother => ?_
        rcases List.mem_cons.1 hother with rfl | hother
        · exact ⟨frame.ip, hop, rfl⟩
        · exact houter other hother
      | leaves _ hd _ => exact hleft d hd
    · by_cases hret : op = .ret
      · subst hret
        exact (ends_execute_ret_runs hc.1 frame.proto frame.ip).mono
          (fun _ d hd => hleft d hd) fun _ _ he => he
      · have hsheltered :
            Sheltered (execute natives callBack frame.proto frame.ip op) :=
          sheltered_execute frame.proto frame.ip hcall hret
        refine (hsheltered _ _ _ _ (within_of_runs hc.1)).mono
          (fun _ d hd => ?_) fun _ _ _ => trivial
        obtain ⟨ip, hframes⟩ := hd.frames
        rw [OuterSuspended, hframes, List.reverse_append, List.reverse_reverse]
        exact houter

/-! ## A whole call -/

/-- A call puts at most one frame on those that are there. -/
theorem ends_enter_suspended (hgood : Hereditary good)
    (hnatives : natives.Proper)
    (hcallBack : Dependable good (call natives budget))
    (h : ctx.Runs good frames) (hfloor : stackFloor frames ≤ slot)
    (hslot : slot < ctx.stack.size)
    (hsuspended : ∀ frame ∈ frames, frame.Suspended) :
    Ends (enter natives budget slot argumentCount ctx)
      (fun _ c => c.OuterSuspended) fun _ _ => True := by
  refine (ends_collectIfDue h).bind fun _ c hc => ?_
  refine (ends_startCall hgood hnatives hcallBack hc.1 hfloor
    (hc.2.1 ▸ hslot)).mono (fun _ d hd => ?_) fun _ _ _ => trivial
  rcases hd with hd | ⟨new, -, -, hd⟩
  · exact (outerSuspended_iff hd.1).2 (suspended_of_tail hsuspended)
  · exact (outerSuspended_iff hd).2 hsuspended

/-- At each turn all frames but the innermost one are suspended. -/
theorem outerSuspended_of_turnsOf (hgood : Hereditary good)
    (hnatives : natives.Proper) (h : ctx.Runs good frames)
    (hroom : stackFloor frames + argumentCount < ctx.stack.size)
    (hsuspended : ∀ frame ∈ frames, frame.Suspended) (budget : Nat) :
    ∀ t ∈ turnsOf natives budget argumentCount ctx,
      ∃ frame rest, t.ctx.Runs good (frame :: rest) ∧ t.proto = frame.proto ∧
        t.ctx.OuterSuspended := by
  refine holds_turnsOf hgood hnatives (fun budget hruns houter => ?_) h hroom
    (fun budget => ?_) budget
  · exact ends_turn_suspended hgood hnatives
      (dependable_call hgood hnatives budget) hruns houter
  · exact ends_enter_suspended hgood hnatives
      (dependable_call hgood hnatives budget) h (by omega) (by omega) hsuspended

/-- The frame on which a turn runs, and those that wait below it. -/
theorem suspended_of_turnsOf (hgood : Hereditary good)
    (hnatives : natives.Proper) (h : ctx.Runs good frames) {budget : Nat}
    (hroom : stackFloor frames + argumentCount < ctx.stack.size)
    (hsuspended : ∀ frame ∈ frames, frame.Suspended) {t : Turn}
    (ht : t ∈ turnsOf natives budget argumentCount ctx)
    (hframe : t.ctx.frames.back? = some frame) :
    ∃ rest, t.ctx.Runs good (frame :: rest) ∧ t.proto = frame.proto ∧
      ∀ other ∈ rest, other.Suspended := by
  obtain ⟨found, rest, hruns, hproto, houter⟩ :=
    outerSuspended_of_turnsOf hgood hnatives h hroom hsuspended budget t ht
  obtain rfl : found = frame :=
    Option.some.inj (hruns.back?.symm.trans hframe)
  exact ⟨rest, hruns, hproto, (outerSuspended_iff hruns).1 houter⟩

/-! ## Native functions that are called -/

/-- A native function is started in a context while a function is called: it is
that function itself, or a turn of the call calls it. -/
inductive StartsNative (natives : Natives) (budget argumentCount : Nat)
    (ctx : Context) (name : String) : Context → Prop
  | itself {c : Context} (hcollect : collectIfDue ctx = .ok () c)
    (hcallee : c.stack.getD (ctx.stack.size - argumentCount - 1) .nil =
      .native name) :
    StartsNative natives budget argumentCount ctx name c
  | turn {t : Turn} {frame : Frame} {count : Nat} {c : Context}
    (ht : t ∈ turnsOf natives budget argumentCount ctx)
    (hframe : t.ctx.frames.back? = some frame)
    (hop : t.proto.code.opcodeAt? frame.ip = some .call)
    (hcount : t.proto.code.byteAt? (frame.ip + 1) = some count)
    (hfetch : fetch t.proto frame.ip .call t.ctx = .ok () c)
    (hroom : frame.localsEnd + count + 1 ≤ c.stack.size)
    (hcallee : c.stack.getD (c.stack.size - (count + 1)) .nil = .native name) :
    StartsNative natives budget argumentCount ctx name c

/-- What such a turn does is to run the native function in that context. -/
theorem turn_eq_runNative (h : ctx.Runs good (frame :: outer)) {count : Nat}
    {name : String} (hop : frame.proto.code.opcodeAt? frame.ip = some .call)
    (hcount : frame.proto.code.byteAt? (frame.ip + 1) = some count)
    (hfetch : fetch frame.proto frame.ip .call ctx = .ok () c)
    (hroom : frame.localsEnd + count + 1 ≤ c.stack.size)
    (hcallee : c.stack.getD (c.stack.size - (count + 1)) .nil = .native name) :
    turn natives callBack frame.proto ctx =
      runNative natives callBack name (c.stack.size - (count + 1)) c := by
  have hruns := ((ends_fetch h .call).ok hfetch).1
  have hread : byteOperand frame.proto (frame.ip + 1) c = .ok count c := by
    rw [byteOperand, hcount]
    rfl
  have hget : (get : Action Context) c = .ok c c := rfl
  rw [turn_eq_of_opcode h hop, bind_of_ok hfetch, execute, bind_of_ok hread,
    bind_of_ok (innermost_eq hruns), bind_of_ok hget]
  have hlocals :
      ({ frame with ip := frame.ip + Opcode.call.length } : Frame).localsEnd +
        count + 1 ≤ c.stack.size := hroom
  rw [if_pos hlocals, startCall, bind_of_ok hget, hcallee]

/-- A native function is run in a context, with its value in a stack slot, by
the start of a call or by one of its turns. -/
inductive RunsNative (natives : Natives) (budget argumentCount : Nat)
    (ctx : Context) (name : String) (c : Context) : Prop
  | itself {slot : Nat} (hslot : slot = ctx.stack.size - argumentCount - 1)
    (hcallee : c.stack.getD slot .nil = .native name)
    (henter : ∀ less, enter natives less slot argumentCount ctx =
      runNative natives (call natives less) name slot c)
  | turn {t : Turn} {slot : Nat}
    (ht : t ∈ turnsOf natives budget argumentCount ctx)
    (hcallee : c.stack.getD slot .nil = .native name)
    (hturn : turn natives (call natives t.budget) t.proto t.ctx =
      runNative natives (call natives t.budget) name slot c)

/-- What is started runs, from the very context in which it was started. -/
theorem runsNative_of_startsNative (hgood : Hereditary good)
    (hnatives : natives.Proper) (h : ctx.Runs good frames) {budget : Nat}
    {name : String} (hroom : stackFloor frames + argumentCount < ctx.stack.size)
    (hsuspended : ∀ frame ∈ frames, frame.Suspended)
    (hstarts : StartsNative natives budget argumentCount ctx name c) :
    RunsNative natives budget argumentCount ctx name c := by
  cases hstarts with
  | itself hcollect hcallee =>
    apply RunsNative.itself rfl hcallee
    intro less
    rw [enter, bind_of_ok hcollect, startCall, get_bind, hcallee]
  | @turn t frame count c ht hframe hop hcount hfetch hslots hcallee =>
    obtain ⟨rest, hruns, hproto, -⟩ :=
      suspended_of_turnsOf hgood hnatives h hroom hsuspended ht hframe
    apply RunsNative.turn ht hcallee
    rw [hproto] at hop hcount hfetch ⊢
    exact turn_eq_runNative hruns hop hcount hfetch hslots hcallee

/-- A native function that is called finds every frame suspended, if the frames
below the call were. -/
theorem suspended_of_startsNative (hgood : Hereditary good)
    (hnatives : natives.Proper) (h : ctx.Runs good frames) {budget : Nat}
    {name : String} (hroom : stackFloor frames + argumentCount < ctx.stack.size)
    (hsuspended : ∀ frame ∈ frames, frame.Suspended)
    (hstarts : StartsNative natives budget argumentCount ctx name c) :
    ∀ frame ∈ c.frames.toList, frame.Suspended := by
  cases hstarts with
  | itself hcollect hcallee =>
    have hcollected : Ends (collectIfDue ctx) _ fun _ _ => True :=
      ends_collectIfDue h
    have hruns := (hcollected.ok hcollect).1
    rw [hruns.frames_toList]
    intro frame hframe
    exact hsuspended frame (List.mem_reverse.1 hframe)
  | @turn t frame count c ht hframe hop hcount hfetch =>
    obtain ⟨rest, hruns, hproto, hrest⟩ :=
      suspended_of_turnsOf hgood hnatives h hroom hsuspended ht hframe
    rw [hproto] at hop hfetch
    rw [((ends_fetch hruns .call).ok hfetch).1.frames_toList]
    intro other hother
    rcases List.mem_cons.1 (List.mem_reverse.1 hother) with rfl | hother
    · exact ⟨frame.ip, hop, rfl⟩
    · exact hrest other hother

end Machine

end Isolate
