import Isolate.Proofs.Machine.Turn

/-!
# The turns of a call

The loop of a call is read through the list of its turns: what prototype was at
hand, and the context that the turn began in.  Turns follow the recursion of the
loop, and one invariant of the loop says what every turn finds.
-/

namespace Isolate.Machine

open Context Code

variable {good : Prototype → Prop} {frame : Frame} {inner outer : List Frame}
  {ctx : Context} {natives : Natives} {callBack : CallBack}

/-! ## One turn -/

/-- Where the instruction at an offset jumps to, if there is one that does. -/
def targetAt? (proto : Prototype) (offset : Nat)
    (top : Option Value) : Option Nat :=
  (proto.code.opcodeAt? offset).bind (jumpTarget? proto offset top)

/-- The offset behind the instruction at an offset. -/
def offsetBehind (proto : Prototype) (offset : Nat) : Nat :=
  offset + ((proto.code.opcodeAt? offset).map Opcode.length).getD 0

theorem boundary_offsetBehind {proto : Prototype} {offset : Nat}
    (h : Boundary proto.code offset) :
    Boundary proto.code (offsetBehind proto offset) := by
  simp only [offsetBehind]
  cases hop : proto.code.opcodeAt? offset with
  | none => exact h
  | some op => exact h.next hop

/-- The part of a turn before the instruction is executed. -/
def fetch (proto : Prototype) (offset : Nat) (op : Opcode) : Action Unit := do
  report proto offset op
  moveTo (offset + op.length)

theorem ends_fetch (h : ctx.Runs good (frame :: outer)) (op : Opcode) :
    Ends (fetch frame.proto frame.ip op ctx)
      (fun _ c =>
        c.Runs good ({ frame with ip := frame.ip + op.length } :: outer) ∧
          c.stack = ctx.stack)
      (Fails good (frame :: outer) (frame.proto.Decodes frame.ip op)) := by
  simp only [fetch, report]
  have hmove : ∀ c : Context, c.Runs good (frame :: outer) →
      c.stack = ctx.stack → Ends (moveTo (frame.ip + op.length) c)
        (fun _ c =>
          c.Runs good ({ frame with ip := frame.ip + op.length } :: outer) ∧
            c.stack = ctx.stack)
        (Fails good (frame :: outer) (frame.proto.Decodes frame.ip op)) :=
    fun c hc hstack =>
    (ends_moveTo hc _).mono (fun _ c' hc' => ⟨hc'.1, hc'.2.trans hstack⟩)
      fun _ _ he => he
  rw [ends_bind, ends_bind, ends_get]
  split
  · cases hoperands : frame.proto.code.operandsAt? (frame.ip + 1) op.widths with
    | none =>
      refine ⟨fun hd => ?_, h⟩
      obtain ⟨operands, hsome, -⟩ := hd
      cases hoperands.symm.trans hsome
    | some operands => exact hmove _ (h.note _) rfl
  · exact hmove ctx h rfl

theorem turn_eq_of_opcode {proto : Prototype} {op : Opcode}
    (h : ctx.Runs good (frame :: outer))
    (hop : proto.code.opcodeAt? frame.ip = some op) :
    turn natives callBack proto ctx =
      (fetch proto frame.ip op >>= fun _ =>
        execute natives callBack proto frame.ip op) ctx := by
  obtain ⟨hlt, hbyte⟩ := opcodeAt?_eq_some_iff.1 hop
  change EStateM.bind innermost _ ctx = _
  simp only [EStateM.bind]
  rw [innermost_eq h]
  dsimp only
  rw [Array.getElem?_eq_getElem hlt]
  dsimp only
  rw [hbyte]
  change (report proto frame.ip op >>= fun _ =>
    moveTo (frame.ip + op.length) >>= fun _ =>
      execute natives callBack proto frame.ip op) ctx = _
  rw [fetch, bind_assoc]

/-- What a turn does to the innermost frame. -/
theorem ends_turn (hgood : Hereditary good) (hnatives : natives.Proper)
    (hcallBack : Dependable good callBack)
    (h : ctx.Runs good (frame :: outer)) :
    Ends (turn natives callBack frame.proto ctx)
      (fun _ c => Moves good (targetAt? frame.proto frame.ip ctx.stack.back?)
        { frame with ip := offsetBehind frame.proto frame.ip } outer c)
      (fun e c => (Boundary frame.proto.code frame.ip → ¬e.Overreaches) ∧
        ∃ ip, c.Runs good ({ frame with ip } :: outer)) := by
  have hverified := Prototype.verifyCode_of_verify
    (hgood.verified _ (h.runnable frame List.mem_cons_self).good)
  simp only [targetAt?, offsetBehind]
  cases hop : frame.proto.code.opcodeAt? frame.ip with
  | some op =>
    have hdecodes : Boundary frame.proto.code frame.ip →
        frame.proto.Decodes frame.ip op := by
      intro hboundary
      rcases Prototype.decodes_of_boundary hverified hboundary with
        hend | ⟨op', hop', hdecodes⟩
      · obtain ⟨hlt, -⟩ := opcodeAt?_eq_some_iff.1 hop
        omega
      · obtain rfl : op = op' := Option.some.inj (hop.symm.trans hop')
        exact hdecodes
    rw [turn_eq_of_opcode h hop, ends_bind]
    refine (ends_fetch h op).mono (fun _ c hc => ?_) fun e c he => ?_
    · rw [← hc.2]
      refine (ends_execute hgood hnatives hcallBack hc.1 frame.ip op).mono
        (fun _ _ hc' => hc') fun e c' he => ?_
      exact ⟨fun hboundary => he.within (hdecodes hboundary), _, he.runs⟩
    · exact ⟨fun hboundary => he.within (hdecodes hboundary), frame.ip, he.runs⟩
  | none =>
    refine (ends_innermost h).bind fun found c hc => ?_
    rw [hc.1, hc.2]
    cases hbyte : frame.proto.code[frame.ip]? with
    | none =>
      exact (ends_returnValue h .nil).mono
        (fun _ _ hc' => .leaves rfl hc'.1 hc'.2) fun _ _ he => he
    | some byte =>
      dsimp only
      rw [opcodeAt?, hbyte] at hop
      have hop : Opcode.ofByte? byte = none := hop
      rw [hop]
      refine ⟨fun hboundary => ?_, frame.ip, h⟩
      obtain ⟨hlt, hcode⟩ := Array.getElem?_eq_some_iff.1 hbyte
      rcases Prototype.decodes_of_boundary hverified hboundary with
        hend | ⟨op, hsome, -⟩
      · omega
      · obtain ⟨_, hsome⟩ := opcodeAt?_eq_some_iff.1 hsome
        rw [hcode, hop] at hsome
        cases hsome

/-! ## The invariant of the loop -/

/-- The frames of a call stand on its callee slot: when the last of them leaves,
the result lies there. -/
def StandsOn (slot : Nat) : List Frame → Nat → Prop
  | [], height => height = slot + 1
  | frame :: rest, _ => StandsOn slot rest frame.base

theorem StandsOn.slot_le {slot height : Nat} (h : StandsOn slot inner height)
    (hlayout : Layout (inner ++ outer) height) : slot ≤ height := by
  induction inner generalizing height with
  | nil =>
    have h : height = slot + 1 := h
    omega
  | cons frame rest ih =>
    obtain ⟨hbase, hlocals, hrest⟩ := hlayout
    have hfloor := hrest.floor_le
    have := ih h (hrest.of_floor_le (by omega))
    simp only [Frame.localsEnd] at hlocals
    omega

/-- The invariant of the loop of a call: its frames are `inner`, those that were
there before it are `outer`, and the prototype at hand is the innermost one
unless the number of frames has changed. -/
structure Looping (good : Prototype → Prop) (inner outer : List Frame)
    (slot depth : Nat) (proto : Prototype) (ctx : Context) : Prop where
  runs : ctx.Runs good (inner ++ outer)
  stands : StandsOn slot inner ctx.stack.size
  atHand : ∀ frame rest, inner = frame :: rest → ctx.frames.size = depth →
    proto = frame.proto

/-- All frames stand at boundaries. -/
def Aligned (frames : List Frame) : Prop :=
  ∀ frame ∈ frames, Boundary frame.proto.code frame.ip

theorem Aligned.cons {others : List Frame}
    (hboundary : Boundary frame.proto.code frame.ip) (h : Aligned others) :
    Aligned (frame :: others) := by
  intro other hother
  rcases List.mem_cons.1 hother with rfl | hother
  · exact hboundary
  · exact h other hother

theorem Aligned.head {others : List Frame} (h : Aligned (frame :: others)) :
    Boundary frame.proto.code frame.ip :=
  h frame List.mem_cons_self

theorem Aligned.tail {others : List Frame} (h : Aligned (frame :: others)) :
    Aligned others :=
  fun other hother => h other (List.mem_cons_of_mem frame hother)

variable {slot depth : Nat} {proto : Prototype} {rest : List Frame}

theorem Looping.slot_le (h : Looping good inner outer slot depth proto ctx) :
    slot ≤ ctx.stack.size :=
  h.stands.slot_le h.runs.layout

/-- The step of the loop: what holds after a turn. -/
theorem Looping.ends_turn (hgood : Hereditary good) (hnatives : natives.Proper)
    (hcallBack : Dependable good callBack)
    (h : Looping good (frame :: rest) outer slot depth proto ctx) :
    Ends (turn natives callBack frame.proto ctx)
      (fun _ c =>
        ∃ inner, Looping good inner outer slot ctx.frames.size frame.proto c ∧
          (∀ target,
            targetAt? frame.proto frame.ip ctx.stack.back? = some target →
            inner = { frame with ip := target } :: rest) ∧
          (Aligned (frame :: rest) →
            (∀ target,
              targetAt? frame.proto frame.ip ctx.stack.back? = some target →
              Boundary frame.proto.code target) → Aligned inner))
      (fun e c => (Boundary frame.proto.code frame.ip → ¬e.Overreaches) ∧
        ∃ inner, c.Runs good (inner ++ outer) ∧ slot ≤ c.stack.size) := by
  have hruns : ctx.Runs good (frame :: (rest ++ outer)) := h.runs
  refine (Machine.ends_turn hgood hnatives hcallBack hruns).mono
    (fun _ c hc => ?_) fun e c ⟨he, ip, hc⟩ => ?_
  · have hbehind : Aligned (frame :: rest) →
        Boundary frame.proto.code (offsetBehind frame.proto frame.ip) :=
      fun haligned =>
      boundary_offsetBehind haligned.head
    cases hc with
    | stays hc =>
      refine ⟨_ :: rest, ⟨hc, h.stands, ?_⟩, fun target htarget => ?_,
        fun haligned hboundary => ?_⟩
      · rintro _ _ ⟨rfl, rfl⟩ -
        rfl
      · rw [htarget]
        rfl
      · refine haligned.tail.cons ?_
        cases htarget : targetAt? frame.proto frame.ip ctx.stack.back? with
        | none => exact hbehind haligned
        | some target => exact hboundary target htarget
    | enters new htarget hip hc =>
      refine ⟨new :: _ :: rest, ⟨hc, h.stands, ?_⟩, fun target hsome => ?_,
        fun haligned _ => ?_⟩
      · intro _ _ _ hsize
        rw [hc.size_eq, hruns.size_eq] at hsize
        exact absurd hsize (Nat.succ_ne_self _)
      · cases htarget.symm.trans hsome
      · refine (haligned.tail.cons (hbehind haligned)).cons ?_
        rw [hip]
        exact .start
    | leaves htarget hc hsize =>
      refine ⟨rest, ⟨hc, ?_, ?_⟩, fun target hsome => ?_,
        fun haligned _ => haligned.tail⟩
      · rw [hsize]
        exact h.stands
      · intro _ _ _ hdepth
        rw [hc.size_eq, hruns.size_eq] at hdepth
        exact absurd hdepth.symm (Nat.succ_ne_self _)
      · cases htarget.symm.trans hsome
  · refine ⟨he, { frame with ip } :: rest, hc, ?_⟩
    have hstands : StandsOn slot ({ frame with ip } :: rest) c.stack.size :=
      h.stands
    exact hstands.slot_le hc.layout

end Isolate.Machine
