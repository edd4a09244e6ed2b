import Isolate.Proofs.Machine.Loading
import Isolate.Proofs.Machine.Trace
import Isolate.Proofs.Native.Proper

/-!
# Running accepted code

A call of a function whose prototype was accepted keeps the invariant of the
context, for every budget and whatever its code does.  It decodes at instruction
boundaries, reads nothing past the tables of a prototype and fails for no such
reason exactly as long as no jump leads into the operands of an instruction,
which verification does not look at.
-/

namespace Isolate.Machine

open Context Code

variable {good : Prototype → Prop} {frame : Frame}
  {inner outer frames rest : List Frame} {ctx : Context} {natives : Natives}
  {slot depth budget argumentCount entry : Nat} {proto : Prototype}

/-! ## The turns of a call -/

/-- A turn that a loop takes: the budget of the calls that natives make in it,
the prototype at hand, and the context. -/
structure Turn where
  budget : Nat
  proto : Prototype
  ctx : Context

/-- The turns that the loop takes. -/
def turnsFrom (natives : Natives) :
    Nat → Nat → Nat → Prototype → Context → List Turn
  | 0, _, _, _, _ => []
  | budget + 1, entry, depth, proto, ctx =>
    if ctx.frames.size ≤ entry then []
    else
      let proto :=
        if ctx.frames.size = depth then proto
        else (ctx.frames.back?.map Frame.proto).getD proto
      ⟨budget, proto, ctx⟩ ::
        match turn natives (call natives budget) proto ctx with
        | .ok () next =>
          turnsFrom natives budget entry ctx.frames.size proto next
        | .error _ _ => []

/-- What a call does before its loop. -/
def enter (natives : Natives)
    (budget calleeSlot argumentCount : Nat) : Action Unit := do
  collectIfDue
  startCall natives (call natives budget) calleeSlot argumentCount

/-- The turns of a call, without those of the calls that natives make in
turn. -/
def turnsOf (natives : Natives) : Nat → Nat → Context → List Turn
  | 0, _, _ => []
  | budget + 1, argumentCount, ctx =>
    match enter natives budget (ctx.stack.size - argumentCount - 1)
        argumentCount ctx with
    | .ok () next =>
      match next.frames.back? with
      | some frame =>
        turnsFrom natives budget ctx.frames.size next.frames.size
          frame.proto next
      | none => []
    | .error _ _ => []

/-! ## One round of the loop -/

/-- The loop is over when it is back to the frames that were there before. -/
theorem loop_of_le (hentry : ctx.frames.size ≤ entry) :
    loop natives (budget + 1) entry depth proto ctx = .ok () ctx := by
  rw [loop, get_bind, if_pos hentry]
  rfl

/-- The prototype that a round of the loop has at hand. -/
def atHand (ctx : Context) (depth : Nat) (proto : Prototype) : Prototype :=
  if ctx.frames.size = depth then proto
  else (ctx.frames.back?.map Frame.proto).getD proto

theorem loop_round (hentry : ¬ctx.frames.size ≤ entry) :
    loop natives (budget + 1) entry depth proto ctx =
      (turn natives (call natives budget) (atHand ctx depth proto) >>= fun _ =>
        loop natives budget entry ctx.frames.size
            (atHand ctx depth proto)) ctx := by
  rw [loop, get_bind, if_neg hentry, atHand]
  by_cases hdepth : ctx.frames.size = depth
  · rw [if_pos hdepth, if_pos hdepth]
    rfl
  · rw [if_neg hdepth, if_neg hdepth]
    cases hback : ctx.frames.back? with
    | none =>
      rw [Array.back?_eq_none_iff.1 hback] at hentry
      exact absurd (Nat.zero_le entry) hentry
    | some frame =>
      rw [map_eq_pure_bind, bind_assoc, bind_of_ok (innermost_of_back? hback)]
      rfl

theorem turnsFrom_round (hentry : ¬ctx.frames.size ≤ entry) :
    turnsFrom natives (budget + 1) entry depth proto ctx =
      ⟨budget, atHand ctx depth proto, ctx⟩ ::
        match turn natives (call natives budget)
          (atHand ctx depth proto) ctx with
        | .ok () next =>
          turnsFrom natives budget entry ctx.frames.size
            (atHand ctx depth proto) next
        | .error _ _ => [] := by
  rw [turnsFrom, if_neg hentry]
  rfl

theorem atHand_of_back? (hback : ctx.frames.back? = some frame)
    (hatHand : ctx.frames.size = depth → proto = frame.proto) :
    atHand ctx depth proto = frame.proto := by
  rw [atHand]
  split
  · next hdepth => exact hatHand hdepth
  · rw [hback]
    rfl

/-- The loop takes a turn with the innermost frame. -/
theorem loop_succ (hentry : ¬ctx.frames.size ≤ entry)
    (hback : ctx.frames.back? = some frame)
    (hatHand : ctx.frames.size = depth → proto = frame.proto) :
    loop natives (budget + 1) entry depth proto ctx =
      (turn natives (call natives budget) frame.proto >>= fun _ =>
        loop natives budget entry ctx.frames.size frame.proto) ctx := by
  rw [loop_round hentry, atHand_of_back? hback hatHand]

theorem turnsFrom_succ (hentry : ¬ctx.frames.size ≤ entry)
    (hback : ctx.frames.back? = some frame)
    (hatHand : ctx.frames.size = depth → proto = frame.proto) :
    turnsFrom natives (budget + 1) entry depth proto ctx =
      ⟨budget, frame.proto, ctx⟩ ::
        match turn natives (call natives budget) frame.proto ctx with
        | .ok () next =>
          turnsFrom natives budget entry ctx.frames.size frame.proto next
        | .error _ _ => [] := by
  rw [turnsFrom_round hentry, atHand_of_back? hback hatHand]

theorem Looping.loop_nil (h : Looping good [] outer slot depth proto ctx) :
    loop natives (budget + 1) outer.length depth proto ctx = .ok () ctx :=
  loop_of_le (Nat.le_of_eq h.runs.size_eq)

theorem Looping.turnsFrom_nil (h : Looping good [] outer slot depth proto ctx) :
    turnsFrom natives budget outer.length depth proto ctx = [] := by
  cases budget with
  | zero => rfl
  | succ budget =>
    rw [turnsFrom]
    exact if_pos (Nat.le_of_eq h.runs.size_eq)

theorem Looping.length_lt_size
    (h : Looping good (frame :: rest) outer slot depth proto ctx) :
    ¬ctx.frames.size ≤ outer.length := by
  rw [h.runs.size_eq, List.length_append, List.length_cons]
  omega

theorem Looping.loop_cons
    (h : Looping good (frame :: rest) outer slot depth proto ctx) :
    loop natives (budget + 1) outer.length depth proto ctx =
      (turn natives (call natives budget) frame.proto >>= fun _ =>
        loop natives budget outer.length ctx.frames.size frame.proto) ctx := by
  have hruns : ctx.Runs good (frame :: (rest ++ outer)) := h.runs
  exact loop_succ h.length_lt_size hruns.back? (h.atHand frame rest rfl)

theorem Looping.turnsFrom_cons
    (h : Looping good (frame :: rest) outer slot depth proto ctx) :
    turnsFrom natives (budget + 1) outer.length depth proto ctx =
      ⟨budget, frame.proto, ctx⟩ ::
        match turn natives (call natives budget) frame.proto ctx with
        | .ok () next =>
          turnsFrom natives budget outer.length ctx.frames.size frame.proto next
        | .error _ _ => [] := by
  have hruns : ctx.Runs good (frame :: (rest ++ outer)) := h.runs
  exact turnsFrom_succ h.length_lt_size hruns.back? (h.atHand frame rest rfl)

/-! ## Calls keep the invariant -/

/-- The loop ends with the result in the callee's slot, or fails with the outer
frames as they were. -/
theorem Looping.ends_loop (hgood : Hereditary good) (hnatives : natives.Proper)
    (hcall : ∀ less < budget, Dependable good (call natives less))
    (h : Looping good inner outer slot depth proto ctx) :
    Ends (loop natives budget outer.length depth proto ctx)
      (fun _ c => c.Runs good outer ∧ c.stack.size = slot + 1)
      (fun _ c =>
        ∃ inner, c.Runs good (inner ++ outer) ∧ slot ≤ c.stack.size) := by
  induction budget generalizing inner depth proto ctx with
  | zero => exact ⟨inner, h.runs, h.slot_le⟩
  | succ budget ih =>
    cases inner with
    | nil =>
      rw [h.loop_nil]
      exact ⟨h.runs, h.stands⟩
    | cons frame rest =>
      have hcallBack := hcall budget (Nat.lt_succ_self budget)
      rw [h.loop_cons, ends_bind]
      refine (h.ends_turn hgood hnatives hcallBack).mono (fun _ c hc => ?_)
        fun e c he => he.2
      obtain ⟨inner, hinner, -⟩ := hc
      exact ih (fun less hless => hcall less (Nat.lt_succ_of_lt hless)) hinner

/-- A call enters the loop with at most one frame, at the start of its code. -/
theorem ends_enter (hgood : Hereditary good) (hnatives : natives.Proper)
    (hcallBack : Dependable good (call natives budget))
    (h : ctx.Runs good frames) (hfloor : stackFloor frames ≤ slot)
    (hslot : slot < ctx.stack.size) :
    Ends (enter natives budget slot argumentCount ctx)
      (fun _ c => ∃ inner,
        Aligned inner ∧ ∀ proto, (∀ frame, c.frames.back? = some frame →
          proto = frame.proto) →
            Looping good inner frames slot c.frames.size proto c)
      (FailsAbove good frames slot) := by
  refine (ends_collectIfDue h).bind fun _ c hc => ?_
  refine (ends_startCall hgood hnatives hcallBack hc.1 hfloor
    (hc.2.1 ▸ hslot)).mono (fun _ c' hc' => ?_) fun _ _ he => he
  rcases hc' with hc' | ⟨new, hip, hbase, hc'⟩
  · refine ⟨[], fun frame hframe => ?_, fun proto _ => ⟨hc'.1, hc'.2, ?_⟩⟩
    · cases hframe
    · rintro _ _ ⟨⟩
  · refine ⟨[new], fun other hother => ?_, fun proto hproto => ⟨hc', hbase, ?_⟩⟩
    · rw [List.mem_singleton.1 hother, hip]
      exact .start
    · rintro _ _ ⟨⟩ -
      exact hproto new hc'.back?

/-- The rest of a call. -/
def finish (natives : Natives) (budget entry : Nat) : Action Unit := do
  match (← get).frames.back? with
  | some frame => loop natives budget entry (← get).frames.size frame.proto
  | none => pure ()

theorem call_eq (hroom : argumentCount < ctx.stack.size) :
    call natives (budget + 1) argumentCount ctx =
      unwinding ctx.frames.size (ctx.stack.size - argumentCount - 1)
        (enter natives budget (ctx.stack.size - argumentCount - 1)
          argumentCount >>= fun _ =>
            finish natives budget ctx.frames.size) ctx := by
  have hcollect : ∃ c, collectIfDue ctx = .ok () c := by
    change ∃ c,
      (if ctx.heap.due then (do let _ ← collect) else pure () :
        Action Unit) ctx = _
    split
    · exact ⟨_, rfl⟩
    · exact ⟨_, rfl⟩
  obtain ⟨c, hc⟩ := hcollect
  have hbind : ∀ k : Action Unit, (collectIfDue >>= fun _ => k) ctx = k c := by
    intro k
    change EStateM.bind collectIfDue _ ctx = _
    simp only [EStateM.bind]
    rw [hc]
  rw [call]
  change (if ctx.stack.size ≤ argumentCount then throw .stackUnderflow else _ :
    Action Unit) ctx = _
  rw [if_neg (Nat.not_le_of_lt hroom)]
  apply (hbind _).trans
  simp only [unwinding]
  rw [enter, bind_assoc, hbind]
  rfl

theorem ends_unwinding {action : Action Unit} {entry : Nat}
    {onOk : Unit → Context → Prop} {onError : RuntimeError → Context → Prop}
    (h : Ends (action ctx) onOk fun e c => onError e
      (Context.truncateStack slot
        { c.note (.callFailed e) with frames := c.frames.shrink entry })) :
    Ends (unwinding entry slot action ctx) onOk onError := by
  simp only [unwinding]
  cases haction : action ctx with
  | ok _ c => exact h.ok haction
  | error e c => exact h.error haction

theorem ends_call (hgood : Hereditary good) (hnatives : natives.Proper)
    (hcall : ∀ less < budget, Dependable good (call natives less))
    (h : ctx.Runs good frames)
    (hroom : stackFloor frames + argumentCount < ctx.stack.size) :
    Ends (call natives budget argumentCount ctx)
      (fun _ c =>
        c.Runs good frames ∧ c.stack.size = ctx.stack.size - argumentCount)
      (fun _ c =>
        c.Runs good frames ∧
            ctx.stack.size - (argumentCount + 1) ≤ c.stack.size) := by
  cases budget with
  | zero => exact ⟨h, Nat.sub_le _ _⟩
  | succ budget =>
    have hcallBack := hcall budget (Nat.lt_succ_self budget)
    have hslot : stackFloor frames ≤ ctx.stack.size - argumentCount - 1 := by
      omega
    have hunwound : ∀ (e : RuntimeError) (inner : List Frame) (c : Context),
        c.Runs good (inner ++ frames) →
        ctx.stack.size - argumentCount - 1 ≤ c.stack.size →
          Context.Runs good frames
            (Context.truncateStack (ctx.stack.size - argumentCount - 1)
              { c.note (.callFailed e) with
                frames := c.frames.shrink ctx.frames.size }) ∧
          ctx.stack.size - (argumentCount + 1) ≤
            (c.stack.shrink (ctx.stack.size - argumentCount - 1)).size := by
      intro e inner c hc hheight
      rw [h.size_eq]
      refine ⟨(hc.note (.callFailed e)).unwound hslot hheight
        (h.layout.of_floor_le hslot), ?_⟩
      rw [Array.size_shrink]
      omega
    rw [call_eq (by omega)]
    refine ends_unwinding (ends_bind.2 ?_)
    refine (ends_enter hgood hnatives hcallBack h hslot (by omega)).mono
      (fun _ c hc => ?_) fun e c he => hunwound e [] c he.2.1 he.2.2
    obtain ⟨inner, -, hlooping⟩ := hc
    simp only [finish]
    rw [ends_bind, ends_get]
    cases hback : c.frames.back? with
    | none =>
      have hinner :=
        hlooping default fun frame hframe => nomatch hback.symm.trans hframe
      have hsize : (inner ++ frames).length = 0 := by
        rw [← hinner.runs.size_eq, Array.back?_eq_none_iff.1 hback]
        rfl
      obtain ⟨rfl, rfl⟩ :=
        List.append_eq_nil_iff.1 (List.length_eq_zero_iff.1 hsize)
      have hheight : c.stack.size = ctx.stack.size - argumentCount - 1 + 1 :=
        hinner.stands
      exact ⟨hinner.runs, by omega⟩
    | some frame =>
      have hinner := hlooping frame.proto fun other hother => by
        rw [Option.some.inj (hback.symm.trans hother)]
      rw [h.size_eq] at hunwound ⊢
      refine (hinner.ends_loop hgood hnatives fun less hless =>
        hcall less (Nat.lt_succ_of_lt hless)).mono (fun _ c' hc' => ⟨hc'.1, ?_⟩)
          fun e c' he => ?_
      · omega
      · obtain ⟨inner, hc', hheight⟩ := he
        exact hunwound e inner c' hc' hheight

/-- A call keeps the invariant, for every budget. -/
theorem dependable_call (hgood : Hereditary good) (hnatives : natives.Proper)
    (budget : Nat) : Dependable good (call natives budget) := by
  induction budget using Nat.strongRecOn with
  | ind budget ih =>
    intro frames ctx argumentCount h hroom
    exact ends_call hgood hnatives ih h hroom

/-! ## What holds at every turn -/

/-- What each turn keeps holds at every turn that the loop takes. -/
theorem Looping.holds_turnsFrom (budget : Nat) (hgood : Hereditary good)
    (hnatives : natives.Proper) {holds : Context → Prop}
    (hturn : ∀ {frame outer ctx} (budget : Nat),
      ctx.Runs good (frame :: outer) → holds ctx →
      Ends (turn natives (call natives budget) frame.proto ctx)
        (fun _ c => holds c) fun _ _ => True)
    (h : Looping good inner outer slot depth proto ctx) (hholds : holds ctx) :
    ∀ t ∈ turnsFrom natives budget outer.length depth proto ctx,
      ∃ frame rest, t.ctx.Runs good (frame :: rest) ∧
        t.proto = frame.proto ∧ holds t.ctx := by
  induction budget generalizing inner depth proto ctx with
  | zero => exact nofun
  | succ budget ih =>
    cases inner with
    | nil =>
      rw [h.turnsFrom_nil]
      exact nofun
    | cons frame rest =>
      have hruns : ctx.Runs good (frame :: (rest ++ outer)) := h.runs
      have hends :=
        h.ends_turn hgood hnatives (dependable_call hgood hnatives budget)
      have hkeeps := hturn budget hruns hholds
      rw [h.turnsFrom_cons]
      intro t ht
      rcases List.mem_cons.1 ht with rfl | ht
      · exact ⟨frame, _, hruns, rfl, hholds⟩
      · cases hresult : turn natives (call natives budget) frame.proto ctx with
        | error e c =>
          rw [hresult] at ht
          cases ht
        | ok _ next =>
          rw [hresult] at ht
          obtain ⟨inner, hinner, -⟩ := hends.ok hresult
          exact ih hinner (hkeeps.ok hresult) t ht

/-- What holds when a call has begun, and each turn keeps, holds at every
turn of the call. -/
theorem holds_turnsOf (hgood : Hereditary good) (hnatives : natives.Proper)
    {holds : Context → Prop}
    (hturn : ∀ {frame outer ctx} (budget : Nat),
      ctx.Runs good (frame :: outer) → holds ctx →
      Ends (turn natives (call natives budget) frame.proto ctx)
        (fun _ c => holds c) fun _ _ => True)
    (h : ctx.Runs good frames)
    (hroom : stackFloor frames + argumentCount < ctx.stack.size)
    (henter : ∀ budget,
      Ends (enter natives budget (ctx.stack.size - argumentCount - 1)
        argumentCount ctx) (fun _ c => holds c) fun _ _ => True)
    (budget : Nat) :
    ∀ t ∈ turnsOf natives budget argumentCount ctx,
      ∃ frame rest, t.ctx.Runs good (frame :: rest) ∧
        t.proto = frame.proto ∧ holds t.ctx := by
  cases budget with
  | zero => exact fun _ ht => absurd ht List.not_mem_nil
  | succ budget =>
    have hentered :
        Ends (enter natives budget (ctx.stack.size - argumentCount - 1)
          argumentCount ctx) _ _ :=
      ends_enter hgood hnatives (dependable_call hgood hnatives budget) h
        (by omega : stackFloor frames ≤ ctx.stack.size - argumentCount - 1)
        (by omega)
    rw [turnsOf]
    cases hresult : enter natives budget (ctx.stack.size - argumentCount - 1)
        argumentCount ctx with
    | error e c => exact fun _ ht => absurd ht List.not_mem_nil
    | ok done next =>
      cases done
      obtain ⟨inner, -, hlooping⟩ := hentered.ok hresult
      dsimp only
      cases hback : next.frames.back? with
      | none => exact fun _ ht => absurd ht List.not_mem_nil
      | some frame =>
        have hinner := hlooping frame.proto fun other hother => by
          rw [Option.some.inj (hback.symm.trans hother)]
        rw [h.size_eq]
        exact hinner.holds_turnsFrom budget hgood hnatives hturn
          ((henter budget).ok hresult)

/-! ## Rounds -/

/-- The rounds of a loop, from its frames and context on: the turns that it
takes and how it ends. -/
inductive Rounds (good : Prototype → Prop) (natives : Natives)
    (outer : List Frame) :
    List Frame → Context → List Turn →
      EStateM.Result RuntimeError Context Unit → Prop
  | done {ctx : Context} : Rounds good natives outer [] ctx [] (.ok () ctx)
  | spent {inner : List Frame} {ctx : Context} :
    Rounds good natives outer inner ctx [] (.error .budgetSpent ctx)
  | failed {frame : Frame} {rest : List Frame} {ctx c : Context}
      {e : RuntimeError} {budget : Nat}
      (hruns : ctx.Runs good (frame :: (rest ++ outer)))
      (hturn : turn natives (call natives budget) frame.proto ctx =
        .error e c) :
    Rounds good natives outer (frame :: rest) ctx [⟨budget, frame.proto, ctx⟩]
      (.error e c)
  | round {frame : Frame} {rest inner : List Frame} {ctx next : Context}
      {budget : Nat} {turns : List Turn}
      {result : EStateM.Result RuntimeError Context Unit}
      (hruns : ctx.Runs good (frame :: (rest ++ outer)))
      (hjump : ∀ target,
        targetAt? frame.proto frame.ip ctx.stack.back? = some target →
        inner = { frame with ip := target } :: rest)
    (haligned : Aligned (frame :: rest) →
      (∀ target, targetAt? frame.proto frame.ip ctx.stack.back? = some target →
        Boundary frame.proto.code target) → Aligned inner)
    (h : Rounds good natives outer inner next turns result) :
    Rounds good natives outer (frame :: rest) ctx
      (⟨budget, frame.proto, ctx⟩ :: turns) result

/-- The loop goes by its rounds. -/
theorem Looping.rounds (budget : Nat) (hgood : Hereditary good)
    (hnatives : natives.Proper)
    (h : Looping good inner outer slot depth proto ctx) :
    Rounds good natives outer inner ctx
      (turnsFrom natives budget outer.length depth proto ctx)
      (loop natives budget outer.length depth proto ctx) := by
  induction budget generalizing inner depth proto ctx with
  | zero => exact .spent
  | succ budget ih =>
    cases inner with
    | nil =>
      rw [h.loop_nil, h.turnsFrom_nil]
      exact .done
    | cons frame rest =>
      have hruns : ctx.Runs good (frame :: (rest ++ outer)) := h.runs
      have hends :=
        h.ends_turn hgood hnatives (dependable_call hgood hnatives budget)
      rw [h.loop_cons, h.turnsFrom_cons]
      change Rounds _ _ _ _ _ _ (EStateM.bind _ _ ctx)
      simp only [EStateM.bind]
      cases hturn : turn natives (call natives budget) frame.proto ctx with
      | error e c => exact .failed hruns hturn
      | ok _ next =>
        obtain ⟨inner, hinner, hjump, haligned⟩ := hends.ok hturn
        exact .round hruns hjump haligned (ih hinner)

/-! ## Safety of turns -/

namespace Turn

/-- The turn decodes at an instruction boundary, or at the end of the code. -/
def OnBoundary (turn : Turn) : Prop :=
  ∃ frame, turn.ctx.frames.back? = some frame ∧
    Boundary turn.proto.code frame.ip

/-- The turn jumps into the operands of an instruction. -/
def Strays (turn : Turn) : Prop :=
  ∃ frame target, turn.ctx.frames.back? = some frame ∧
    targetAt? turn.proto frame.ip turn.ctx.stack.back? = some target ∧
    ¬Boundary turn.proto.code target

/-- The turn has the prototype of the innermost frame at hand and is on a
boundary.  Either the code ends there, or there is an instruction whose operands
can be read and name things that exist, and a local that it names is on the
stack when it is executed.  If the turn fails, then not for reading past the
tables of its prototype. -/
def Safe (natives : Natives) (t : Turn) : Prop :=
  ∃ frame, t.ctx.frames.back? = some frame ∧ t.proto = frame.proto ∧
    Boundary t.proto.code frame.ip ∧
    (frame.ip = t.proto.code.size ∨
      ∃ op, t.proto.code.opcodeAt? frame.ip = some op ∧
        t.proto.Decodes frame.ip op ∧
        ∀ index c, op = .getLocal ∨ op = .setLocal →
          t.proto.code.byteAt? (frame.ip + 1) = some index →
          fetch t.proto frame.ip op t.ctx = .ok () c →
          slotOfLocal index c = .ok (frame.base + index) c) ∧
    ∀ e c, turn natives (call natives t.budget) t.proto t.ctx = .error e c →
      ¬e.Overreaches

theorem Safe.onBoundary {t : Turn} (h : t.Safe natives) : t.OnBoundary := by
  obtain ⟨frame, hback, -, hboundary, -⟩ := h
  exact ⟨frame, hback, hboundary⟩

end Turn

/-- On a boundary of accepted code a turn is safe. -/
theorem safe_of_boundary (hgood : Hereditary good) (hnatives : natives.Proper)
    (h : ctx.Runs good (frame :: outer))
    (hboundary : Boundary frame.proto.code frame.ip) :
    Turn.Safe natives ⟨budget, frame.proto, ctx⟩ := by
  have hverified := Prototype.verifyCode_of_verify
    (hgood.verified _ (h.runnable frame List.mem_cons_self).good)
  have hends :=
    ends_turn hgood hnatives (dependable_call hgood hnatives budget) h
  refine ⟨frame, h.back?, rfl, hboundary, ?_,
    fun e c he => (hends.error he).1 hboundary⟩
  apply (Prototype.decodes_of_boundary hverified hboundary).imp_right
  rintro ⟨op, hop, hdecodes⟩
  refine ⟨op, hop, hdecodes, fun index c hlocal hindex hc => ?_⟩
  have hruns := ((ends_fetch h op).ok hc).1
  apply slotOfLocal_eq hruns
  have hbound :
      ∀ op, op = .getLocal ∨ op = .setLocal → frame.proto.Decodes frame.ip op →
        index < frame.proto.numLocals.toNat := by
    rintro op (rfl | rfl) hdecodes <;>
      obtain ⟨index', hindex', hadmits⟩ := hdecodes.byte rfl <;>
      obtain rfl : index = index' :=
        Option.some.inj (hindex.symm.trans hindex') <;>
      exact of_decide_eq_true hadmits
  exact hbound op hlocal hdecodes

variable {turns : List Turn} {result : EStateM.Result RuntimeError Context Unit}

theorem Rounds.safe (hgood : Hereditary good) (hnatives : natives.Proper)
    (h : Rounds good natives outer inner ctx turns result)
    (hturns : ∀ t ∈ turns, t.OnBoundary) :
    (∀ t ∈ turns, t.Safe natives) ∧
      ∀ e c, result = .error e c → ¬e.Overreaches := by
  have hsafe : ∀ {frame : Frame} {rest : List Frame} {ctx : Context}
      {budget : Nat},
      ctx.Runs good (frame :: rest) →
      Turn.OnBoundary ⟨budget, frame.proto, ctx⟩ →
        Turn.Safe natives ⟨budget, frame.proto, ctx⟩ := by
    intro frame rest ctx budget hruns honBoundary
    obtain ⟨found, hfound, hboundary⟩ := honBoundary
    obtain rfl : frame = found :=
      Option.some.inj (hruns.back?.symm.trans hfound)
    exact safe_of_boundary hgood hnatives hruns hboundary
  induction h with
  | done =>
    refine ⟨nofun, fun e c he => ?_⟩
    cases he
  | spent =>
    refine ⟨nofun, ?_⟩
    rintro e c ⟨⟩
    exact id
  | failed hruns hturn =>
    have hfirst := hsafe hruns (hturns _ List.mem_cons_self)
    refine ⟨fun t ht => List.mem_singleton.1 ht ▸ hfirst, ?_⟩
    rintro e c ⟨⟩
    obtain ⟨-, -, -, -, -, herror⟩ := hfirst
    exact herror _ _ hturn
  | round hruns _ _ _ ih =>
    obtain ⟨hrest, herror⟩ :=
      ih fun t ht => hturns t (List.mem_cons_of_mem _ ht)
    refine ⟨fun t ht => ?_, herror⟩
    rcases List.mem_cons.1 ht with rfl | ht
    · exact hsafe hruns (hturns _ List.mem_cons_self)
    · exact hrest t ht

/-- As long as no turn on a boundary strays, all turns are on boundaries. -/
theorem Rounds.onBoundary (h : Rounds good natives outer inner ctx turns result)
    (hinner : Aligned inner)
    (hturns : ∀ t ∈ turns.dropLast, t.OnBoundary → ¬t.Strays) :
    ∀ t ∈ turns, t.OnBoundary := by
  induction h with
  | done => exact nofun
  | spent => exact nofun
  | failed hruns hturn =>
    intro t ht
    rw [List.mem_singleton.1 ht]
    exact ⟨_, hruns.back?, hinner _ List.mem_cons_self⟩
  | @round frame rest inner ctx next budget turns result hruns _
      haligned _ ih =>
    have hfirst : Turn.OnBoundary ⟨budget, frame.proto, ctx⟩ :=
      ⟨frame, hruns.back?, hinner frame List.mem_cons_self⟩
    intro t ht
    rcases List.mem_cons.1 ht with rfl | ht
    · exact hfirst
    · have hne : turns ≠ [] := List.ne_nil_of_mem ht
      rw [List.dropLast_cons_of_ne_nil hne] at hturns
      have hnot := hturns _ List.mem_cons_self hfirst
      refine ih (haligned hinner fun target htarget => ?_)
        (fun other hother => hturns other (List.mem_cons_of_mem _ hother)) t ht
      exact Classical.byContradiction fun hstray =>
        hnot ⟨frame, target, hruns.back?, htarget, hstray⟩

/-- A turn that strays is followed by one that is not on a boundary, or by
none. -/
theorem Rounds.not_strays (h : Rounds good natives outer inner ctx turns result)
    (hturns : ∀ t ∈ turns, t.OnBoundary) : ∀ t ∈ turns.dropLast, ¬t.Strays := by
  induction h with
  | done => exact nofun
  | spent => exact nofun
  | failed hruns hturn => exact nofun
  | @round frame rest inner ctx next budget turns result hruns hjump
      _ hrounds ih =>
    intro t ht
    cases turns with
    | nil => cases ht
    | cons second turns =>
      rw [List.dropLast_cons_of_ne_nil (List.cons_ne_nil second turns)] at ht
      rcases List.mem_cons.1 ht with rfl | ht
      · rintro ⟨found, target, hfound, htarget, hstray⟩
        obtain rfl : frame = found :=
          Option.some.inj (hruns.back?.symm.trans hfound)
        obtain ⟨frame', hback, hboundary⟩ :=
          hturns second (List.mem_cons_of_mem _ List.mem_cons_self)
        rw [hjump target htarget] at hrounds
        cases hrounds with
        | failed hruns' _ =>
          rw [hruns'.back?] at hback
          cases hback
          exact hstray hboundary
        | round hruns' _ _ _ =>
          rw [hruns'.back?] at hback
          cases hback
          exact hstray hboundary
      · exact ih (fun other hother =>
          hturns other (List.mem_cons_of_mem _ hother)) t ht

theorem Rounds.runs (h : Rounds good natives outer inner ctx turns result) :
    ∀ t ∈ turns, ∃ frame rest,
      t.ctx.Runs good (frame :: rest) ∧ t.proto = frame.proto := by
  induction h with
  | done => exact nofun
  | spent => exact nofun
  | failed hruns hturn =>
    intro t ht
    rw [List.mem_singleton.1 ht]
    exact ⟨_, _, hruns, rfl⟩
  | round hruns _ _ _ ih =>
    intro t ht
    rcases List.mem_cons.1 ht with rfl | ht
    · exact ⟨_, _, hruns, rfl⟩
    · exact ih t ht

/-- The turns of a call are rounds that start on boundaries, and the failure of
the call is theirs or came before them. -/
theorem exists_rounds (budget : Nat) (hgood : Hereditary good)
    (hnatives : natives.Proper) (h : ctx.Runs good frames)
    (hroom : stackFloor frames + argumentCount < ctx.stack.size) :
    ∃ inner c result, Aligned inner ∧
      Rounds good natives frames inner c
        (turnsOf natives budget argumentCount ctx) result ∧
      Ends (call natives budget argumentCount ctx) (fun _ _ => True)
        (fun e _ => ¬e.Overreaches ∨ ∃ c, result = .error e c) := by
  have hnone : Aligned [] := nofun
  cases budget with
  | zero => exact ⟨[], ctx, .ok () ctx, hnone, .done, Or.inl id⟩
  | succ budget =>
    have hfloor : stackFloor frames ≤ ctx.stack.size - argumentCount - 1 := by
      omega
    have hends :
        Ends (enter natives budget (ctx.stack.size - argumentCount - 1)
          argumentCount ctx)
          _ _ := ends_enter hgood hnatives
            (dependable_call hgood hnatives budget) h hfloor (by omega)
    rw [call_eq (by omega), turnsOf]
    cases henter : enter natives budget (ctx.stack.size - argumentCount - 1)
        argumentCount ctx with
    | error e c =>
      refine ⟨[], ctx, .ok () ctx, hnone, .done,
        ends_unwinding (ends_bind.2 ?_)⟩
      rw [henter]
      exact Or.inl (hends.error henter).1
    | ok done next =>
      cases done
      dsimp only
      obtain ⟨inner, haligned, hlooping⟩ := hends.ok henter
      cases hback : next.frames.back? with
      | none =>
        refine ⟨[], ctx, .ok () ctx, hnone, .done,
          ends_unwinding (ends_bind.2 ?_)⟩
        rw [henter]
        change Ends (finish natives budget ctx.frames.size next) _ _
        rw [finish, ends_bind, ends_get, hback]
        trivial
      | some frame =>
        have hinner := hlooping frame.proto fun other hother => by
          rw [Option.some.inj (hback.symm.trans hother)]
        have hrounds := hinner.rounds budget hgood hnatives
        rw [← h.size_eq] at hrounds
        refine ⟨inner, next, _, haligned, hrounds,
          ends_unwinding (ends_bind.2 ?_)⟩
        rw [henter]
        change Ends (finish natives budget ctx.frames.size next) _ _
        rw [finish, ends_bind, ends_get, hback]
        change Ends (loop natives budget ctx.frames.size next.frames.size
          frame.proto next) _ _
        cases loop natives budget ctx.frames.size next.frames.size
            frame.proto next with
        | ok _ c => trivial
        | error e c => exact Or.inr ⟨c, rfl⟩

end Isolate.Machine

namespace Isolate

open Machine

/-! ## Jumps -/

/-- Accepted prototypes whose jumps all lead to boundaries, at every level. -/
inductive Prototype.Aimed : Prototype → Prop
  | intro {proto : Prototype} (haccepted : proto.Accepted)
    (hjumps : ∀ offset op target, proto.code.Boundary offset →
      proto.code.opcodeAt? offset = some op → op = .jump ∨ op = .jumpIfFalse →
      proto.code.pairAt? (offset + 1) = some target →
      proto.code.Boundary target)
    (hprotos : ∀ child ∈ proto.protos, Prototype.Aimed child) :
      Prototype.Aimed proto

theorem hereditary_aimed : Hereditary Prototype.Aimed where
  verified := fun _ ⟨haccepted, _, _⟩ => haccepted
  nested := fun _ ⟨_, _, hprotos⟩ => hprotos

namespace Machine

open Context

variable {frames : List Frame} {ctx : Context} {natives : Natives}

theorem jumpTarget?_eq_some {proto : Prototype} {offset target : Nat}
    {top : Option Value} {op : Opcode}
    (h : jumpTarget? proto offset top op = some target) :
    (op = .jump ∨ op = .jumpIfFalse) ∧
      proto.code.pairAt? (offset + 1) = some target := by
  simp only [jumpTarget?] at h
  split at h
  · exact ⟨Or.inl rfl, h⟩
  · split at h
    · split at h
      · cases h
      · exact ⟨Or.inr rfl, h⟩
    · cases h
  · cases h

theorem Turn.not_strays_of_aimed {t : Turn} (haimed : t.proto.Aimed)
    (h : t.OnBoundary) : ¬t.Strays := by
  rintro ⟨frame, target, hframe, htarget, hstray⟩
  obtain ⟨found, hfound, hboundary⟩ := h
  obtain rfl : frame = found := Option.some.inj (hframe.symm.trans hfound)
  obtain ⟨op, hop, hjump⟩ := Option.bind_eq_some_iff.1 htarget
  obtain ⟨hkind, hpair⟩ := jumpTarget?_eq_some hjump
  obtain ⟨-, hjumps, -⟩ := haimed
  exact hstray (hjumps frame.ip op target hboundary hop hkind hpair)

/-- A call in a context of accepted code takes safe turns only, and does not
fail for reading past the tables of a prototype, exactly if none of its jumps
leads into the operands of an instruction; the last jump may, if the call ends
there.  No jump does when all prototypes of the context are well aimed. -/
theorem call_safe_iff (hnatives : natives.Proper)
    (h : ctx.Runs Prototype.Accepted frames) (budget argumentCount : Nat)
    (hroom : stackFloor frames + argumentCount < ctx.stack.size) :
    (((∀ t ∈ turnsOf natives budget argumentCount ctx, t.Safe natives) ∧
        ∀ e c, call natives budget argumentCount ctx = .error e c →
          ¬e.Overreaches) ↔
      ∀ t ∈ (turnsOf natives budget argumentCount ctx).dropLast, ¬t.Strays) ∧
    (ctx.Runs Prototype.Aimed frames →
      ∀ t ∈ (turnsOf natives budget argumentCount ctx).dropLast,
        ¬t.Strays) := by
  obtain ⟨inner, c, result, haligned, hrounds, hcall⟩ :=
    exists_rounds budget hereditary_accepted hnatives h hroom
  refine ⟨⟨fun hsafe => ?_, fun hturns => ?_⟩, fun haimed => ?_⟩
  · exact hrounds.not_strays fun t ht => (hsafe.1 t ht).onBoundary
  · have honBoundary := hrounds.onBoundary haligned fun t ht _ => hturns t ht
    obtain ⟨hsafe, herror⟩ :=
      hrounds.safe hereditary_accepted hnatives honBoundary
    refine ⟨hsafe, fun e c he => ?_⟩
    rcases hcall.error he with hwithin | ⟨c', hresult⟩
    · exact hwithin
    · exact herror e c' hresult
  · obtain ⟨inner', c', result', haligned', hrounds', -⟩ :=
      exists_rounds budget hereditary_aimed hnatives haimed hroom
    refine hrounds'.not_strays (hrounds'.onBoundary haligned'
      fun t ht honBoundary => ?_)
    obtain ⟨frame, rest, hruns, hproto⟩ :=
      hrounds'.runs t (List.dropLast_subset _ ht)
    refine Turn.not_strays_of_aimed ?_ honBoundary
    rw [hproto]
    exact (hruns.runnable frame List.mem_cons_self).good

/-- A function that jumps over an instruction. -/
def skipping : Prototype where
  code := #[24, 0, 4, 1, 1, 27]

theorem aimed_skipping : skipping.Aimed := by
  have haccepted : skipping.Accepted :=
    Prototype.accepted_of_isOk (by decide +kernel)
  have hstart : skipping.code.Boundary 0 := .start
  have hjump : skipping.code.opcodeAt? 0 = some .jump := rfl
  have hload : skipping.code.opcodeAt? 3 = some .loadNil := rfl
  refine .intro haccepted (fun offset op target _ hop hkind hpair => ?_) nofun
  have hcases : offset = 0 ∨ ¬(op = .jump ∨ op = .jumpIfFalse) := by
    obtain ⟨hlt, -⟩ := Code.opcodeAt?_eq_some_iff.1 hop
    have hlt : offset < 6 := hlt
    rcases offset with - | - | - | - | - | - | offset
    · exact Or.inl rfl
    all_goals first | omega | (cases hop; exact Or.inr (by decide))
  obtain rfl := hcases.resolve_right (not_not_intro hkind)
  cases hpair
  exact (hstart.next hjump).next hload

theorem call_safe_skipping :
    ∃ ctx : Context,
      ctx.Runs Prototype.Accepted [] ∧ stackFloor [] + 0 < ctx.stack.size ∧
        (∀ t ∈ turnsOf Native.standard 9 0 ctx, t.Safe Native.standard) ∧
        ∀ e c, call Native.standard 9 0 ctx = .error e c → ¬e.Overreaches := by
  have hpush : ∀ {good : Prototype → Prop}, good skipping →
      Ends (pushMain skipping (create {} {}))
        (fun _ c => c.Runs good [] ∧ c.stack.size = 1) (fun _ _ => False) :=
    fun hskipping =>
    ends_pushMain (runs_create {} {}) hskipping
  cases hpushed : pushMain skipping (create {} {}) with
  | error e c => exact ((hpush aimed_skipping).error hpushed).elim
  | ok _ ctx =>
    obtain ⟨haimed, hheight⟩ := (hpush aimed_skipping).ok hpushed
    have hskipping : skipping.Accepted :=
      hereditary_aimed.verified _ aimed_skipping
    have haccepted := ((hpush hskipping).ok hpushed).1
    have hroom : stackFloor [] + 0 < ctx.stack.size := by
      rw [hheight]
      exact Nat.zero_lt_one
    obtain ⟨hiff, hturns⟩ :=
      call_safe_iff Native.proper_standard haccepted 9 0 hroom
    exact ⟨ctx, haccepted, hroom, hiff.2 (hturns haimed)⟩

/-- A function that jumps into the operand of its second instruction, where
there is a byte that is no opcode. -/
def straying : Prototype where
  code := #[24, 0, 4, 26, 255]

/-- Accepted code that fails as invalid code when it is called. -/
theorem straying_overreaches :
    straying.verify = .ok () ∧
      ∃ c,
        (do loadPrototype straying "=jump"; call Native.standard 9 0 :
          Action Unit)
          (create {} {}) = .error (.load (.invalidOpcode 4 255)) c := by
  refine ⟨Prototype.accepted_of_isOk (by decide +kernel),
    failureOf_eq_some_iff.1 ?_⟩
  decide +kernel

end Machine

end Isolate
