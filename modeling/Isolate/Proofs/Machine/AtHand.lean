import Isolate.Proofs.Machine.Isolation
import Isolate.Proofs.Machine.Parts

/-!
# The prototype at hand

The loop keeps the prototype of the innermost frame at hand and fetches it again
only when the number of frames has changed.  A turn moves the innermost frame,
enters one on top of it or leaves it, and a native function leaves the frames as
it found them, so no turn puts another prototype in the place of the innermost
one while the number stays the same.  The loop therefore does what one does that
fetches the prototype at every turn.
-/

namespace Isolate

/-- The prototypes of the frames, that of the innermost last. -/
def Context.protos (ctx : Context) : List Prototype :=
  ctx.frames.toList.map Frame.proto

/-- Native functions that leave the frames as they found them,
whatever they call back. -/
def Natives.LeaveFrames (natives : Natives) : Prop :=
  ∀ name native, natives name = some native →
    ∀ (budget : Nat) (arguments : List Value) (ctx : Context),
      Ends (native (Machine.call natives budget) arguments ctx)
        (fun _ c => c.frames = ctx.frames) fun _ _ => True

/-- Balanced native functions leave the frames, since the calls that they make
do. -/
theorem Natives.Balanced.leaveFrames {natives : Natives}
    (h : natives.Balanced) :
    natives.LeaveFrames := fun name native hnative budget arguments ctx =>
  (h name native hnative _ (Machine.isolated_call h budget) ctx arguments).mono
    (fun _ _ hc => hc.frames) fun _ _ _ => trivial

/-- The frames of one context run the same functions as those of another, but
for the innermost one that either has and the other does not. -/
inductive Context.Adjoins (ctx c : Context) : Prop
  | same (h : c.protos = ctx.protos)
  | entered (proto : Prototype) (h : c.protos = ctx.protos ++ [proto])
  | left (proto : Prototype) (h : ctx.protos = c.protos ++ [proto])

theorem Context.length_protos (ctx : Context) :
    ctx.protos.length = ctx.frames.size := by
  rw [protos, List.length_map, Array.length_toList]

theorem Context.getLast?_protos (ctx : Context) :
    ctx.protos.getLast? = ctx.frames.back?.map Frame.proto := by
  rw [protos, List.getLast?_map, Array.getLast?_toList]

/-- With as many frames the innermost function is the same. -/
theorem Context.Adjoins.protos_eq {ctx c : Context} (h : ctx.Adjoins c)
    (hsize : c.frames.size = ctx.frames.size) : c.protos = ctx.protos := by
  rw [← length_protos, ← length_protos] at hsize
  cases h with
  | same h => exact h
  | entered proto h =>
    rw [h, List.length_append, List.length_singleton] at hsize
    omega
  | left proto h =>
    rw [h, List.length_append, List.length_singleton] at hsize
    omega

namespace Machine

open Context

variable {natives : Natives} {ctx : Context} {α β : Type}

/-! ## What actions do to the frames -/

/-- An action whose success changes no function that the frames run. -/
def KeepsProtos (action : Action α) : Prop :=
  ∀ ctx, Ends (action ctx) (fun _ c => c.protos = ctx.protos) fun _ _ => True

/-- An action whose success enters or leaves one frame at most. -/
def Adjoining (action : Action α) : Prop :=
  ∀ ctx, Ends (action ctx) (fun _ c => ctx.Adjoins c) fun _ _ => True

/-- A frame that is moved runs the same function. -/
theorem protos_moved (ctx : Context) (offset : Nat) :
    Context.protos { ctx with
      frames := ctx.frames.modify (ctx.frames.size - 1)
        ({ · with ip := offset }) } =
        ctx.protos := by
  rw [protos, protos, Array.toList_modify]
  refine List.ext_getElem? fun i => ?_
  rw [List.getElem?_map, List.getElem?_modify, List.getElem?_map]
  cases ctx.frames.toList[i]? with
  | none => rfl
  | some frame =>
    dsimp only [Option.map_some, Option.map_eq_map]
    split <;> rfl

theorem respected_protos :
    Respected (fun ctx c => c.protos = ctx.protos) fun _ _ => True where
  refl := fun _ => rfl
  trans := fun h h' => h'.trans h
  fails := fun _ => trivial
  failsAfter := fun _ _ => trivial
  moved := protos_moved
  pushed := fun _ _ _ => rfl
  popped := fun _ => rfl
  withHeap := fun _ _ => rfl
  noted := fun _ _ _ => rfl

theorem parts_keepsProtos :
    Parts (fun _ => True) fun _ action => KeepsProtos action :=
  respected_protos.parts

section Sequences

variable {x : Action α} {f : α → Action β}

theorem KeepsProtos.bind (hx : KeepsProtos x) (hf : ∀ a, KeepsProtos (f a)) :
    KeepsProtos (x >>= f) :=
  respected_protos.bind hx hf

theorem KeepsProtos.adjoining (hx : KeepsProtos x) : Adjoining x :=
  fun ctx => (hx ctx).mono (fun _ _ hc => .same hc) fun _ _ _ => trivial

theorem KeepsProtos.bind_adjoining (hx : KeepsProtos x)
    (hf : ∀ a, Adjoining (f a)) : Adjoining (x >>= f) := by
  intro ctx
  refine (hx ctx).bind fun a c hc =>
    (hf a c).mono (fun _ d hd => ?_) fun _ _ _ => trivial
  cases hd with
  | same h => exact .same (h.trans hc)
  | entered proto h => exact .entered proto (hc ▸ h)
  | left proto h => exact .left proto (hc ▸ h)

theorem Adjoining.bind (hx : Adjoining x) (hf : ∀ a, KeepsProtos (f a)) :
    Adjoining (x >>= f) := by
  intro ctx
  refine (hx ctx).bind fun a c hc =>
    (hf a c).mono (fun _ d hd => ?_) fun _ _ _ => trivial
  cases hc with
  | same h => exact .same (hd.trans h)
  | entered proto h => exact .entered proto (hd.trans h)
  | left proto h => exact .left proto (hd ▸ h)

end Sequences

theorem keepsProtos_get : KeepsProtos (get : Action Context) :=
  respected_protos.get

theorem keepsProtos_throw (e : RuntimeError) :
    KeepsProtos (throw e : Action α) :=
  respected_protos.throw e

theorem keepsProtos_query (f : Context → Except RuntimeError α) :
    KeepsProtos (query f) :=
  respected_protos.query f

theorem keepsProtos_innermost : KeepsProtos innermost :=
  respected_protos.innermost

theorem keepsProtos_popTop : KeepsProtos popTop := respected_protos.popTop

theorem keepsProtos_modify {f : Context → Context}
    (hf : ∀ ctx, (f ctx).protos = ctx.protos) :
    KeepsProtos (modify f : Action Unit) := hf

/-! ## Entering and leaving frames -/

theorem adjoins_pop (ctx : Context) :
    ctx.Adjoins { ctx with frames := ctx.frames.pop } := by
  rcases ctx.frames.toList.eq_nil_or_concat with hnil | ⟨others, frame, hlast⟩
  · refine .same ?_
    rw [protos, protos, Array.toList_pop, hnil]
    rfl
  · refine .left frame.proto ?_
    rw [protos, protos, Array.toList_pop, hlast, List.concat_eq_append,
      List.dropLast_concat, List.map_append]
    rfl

theorem adjoining_returnValue (result : Value) :
    Adjoining (returnValue result) := by
  have hpop :
      Adjoining (modify fun ctx => { ctx with frames := ctx.frames.pop } :
        Action Unit) :=
    adjoins_pop
  exact keepsProtos_innermost.bind_adjoining fun frame => hpop.bind fun _ =>
    KeepsProtos.bind (keepsProtos_modify fun _ => rfl)
      fun _ => keepsProtos_modify fun _ => rfl

theorem adjoining_enterClosure (handle : Handle)
    (calleeSlot argumentCount : Nat) :
    Adjoining (enterClosure handle calleeSlot argumentCount) := by
  refine keepsProtos_get.bind_adjoining fun ctx => ?_
  dsimp only
  split
  · exact (keepsProtos_throw _).adjoining
  · refine (keepsProtos_query _).bind_adjoining fun closure => ?_
    split
    · exact (keepsProtos_throw _).adjoining
    · intro ctx
      refine Adjoins.entered closure.proto ?_
      change (ctx.frames.push _).toList.map Frame.proto = _
      rw [Array.toList_push, List.map_append]
      rfl

/-- A call of a native function is over at once; one of a script
function enters a frame. -/
theorem adjoining_startCall (hnatives : natives.LeaveFrames)
    (budget calleeSlot argumentCount : Nat) :
    Adjoining (startCall natives (call natives budget) calleeSlot
      argumentCount) := by
  refine keepsProtos_get.bind_adjoining fun ctx => ?_
  cases ctx.stack.getD calleeSlot .nil with
  | function handle =>
    exact adjoining_enterClosure handle calleeSlot argumentCount
  | native name =>
    refine KeepsProtos.adjoining ?_
    simp only [runNative]
    cases hnative : natives name with
    | none => exact keepsProtos_throw _
    | some native =>
      have hkeeps : ∀ arguments,
          KeepsProtos (native (call natives budget) arguments) := by
        intro arguments ctx
        refine (hnatives name native hnative budget arguments ctx).mono
          (fun _ c hc => ?_) fun _ _ _ => trivial
        rw [protos, hc, protos]
      refine keepsProtos_get.bind fun ctx => (hkeeps _).bind fun result => ?_
      cases result with
      | error message => exact keepsProtos_throw _
      | ok value =>
        exact KeepsProtos.bind (keepsProtos_modify fun _ => rfl) fun _ =>
          parts_keepsProtos.putOperand value
  | _ => exact (keepsProtos_throw _).adjoining

theorem adjoining_execute (hnatives : natives.LeaveFrames) (budget : Nat)
    (proto : Prototype) (offset : Nat) (op : Opcode) :
    Adjoining (execute natives (call natives budget) proto offset op) := by
  by_cases hfurther : op ∈ [Opcode.setLocal, .newTable, .call, .ret]
  · have hbyte := parts_keepsProtos.byteOperand proto (offset + 1)
    rcases (by simpa using hfurther : op = .setLocal ∨ op = .newTable ∨
      op = .call ∨ op = .ret)
      with rfl | rfl | rfl | rfl
    · refine KeepsProtos.adjoining (hbyte.bind fun index => ?_)
      exact (parts_keepsProtos.slotOfLocal index).bind fun slot =>
        parts_keepsProtos.takeOperand.bind
          fun value => keepsProtos_modify fun _ => rfl
    · have hnew :
          KeepsProtos newTable := parts_keepsProtos.collectIfDue.bind fun _ =>
            (parts_keepsProtos.allocate _).bind
              fun _ => keepsProtos_modify fun _ => rfl
      refine KeepsProtos.adjoining
        (hnew.bind fun _ => keepsProtos_get.bind fun ctx => ?_)
      split
      · exact KeepsProtos.bind (keepsProtos_modify fun _ => rfl)
          fun _ => keepsProtos_throw _
      · exact parts_keepsProtos.pure _
    · refine hbyte.bind_adjoining fun argumentCount =>
        keepsProtos_innermost.bind_adjoining
          fun frame => keepsProtos_get.bind_adjoining fun ctx => ?_
      dsimp only
      split
      · exact adjoining_startCall hnatives budget _ _
      · exact (keepsProtos_throw _).adjoining
    · refine keepsProtos_innermost.bind_adjoining fun frame =>
        keepsProtos_get.bind_adjoining fun ctx => ?_
      split
      · exact keepsProtos_popTop.bind_adjoining adjoining_returnValue
      · exact adjoining_returnValue .nil
  · exact (parts_keepsProtos.execute proto offset hfurther).adjoining

/-- The step: a turn enters or leaves one frame at most. -/
theorem adjoining_turn (hnatives : natives.LeaveFrames) (budget : Nat)
    (proto : Prototype) :
    Adjoining (turn natives (call natives budget) proto) := by
  refine keepsProtos_innermost.bind_adjoining fun frame => ?_
  dsimp only
  cases proto.code[frame.ip]? with
  | none => exact adjoining_returnValue .nil
  | some byte =>
    dsimp only
    cases Opcode.ofByte? byte with
    | none => exact (keepsProtos_throw _).adjoining
    | some op =>
      exact (parts_keepsProtos.report proto frame.ip op).bind_adjoining fun _ =>
        (parts_keepsProtos.moveTo _).bind_adjoining fun _ =>
          adjoining_execute hnatives budget proto frame.ip op

/-! ## What is at hand is up to date -/

/-- With as many frames as when it was fetched, the prototype at hand
is the innermost. -/
def AtHand (depth : Nat) (proto : Prototype) (ctx : Context) : Prop :=
  ctx.frames.size = depth → ∀ frame, ctx.frames.back? = some frame →
    proto = frame.proto

theorem AtHand.next {budget : Nat} {frame : Frame} {next : Context}
    (hnatives : natives.LeaveFrames) (hback : ctx.frames.back? = some frame)
    (hturn : turn natives (call natives budget) frame.proto ctx = .ok () next) :
    AtHand ctx.frames.size frame.proto next := by
  intro hsize found hfound
  have hprotos :=
    ((adjoining_turn hnatives budget frame.proto ctx).ok hturn).protos_eq hsize
  have hlast : next.protos.getLast? = ctx.protos.getLast? := congrArg _ hprotos
  rw [getLast?_protos, getLast?_protos, hfound, hback] at hlast
  exact (Option.some.inj hlast).symm

/-- How a loop goes that takes each turn with the prototype of the innermost
frame: its turns and its result, for a budget and from a context on. -/
inductive Course (natives : Natives) (entry : Nat) :
    Nat → Context → List Turn → EStateM.Result RuntimeError Context Unit → Prop
  | spent {ctx : Context} :
      Course natives entry 0 ctx [] (.error .budgetSpent ctx)
  | done {budget : Nat} {ctx : Context} (hentry : ctx.frames.size ≤ entry) :
      Course natives entry (budget + 1) ctx [] (.ok () ctx)
  | failed {budget : Nat} {ctx c : Context} {frame : Frame} {e : RuntimeError}
      (hentry : ¬ctx.frames.size ≤ entry)
      (hback : ctx.frames.back? = some frame)
      (hturn : turn natives (call natives budget) frame.proto ctx =
        .error e c) :
      Course natives entry (budget + 1) ctx [⟨budget, frame.proto, ctx⟩]
        (.error e c)
  | round {budget : Nat} {ctx next : Context} {frame : Frame}
      {turns : List Turn} {result : EStateM.Result RuntimeError Context Unit}
      (hentry : ¬ctx.frames.size ≤ entry)
      (hback : ctx.frames.back? = some frame)
      (hturn : turn natives (call natives budget) frame.proto ctx = .ok () next)
      (hrest : Course natives entry budget next turns result) :
      Course natives entry (budget + 1) ctx
        (⟨budget, frame.proto, ctx⟩ :: turns) result

variable {budget entry depth : Nat} {proto : Prototype} {frame : Frame}
  {turns : List Turn} {result : EStateM.Result RuntimeError Context Unit}

/-- The run: what is at hand stays up to date, so the loop goes that way. -/
theorem AtHand.course (hnatives : natives.LeaveFrames)
    (h : AtHand depth proto ctx) :
    Course natives entry budget ctx
      (turnsFrom natives budget entry depth proto ctx)
      (loop natives budget entry depth proto ctx) := by
  induction budget generalizing depth proto ctx with
  | zero => exact .spent
  | succ budget ih =>
    by_cases hentry : ctx.frames.size ≤ entry
    · rw [loop_of_le hentry, turnsFrom, if_pos hentry]
      exact .done hentry
    · obtain ⟨frame, hback⟩ : ∃ frame, ctx.frames.back? = some frame := by
        cases hback : ctx.frames.back? with
        | some frame => exact ⟨frame, rfl⟩
        | none =>
          rw [Array.back?_eq_none_iff.1 hback] at hentry
          exact absurd (Nat.zero_le entry) hentry
      have hatHand := fun hsize => h hsize frame hback
      rw [loop_succ hentry hback hatHand, turnsFrom_succ hentry hback hatHand]
      cases hturn : turn natives (call natives budget) frame.proto ctx with
      | error e c =>
        rw [bind_of_error hturn]
        exact .failed hentry hback hturn
      | ok _ next =>
        rw [bind_of_ok hturn]
        exact .round hentry hback hturn (ih (.next hnatives hback hturn))

theorem Course.innermost (h : Course natives entry budget ctx turns result) :
    ∀ t ∈ turns, t.ctx.frames.back?.map Frame.proto = some t.proto := by
  induction h with
  | spent => exact nofun
  | done => exact nofun
  | failed _ hback =>
    intro t ht
    rw [List.mem_singleton.1 ht, hback]
    rfl
  | round _ hback _ _ ih =>
    intro t ht
    rcases List.mem_cons.1 ht with rfl | ht
    · rw [hback]
      rfl
    · exact ih t ht

/-! ## A loop that keeps nothing at hand -/

namespace Afresh

mutual

/-- A call whose loop fetches the prototype of the innermost frame at every
turn. -/
def call (natives : Natives) : Nat → Nat → Action Unit
  | 0, _ => throw .budgetSpent
  | budget + 1, argumentCount => do
    let ctx ← get
    let height := ctx.stack.size
    let frameCount := ctx.frames.size
    if height ≤ argumentCount then throw .stackUnderflow
    else
      let calleeSlot := height - argumentCount - 1
      collectIfDue
      unwinding frameCount calleeSlot do
        startCall natives (call natives budget) calleeSlot argumentCount
        match (← get).frames.back? with
        | some _ => loop natives budget frameCount
        | none => pure ()

/-- Takes turns until there are at most `entry` frames. -/
def loop (natives : Natives) : Nat → Nat → Action Unit
  | 0, _ => throw .budgetSpent
  | budget + 1, entry => do
    if (← get).frames.size ≤ entry then pure ()
    else
      let frame ← innermost
      turn natives (call natives budget) frame.proto
      loop natives budget entry

end

/-- The rest of a call. -/
def finish (natives : Natives) (budget entry : Nat) : Action Unit := do
  match (← get).frames.back? with
  | some _ => loop natives budget entry
  | none => pure ()

/-- The turns that the loop takes. -/
def turnsFrom (natives : Natives) : Nat → Nat → Context → List Turn
  | 0, _, _ => []
  | budget + 1, entry, ctx =>
    if ctx.frames.size ≤ entry then []
    else
      match ctx.frames.back? with
      | none => []
      | some frame =>
        ⟨budget, frame.proto, ctx⟩ ::
          match turn natives (call natives budget) frame.proto ctx with
          | .ok () next => turnsFrom natives budget entry next
          | .error _ _ => []

theorem loop_succ (hentry : ¬ctx.frames.size ≤ entry)
    (hback : ctx.frames.back? = some frame) :
    loop natives (budget + 1) entry ctx =
      (turn natives (call natives budget) frame.proto >>=
        fun _ => loop natives budget entry) ctx := by
  rw [loop]
  change (if ctx.frames.size ≤ entry then pure () else _ : Action Unit) ctx = _
  rw [if_neg hentry, bind_of_ok (innermost_of_back? hback)]

end Afresh

/-- A loop that goes that way takes the turns of the one that keeps
nothing at hand, and ends as that one does, if the calls that natives make
in it are the same. -/
theorem Course.eq_afresh (h : Course natives entry budget ctx turns result)
    (hcall : ∀ less < budget, call natives less = Afresh.call natives less) :
    turns = Afresh.turnsFrom natives budget entry ctx ∧
      result = Afresh.loop natives budget entry ctx := by
  induction h with
  | spent => exact ⟨rfl, rfl⟩
  | @done budget ctx hentry =>
    rw [Afresh.turnsFrom, Afresh.loop, if_pos hentry]
    refine ⟨rfl, ?_⟩
    change _ =
      (if ctx.frames.size ≤ entry then pure () else _ : Action Unit) ctx
    rw [if_pos hentry]
    rfl
  | @failed budget ctx c frame e hentry hback hturn =>
    rw [hcall budget (Nat.lt_succ_self budget)] at hturn
    rw [Afresh.turnsFrom, if_neg hentry, hback, Afresh.loop_succ hentry hback,
      bind_of_error hturn]
    dsimp only
    rw [hturn]
    exact ⟨rfl, rfl⟩
  | @round budget ctx next frame turns result hentry hback hturn _ ih =>
    obtain ⟨hturns, hresult⟩ :=
      ih fun less hless => hcall less (Nat.lt_succ_of_lt hless)
    rw [hcall budget (Nat.lt_succ_self budget)] at hturn
    rw [Afresh.turnsFrom, if_neg hentry, hback, Afresh.loop_succ hentry hback,
      bind_of_ok hturn]
    dsimp only
    rw [hturn]
    exact ⟨congrArg _ hturns, hresult⟩

/-! ## Runs and calls -/

/-- The turns of a run that starts with the innermost frame. -/
def turnsOfRun (natives : Natives) (budget entry : Nat)
    (ctx : Context) : List Turn :=
  match ctx.frames.back? with
  | some frame => turnsFrom natives budget entry ctx.frames.size frame.proto ctx
  | none => []

/-- What a run fetches at its start is the innermost prototype. -/
theorem course_of_back? (hnatives : natives.LeaveFrames) (budget entry : Nat)
    (hback : ctx.frames.back? = some frame) :
    Course natives entry budget ctx (turnsOfRun natives budget entry ctx)
      (finish natives budget entry ctx) := by
  have hatHand : AtHand ctx.frames.size frame.proto ctx := by
    intro _ found hfound
    cases hback.symm.trans hfound
    rfl
  have hfinish : finish natives budget entry ctx =
      loop natives budget entry ctx.frames.size frame.proto ctx := by
    rw [finish,
      bind_of_ok (rfl : (get : Action Context) ctx = .ok ctx ctx), hback]
    rfl
  rw [turnsOfRun, hback, hfinish]
  exact hatHand.course hnatives

theorem finish_eq_afresh (hnatives : natives.LeaveFrames)
    (hcall : ∀ less < budget, call natives less = Afresh.call natives less)
    (entry : Nat) :
    finish natives budget entry = Afresh.finish natives budget entry := by
  funext ctx
  have hget : (get : Action Context) ctx = .ok ctx ctx := rfl
  cases hback : ctx.frames.back? with
  | none => rw [finish, Afresh.finish, bind_of_ok hget, bind_of_ok hget, hback]
  | some frame =>
    refine ((course_of_back? hnatives budget entry hback).eq_afresh
      hcall).2.trans ?_
    rw [Afresh.finish, bind_of_ok hget, hback]

/-- Calls are the same, and with them the calls that natives make in their
turns. -/
theorem call_eq_afresh (hnatives : natives.LeaveFrames) (budget : Nat) :
    call natives budget = Afresh.call natives budget := by
  induction budget using Nat.strongRecOn with
  | ind budget ih =>
    cases budget with
    | zero => rfl
    | succ budget =>
      have hcall := ih budget (Nat.lt_succ_self budget)
      have hfinish := finish_eq_afresh hnatives
        fun less hless => ih less (Nat.lt_succ_of_lt hless)
      funext argumentCount
      have hcached : call natives (budget + 1) argumentCount = (do
          let ctx ← get
          if ctx.stack.size ≤ argumentCount then throw .stackUnderflow
          else
            collectIfDue
            unwinding ctx.frames.size (ctx.stack.size - argumentCount - 1) do
              startCall natives (call natives budget)
                (ctx.stack.size - argumentCount - 1) argumentCount
              finish natives budget ctx.frames.size) := rfl
      rw [hcached, hcall]
      simp only [hfinish]
      rfl

theorem innermost_turnsOfRun (hnatives : natives.LeaveFrames)
    (budget entry : Nat) (ctx : Context) :
    ∀ t ∈ turnsOfRun natives budget entry ctx,
      t.ctx.frames.back?.map Frame.proto = some t.proto := by
  cases hback : ctx.frames.back? with
  | none =>
    rw [turnsOfRun, hback]
    exact nofun
  | some frame => exact (course_of_back? hnatives budget entry hback).innermost

theorem turnsOfRun_eq_afresh (hnatives : natives.LeaveFrames)
    (hcall : ∀ less < budget, call natives less = Afresh.call natives less)
    (entry : Nat) (ctx : Context) :
    turnsOfRun natives budget entry ctx =
      Afresh.turnsFrom natives budget entry ctx := by
  cases hback : ctx.frames.back? with
  | none =>
    rw [turnsOfRun, hback]
    cases budget with
    | zero => rfl
    | succ budget =>
      rw [Afresh.turnsFrom, Array.back?_eq_none_iff.1 hback]
      exact (if_pos (Nat.zero_le entry)).symm
  | some frame =>
    exact ((course_of_back? hnatives budget entry hback).eq_afresh hcall).1

/-- In every run the prototype at hand is that of the innermost frame whenever a
turn is taken, so the run takes the turns of the one that fetches it every time,
from the same contexts, and ends as that one does; and so do all calls. -/
theorem atHand_eq_innermost (hnatives : natives.LeaveFrames)
    (budget entry : Nat) (ctx : Context) :
    (∀ t ∈ turnsOfRun natives budget entry ctx,
      t.ctx.frames.back?.map Frame.proto = some t.proto) ∧
    turnsOfRun natives budget entry ctx =
      Afresh.turnsFrom natives budget entry ctx ∧
    finish natives budget entry ctx = Afresh.finish natives budget entry ctx ∧
    ∀ argumentCount, call natives budget argumentCount ctx =
      Afresh.call natives budget argumentCount ctx := by
  have hcall := call_eq_afresh hnatives
  have hless : ∀ less < budget, call natives less = Afresh.call natives less :=
    fun less _ => hcall less
  exact ⟨innermost_turnsOfRun hnatives budget entry ctx,
    turnsOfRun_eq_afresh hnatives hless entry ctx,
    congrFun (finish_eq_afresh hnatives hless entry) ctx,
    fun argumentCount => congrFun (congrFun (hcall budget) argumentCount) ctx⟩

/-- A function that makes a protected call of its second local and then calls
it. -/
def callingTwice : Prototype where
  code := #[5, 0, 5, 1, 26, 1, 4, 5, 1, 26, 0, 27]
  numLocals := 2

/-- A context in the middle of a run of that function. -/
def running : Context :=
  { holding [.table .empty, .closure ⟨callingTwice, #[]⟩,
    .closure ⟨{ code := #[27] }, #[]⟩]
      #[.function ⟨1⟩, .native "pcall", .function ⟨2⟩] with
    frames :=
      #[{ closure := ⟨1⟩, proto := callingTwice, cells := #[], base := 1 }] }

/-- A frame is entered and left by a native function in the third turn, and by
the run itself in the sixth and the seventh one. -/
theorem atHand_eq_innermost_running : Native.probe.LeaveFrames ∧
    (turnsOfRun Native.probe 20 0 running).map (·.ctx.frames.size) =
      [1, 1, 1, 1, 1, 1, 2, 1] ∧
    (failureOf (finish Native.probe 20 0 running)).isNone = true ∧
    (∀ t ∈ turnsOfRun Native.probe 20 0 running,
      t.ctx.frames.back?.map Frame.proto = some t.proto) ∧
    turnsOfRun Native.probe 20 0 running =
      Afresh.turnsFrom Native.probe 20 0 running ∧
    finish Native.probe 20 0 running =
      Afresh.finish Native.probe 20 0 running := by
  have hnatives := Native.balanced_probe.leaveFrames
  obtain ⟨hatHand, hturns, hfinish, -⟩ :=
    atHand_eq_innermost hnatives 20 0 running
  exact ⟨hnatives, by decide +kernel, by decide +kernel, hatHand,
    hturns, hfinish⟩

end Machine

end Isolate
