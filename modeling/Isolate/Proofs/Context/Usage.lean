import Isolate.Proofs.Machine.Intact
import Isolate.Proofs.Transfer.Release
import Isolate.Proofs.Transfer.Requests

/-!
# Contexts in use

A host makes contexts, asks operations of them, and copies values between them.
Whatever it asks, no handle in them dangles: not between two operations, not
between two instructions, and not between two requests to one transfer.
-/

namespace Isolate

namespace Context

variable {ctx source dest : Context} {value : Value} {index : Int}
  {settings : TransferSettings}

/-! ## What occurs in a context -/

/-- What the stack, the pins, the globals and the frames hold, and
what that leads to. -/
inductive Occurs (ctx : Context) : Value → Prop
  | stack {value : Value} (h : value ∈ ctx.stack.toList) : ctx.Occurs value
  | pinned {pin : Pin} {value : Value}
      (h : ctx.registry.get? pin = some value) : ctx.Occurs value
  | globals : ctx.Occurs ctx.globalsValue
  | running {frame : Frame} (h : frame ∈ ctx.frames.toList) :
      ctx.Occurs (.function frame.closure)
  | framed {frame : Frame} {cell : Handle} {value : Value}
      (h : frame ∈ ctx.frames.toList) (hcell : cell ∈ frame.cells.toList)
      (hvalue : ctx.heap.get? cell = some (.cell value)) :
      ctx.Occurs value
  | key {handle : Handle} {table : Table} {key : Key} {value : Value}
      (h : ctx.Occurs (.table handle))
      (htable : ctx.heap.get? handle = some (.table table))
      (hentry : (key, value) ∈ table.entries) : ctx.Occurs key.toValue
  | bound {handle : Handle} {table : Table} {key : Key} {value : Value}
      (h : ctx.Occurs (.table handle))
      (htable : ctx.heap.get? handle = some (.table table))
      (hentry : (key, value) ∈ table.entries) : ctx.Occurs value
  | captured {handle cell : Handle} {closure : Closure} {value : Value}
      (h : ctx.Occurs (.function handle))
      (hclosure : ctx.heap.get? handle = some (.closure closure))
      (hcell : cell ∈ closure.cells.toList)
      (hvalue : ctx.heap.get? cell = some (.cell value)) :
      ctx.Occurs value

/-- Every reference that occurs names an object of its kind, and every function
has accepted code with a cell for each of its upvalues. -/
structure Whole (ctx : Context) : Prop where
  named : ∀ value, ctx.Occurs value → ctx.Names value
  cells : ∀ handle closure, ctx.heap.get? handle = some (.closure closure) →
    closure.cells.size = closure.proto.upvalues.size ∧
      ∀ cell ∈ closure.cells.toList,
        ∃ value, ctx.heap.get? cell = some (.cell value)
  verified : ∀ handle closure, ctx.heap.get? handle = some (.closure closure) →
    closure.proto.verify = .ok ()

/-- What a host may hand over: plain data, or a reference that it
could still find. -/
def Offers (ctx : Context) (value : Value) : Prop :=
  value.handle? = none ∨ ctx.Occurs value

theorem Intact.names_of_occurs (h : ctx.Intact) (hoccurs : ctx.Occurs value) :
    ctx.Names value := by
  cases hoccurs with
  | stack hstack => exact h.stack value hstack
  | pinned hpinned => exact h.pinned _ value hpinned
  | globals => exact h.globals
  | running hframe => exact h.frames _ hframe
  | framed _ _ hvalue => exact h.names_of_cell hvalue
  | key _ htable hentry => exact (h.objects _ _ htable _ _ hentry).2.1
  | bound _ htable hentry => exact (h.objects _ _ htable _ _ hentry).2.2
  | captured _ _ _ hvalue => exact h.names_of_cell hvalue

theorem Intact.names_of_offers (h : ctx.Intact) (hvalue : ctx.Offers value) :
    ctx.Names value :=
  hvalue.elim names_of_plain h.names_of_occurs

theorem Intact.whole (h : ctx.Intact) : ctx.Whole :=
  ⟨fun _ => h.names_of_occurs,
    fun handle _ hclosure => h.objects handle _ hclosure, h.code⟩

/-! ## Operations -/

/-- What a host asks of one context, but for what neither changes it nor fails
with an error of its own. -/
inductive Operation
  | trace (enabled : Bool)
  | setHeight (index : Int)
  | pop (count : Nat)
  | push (value : Value)
  | pushGlobals
  | newTable
  | newUserdata (typeName : String) (bytes : List UInt8)
  | absoluteIndex (index : Int)
  | valueAt (index : Int)
  | kindAt (index : Int)
  | duplicate (index : Int)
  | remove (index : Int)
  | rawGet (index : Int)
  | rawSet (index : Int)
  | rawGetField (index : Int) (name : String)
  | rawSetField (index : Int) (name : String)
  | rawGetIndex (index : Int) (n : Int64)
  | rawSetIndex (index : Int) (n : Int64)
  | rawLength (index : Int)
  | tablePairs (index : Int)
  | getGlobal (name : String)
  | setGlobal (name : String)
  | pin (index : Int)
  | pinValue (value : Value)
  | pushPinned (pin : Pin)
  | unpin (pin : Pin)
  | getUpvalue (index : Int) (number : Nat)
  | setUpvalue (index : Int) (number : Nat)
  | loadPrototype (proto : Prototype) (chunkName : String)
  | loadChunk (bytes : List UInt8) (chunkName : String)
  | call (budget argumentCount : Nat)
  | collect

namespace Operation

/-- Runs an operation with the standard natives and drops what it gives back. -/
def run : Operation → Action Unit
  | trace enabled => modify fun ctx => { ctx with tracing := enabled }
  | setHeight index => Context.setHeight index
  | pop count => Context.pop count
  | push value => Context.push value
  | pushGlobals => Context.pushGlobals
  | newTable => Context.newTable
  | newUserdata typeName bytes => Context.newUserdata typeName bytes
  | absoluteIndex index => discard (query (·.absoluteIndex index))
  | valueAt index => discard (query (·.valueAt index))
  | kindAt index => discard (query (·.kindAt index))
  | duplicate index => Context.duplicate index
  | remove index => discard (Context.remove index)
  | rawGet index => discard (Context.rawGet index)
  | rawSet index => Context.rawSet index
  | rawGetField index name => discard (Context.rawGetField index name)
  | rawSetField index name => Context.rawSetField index name
  | rawGetIndex index n => discard (Context.rawGetIndex index n)
  | rawSetIndex index n => Context.rawSetIndex index n
  | rawLength index => discard (query (·.rawLength index))
  | tablePairs index => discard (query (·.tablePairs index))
  | getGlobal name => discard (Context.getGlobal name)
  | setGlobal name => Context.setGlobal name
  | pin index => discard (Context.pin index)
  | pinValue value => discard (Context.pinValue value)
  | pushPinned held => Context.pushPinned held
  | unpin held => Context.unpin held
  | getUpvalue index number => discard (Context.getUpvalue index number)
  | setUpvalue index number => discard (Context.setUpvalue index number)
  | loadPrototype proto chunkName => Context.loadPrototype proto chunkName
  | loadChunk bytes chunkName => Context.loadChunk bytes chunkName
  | call budget argumentCount =>
    Machine.call Native.standard budget argumentCount
  | collect => discard Context.collect

/-- The values that come from the host are offered to the context. -/
def Permitted (ctx : Context) : Operation → Prop
  | push value => ctx.Offers value
  | pinValue value => ctx.Offers value
  | _ => True

end Operation

theorem Intact.ends_discard {α : Type} {action : Action α}
    (h : Ends (action ctx) (fun _ c => c.Intact) FailsIntact) :
    Ends (discard action ctx) (fun _ c => c.Intact) FailsIntact := by
  rw [discard_eq_bind]
  exact h.bind fun _ _ hc => hc

theorem Intact.ends_inquiry {α : Type} (h : ctx.Intact)
    {f : Context → Except RuntimeError α}
    (hf : ∀ e, f ctx = .error e → ¬e.Dangles) :
    Ends (discard (query f) ctx) (fun _ c => c.Intact) FailsIntact :=
  ends_discard ((h.ends_query hf).mono (fun _ _ hc => hc.1 ▸ h)
    fun _ _ he => he)

/-- Every operation keeps a context intact, whether it succeeds or fails. -/
theorem Intact.ends_operation (h : ctx.Intact) {operation : Operation}
    (hpermitted : operation.Permitted ctx) :
    Ends (operation.run ctx) (fun _ c => c.Intact) FailsIntact := by
  cases operation with
  | trace enabled =>
    exact h.change rfl rfl h.registry h.cached h.stack h.pinned h.running
  | setHeight index => exact h.ends_setHeight index
  | pop count => exact h.ends_pop count
  | push value => exact h.ends_push (h.names_of_offers hpermitted)
  | pushGlobals => exact h.ends_push h.globals
  | newTable => exact h.ends_newTable
  | newUserdata typeName bytes => exact h.ends_newUserdata typeName bytes
  | absoluteIndex index =>
    exact h.ends_inquiry fun e he => (misplaced_of_absoluteIndex he).not_dangles
  | valueAt index =>
    exact h.ends_inquiry fun e he => (misplaced_of_valueAt he).not_dangles
  | kindAt index =>
    exact h.ends_inquiry fun e he => (misplaced_of_kindAt he).not_dangles
  | duplicate index => exact h.ends_duplicate index
  | remove index => exact ends_discard (h.ends_remove index)
  | rawGet index => exact ends_discard (h.ends_rawGet index)
  | rawSet index =>
    exact (h.ends_rawSet index).mono (fun _ _ hc => hc.1) fun _ _ he => he
  | rawGetField index name =>
    exact ends_discard (h.ends_rawGetKey index (.string name))
  | rawSetField index name => exact h.ends_rawSetKey index rfl rfl
  | rawGetIndex index n =>
    exact ends_discard (h.ends_rawGetKey index (.integer n))
  | rawSetIndex index n => exact h.ends_rawSetKey index rfl rfl
  | rawLength index =>
    exact h.ends_inquiry fun e he => h.not_dangles_of_rawLength he
  | tablePairs index =>
    exact h.ends_inquiry fun e he => h.not_dangles_of_tablePairs he
  | getGlobal name => exact ends_discard (h.ends_getGlobal name)
  | setGlobal name => exact h.ends_setGlobal name
  | pin index => exact ends_discard (h.ends_pin index)
  | pinValue value => exact h.withPin (h.names_of_offers hpermitted)
  | pushPinned held => exact h.ends_pushPinned held
  | unpin held => exact h.withoutPin held
  | getUpvalue index number =>
    exact ends_discard (h.ends_getUpvalue index number)
  | setUpvalue index number =>
    exact ends_discard (h.ends_setUpvalue index number)
  | loadPrototype proto chunkName => exact h.ends_loadPrototype proto chunkName
  | loadChunk bytes chunkName => exact h.ends_loadChunk bytes chunkName
  | call budget argumentCount =>
    exact h.ends_call Native.quiet_standard budget argumentCount
  | collect =>
    exact ends_discard (h.collected.mono (fun _ _ hc => hc.1) fun _ _ he => he)

end Context

/-! ## Requests to a transfer -/

namespace Transfer

variable {source : Context} {settings : TransferSettings} {t t' : Transfer}

/-- The values that come from the host are offered to the source. -/
def Request.Permitted (source : Context) : Request → Prop
  | copy value => source.Offers value
  | copyAt _ => True
  | merge table _ => source.Occurs (.table table)

theorem Traversing.ends_request (h : Traversing source settings source.Names t)
    (hidle : t.fillings = []) (hsource : source.Intact) {request : Request}
    (hpermitted : request.Permitted source) :
    Ends (request.run source settings t)
      (fun _ t' => Rests source settings source.Names t t')
      fun e t' => FailsResting source settings source.Names t e t' := by
  have hcopy : ∀ {value}, source.Names value →
      Ends (copy source settings value t)
        (fun _ t' => Rests source settings source.Names t t')
        fun e t' => FailsResting source settings source.Names t e t' :=
    fun hvalue =>
    (h.ends_copy_rests hidle hsource hsource.closed_names hvalue).mono
      (fun _ _ hc => hc.1) fun _ _ he => he.1
  cases request with
  | copy value => exact hcopy (hsource.names_of_offers hpermitted)
  | copyAt index =>
    simp only [Request.run, copyAt]
    cases hvalue : source.valueAt index with
    | ok value => exact hcopy (hsource.names_of_valueAt hvalue)
    | error error =>
      exact ⟨TransferError.not_dangles_ofRuntime
        (Context.misplaced_of_valueAt hvalue).not_dangles,
        .refl h hidle⟩
  | merge handle index =>
    obtain ⟨table, htable⟩ := hsource.names_of_occurs hpermitted
    exact (h.ends_mergeTable hidle hsource hsource.closed_names htable
      (fun key value hentry =>
        (hsource.objects _ _ htable key value hentry).2) index).bind
        fun _ _ hrests => hrests

theorem Rests.leave (h : Rests source settings source.Names t t')
    (hsource : source.Intact) {request : Request}
    (hpermitted : request.Permitted source) :
    Rests source settings source.Names t
      (request.leave source settings t') := by
  have hrun := h.passage.traversing.ends_request h.idle hsource hpermitted
  simp only [Request.leave]
  cases hresult : request.run source settings t' with
  | ok _ t'' => exact h.trans (hrun.ok hresult)
  | error error t'' => exact h.trans (hrun.error hresult).rests

theorem Rests.serve (h : Rests source settings source.Names t t')
    (hsource : source.Intact) {requests : List Request}
    (hpermitted : ∀ request ∈ requests, request.Permitted source) :
    Rests source settings source.Names t
      (t'.serve source settings requests) := by
  induction requests generalizing t' with
  | nil => exact h
  | cons request rest ih =>
    exact ih (h.leave hsource (hpermitted request List.mem_cons_self))
      fun other hother =>
        hpermitted other (List.mem_cons_of_mem request hother)

/-- A transfer that has served requests so far. -/
theorem rests_serve_start {dest : Context} (hsource : source.Intact)
    (hdest : dest.Intact) (settings : TransferSettings)
    {requests : List Request}
    (hpermitted : ∀ request ∈ requests, request.Permitted source) :
    Rests source settings source.Names (start dest)
      ((start dest).serve source settings requests) :=
  (Rests.refl (traversing_start hdest) rfl).serve hsource hpermitted

end Transfer

/-! ## Everything that a host can make -/

namespace Context

variable {ctx source : Context} {settings : TransferSettings}

/-- The contexts that a host can have: fresh ones, and what operations,
transfers, merges and requests to a transfer leave of those that it had, whether
they succeed or fail. -/
inductive Built : Context → Prop
  | create (settings : ContextSettings) (bindings : Bindings) :
      Built (create settings bindings)
  | operate {ctx : Context} {operation : Operation} (h : Built ctx)
      (hpermitted : operation.Permitted ctx) :
        Built (stateOf (operation.run ctx))
  | receive {source dest : Context} (hsource : Built source)
      (hdest : Built dest) (index : Int) (settings : TransferSettings) :
        Built (stateOf (source.receive index settings dest))
  | receiveBindings {source dest : Context} (hsource : Built source)
      (hdest : Built dest) (index : Int) (settings : TransferSettings) :
      Built (stateOf (source.receiveBindings index settings dest))
  | serve {source dest : Context} {requests : List Transfer.Request}
      (hsource : Built source) (hdest : Built dest)
      (settings : TransferSettings)
      (hpermitted : ∀ request ∈ requests, request.Permitted source) :
      Built ((Transfer.start dest).serve source settings requests).dest
  | finish {source dest : Context} {requests : List Transfer.Request}
      (hsource : Built source) (hdest : Built dest)
      (settings : TransferSettings)
      (hpermitted : ∀ request ∈ requests, request.Permitted source) :
      Built ((Transfer.start dest).serve source settings requests).finish.2

theorem Built.intact (h : Built ctx) : ctx.Intact := by
  induction h with
  | create settings bindings => exact intact_create settings bindings
  | operate _ hpermitted ih =>
    exact (ih.ends_operation hpermitted).stateOf (fun _ _ hc => hc)
      fun _ _ he => he.intact
  | receive _ _ index settings hsource hdest =>
    exact (hsource.ends_receive hdest index settings).stateOf
      (fun _ _ hc => hc.1) fun _ _ he => he.2.1
  | receiveBindings _ _ index settings hsource hdest =>
    exact (hsource.ends_receiveBindings hdest index settings).stateOf
      (fun _ _ hc => hc.1) fun _ _ he => he.2.1
  | serve _ _ settings hpermitted hsource hdest =>
    exact (Transfer.rests_serve_start hsource hdest settings
      hpermitted).passage.traversing.dest
  | finish _ _ settings hpermitted hsource hdest =>
    exact ((Transfer.rests_serve_start hsource hdest settings
      hpermitted).finish rfl).1

/-- A context that a host can have is whole, and so it is at every turn of a
call.  No operation on it, and no transfer or merge into it from another such
context, fails for a handle that names nothing; each leaves it whole, whether it
succeeds or fails, and so does each of many requests to one transfer. -/
theorem none_dangles (h : ctx.Built) :
    ctx.Whole ∧
    (∀ budget argumentCount,
      ∀ turn ∈ Machine.turnsOf Native.standard budget argumentCount ctx,
        turn.ctx.Whole) ∧
    (∀ operation : Operation, operation.Permitted ctx →
      Ends (operation.run ctx) (fun _ c => c.Whole)
        fun e c => ¬e.Dangles ∧ c.Whole) ∧
    ∀ source, Built source → ∀ settings : TransferSettings,
      (∀ index, Ends (source.receive index settings ctx) (fun _ c => c.Whole)
        fun e c => ¬e.Dangles ∧ c.Whole) ∧
      (∀ index, Ends (source.receiveBindings index settings ctx)
        (fun _ c => c.Whole) fun e c => ¬e.Dangles ∧ c.Whole) ∧
      ∀ requests,
        (∀ request ∈ requests, Transfer.Request.Permitted source request) →
        ∀ request, Transfer.Request.Permitted source request →
          Ends (request.run source settings
            ((Transfer.start ctx).serve source settings requests))
            (fun _ t => t.dest.Whole) fun e t => ¬e.Dangles ∧ t.dest.Whole := by
  have hctx := h.intact
  refine ⟨hctx.whole, fun budget argumentCount turn hturn => ?_,
    fun operation hpermitted => ?_, fun source hbuilt settings =>
      ⟨fun index => ?_, fun index => ?_,
        fun requests hrequests request hrequest => ?_⟩⟩
  · exact (hctx.turnsOf Native.quiet_standard budget argumentCount turn
      hturn).1.whole
  · exact (hctx.ends_operation hpermitted).mono (fun _ _ hc => hc.whole)
      fun _ _ he => ⟨he.named, he.intact.whole⟩
  · exact (hbuilt.intact.ends_receive hctx index settings).mono
      (fun _ _ hc => hc.1.whole) fun _ _ he => ⟨he.1, he.2.1.whole⟩
  · exact (hbuilt.intact.ends_receiveBindings hctx index settings).mono
      (fun _ _ hc => hc.1.whole) fun _ _ he => ⟨he.1, he.2.1.whole⟩
  · have hserved :=
      Transfer.rests_serve_start hbuilt.intact hctx settings hrequests
    exact (hserved.passage.traversing.ends_request hserved.idle hbuilt.intact
      hrequest).mono (fun _ _ ht => ht.passage.traversing.dest.whole)
      fun _ _ he => ⟨he.named, he.rests.passage.traversing.dest.whole⟩

/-- A function that gives a function which shares its local. -/
def enclosing : Prototype where
  code := #[28, 0, 0, 27]
  protos := [{
    code := #[27]
    upvalues := #[{ name := none, capture := .ofLocal 0 }] }]
  numLocals := 1

/-- A context in which that function was loaded and called. -/
def enclosed : Context :=
  stateOf ((Operation.call 9 0).run
    (stateOf ((Operation.loadPrototype enclosing "=main").run (create {} {}))))

theorem built_enclosed : enclosed.Built :=
  .operate (.operate (.create {} {}) trivial) trivial

theorem functionAt_enclosed : (match enclosed.valueAt 1 with
    | .ok (.function _) => true
    | _ => false) = true := by
  decide +kernel

/-- The function that the call gave is there with the cell that it captured. -/
theorem none_dangles_enclosed :
    ∃ handle closure, enclosed.valueAt 1 = .ok (.function handle) ∧
      enclosed.heap.get? handle = some (.closure closure) ∧
      closure.cells.size = closure.proto.upvalues.size ∧
      closure.proto.verify = .ok () := by
  obtain ⟨hwhole, -⟩ := none_dangles built_enclosed
  have hfunction := functionAt_enclosed
  split at hfunction
  · next handle hvalue =>
    obtain ⟨i, hslot, -⟩ := absoluteIndex_of_valueAt hvalue nofun
    have hstack := Array.mem_toList_iff.2 (Array.mem_of_getElem? hslot)
    obtain ⟨closure, hclosure⟩ := hwhole.named _ (.stack hstack)
    exact ⟨handle, closure, hvalue, hclosure,
      (hwhole.cells handle closure hclosure).1,
      hwhole.verified handle closure hclosure⟩
  · cases hfunction

end Context

end Isolate
