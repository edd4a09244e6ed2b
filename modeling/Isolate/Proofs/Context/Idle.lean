import Isolate.Proofs.Context.Operations
import Isolate.Proofs.Machine.Isolation
import Isolate.Proofs.Transfer.Lasting

/-!
# Between operations

Only calls enter frames, and a call that is over has left its own.  So no frame
is there when a host comes to ask for something, and what it calls runs on
accepted code.
-/

namespace Isolate.Context

variable {ctx : Context} {holds : Context → Prop}

/-- A property that lasts through transfers lasts through operations, if it
lasts through calls and is not about tracing. -/
theorem Lasting.operations (h : Lasting holds)
    (htracing : ∀ (ctx : Context) (tracing : Bool), holds ctx →
      holds { ctx with tracing })
    (hcall : ∀ budget argumentCount,
      Upholds holds (Machine.call Native.standard budget argumentCount)) :
    Operations fun _ => Upholds holds where
  toElements := h.elements
  setTracing := fun enabled ctx => htracing ctx enabled
  setStack := fun _ _ ctx => h.stack ctx _
  pinValue := h.pinValue
  unpin := h.unpin
  call := hcall
  collect := fun ctx hctx => h.note _ _ (h.heap ctx _ hctx)

theorem lasting_frames (frames : Array Frame) :
    Lasting fun ctx => ctx.frames = frames :=
  ⟨fun _ _ hctx => hctx, fun _ _ hctx => hctx, fun _ _ hctx => hctx,
    fun _ _ hctx => hctx⟩

theorem operations_frames (frames : Array Frame) :
    Operations fun _ => Upholds fun ctx => ctx.frames = frames := by
  refine (lasting_frames frames).operations (fun _ _ hctx => hctx)
    fun budget argumentCount ctx hctx => ?_
  have hcall := Machine.isolated_call Native.balanced_standard budget
  by_cases hroom : argumentCount < ctx.stack.size
  · exact (hcall.room ctx argumentCount hroom).mono
      (fun _ _ hc => hc.1.trans hctx) fun _ _ hc => hc.1.trans hctx
  · exact (hcall.noRoom ctx argumentCount (Nat.le_of_not_lt hroom)).mono
      (fun _ _ hc => hc.elim) fun _ _ hc => hc ▸ hctx

theorem upholds_frames_loadChunk (frames : Array Frame) (bytes : List UInt8)
    (name : String) :
    Upholds (fun ctx => ctx.frames = frames)
      (loadChunk bytes name) := fun ctx hctx =>
  (confined_loadChunk bytes name ctx).mono (fun _ _ hc => hc.frames.trans hctx)
    fun _ _ hc => hc.frames.trans hctx

/-- No frame is there between operations. -/
theorem Built.frames_eq (h : ctx.Built) : ctx.frames = #[] := by
  induction h with
  | create settings bindings => rfl
  | operate _ _ ih =>
    exact ((operations_frames #[]).run _ (fun bytes name _ =>
      upholds_frames_loadChunk #[] bytes name)
      _ ih).stateOf (fun _ _ hc => hc) fun _ _ hc => hc
  | receive hsource hdest index settings _ ih =>
    exact (hsource.intact.ends_receive hdest.intact index settings).stateOf
      (fun _ _ hc => hc.2.frames.trans ih) fun _ _ hc => hc.2.2.frames.trans ih
  | receiveBindings hsource hdest index settings _ ih =>
    exact (hsource.intact.ends_receiveBindings hdest.intact index
      settings).stateOf
      (fun _ _ hc => hc.2.frames.trans ih) fun _ _ hc => hc.2.2.frames.trans ih
  | serve hsource hdest settings hpermitted _ ih =>
    exact (Transfer.rests_serve_start hsource.intact hdest.intact settings
      hpermitted).passage.onward.frames.trans ih
  | finish hsource hdest settings hpermitted _ ih =>
    exact ((Transfer.rests_serve_start hsource.intact hdest.intact settings
      hpermitted).finish rfl).2.frames.trans ih

/-- A call that the host makes runs on accepted code. -/
theorem Built.runs (h : ctx.Built) : ctx.Runs Prototype.Accepted [] where
  frames_eq := by rw [h.frames_eq]; rfl
  closures := fun handle closure hclosure =>
    ⟨h.intact.code handle closure hclosure,
      (h.intact.objects handle _ hclosure).1⟩
  cached := h.intact.cached
  runnable := nofun
  layout := trivial

end Isolate.Context
