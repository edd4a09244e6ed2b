import Isolate.Proofs.Context.Chunks
import Isolate.Proofs.Machine.Action

/-!
# Loading keeps the invariant

A fresh context holds no function, and whatever is loaded into a context is
accepted first, whether it comes as a prototype, from bytes or from the cache.
-/

namespace Isolate.Machine

open Context

variable {good : Prototype → Prop} {frames : List Frame} {ctx : Context}

theorem runs_create (settings : ContextSettings) (bindings : Bindings) :
    (create settings bindings).Runs good [] where
  frames_eq := rfl
  closures := by
    have hempty : Heap.Holds good
        { threshold := settings.gcThreshold, enabled := settings.gcEnabled } :=
      nofun
    exact hempty.allocate nofun
  cached := nofun
  runnable := nofun
  layout := trivial

theorem ends_newCells (h : ctx.Runs good frames) (count : Nat) (value : Value)
    {onError : RuntimeError → Context → Prop} :
    Ends (newCells count value ctx)
      (fun cells c =>
        c.Runs good frames ∧ cells.length = count ∧ c.stack = ctx.stack)
      onError := by
  induction count generalizing value ctx with
  | zero => exact ⟨h, rfl, rfl⟩
  | succ count ih =>
    refine (ends_allocate h (.cell value)
      fun _ hclosure => nomatch hclosure).bind fun cell c hc => ?_
    refine (ih hc.1 .nil).bind fun others c' hc' => ?_
    exact ⟨hc'.1, congrArg Nat.succ hc'.2.1, hc'.2.2.trans hc.2⟩

/-- A function made from a good prototype can run. -/
theorem ends_pushMain (h : ctx.Runs good frames) {proto : Prototype}
    (hproto : good proto) {onError : RuntimeError → Context → Prop} :
    Ends (pushMain proto ctx)
      (fun _ c =>
        c.Runs good frames ∧ c.stack.size = ctx.stack.size + 1) onError := by
  simp only [pushMain]
  refine (ends_collectIfDue h).bind fun _ c hc => ?_
  rw [ends_bind, ends_get]
  refine (ends_newCells hc.1 _ _).bind fun cells c' hc' => ?_
  refine (ends_allocate hc'.1 _ fun closure hclosure => ?_).bind
    fun handle d hd => ?_
  · cases hclosure
    exact ⟨hproto, hc'.2.1⟩
  · have hstack : d.stack = ctx.stack := by
      calc
        d.stack = c'.stack := hd.2
        _ = c.stack := hc'.2.2
        _ = ctx.stack := hc.2.1
    refine (ends_push hd.1 _).mono (fun _ e he => ⟨he.1, ?_⟩) fun _ _ he => he
    rw [he.2, hstack]

/-- Loading a prototype succeeds exactly if it is accepted, and keeps the
invariant. -/
theorem ends_loadPrototype (h : ctx.Runs Prototype.Accepted frames)
    (proto : Prototype) (chunkName : String) :
    Ends (loadPrototype proto chunkName ctx)
      (fun _ c => proto.Accepted ∧ c.Runs Prototype.Accepted frames ∧
        c.stack.size = ctx.stack.size + 1)
      (fun e c => ¬proto.Accepted ∧ c = ctx ∧ ∃ error, e = .load error) := by
  simp only [loadPrototype]
  cases hverify : proto.verify with
  | error error =>
    refine ⟨fun haccepted => ?_, rfl, error, rfl⟩
    cases hverify.symm.trans haccepted
  | ok _ =>
    have hnamed : (proto.attributedTo chunkName).Accepted :=
      (Prototype.verify_attributedTo chunkName proto).trans hverify
    exact (ends_pushMain h hnamed).mono (fun _ c hc => ⟨hverify, hc⟩)
      fun _ _ he => he

/-- Loading a chunk keeps the invariant, through the cache or past it. -/
theorem ends_loadChunk (h : ctx.Runs Prototype.Accepted frames)
    (bytes : List UInt8) (chunkName : String) :
    Ends (loadChunk bytes chunkName ctx)
      (fun _ c =>
        c.Runs Prototype.Accepted frames ∧ c.stack.size = ctx.stack.size + 1)
      (fun e c =>
        c.Runs Prototype.Accepted frames ∧ ∃ error, e = .load error) := by
  have hruns : ∀ {c : Context}, ctx.SameButCache c →
      (∀ entry ∈ c.cache.entries, entry.2.Accepted) →
      c.Runs Prototype.Accepted frames := by
    intro c hsame hcached
    refine ⟨?_, hsame.heap ▸ h.closures, hcached, h.runnable,
      hsame.stack ▸ h.layout⟩
    rw [hsame.frames]
    exact h.frames_eq
  apply ends_loadChunk_accepted h.cached
  · exact fun error c hsame hcached => ⟨hruns hsame hcached, error, rfl⟩
  · intro proto c hproto hsame hcached
    exact (ends_pushMain (hruns hsame hcached) hproto).mono
      (fun _ c' hc' => ⟨hc'.1, hsame.stack ▸ hc'.2⟩) fun _ _ he => he

end Isolate.Machine
