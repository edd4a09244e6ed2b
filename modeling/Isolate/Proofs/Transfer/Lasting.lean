import Isolate.Proofs.Context.Chunks
import Isolate.Proofs.Transfer.Release
import Isolate.Proofs.Transfer.Steps

/-!
# What transfers do not bear on

A transfer changes the stack, the heap, the pins and the journal of its
destination, and the cache only by loading chunks.  A property that is about
nothing else lasts through copies and merges, whether they succeed or fail, if
it lasts through the loading.
-/

namespace Isolate

namespace Context

variable {α : Type}

/-- An action that keeps a property of its context, even where it fails. -/
def Upholds (holds : Context → Prop) (action : Action α) : Prop :=
  ∀ ctx, holds ctx → Ends (action ctx) (fun _ c => holds c) fun _ c => holds c

/-- A property that is about neither the stack nor the heap nor the
pins nor the journal. -/
structure Lasting (holds : Context → Prop) : Prop where
  stack : ∀ (ctx : Context) (stack : Array Value), holds ctx →
    holds { ctx with stack }
  heap : ∀ (ctx : Context) (heap : Heap), holds ctx → holds { ctx with heap }
  registry : ∀ (ctx : Context) (registry : Registry), holds ctx →
    holds { ctx with registry }
  note : ∀ (ctx : Context) (notice : Notice), holds ctx →
    holds (ctx.note notice)

variable {holds : Context → Prop}

theorem Upholds.query (f : Context → Except RuntimeError α) :
    Upholds holds (query f) :=
  fun _ hctx => ends_query.2 ⟨fun _ _ => hctx, fun _ _ => hctx⟩

namespace Lasting

variable (h : Lasting holds)
include h

theorem elements : Elements fun _ => Upholds holds where
  pure := fun _ _ hctx => hctx
  throw := fun _ _ _ hctx => hctx
  look := fun _ hf ctx hctx => hf ctx ctx hctx
  query := fun f _ _ => .query f
  bind := fun hx hf ctx hctx => (hx ctx hctx).bind fun a c hc => hf a c hc
  push := fun _ ctx => h.stack ctx _
  popTop := by
    intro ctx hctx
    simp only [Context.popTop]
    cases ctx.stack.back? with
    | none => exact hctx
    | some value => exact h.stack ctx _ hctx
  pop := by
    intro count ctx hctx
    simp only [Context.pop]
    split
    · exact h.stack ctx _ hctx
    · exact hctx
  allocate := fun _ ctx => h.heap ctx _
  change := fun _ _ ctx => h.heap ctx _
  collectIfDue := by
    intro ctx hctx
    simp only [Context.collectIfDue]
    rw [ends_bind, ends_get]
    split
    · exact h.note _ _ (h.heap ctx _ hctx)
    · exact hctx

theorem pinValue (value : Value) : Upholds holds (pinValue value) :=
  fun ctx => h.registry ctx _

theorem unpin (pin : Pin) : Upholds holds (unpin pin) :=
  fun ctx => h.registry ctx _

end Lasting

/-- A property of the cache lasts. -/
theorem lasting_cache (kept : Chunk.Cache → Prop) :
    Lasting fun ctx => kept ctx.cache :=
  ⟨fun _ _ hctx => hctx, fun _ _ hctx => hctx, fun _ _ hctx => hctx,
    fun _ _ hctx => hctx⟩

/-- That a cache is genuine lasts. -/
theorem lasting_genuine (chunks : List UInt8 → String → Prop) :
    Lasting fun ctx => ctx.cache.Genuine chunks :=
  lasting_cache (·.Genuine chunks)

/-- Loading a chunk keeps a cache genuine. -/
theorem upholds_loadChunk {chunks : List UInt8 → String → Prop}
    {bytes : List UInt8} {name : String} (hchunk : chunks bytes name) :
    Upholds (fun ctx => ctx.cache.Genuine chunks) (loadChunk bytes name) := by
  intro ctx hcache
  refine ends_loadChunk_of (fun _ => True) (·.Genuine chunks) hcache hcache.get
    (fun _ _ => trivial) (fun _ _ => trivial)
    (fun _ _ hgenuine => hgenuine.insert hchunk)
    (fun _ _ _ _ hgenuine => hgenuine) fun proto c _ _ hgenuine => ?_
  exact (lasting_genuine chunks).elements.pushMain proto c hgenuine

end Context

namespace Transfer

variable {source : Context} {settings : TransferSettings}
  {holds : Context → Prop} {α β : Type}

/-- A request that keeps a property of the destination, even where it fails. -/
def Upholds (holds : Context → Prop) (x : Copying α) : Prop :=
  ∀ t, holds t.dest →
    Ends (x t) (fun _ t' => holds t'.dest) fun _ t' => holds t'.dest

namespace Upholds

theorem pure (a : α) : Upholds holds (Pure.pure a) := fun _ ht => ht

theorem throw (e : TransferError) : Upholds holds (throw e : Copying α) :=
  fun _ ht => ht

theorem onDest {action : Action α} (h : Context.Upholds holds action) :
    Upholds holds (onDest action) := fun t ht => ends_onDest.2 (h t.dest ht)

theorem bind {x : Copying α} {f : α → Copying β} (hx : Upholds holds x)
    (hf : ∀ a, Upholds holds (f a)) : Upholds holds (x >>= f) :=
  fun t ht => (hx t ht).bind fun a t' ht' => hf a t' ht'

theorem tryCatch {x : Copying α} {handle : TransferError → Copying α}
    (hx : Upholds holds x) (hhandle : ∀ e, Upholds holds (handle e)) :
    Upholds holds (tryCatch x handle) :=
  fun t ht => (hx t ht).tryCatch fun e t' ht' => hhandle e t' ht'

end Upholds

/-- Everything that a transfer does keeps such a property. -/
theorem steps_upholds (h : Context.Lasting holds) :
    Steps (fun _ => Context.Upholds holds) fun _ => Upholds holds where
  toElements := h.elements
  pinValue := h.pinValue
  unpin := h.unpin
  done := .pure
  fail := .throw
  andThen := .bind
  handle := .tryCatch
  onDest := .onDest
  inspect := fun _ hf t ht => hf t t ht
  record := fun _ _ _ _ ht => ht
  next := by
    rintro ⟨dest, copies, fillings, copied⟩ ht
    cases fillings <;> exact ht
  restoring := by
    intro request hrequest t ht
    exact ends_restoring ((hrequest t ht).mono (fun _ _ ht' => ht')
      fun _ _ ht' => h.stack _ _ ht')

theorem holds_finish (h : Context.Lasting holds) {t : Transfer}
    (ht : holds t.dest) : holds t.finish.2 := by
  rw [finish_dest_eq]
  exact ((steps_upholds h).release t.copies t.dest ht).stateOf
    (fun _ _ hc => hc) fun _ _ hc => hc

end Transfer

namespace Context

variable {source dest : Context} {settings : TransferSettings}
  {holds : Context → Prop}

/-- A property of the destination that lasts through a transfer. -/
theorem Lasting.ends_receive (h : Lasting holds)
    (hload : ∀ function bytes,
      source.chunkOf function settings.stripDebug = .ok bytes →
      Upholds holds (loadChunk bytes settings.chunkName)) (index : Int)
    (hdest : holds dest) :
    Ends (source.receive index settings dest) (fun _ c => holds c)
      fun _ c => holds c := by
  simp only [receive]
  cases source.valueAt index with
  | error error => exact hdest
  | ok root =>
    have hstart :
        holds
          (Transfer.start (dest.note (.transferStarted root.kindName))).dest :=
      h.note _ _ hdest
    have hcopy := (Transfer.steps_upholds h).copy hload root _ hstart
    dsimp only
    cases hresult : Transfer.copy source settings root
        (.start (dest.note (.transferStarted root.kindName))) with
    | ok _ t => exact h.note _ _ (Transfer.holds_finish h (hcopy.ok hresult))
    | error error t =>
      exact h.note _ _
        (h.stack _ _ (Transfer.holds_finish h (hcopy.error hresult)))

/-- The chunks that a transfer loads keep a cache genuine. -/
theorem ends_receive_genuine {chunks : List UInt8 → String → Prop}
    (htravelling : ∀ bytes name, source.Travelling settings bytes name →
      chunks bytes name)
    (hcache : dest.cache.Genuine chunks) (index : Int) :
    Ends (source.receive index settings dest)
      (fun _ c => c.cache.Genuine chunks) fun _ c => c.cache.Genuine chunks :=
  (lasting_genuine chunks).ends_receive (fun _ _ hbytes =>
    upholds_loadChunk (htravelling _ _ ⟨rfl, _, hbytes⟩)) index hcache

end Context

end Isolate
