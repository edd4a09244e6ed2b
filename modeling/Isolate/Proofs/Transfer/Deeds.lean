import Isolate.Proofs.Transfer.Transparency

/-!
# What a host does with one context

A host asks operations of a context, and copies and merges values into it.
Whatever it does, and in whatever order, all answers and all that is left are
the same as in a context without a cache, as long as no two of the chunks that
are loaded share a key.
-/

namespace Isolate

open Chunk (Load)

section

variable {ε ε' σ α β : Type}

/-- An action that does not fail, since its failure is an answer. -/
def attempt (x : EStateM ε σ α) : EStateM ε' σ (Except ε α) := fun s =>
  .ok (answerOf (x s)) (stateOf (x s))

variable [HasContext σ] {allowed : List UInt8 → String → Prop} {s : σ}
  {loads : List Load}

theorem Loading.map {x : EStateM ε σ α} (h : Loading x s loads) (f : α → β) :
    Loading (x >>= fun a => Pure.pure (f a)) s loads := by
  cases hanswer : answerOf (x s) with
  | ok a => exact List.append_nil loads ▸ h.bind hanswer (.pure (f a))
  | error e => exact h.bind_of_error hanswer

theorem Loading.attempt {x : EStateM ε σ α} (h : Loading x s loads) :
    Loading (attempt x : EStateM ε' σ (Except ε α)) s loads where
  cache := h.cache
  shadows hfaithful reports shadow hshadow :=
    (h.shadows hfaithful reports shadow hshadow).imp_left (congrArg Except.ok)

theorem Transparent.attempt {x : EStateM ε σ α} (hx : Transparent allowed x) :
    Transparent allowed (attempt x : EStateM ε' σ (Except ε α)) := fun s =>
  (hx s).imp fun _ hloads => hloads.imp_right .attempt

theorem Transparent.mapM {f : β → EStateM ε σ α}
    (hf : ∀ b, Transparent allowed (f b)) (xs : List β) :
    Transparent allowed (xs.mapM f) := by
  induction xs with
  | nil => exact .pure _
  | cons x xs ih =>
    rw [List.mapM_cons]
    exact (hf x).bind fun _ => ih.bind fun _ => .pure _

end

/-! ## Requests to one transfer -/

namespace Transfer

variable {source : Context} {settings : TransferSettings} {t : Transfer}

/-- The answers to requests to one transfer, some of which may fail. -/
def answers (source : Context) (settings : TransferSettings)
    (requests : List Request) : Copying (List (Except TransferError Unit)) :=
  requests.mapM fun request => attempt (request.run source settings)

/-- Requests to a new transfer, which is ended then, or dropped. -/
def serving (source : Context) (settings : TransferSettings)
    (requests : List Request) (ended : Bool) :
    Receiving (List (Except TransferError Unit)) := fun dest =>
  match answers source settings requests (.start dest) with
  | .ok found t => .ok found (if ended then t.finish.2 else t.dest)
  | .error e t => .error e (if ended then t.finish.2 else t.dest)

theorem transparent_request (request : Request) :
    Transparent (source.Travelling settings) (request.run source settings) := by
  have hsteps := steps_transparent (source.Travelling settings)
  cases request with
  | copy value => exact hsteps.copy (fun _ _ => Context.transparent_chunk) value
  | copyAt index =>
    simp only [Request.run, copyAt]
    cases source.valueAt index with
    | ok value => exact hsteps.copy (fun _ _ => Context.transparent_chunk) value
    | error error => exact .throw _
  | merge table index =>
    exact (hsteps.mergeTable (fun _ _ => Context.transparent_chunk)
      table index).bind fun _ => .pure _

theorem transparent_serving (source : Context) (settings : TransferSettings)
    (requests : List Request) (ended : Bool) :
    Transparent (source.Travelling settings)
      (serving source settings requests ended) := by
  have hdetour : Detour start fun (_ : Context)
      (answer : Except TransferError (List (Except TransferError Unit))) t =>
        (answer, if ended then t.finish.2 else t.dest) := by
    refine ⟨fun _ => rfl, ?_, fun _ _ t => ?_, ?_⟩
    · rintro reports ctx _ ⟨journal, hjournal, rfl⟩
      exact ⟨journal, hjournal, rfl⟩
    · cases ended with
      | false => rfl
      | true => exact t.finish_cache
    · intro reports _ _ _ t shadow _ _ hshadow
      refine ⟨rfl, ?_⟩
      cases ended with
      | false =>
        obtain ⟨journal, hjournal, rfl⟩ := hshadow
        exact ⟨journal, hjournal, rfl⟩
      | true => exact (Shadows.finish hshadow).2
  have hanswers : Transparent (source.Travelling settings)
      (answers source settings requests) :=
    .mapM (fun request => (transparent_request request).attempt) requests
  refine hdetour.transparent hanswers fun dest => ?_
  simp only [serving]
  cases answers source settings requests (.start dest) <;> rfl

end Transfer

namespace Context

variable {ctx : Context} {settings : TransferSettings}

/-! ## Deeds -/

/-- What a host does with one context. -/
inductive Deed
  | operate (operation : Operation)
  | receive (source : Context) (index : Int) (settings : TransferSettings)
  | receiveBindings (source : Context) (index : Int)
      (settings : TransferSettings)
  | serve (source : Context) (settings : TransferSettings)
      (requests : List Transfer.Request) (ended : Bool)

/-- What it gets for an answer. -/
inductive Outcome
  | operated (answer : Except RuntimeError Unit)
  | received (answer : Except TransferError Unit)
  | merged (answer : Except TransferError Nat)
  | served (answer : Except TransferError (List (Except TransferError Unit)))

/-- The loads that an operation makes. -/
def Operation.loads : Operation → List Load
  | loadChunk bytes chunkName => [(bytes, chunkName)]
  | _ => []

namespace Deed

def run : Deed → Action Outcome
  | operate operation => do pure (.operated (← attempt operation.run))
  | receive source index settings => do
    pure (.received (← attempt (source.receive index settings)))
  | receiveBindings source index settings => do
    pure (.merged (← attempt (source.receiveBindings index settings)))
  | serve source settings requests ended => do
    pure (.served (← attempt (Transfer.serving source settings requests ended)))

end Deed

/-- A load of a function of the source, which can be read if the source is one
that a host can have. -/
def Carries (source : Context) (settings : TransferSettings)
    (load : Load) : Prop :=
  source.Travelling settings load.1 load.2 ∧
    (source.Built → (Chunk.loadReport load).isSome = true)

/-- What a deed may load: an operation what it says, and a transfer
functions of its source. -/
def Deed.Makes : Deed → List Load → Prop
  | operate operation, loads => loads = operation.loads
  | receive source _ settings, loads =>
    ∀ load ∈ loads, source.Carries settings load
  | receiveBindings source _ settings, loads =>
    ∀ load ∈ loads, source.Carries settings load
  | serve source settings _ _, loads =>
    ∀ load ∈ loads, source.Carries settings load

theorem Travelling.carries {source : Context} {load : Load}
    (h : source.Travelling settings load.1 load.2) :
    source.Carries settings load := by
  refine ⟨h, fun hbuilt => ?_⟩
  obtain ⟨-, function, hbytes⟩ := h
  obtain ⟨proto, hread⟩ := hbuilt.intact.exists_undump_of_chunkOf hbytes load.2
  obtain ⟨notice, -, hreport, -⟩ := readChunk_of_ok hread
  rw [hreport]
  rfl

theorem loading_operation (operation : Operation) (ctx : Context) :
    Loading operation.run ctx operation.loads := by
  have hquiet := (operations_transparent fun _ _ => False).run operation
  cases operation with
  | loadChunk bytes chunkName => exact loading_loadChunk bytes chunkName ctx
  | _ =>
    obtain ⟨loads, hloads, hloading⟩ := hquiet (fun _ _ heq => by cases heq) ctx
    obtain rfl : loads = [] := List.eq_nil_iff_forall_not_mem.2 hloads
    exact hloading

theorem Deed.exists_loading (deed : Deed) (ctx : Context) :
    ∃ loads, deed.Makes loads ∧ Loading deed.run ctx loads := by
  have htransfer : ∀ {α : Type} {source : Context} {settings : TransferSettings}
      {x : Receiving α} (f : Except TransferError α → Outcome),
      Transparent (source.Travelling settings) x → ∃ loads : List Load,
        (∀ load ∈ loads, source.Carries settings load) ∧
          Loading (attempt x >>= fun answer => pure (f answer) : Action Outcome)
            ctx loads := by
    intro α source settings x f hx
    obtain ⟨loads, hloads, hloading⟩ := hx ctx
    exact ⟨loads, fun load hload => Travelling.carries (hloads load hload),
      hloading.attempt.map f⟩
  cases deed with
  | operate operation =>
    exact ⟨operation.loads, rfl,
      (loading_operation operation ctx).attempt.map Outcome.operated⟩
  | receive source index settings =>
    exact htransfer .received (transparent_receive source index settings)
  | receiveBindings source index settings =>
    exact htransfer .merged (transparent_receiveBindings source index settings)
  | serve source settings requests ended =>
    exact htransfer .served
      (Transfer.transparent_serving source settings requests ended)

theorem Deed.exists_run (deed : Deed) (ctx : Context) :
    ∃ outcome c, deed.run ctx = .ok outcome c := by
  cases deed <;> exact ⟨_, _, rfl⟩

/-- One deed after the other, with all answers. -/
def perform (deeds : List Deed) : Action (List Outcome) := deeds.mapM Deed.run

/-- Nothing keeps a host from going on. -/
theorem exists_perform (deeds : List Deed) (ctx : Context) :
    ∃ outcomes c, perform deeds ctx = .ok outcomes c := by
  simp only [perform]
  induction deeds generalizing ctx with
  | nil => exact ⟨[], ctx, rfl⟩
  | cons deed rest ih =>
    obtain ⟨outcome, c, hrun⟩ := deed.exists_run ctx
    obtain ⟨outcomes, d, hrest⟩ := ih c
    refine ⟨outcome :: outcomes, d, ?_⟩
    rw [List.mapM_cons, bind_of_ok hrun, bind_of_ok hrest]
    rfl

theorem exists_loading_perform (deeds : List Deed) (ctx : Context) :
    ∃ loads, List.Forall₂ Deed.Makes deeds loads ∧
      Loading (perform deeds) ctx loads.flatten := by
  simp only [perform]
  induction deeds generalizing ctx with
  | nil => exact ⟨[], .nil, .pure []⟩
  | cons deed rest ih =>
    obtain ⟨outcome, c, hrun⟩ := deed.exists_run ctx
    have hanswer : answerOf (deed.run ctx) = .ok outcome := by
      rw [hrun]
      rfl
    obtain ⟨first, hfirst, hloading⟩ := deed.exists_loading ctx
    obtain ⟨loads, hloads, hrest⟩ := ih (stateOf (deed.run ctx))
    refine ⟨first :: loads, .cons hfirst hloads, ?_⟩
    rw [List.mapM_cons, List.flatten_cons]
    exact hloading.bind hanswer (hrest.map (outcome :: ·))

/-- Two fresh contexts, of which one has no cache. -/
theorem shadows_create (settings : ContextSettings) (bindings : Bindings) :
    Shadows [] (create settings bindings)
      (create { settings with chunkCacheCapacity := 0 } bindings) :=
  ⟨#[], rfl, rfl⟩

/-- Whatever a host does with a context, and whatever the size of its cache: all
answers, and all that is left but the cache and what was reported, are the same
as without a cache, as long as no two of the chunks that are loaded share a key.
There are never more entries than there may be.  With a cache every load is
counted as a hit or a miss, and a hit is a load of a chunk that was loaded
before under that name. -/
theorem cache_transparent (settings : ContextSettings) (bindings : Bindings)
    (deeds : List Deed) :
    ∃ (outcomes : List Outcome) (c : Context) (made : List (List Load)),
      perform deeds (create settings bindings) = .ok outcomes c ∧
      List.Forall₂ Deed.Makes deeds made ∧
      (let loads := made.flatten
        let cache : Chunk.Cache := { capacity := settings.chunkCacheCapacity }
        c.cache = cache.after loads ∧
        (∀ count, (cache.after (loads.take count)).size ≤
          settings.chunkCacheCapacity) ∧
        (0 < settings.chunkCacheCapacity →
          c.cache.hits + c.cache.misses = loads.length ∧
          c.cache.hits = (List.range loads.length).countP (cache.hitAt loads)) ∧
        (Chunk.Cache.Distinguished (fun bytes name => (bytes, name) ∈ loads) →
          (∀ i load, loads[i]? = some load → cache.hitAt loads i = true →
            ∃ j < i, loads[j]? = some load ∧
              ∃ proto, Chunk.undump load.1 load.2 = .ok proto) ∧
          ∃ d,
            perform deeds
              (create { settings with chunkCacheCapacity := 0 } bindings) =
                .ok outcomes d ∧
              d = c.uncached d.journal ∧
              d.loadReports = loads.filterMap Chunk.loadReport)) := by
  obtain ⟨outcomes, c, hperform⟩ :=
    exists_perform deeds (create settings bindings)
  obtain ⟨made, hmade, hloading⟩ :=
    exists_loading_perform deeds (create settings bindings)
  have hcache := hloading.cache
  rw [hperform] at hcache
  refine ⟨outcomes, c, made, hperform, hmade, hcache, fun count => ?_,
    fun henabled => ?_, fun hdistinct => ⟨fun i load hload hit => ?_, ?_⟩⟩
  · have horderly :
        ({ capacity := settings.chunkCacheCapacity } : Chunk.Cache).after
          (made.flatten.take count) |>.Orderly :=
      (Chunk.Cache.orderly_empty settings.chunkCacheCapacity).after
    exact Nat.le_trans horderly.bounded
      (Nat.le_of_eq Chunk.Cache.after_capacity)
  · have hon :
        ({ capacity := settings.chunkCacheCapacity } : Chunk.Cache).enabled =
          true :=
      decide_eq_true henabled
    change c.cache =
      Chunk.Cache.after { capacity := settings.chunkCacheCapacity } _ at hcache
    rw [hcache]
    exact ⟨(Chunk.Cache.after_counts hon).trans (Nat.zero_add _),
      (Chunk.Cache.after_hits hon).trans (Nat.zero_add _)⟩
  · exact Chunk.Cache.exists_load_of_hitAt hdistinct hload hit
  · have hfaithful : (create settings bindings).cache.Faithful made.flatten :=
      Chunk.Cache.Genuine.faithful (fun _ _ hentry => nomatch hentry) hdistinct
        fun _ hload => hload
    obtain ⟨hanswer, hleft⟩ :=
      hloading.shadows hfaithful [] _ (shadows_create settings bindings)
    rw [hperform] at hanswer hleft
    obtain ⟨journal, hjournal, hplain⟩ := hleft
    refine ⟨_, eq_of_answerOf_ok hanswer, ?_, ?_⟩
    · rw [hplain]
      rfl
    · rw [hplain]
      exact hjournal

/-- A chunk that is loaded twice is found the second time. -/
theorem cache_transparent_twice : ∃ bytes c d outcomes,
    let deeds : List Deed :=
      [.operate (.loadChunk bytes "=copy"), .operate (.loadChunk bytes "=copy")]
    perform deeds (create {} {}) = .ok outcomes c ∧ c.cache.hits = 1 ∧
      c.cache.misses = 1 ∧
      perform deeds (create { chunkCacheCapacity := 0 } {}) = .ok outcomes d ∧
      d.stack = c.stack ∧ d.heap = c.heap := by
  obtain ⟨bytes, -, -, hread⟩ := Chunk.undump_dump_capturing
  obtain ⟨outcomes, c, made, hperform, hmade, hcache, -, hcounts, hplain⟩ :=
    cache_transparent {} {}
      [.operate (.loadChunk bytes "=copy"), .operate (.loadChunk bytes "=copy")]
  obtain rfl : made = [[(bytes, "=copy")], [(bytes, "=copy")]] := by
    cases hmade with
    | cons hfirst hrest =>
      cases hrest with
      | cons hsecond hrest =>
        cases hrest
        rw [hfirst, hsecond]
        rfl
  have hdistinct : Chunk.Cache.Distinguished fun bytes' name =>
      (bytes', name) ∈ [[(bytes, "=copy")], [(bytes, "=copy")]].flatten := by
    intro bytes₁ name₁ bytes₂ name₂ hleft hright _
    have honly :
        ∀ load, load ∈ [[(bytes, "=copy")], [(bytes, "=copy")]].flatten →
          load = (bytes, "=copy") := by simp
    exact Prod.mk.inj ((honly _ hleft).trans (honly _ hright).symm)
  -- The first load comes to an empty cache, and the second one to what the
  -- first put in.
  have hhits : c.cache.hits = 1 := by
    have hon : ({ capacity := 64 } : Chunk.Cache).enabled = true := rfl
    have hloaded :
        (Chunk.Cache.loading { capacity := 64 } bytes
          "=copy").enabled = true := by
      rw [Chunk.Cache.enabled, Chunk.Cache.loading_capacity]
      rfl
    change c.cache =
      (Chunk.Cache.loading { capacity := 64 } bytes "=copy").loading
        bytes "=copy"
      at hcache
    rw [hcache, Chunk.Cache.loading_hits hloaded, Chunk.Cache.loading_hits hon,
      if_pos (Chunk.Cache.isSome_find?_loading hon hread)]
    rfl
  obtain ⟨-, d, hd, hsame, -⟩ := hplain hdistinct
  refine ⟨bytes, c, d, outcomes, hperform, hhits, ?_, hd, ?_, ?_⟩
  · have hboth := (hcounts (by decide)).1
    change c.cache.hits + c.cache.misses = 2 at hboth
    omega
  · rw [hsame]
    rfl
  · rw [hsame]
    rfl

end Context

end Isolate
