import Isolate.Proofs.Context.Loads
import Isolate.Proofs.Context.Operations
import Isolate.Proofs.Machine.Oblivious
import Isolate.Proofs.Machine.Reserved

/-!
# What the cache does not show

An action is run in two contexts, one with a cache and one without, which are
otherwise the same.  Nothing but a load looks at the cache, and a load that
finds its chunk pushes what reading it would give, so the action answers the
same in both and leaves them the same.  Which loads it made can be told from the
cache of the first and from the reports of the second.
-/

namespace Isolate

open Chunk (Load)

/-- A state that a context is part of. -/
class HasContext (σ : Type) where
  context : σ → Context
  withContext : σ → Context → σ

open HasContext

instance : HasContext Context where
  context ctx := ctx
  withContext _ ctx := ctx

/-- The context with its cache turned off, and other reports. -/
def Context.uncached (ctx : Context) (journal : Array Notice) : Context :=
  ctx.withCache { capacity := 0 } 0 journal

/-- What a load reports if its chunk has to be read and can be read. -/
def Chunk.loadReport (load : Load) : Option Notice :=
  match Chunk.load load.1 with
  | .ok chunk => some (.chunkLoaded load.2 load.1.length chunk.stripped)
  | .error _ => none

section

variable {ε ε' σ τ α β : Type} [HasContext σ] [HasContext τ] {s t : σ}
  {allowed : List UInt8 → String → Prop} {loads others : List Load}

/-- The same state, but with the cache turned off, and with reports of which
these are the ones of loads. -/
def Shadows (reports : List Notice) (s shadow : σ) : Prop :=
  ∃ journal : Array Notice, journal.toList.filter Notice.isLoad = reports ∧
    shadow = withContext s ((context s).uncached journal)

/-- Run from this state, an action makes these loads, and its run
without the cache goes the same way if each of them finds nothing but
what reading its chunk gives. -/
structure Loading (x : EStateM ε σ α) (s : σ) (loads : List Load) : Prop where
  cache : (context (stateOf (x s))).cache = (context s).cache.after loads
  shadows : (context s).cache.Faithful loads → ∀ reports shadow,
    Shadows reports s shadow → answerOf (x shadow) = answerOf (x s) ∧
      Shadows (reports ++ loads.filterMap Chunk.loadReport) (stateOf (x s))
        (stateOf (x shadow))

/-- An action that makes no loads but such, and does not show whether
there is a cache. -/
def Transparent (allowed : List UInt8 → String → Prop)
    (x : EStateM ε σ α) : Prop :=
  ∀ s, ∃ loads, (∀ load ∈ loads, allowed load.1 load.2) ∧ Loading x s loads

/-! ## Sequences -/

namespace Loading

variable {x : EStateM ε σ α} {f : α → EStateM ε σ β}
  {handle : ε → EStateM ε σ α} {a : α} {e : ε}

theorem pure (a : α) : Loading (pure a : EStateM ε σ α) s [] where
  cache := rfl
  shadows _ reports _ hshadow := ⟨rfl, (List.append_nil reports).symm ▸ hshadow⟩

theorem throw (e : ε) : Loading (throw e : EStateM ε σ α) s [] where
  cache := rfl
  shadows _ reports _ hshadow := ⟨rfl, (List.append_nil reports).symm ▸ hshadow⟩

/-- What goes on as another action after a first one has given its answer makes
the loads of both. -/
theorem sequel {y z : EStateM ε' σ β} {answer : Except ε α}
    (h : Loading x s loads) (hx : answerOf (x s) = answer)
    (hy : ∀ s, answerOf (x s) = answer → y s = z (stateOf (x s)))
    (hz : Loading z (stateOf (x s)) others) :
    Loading y s (loads ++ others) := by
  refine ⟨?_, fun hfaithful reports shadow hshadow => ?_⟩
  · rw [hy s hx, hz.cache, h.cache, Chunk.Cache.after_append]
  · obtain ⟨hfirst, hrest⟩ := Chunk.Cache.faithful_append.1 hfaithful
    obtain ⟨hanswer, hleft⟩ := h.shadows hfirst reports shadow hshadow
    rw [hy s hx, hy shadow (hanswer.trans hx), List.filterMap_append,
      ← List.append_assoc]
    exact hz.shadows (h.cache.symm ▸ hrest) _ _ hleft

theorem bind (h : Loading x s loads) (hx : answerOf (x s) = .ok a)
    (hf : Loading (f a) (stateOf (x s)) others) :
    Loading (x >>= f) s (loads ++ others) :=
  h.sequel hx (fun _ hs => bind_of_ok (eq_of_answerOf_ok hs)) hf

theorem bind_of_error (h : Loading x s loads) (hx : answerOf (x s) = .error e) :
    Loading (x >>= f) s loads := by
  have hfailed : Loading (x >>= f) s (loads ++ []) :=
    h.sequel hx (fun _ hs =>
      Isolate.bind_of_error (eq_of_answerOf_error hs)) (.throw e)
  rwa [List.append_nil] at hfailed

theorem tryCatch_of_ok (h : Loading x s loads) (hx : answerOf (x s) = .ok a) :
    Loading (tryCatch x handle) s loads := by
  have hdone : Loading (MonadExcept.tryCatch x handle) s (loads ++ []) :=
    h.sequel hx (fun _ hs =>
      Isolate.tryCatch_of_ok (eq_of_answerOf_ok hs)) (.pure a)
  rwa [List.append_nil] at hdone

theorem tryCatch (h : Loading x s loads) (hx : answerOf (x s) = .error e)
    (hhandle : Loading (handle e) (stateOf (x s)) others) :
    Loading (tryCatch x handle) s (loads ++ others) :=
  h.sequel hx (fun _ hs => tryCatch_of_error (eq_of_answerOf_error hs)) hhandle

end Loading

namespace Transparent

variable {x : EStateM ε σ α}

/-- What neither loads nor looks at the cache or the reports. -/
theorem of_quiet
    (hcache : ∀ s, (context (stateOf (x s))).cache = (context s).cache)
    (hx : ∀ reports s shadow, Shadows reports s shadow →
      answerOf (x shadow) = answerOf (x s) ∧
        Shadows reports (stateOf (x s)) (stateOf (x shadow))) :
    Transparent allowed x := by
  refine fun s => ⟨[], nofun, hcache s, fun _ reports shadow hshadow => ?_⟩
  rw [List.filterMap_nil, List.append_nil]
  exact hx reports s shadow hshadow

theorem pure (a : α) : Transparent allowed (pure a : EStateM ε σ α) :=
  fun _ => ⟨[], nofun, .pure a⟩

theorem throw (e : ε) : Transparent allowed (throw e : EStateM ε σ α) :=
  fun _ => ⟨[], nofun, .throw e⟩

theorem bind {f : α → EStateM ε σ β} (hx : Transparent allowed x)
    (hf : ∀ a, Transparent allowed (f a)) : Transparent allowed (x >>= f) := by
  intro s
  obtain ⟨loads, hloads, hfirst⟩ := hx s
  cases hanswer : answerOf (x s) with
  | ok a =>
    obtain ⟨others, hothers, hrest⟩ := hf a (stateOf (x s))
    exact ⟨loads ++ others, List.forall_mem_append.2 ⟨hloads, hothers⟩,
      hfirst.bind hanswer hrest⟩
  | error e => exact ⟨loads, hloads, hfirst.bind_of_error hanswer⟩

theorem tryCatch {handle : ε → EStateM ε σ α} (hx : Transparent allowed x)
    (hhandle : ∀ e, Transparent allowed (handle e)) :
    Transparent allowed (tryCatch x handle) := by
  intro s
  obtain ⟨loads, hloads, hfirst⟩ := hx s
  cases hanswer : answerOf (x s) with
  | ok a => exact ⟨loads, hloads, hfirst.tryCatch_of_ok hanswer⟩
  | error e =>
    obtain ⟨others, hothers, hrest⟩ := hhandle e (stateOf (x s))
    exact ⟨loads ++ others, List.forall_mem_append.2 ⟨hloads, hothers⟩,
      hfirst.tryCatch hanswer hrest⟩

/-- What an action looks at first is not the cache. -/
theorem look {f : σ → EStateM ε σ α}
    (haside : ∀ s journal,
      f (withContext s ((context s).uncached journal)) = f s)
    (hf : ∀ s, Transparent allowed (f s)) :
    Transparent allowed (get >>= f) := by
  intro s
  obtain ⟨loads, hloads, hloading⟩ := hf s s
  refine ⟨loads, hloads, hloading.cache,
    fun hfaithful reports shadow hshadow => ?_⟩
  have hsame : f shadow = f s := by
    obtain ⟨journal, -, rfl⟩ := hshadow
    exact haside s journal
  change answerOf (f shadow shadow) = _ ∧
    Shadows _ (stateOf (f s s)) (stateOf (f shadow shadow))
  rw [hsame]
  exact hloading.shadows hfaithful reports shadow hshadow

/-- An action that may load nothing leaves the cache alone and needs nothing of
it. -/
theorem of_none (hx : Transparent (fun _ _ => False) x) (s : σ) :
    (context (stateOf (x s))).cache = (context s).cache ∧
      ∀ reports shadow, Shadows reports s shadow →
        answerOf (x shadow) = answerOf (x s) ∧
          Shadows reports (stateOf (x s)) (stateOf (x shadow)) := by
  obtain ⟨loads, hloads, hloading⟩ := hx s
  obtain rfl : loads = [] := List.eq_nil_iff_forall_not_mem.2 hloads
  have hshadows := hloading.shadows trivial
  simp only [List.filterMap_nil, List.append_nil] at hshadows
  exact ⟨hloading.cache, hshadows⟩

end Transparent

/-- A way into another state and back, past the cache and the reports. -/
structure Detour (enter : τ → σ)
    (leave : τ → Except ε α → σ → Except ε' β × τ) : Prop where
  enter_cache : ∀ t, (context (enter t)).cache = (context t).cache
  enter_shadows : ∀ {reports : List Notice} {t shadow : τ},
    Shadows reports t shadow → Shadows reports (enter t) (enter shadow)
  leave_cache : ∀ t answer s,
    (context (leave t answer s).2).cache = (context s).cache
  leave_shadows : ∀ {reports earlier : List Notice} {t t' : τ} {s s' : σ}
    (answer : Except ε α), Shadows earlier t t' → Shadows reports s s' →
      (leave t' answer s').1 = (leave t answer s).1 ∧
        Shadows reports (leave t answer s).2 (leave t' answer s').2

/-- An action inside of another one. -/
theorem Detour.transparent {enter : τ → σ}
    {leave : τ → Except ε α → σ → Except ε' β × τ} (h : Detour enter leave)
    {x : EStateM ε σ α} {y : EStateM ε' τ β} (hx : Transparent allowed x)
    (hy : ∀ t, (answerOf (y t), stateOf (y t)) =
      leave t (answerOf (x (enter t))) (stateOf (x (enter t)))) :
    Transparent allowed y := by
  intro t
  obtain ⟨loads, hloads, hloading⟩ := hx (enter t)
  have hanswer : ∀ t, answerOf (y t) = _ := fun t => congrArg Prod.fst (hy t)
  have hstate : ∀ t, stateOf (y t) = _ := fun t => congrArg Prod.snd (hy t)
  refine ⟨loads, hloads, ?_, fun hfaithful reports shadow hshadow => ?_⟩
  · rw [hstate, h.leave_cache, hloading.cache, h.enter_cache]
  · obtain ⟨hsame, hleft⟩ :=
      hloading.shadows ((h.enter_cache t).symm ▸ hfaithful) reports _
        (h.enter_shadows hshadow)
    rw [hanswer, hanswer, hstate, hstate, hsame]
    exact h.leave_shadows _ hshadow hleft

end

/-- A report that is not of a load. -/
theorem Shadows.note_of_not {reports : List Notice} {ctx shadow : Context}
    (h : Shadows reports ctx shadow) {notice : Notice}
    (hnotice : notice.isLoad = false) :
    Shadows reports (ctx.note notice) (shadow.note notice) := by
  obtain ⟨journal, hjournal, rfl⟩ := h
  refine ⟨journal.push notice, ?_, rfl⟩
  rw [Array.toList_push, List.filter_append, List.filter_singleton,
    hjournal, hnotice]
  exact List.append_nil reports

/-! ## Operations -/

namespace Context

variable {allowed : List UInt8 → String → Prop} {α : Type} {ctx : Context}

/-- What an action does with a context it does with it whatever is
cached and reported. -/
theorem transparent_of_uniform {x : Action α}
    (hcache : ∀ ctx, (stateOf (x ctx)).cache = ctx.cache)
    (hx : ∀ ctx journal,
      answerOf (x (ctx.uncached journal)) = answerOf (x ctx) ∧
        stateOf (x (ctx.uncached journal)) =
          (stateOf (x ctx)).uncached journal) :
    Transparent allowed x := by
  refine .of_quiet hcache fun reports ctx shadow hshadow => ?_
  obtain ⟨journal, hjournal, rfl⟩ := hshadow
  exact ⟨(hx ctx journal).1, journal, hjournal, (hx ctx journal).2⟩

theorem transparent_query {f : Context → Except RuntimeError α}
    (haside : Aside f) : Transparent allowed (query f) := by
  refine transparent_of_uniform (fun ctx => ?_) fun ctx journal => ?_
  · simp only [query]
    cases f ctx <;> rfl
  · have hsame : f (ctx.uncached journal) = f ctx := haside ctx _ _ journal
    simp only [query, hsame]
    cases f ctx <;> exact ⟨rfl, rfl⟩

theorem transparent_popTop : Transparent allowed popTop := by
  refine transparent_of_uniform (fun ctx => ?_) fun ctx journal => ?_
  · simp only [popTop]
    cases ctx.stack.back? <;> rfl
  · simp only [popTop, uncached, withCache]
    cases ctx.stack.back? <;> exact ⟨rfl, rfl⟩

theorem transparent_pop (count : Nat) : Transparent allowed (pop count) := by
  refine transparent_of_uniform (fun ctx => ?_) fun ctx journal => ?_
  · simp only [pop]
    split <;> rfl
  · have hsize : (ctx.uncached journal).stack.size = ctx.stack.size := rfl
    simp only [pop, hsize]
    split <;> exact ⟨rfl, rfl⟩

/-- A collection goes from the stack, the pins, the globals and the frames. -/
theorem transparent_collect : Transparent allowed collect := by
  refine .of_quiet (fun _ => rfl) fun reports ctx shadow hshadow => ?_
  obtain ⟨journal, hjournal, rfl⟩ := hshadow
  have hswept : Shadows reports
      { ctx with heap := (ctx.heap.collect ctx.rootValues ctx.rootHandles).2 }
      { ctx.uncached journal with
        heap := (ctx.heap.collect ctx.rootValues ctx.rootHandles).2 } :=
    ⟨journal, hjournal, rfl⟩
  exact ⟨rfl, hswept.note_of_not rfl⟩

theorem transparent_collectIfDue : Transparent allowed collectIfDue := by
  refine .look (fun _ _ => rfl) fun ctx => ?_
  split
  · exact transparent_collect.bind fun _ => .pure _
  · exact .pure _

/-- The elements of transfers and operations show nothing of the cache. -/
theorem elements_transparent (allowed : List UInt8 → String → Prop) :
    Elements fun _ action => Transparent allowed action where
  pure := .pure
  throw := fun e _ => .throw e
  look := fun haside hf => .look (fun ctx journal => haside ctx _ _ journal) hf
  query := fun _ haside _ => transparent_query haside
  bind := .bind
  push := fun _ => transparent_of_uniform (fun _ => rfl) fun _ _ => ⟨rfl, rfl⟩
  popTop := transparent_popTop
  pop := transparent_pop
  allocate := fun _ =>
    transparent_of_uniform (fun _ => rfl) fun _ _ => ⟨rfl, rfl⟩
  change := fun f haside =>
    transparent_of_uniform (fun _ => rfl) fun ctx journal => by
      have hsame : f (ctx.uncached journal) = f ctx := haside ctx _ _ journal
      change _ ∧
        { ctx.uncached journal with heap := f (ctx.uncached journal) } = _
      rw [hsame]
      exact ⟨rfl, rfl⟩
  collectIfDue := transparent_collectIfDue

theorem transparent_pinValue (value : Value) :
    Transparent allowed (pinValue value) :=
  transparent_of_uniform (fun _ => rfl) fun _ _ => ⟨rfl, rfl⟩

theorem transparent_unpin (pin : Pin) : Transparent allowed (unpin pin) :=
  transparent_of_uniform (fun _ => rfl) fun _ _ => ⟨rfl, rfl⟩

/-- All that a call does not see where nothing is hidden on the stack. -/
def concealed (ctx : Context) : Hidden 0 :=
  { below := #v[]
    past := ctx.journal
    cache := ctx.cache
    capacity := ctx.settings.chunkCacheCapacity }

theorem apart_uncached (ctx : Context) (journal : Array Notice) :
    Apart ctx.concealed (ctx.uncached journal).concealed ctx
      (ctx.uncached journal) := by
  refine .of_hidden ctx ctx.stack #[] ?_ ?_ (Or.inr rfl)
  · simp [Hidden.put, concealed]
  · simp [Hidden.put, concealed, uncached, withCache]

theorem uncached_of_apart {hidden : Hidden 0} {journal : Array Notice}
    {c d : Context} (h : Apart hidden (ctx.uncached journal).concealed c d) :
    d = c.uncached d.journal := by
  have hempty : ∀ hidden : Hidden 0, hidden.below.toArray = #[] := fun hidden =>
    Array.eq_empty_of_size_eq_zero hidden.below.size_toArray
  cases h with
  | intro ctx' upper recent _ =>
    simp only [Hidden.put, uncached, withCache, hempty]
    rfl

/-- A call sees neither the cache nor the reports, and reports no load. -/
theorem transparent_call (budget argumentCount : Nat) :
    Transparent allowed
      (Machine.call Native.standard budget argumentCount) := by
  have hreserved :=
    Machine.reserved_call Native.quiet_standard budget argumentCount
  refine .of_quiet (fun ctx => ?_) fun reports ctx shadow hshadow => ?_
  · exact (hreserved ctx).stateOf (fun _ _ hc => hc.cache)
      fun _ _ hc => hc.cache
  · obtain ⟨journal, hjournal, rfl⟩ := hshadow
    -- Nothing lies below the stack here: the cache and the reports are all that
    -- is hidden.
    have hagree :=
      (Machine.oblivious_call Native.look_standard budget argumentCount).agree
        (Machine.clear_zero ctx) (apart_uncached ctx journal)
    have hreports : (stateOf (Machine.call Native.standard budget argumentCount
        (ctx.uncached journal))).loadReports = reports :=
      (hreserved (ctx.uncached journal)).stateOf
        (fun _ _ hc => hc.loads.trans hjournal)
        fun _ _ hc => hc.loads.trans hjournal
    change answerOf (Machine.call _ _ _ (ctx.uncached journal)) = _ ∧
      Shadows _ _ (stateOf (Machine.call _ _ _ (ctx.uncached journal)))
    rcases hagree.cases with
      ⟨a, c, b, d, hc, hd, rfl, hapart⟩ | ⟨e, c, e', d, hc, hd, rfl, hapart⟩
    · rw [hd] at hreports
      rw [hc, hd]
      exact ⟨rfl, d.journal, hreports, uncached_of_apart hapart⟩
    · rw [hd] at hreports
      rw [hc, hd]
      exact ⟨rfl, d.journal, hreports, uncached_of_apart hapart⟩

theorem operations_transparent (allowed : List UInt8 → String → Prop) :
    Operations fun _ action => Transparent allowed action where
  toElements := elements_transparent allowed
  setTracing := fun _ =>
    transparent_of_uniform (fun _ => rfl) fun _ _ => ⟨rfl, rfl⟩
  setStack := fun f haside =>
    transparent_of_uniform (fun _ => rfl) fun ctx journal => by
      have hsame : f (ctx.uncached journal) = f ctx := haside ctx _ _ journal
      change _ ∧
        { ctx.uncached journal with stack := f (ctx.uncached journal) } = _
      rw [hsame]
      exact ⟨rfl, rfl⟩
  pinValue := transparent_pinValue
  unpin := transparent_unpin
  call := transparent_call
  collect := transparent_collect

/-! ## Loads -/

variable {bytes : List UInt8} {name : String}

theorem readChunk_of_error {error : LoadError}
    (h : Chunk.undump bytes name = .error error) (ctx : Context) :
    readChunk bytes name ctx = .error (.load error) ctx ∧
      Chunk.loadReport (bytes, name) = none := by
  simp only [readChunk, Chunk.loadReport, Chunk.undump] at h ⊢
  cases hload : Chunk.load bytes with
  | error error' =>
    rw [hload] at h
    cases h
    exact ⟨rfl, rfl⟩
  | ok chunk =>
    rw [hload] at h
    cases h

/-- A chunk that can be read is reported. -/
theorem readChunk_of_ok {proto : Prototype}
    (h : Chunk.undump bytes name = .ok proto) :
    ∃ notice : Notice,
      notice.isLoad = true ∧ Chunk.loadReport (bytes, name) = some notice ∧
        ∀ ctx, readChunk bytes name ctx = .ok proto (ctx.note notice) := by
  simp only [readChunk, Chunk.loadReport, Chunk.undump] at h ⊢
  cases hload : Chunk.load bytes with
  | error error =>
    rw [hload] at h
    cases h
  | ok chunk =>
    rw [hload] at h
    cases h
    exact ⟨_, rfl, rfl, fun _ => rfl⟩

/-- Loads without a cache. -/
theorem loadChunk_of_not_enabled (h : ¬ctx.cache.enabled = true) :
    loadChunk bytes name ctx = (readChunk bytes name >>= pushMain) ctx := by
  simp only [loadChunk]
  rw [get_bind, if_neg h]

/-- A load that succeeds or fails does so as the reading of its chunk, if
nothing but what this gives can be found. -/
theorem loadChunk_of_faithful
    (h : ∀ proto, ctx.cache.find? (Chunk.cacheKey bytes name) = some proto →
      Chunk.undump bytes name = .ok proto) :
    ∃ cache journal, loadChunk bytes name ctx =
      (match Chunk.undump bytes name with
      | .error error => throw (.load error)
      | .ok proto => pushMain proto : Action Unit)
        (ctx.withCache cache ctx.settings.chunkCacheCapacity journal) := by
  by_cases henabled : ctx.cache.enabled = true
  · simp only [loadChunk]
    rw [get_bind, if_pos henabled]
    have hcached : cachedChunk (Chunk.cacheKey bytes name) ctx =
        .ok (ctx.cache.find? (Chunk.cacheKey bytes name))
          { ctx with cache := (ctx.cache.get (Chunk.cacheKey bytes name)).2 } :=
      congrArg (EStateM.Result.ok · _) Chunk.Cache.get_fst
    rw [bind_of_ok hcached]
    cases hproto : ctx.cache.find? (Chunk.cacheKey bytes name) with
    | some proto =>
      rw [h proto hproto]
      exact ⟨_, ctx.journal, rfl⟩
    | none =>
      dsimp only
      cases hread : Chunk.undump bytes name with
      | error error =>
        rw [bind_of_error (readChunk_of_error hread _).1]
        exact ⟨_, ctx.journal, rfl⟩
      | ok proto =>
        obtain ⟨notice, -, -, hreads⟩ := readChunk_of_ok hread
        rw [bind_of_ok (hreads _), rememberChunk, modify_bind]
        dsimp only
        split
        · exact ⟨_, _, rfl⟩
        · exact ⟨_, _, rfl⟩
  · rw [loadChunk_of_not_enabled henabled]
    cases hread : Chunk.undump bytes name with
    | error error =>
      rw [bind_of_error (readChunk_of_error hread _).1]
      exact ⟨ctx.cache, ctx.journal, rfl⟩
    | ok proto =>
      obtain ⟨notice, -, -, hreads⟩ := readChunk_of_ok hread
      rw [bind_of_ok (hreads _)]
      exact ⟨ctx.cache, _, rfl⟩

/-- A load is one load, and does what reading its chunk does. -/
theorem loading_loadChunk (bytes : List UInt8) (name : String) (ctx : Context) :
    Loading (loadChunk bytes name) ctx [(bytes, name)] := by
  refine ⟨(cache_loadChunk ctx bytes name).stateOf (fun _ _ hc => hc)
    fun _ _ hc => hc,
    fun hfaithful reports shadow hshadow => ?_⟩
  have hfound :
      ∀ proto, ctx.cache.find? (Chunk.cacheKey bytes name) = some proto →
        Chunk.undump bytes name = .ok proto := hfaithful.1
  obtain ⟨cache, journal', hleft⟩ := loadChunk_of_faithful hfound
  obtain ⟨journal, hjournal, rfl⟩ := hshadow
  have hright : loadChunk bytes name (ctx.uncached journal) =
      (readChunk bytes name >>= pushMain) (ctx.uncached journal) :=
    loadChunk_of_not_enabled Bool.false_ne_true
  change answerOf (loadChunk bytes name (ctx.uncached journal)) = _ ∧
    Shadows _ _ (stateOf (loadChunk bytes name (ctx.uncached journal)))
  -- Only the context without a cache has to read the chunk, so only its reports
  -- tell of it.
  rw [hleft, hright]
  cases hread : Chunk.undump bytes name with
  | error error =>
    obtain ⟨hfails, hreport⟩ := readChunk_of_error hread (ctx.uncached journal)
    rw [bind_of_error hfails, List.filterMap_cons_none hreport,
      List.filterMap_nil, List.append_nil]
    exact ⟨rfl, journal, hjournal, rfl⟩
  | ok proto =>
    obtain ⟨notice, hload, hreport, hreads⟩ := readChunk_of_ok hread
    rw [bind_of_ok (hreads _), List.filterMap_cons_some hreport,
      List.filterMap_nil]
    have hbefore : Shadows (reports ++ [notice])
        (ctx.withCache cache ctx.settings.chunkCacheCapacity journal')
        ((ctx.uncached journal).note notice) := by
      refine ⟨journal.push notice, ?_, rfl⟩
      rw [Array.toList_push, List.filter_append, hjournal,
        List.filter_singleton, hload]
      rfl
    exact (((elements_transparent fun _ _ => False).pushMain proto).of_none _).2
      _ _ hbefore

theorem transparent_loadChunk (h : allowed bytes name) :
    Transparent allowed (loadChunk bytes name) := fun ctx =>
  ⟨[(bytes, name)], fun _ hload => List.mem_singleton.1 hload ▸ h,
    loading_loadChunk bytes name ctx⟩

end Context

end Isolate
