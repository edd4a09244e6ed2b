import Isolate.Proofs.Chunk.RoundTrip
import Isolate.Proofs.Context.Keeping
import Isolate.Proofs.Machine.Layout

/-!
# Loading chunks through the cache

The cache is trusted with some chunks if for these it holds nothing but what
reading them gives.  It stays so when one of them is put into it, as long as no
two of them share a key.
-/

namespace Isolate

namespace Chunk.Cache

/-- For these chunks the cache holds what reading them gives. -/
def Trusted (cache : Cache) (chunks : List UInt8 → String → Prop) : Prop :=
  ∀ bytes name, chunks bytes name → ∀ proto,
    cache.find? (cacheKey bytes name) = some proto →
    undump bytes name = .ok proto

/-- No two of these chunks share a key. -/
def Distinguished (chunks : List UInt8 → String → Prop) : Prop :=
  ∀ bytes name bytes' name', chunks bytes name → chunks bytes' name' →
    cacheKey bytes name = cacheKey bytes' name' → bytes = bytes' ∧ name = name'

/-- Every entry was read from one of these chunks. -/
def Genuine (cache : Cache) (chunks : List UInt8 → String → Prop) : Prop :=
  ∀ key proto, (key, proto) ∈ cache.entries →
    ∃ bytes name, chunks bytes name ∧ key = cacheKey bytes name ∧
      undump bytes name = .ok proto

variable {cache : Cache} {chunks some : List UInt8 → String → Prop}
  {key key' : List UInt8} {proto : Prototype}

theorem Distinguished.mono (h : Distinguished chunks)
    (hsome : ∀ bytes name, some bytes name → chunks bytes name) :
    Distinguished some :=
  fun bytes name bytes' name' hchunk hchunk' =>
    h bytes name bytes' name' (hsome bytes name hchunk)
      (hsome bytes' name' hchunk')

/-- A cache that was filled from chunks without a collision can be trusted. -/
theorem Genuine.trusted (h : cache.Genuine chunks)
    (hchunks : Distinguished chunks)
    (hsome : ∀ bytes name, some bytes name → chunks bytes name) :
    cache.Trusted some := by
  intro bytes name hchunk proto hproto
  obtain ⟨bytes', name', hchunk', hkey, hread⟩ := h _ _ (mem_of_find? hproto)
  obtain ⟨rfl, rfl⟩ := hchunks _ _ _ _ (hsome bytes name hchunk) hchunk' hkey
  exact hread

theorem Trusted.get (h : cache.Trusted chunks) :
    (cache.get key).2.Trusted chunks := by
  intro bytes name hchunk proto hproto
  apply h bytes name hchunk proto
  simp only [find?] at hproto ⊢
  rwa [get_snd_entries] at hproto

theorem Trusted.insert (h : cache.Trusted chunks)
    (hchunks : Distinguished chunks) {bytes : List UInt8} {name : String}
    (hchunk : chunks bytes name) (hproto : undump bytes name = .ok proto) :
    (cache.insert (cacheKey bytes name) proto).Trusted chunks := by
  intro bytes' name' hchunk' found hfound
  rcases find?_insert hfound with ⟨hkey, rfl⟩ | hfound
  · obtain ⟨rfl, rfl⟩ := hchunks _ _ _ _ hchunk' hchunk hkey
    exact hproto
  · exact h bytes' name' hchunk' found hfound

theorem Genuine.get (h : cache.Genuine chunks) :
    (cache.get key).2.Genuine chunks := by
  simp only [Genuine]
  rw [get_snd_entries]
  exact h

theorem Genuine.insert (h : cache.Genuine chunks) {bytes : List UInt8}
    {name : String} (hchunk : chunks bytes name)
    (hproto : undump bytes name = .ok proto) :
    (cache.insert (cacheKey bytes name) proto).Genuine chunks := by
  intro key found hentry
  rcases mem_insert hentry with heq | hentry
  · cases heq
    exact ⟨bytes, name, hchunk, rfl, hproto⟩
  · exact h key found hentry

end Chunk.Cache

namespace Context

variable {ctx : Context} {chunks : List UInt8 → String → Prop}

/-- Contexts that differ in nothing but the cache and what was reported. -/
structure SameButCache (ctx c : Context) : Prop where
  globals : c.globals = ctx.globals
  frames : c.frames = ctx.frames
  stack : c.stack = ctx.stack
  registry : c.registry = ctx.registry
  heap : c.heap = ctx.heap

theorem SameButCache.trans {c d : Context} (h : ctx.SameButCache c)
    (h' : c.SameButCache d) : ctx.SameButCache d where
  globals := h'.globals.trans h.globals
  frames := h'.frames.trans h.frames
  stack := h'.stack.trans h.stack
  registry := h'.registry.trans h.registry
  heap := h'.heap.trans h.heap

theorem SameButCache.wellFormed {c : Context} (h : ctx.SameButCache c)
    (hctx : ctx.WellFormed) : c.WellFormed := by
  have hnames : ∀ {value}, ctx.Names value → c.Names value :=
    fun hvalue => hvalue.transport fun _ _ _ => .of_eq (by rw [h.heap])
  refine ⟨h.heap ▸ hctx.heap, h.registry ▸ hctx.registry,
    fun handle object hobject => ?_, fun value hvalue =>
      hnames (hctx.stack value (h.stack ▸ hvalue)),
    fun pin value hvalue =>
      hnames (hctx.pinned pin value (h.registry ▸ hvalue)), ?_,
    fun frame hframe => hnames (hctx.frames frame (h.frames ▸ hframe))⟩
  · rw [h.heap] at hobject
    exact (hctx.objects handle object hobject).transport
      fun _ _ _ => .of_eq (by rw [h.heap])
  · rw [globalsValue, h.globals]
    exact hnames hctx.globals

theorem SameButCache.keeps {c : Context} (h : ctx.SameButCache c) :
    ctx.Keeps c where
  globals := h.globals
  frames := h.frames
  stack := h.stack ▸ List.prefix_refl _
  pinned := fun _ _ hvalue => h.registry ▸ hvalue
  objects := fun handle _ => by rw [h.heap]

theorem SameButCache.pushedFunction {c d : Context} (h : ctx.SameButCache c)
    {proto : Prototype} {function : Handle} {cells : List Handle}
    (h' : c.PushedFunction d proto function cells) :
    ctx.PushedFunction d proto function cells where
  stack := h.stack ▸ h'.stack
  closure := h'.closure
  length := h'.length
  nodup := h'.nodup
  contents := by
    simp only [globalsValue]
    rw [← h.globals]
    exact h'.contents
  fresh := fun handle hhandle hlive =>
    h'.fresh handle hhandle (h.keeps.live hlive)
  keeps := h.keeps.trans h'.keeps
  wellFormed := h'.wellFormed
  registry := h'.registry.trans h.registry

/-! ## Loading -/

section Loading

variable {bytes : List UInt8} {name : String}
  {onError : RuntimeError → Context → Prop}

theorem ends_readChunk
    (herror : ∀ error, Chunk.undump bytes name = .error error →
      onError (.load error) ctx) :
    Ends (readChunk bytes name ctx)
      (fun proto c => Chunk.undump bytes name = .ok proto ∧ ctx.SameButCache c ∧
        c.cache = ctx.cache) onError := by
  simp only [readChunk]
  cases hload : Chunk.load bytes with
  | error error =>
    refine herror error ?_
    rw [Chunk.undump, hload]
    rfl
  | ok chunk =>
    refine ⟨?_, ⟨rfl, rfl, rfl, rfl, rfl⟩, rfl⟩
    rw [Chunk.undump, hload]
    rfl

theorem ends_cachedChunk (key : List UInt8) :
    Ends (cachedChunk key ctx)
      (fun found c => found = ctx.cache.find? key ∧ ctx.SameButCache c ∧
        c.cache = (ctx.cache.get key).2) onError :=
  ⟨Chunk.Cache.get_fst, ⟨rfl, rfl, rfl, rfl, rfl⟩, rfl⟩

theorem ends_rememberChunk (key : List UInt8) (proto : Prototype) :
    Ends (rememberChunk key proto ctx)
      (fun _ c =>
        ctx.SameButCache c ∧ c.cache = ctx.cache.insert key proto) onError := by
  rw [rememberChunk, ends_modify]
  dsimp only
  split
  · exact ⟨⟨rfl, rfl, rfl, rfl, rfl⟩, rfl⟩
  · exact ⟨⟨rfl, rfl, rfl, rfl, rfl⟩, rfl⟩

/-- Loading a chunk keeps of the cache what looking the chunk up and putting it
in keep, and pushes a function that was found or read. -/
theorem ends_loadChunk_of (good : Prototype → Prop) (kept : Chunk.Cache → Prop)
    {onOk : Unit → Context → Prop} (hcache : kept ctx.cache)
    (hget : kept (ctx.cache.get (Chunk.cacheKey bytes name)).2)
    (hfound : ∀ proto,
      ctx.cache.find? (Chunk.cacheKey bytes name) = some proto → good proto)
    (hread : ∀ proto, Chunk.undump bytes name = .ok proto → good proto)
    (hinsert : ∀ cache proto, kept cache → Chunk.undump bytes name = .ok proto →
      kept (cache.insert (Chunk.cacheKey bytes name) proto))
    (herror : ∀ error c, Chunk.undump bytes name = .error error →
      ctx.SameButCache c → kept c.cache → onError (.load error) c)
    (hpush : ∀ proto c, good proto → ctx.SameButCache c → kept c.cache →
      Ends (pushMain proto c) onOk onError) :
    Ends (loadChunk bytes name ctx) onOk onError := by
  simp only [loadChunk]
  rw [ends_bind, ends_get]
  split
  · refine (ends_cachedChunk _).bind fun found c hc => ?_
    obtain ⟨rfl, hsame, hsameCache⟩ := hc
    rw [← hsameCache] at hget
    cases hproto : ctx.cache.find? (Chunk.cacheKey bytes name) with
    | some proto => exact hpush proto c (hfound proto hproto) hsame hget
    | none =>
      refine (ends_readChunk fun error he => herror error c he hsame hget).bind
        fun proto c' hc' => ?_
      obtain ⟨hundump, hsame', hkeptCache⟩ := hc'
      refine (ends_rememberChunk _ proto).bind fun _ d hd => ?_
      refine hpush proto d (hread proto hundump)
        ((hsame.trans hsame').trans hd.1) ?_
      rw [hd.2]
      exact hinsert _ proto (hkeptCache ▸ hget) hundump
  · have hrefl : ctx.SameButCache ctx := ⟨rfl, rfl, rfl, rfl, rfl⟩
    refine (ends_readChunk fun error
      he => herror error ctx he hrefl hcache).bind fun proto c hc => ?_
    exact hpush proto c (hread proto hc.1) hc.2.1 (hc.2.2 ▸ hcache)

/-- Where all code of the cache was accepted, so is what a load pushes, and what
it leaves in the cache. -/
theorem ends_loadChunk_accepted {onOk : Unit → Context → Prop}
    (hcached : ∀ entry ∈ ctx.cache.entries, entry.2.Accepted)
    (herror : ∀ error c, ctx.SameButCache c →
      (∀ entry ∈ c.cache.entries, entry.2.Accepted) → onError (.load error) c)
    (hpush : ∀ proto c, proto.Accepted → ctx.SameButCache c →
      (∀ entry ∈ c.cache.entries, entry.2.Accepted) →
      Ends (pushMain proto c) onOk onError) :
    Ends (loadChunk bytes name ctx) onOk onError := by
  refine ends_loadChunk_of Prototype.Accepted
    (∀ entry ∈ ·.entries, entry.2.Accepted) hcached ?_
    (fun proto hproto => hcached _ (Chunk.Cache.mem_of_find? hproto))
    (fun proto hproto => (Chunk.of_undump_eq_ok hproto).1)
    (fun cache proto hkept hproto => ?_) (fun error c _ => herror error c) hpush
  · rw [Chunk.Cache.get_snd_entries]
    exact hcached
  · intro entry hentry
    rcases Chunk.Cache.mem_insert hentry with rfl | hentry
    · exact (Chunk.of_undump_eq_ok hproto).1
    · exact hkept entry hentry

/-- A chunk that is trusted loads as the function that reading it gives. -/
theorem ends_loadChunk (hctx : ctx.WellFormed)
    (hcache : ctx.cache.Trusted chunks)
    (hchunks : Chunk.Cache.Distinguished chunks) (hchunk : chunks bytes name) :
    Ends (loadChunk bytes name ctx)
      (fun _ c => c.cache.Trusted chunks ∧ ∃ proto function cells,
        Chunk.undump bytes name = .ok proto ∧
          ctx.PushedFunction c proto function cells)
      (fun _ c => ctx.SameButCache c ∧ c.cache.Trusted chunks) := by
  refine ends_loadChunk_of (Chunk.undump bytes name = .ok ·) (·.Trusted chunks)
    hcache hcache.get (hcache bytes name hchunk) (fun _ h => h)
    (fun _ _ htrusted => htrusted.insert hchunks hchunk) (fun _ _ _ => .intro)
    fun proto c hproto hsame htrusted => ?_
  refine (ends_pushMain (hsame.wellFormed hctx) proto).mono (fun _ c' hc' => ?_)
    fun _ _ he => he
  obtain ⟨hcaches, function, cells, hpushed⟩ := hc'
  exact ⟨hcaches ▸ htrusted, proto, function, cells, hproto,
    hsame.pushedFunction hpushed⟩

end Loading

end Context

end Isolate
