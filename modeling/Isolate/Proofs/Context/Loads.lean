import Isolate.Proofs.Transfer.Lasting
import Mathlib.Data.List.Induction

/-!
# What loading does to the cache

A load looks its chunk up, and one that misses and can be read puts it in.
Nothing else of it matters to the cache, so the cache after any loads can be
told from the loads alone.
-/

namespace Isolate

/-- A chunk and the name that it is loaded under. -/
abbrev Chunk.Load := List UInt8 × String

namespace Chunk.Cache

/-- The cache after a chunk was loaded under a name, or could not be. -/
def loading (cache : Cache) (bytes : List UInt8) (name : String) : Cache :=
  let key := cacheKey bytes name
  if cache.enabled then
    match cache.find? key, undump bytes name with
    | none, .ok proto => (cache.get key).2.insert key proto
    | _, _ => (cache.get key).2
  else cache

variable {cache : Cache} {bytes : List UInt8} {name : String}
  {proto : Prototype}

theorem loading_of_hit (henabled : cache.enabled = true)
    (h : cache.find? (cacheKey bytes name) = some proto) :
    cache.loading bytes name = (cache.get (cacheKey bytes name)).2 := by
  rw [loading]
  rw [if_pos henabled, h]

theorem loading_of_miss (henabled : cache.enabled = true)
    (h : cache.find? (cacheKey bytes name) = none)
    (hread : undump bytes name = .ok proto) :
    cache.loading bytes name =
      (cache.get (cacheKey bytes name)).2.insert
        (cacheKey bytes name) proto := by
  rw [loading]
  rw [if_pos henabled, h, hread]

theorem loading_of_error (henabled : cache.enabled = true) {error : LoadError}
    (h : cache.find? (cacheKey bytes name) = none)
    (hread : undump bytes name = .error error) :
    cache.loading bytes name = (cache.get (cacheKey bytes name)).2 := by
  rw [loading]
  rw [if_pos henabled, h, hread]

theorem loading_of_not_enabled (h : ¬cache.enabled = true) :
    cache.loading bytes name = cache := by
  rw [loading]
  rw [if_neg h]

/-- A property that look-ups keep, and insertions of what was read,
is kept by loads. -/
theorem loading_induction (kept : Cache → Prop) (hcache : kept cache)
    (hget : kept (cache.get (cacheKey bytes name)).2)
    (hinsert : ∀ proto, undump bytes name = .ok proto →
      kept ((cache.get (cacheKey bytes name)).2.insert
        (cacheKey bytes name) proto)) :
    kept (cache.loading bytes name) := by
  by_cases henabled : cache.enabled = true
  · cases hfound : cache.find? (cacheKey bytes name) with
    | some proto => rwa [loading_of_hit henabled hfound]
    | none =>
      cases hread : undump bytes name with
      | error error => rwa [loading_of_error henabled hfound hread]
      | ok proto =>
        rw [loading_of_miss henabled hfound hread]
        exact hinsert proto hread
  · rwa [loading_of_not_enabled henabled]

@[simp]
theorem loading_capacity :
    (cache.loading bytes name).capacity = cache.capacity := by
  refine loading_induction (fun after => after.capacity = cache.capacity) rfl
    get_snd_capacity fun proto _ => ?_
  rw [insert_capacity, get_snd_capacity]

theorem Orderly.loading (h : cache.Orderly) :
    (cache.loading bytes name).Orderly :=
  loading_induction Orderly h h.get fun _ _ => h.get.insert

theorem Genuine.loading {chunks : List UInt8 → String → Prop}
    (h : cache.Genuine chunks) (hchunk : chunks bytes name) :
    (cache.loading bytes name).Genuine chunks :=
  loading_induction (·.Genuine chunks) h h.get
    fun _ hread => h.get.insert hchunk hread

/-- A load is counted as a hit or as a miss. -/
theorem loading_hits (henabled : cache.enabled = true) :
    (cache.loading bytes name).hits =
      cache.hits +
        if (cache.find? (cacheKey bytes name)).isSome then 1 else 0 := by
  cases hfound : cache.find? (cacheKey bytes name) with
  | some proto =>
    rw [loading_of_hit henabled hfound, get, hfound]
    rfl
  | none =>
    have hget : (cache.get (cacheKey bytes name)).2.hits = cache.hits := by
      rw [get, hfound]
    cases hread : undump bytes name with
    | error error =>
      rw [loading_of_error henabled hfound hread]
      exact hget
    | ok proto =>
      rw [loading_of_miss henabled hfound hread, insert]
      split
      · exact hget
      · exact hget

theorem loading_counts (henabled : cache.enabled = true) :
    (cache.loading bytes name).hits + (cache.loading bytes name).misses =
      cache.hits + cache.misses + 1 := by
  have hget : ∀ key, (cache.get key).2.hits + (cache.get key).2.misses =
      cache.hits + cache.misses + 1 := by
    intro key
    simp only [get]
    split <;> dsimp only <;> omega
  have hinsert : ∀ (c : Cache) (key : List UInt8) (proto : Prototype),
      (c.insert key proto).hits = c.hits ∧
        (c.insert key proto).misses = c.misses := by
    intro c key proto
    rw [insert]
    split <;> exact ⟨rfl, rfl⟩
  cases hfound : cache.find? (cacheKey bytes name) with
  | some proto =>
    rw [loading_of_hit henabled hfound]
    exact hget _
  | none =>
    cases hread : undump bytes name with
    | error error =>
      rw [loading_of_error henabled hfound hread]
      exact hget _
    | ok proto =>
      rw [loading_of_miss henabled hfound hread, (hinsert _ _ _).1,
        (hinsert _ _ _).2]
      exact hget _

/-- A chunk that was loaded is found. -/
theorem isSome_find?_loading (henabled : cache.enabled = true)
    (hread : undump bytes name = .ok proto) :
    ((cache.loading bytes name).find? (cacheKey bytes name)).isSome = true := by
  cases hfound : cache.find? (cacheKey bytes name) with
  | some found =>
    rw [loading_of_hit henabled hfound, find?, get_snd_entries]
    exact congrArg Option.isSome hfound
  | none =>
    have hon : (cache.get (cacheKey bytes name)).2.enabled = true := by
      rwa [enabled, get_snd_capacity]
    rw [loading_of_miss henabled hfound hread, insert, if_pos hon]
    exact congrArg Option.isSome List.lookup_cons_self

/-! ## Loads one after the other -/

/-- The cache after these loads, each of a chunk under a name. -/
def after (cache : Cache) (loads : List Load) : Cache :=
  loads.foldl (fun cache load => cache.loading load.1 load.2) cache

variable {loads : List Load}

theorem after_append (cache : Cache) (loads others : List Load) :
    cache.after (loads ++ others) = (cache.after loads).after others :=
  List.foldl_append

theorem after_concat (cache : Cache) (loads : List Load) (load : Load) :
    cache.after (loads ++ [load]) = (cache.after loads).loading load.1 load.2 :=
  after_append cache loads [load]

/-- A property that each of the loads keeps. -/
theorem after_induction (kept : Cache → Prop) (hcache : kept cache)
    (hloading : ∀ cache load, load ∈ loads → kept cache →
      kept (cache.loading load.1 load.2)) :
    kept (cache.after loads) := by
  induction loads generalizing cache with
  | nil => exact hcache
  | cons load rest ih =>
    exact ih (hloading cache load List.mem_cons_self hcache)
      fun cache other hother =>
        hloading cache other (List.mem_cons_of_mem load hother)

@[simp]
theorem after_capacity : (cache.after loads).capacity = cache.capacity :=
  after_induction (fun after => after.capacity = cache.capacity) rfl
    fun _ _ _ hkept => loading_capacity.trans hkept

theorem after_enabled : (cache.after loads).enabled = cache.enabled := by
  rw [enabled, after_capacity]
  rfl

theorem Orderly.after (h : cache.Orderly) : (cache.after loads).Orderly :=
  after_induction Orderly h fun _ _ _ hkept => hkept.loading

theorem Genuine.after {chunks : List UInt8 → String → Prop}
    (h : cache.Genuine chunks)
    (hchunks : ∀ load ∈ loads, chunks load.1 load.2) :
    (cache.after loads).Genuine chunks :=
  after_induction (·.Genuine chunks) h fun _ load hload hkept =>
    hkept.loading (hchunks load hload)

/-- Every load is counted. -/
theorem after_counts (henabled : cache.enabled = true) :
    (cache.after loads).hits + (cache.after loads).misses =
      cache.hits + cache.misses + loads.length := by
  induction loads using List.reverseRecOn with
  | nil => rfl
  | append_singleton loads load ih =>
    rw [after_concat, loading_counts (after_enabled.trans henabled), ih,
      List.length_append]
    rfl

/-- Whether the load at a place found its chunk in the cache. -/
def hitAt (cache : Cache) (loads : List Load) (i : Nat) : Bool :=
  match loads[i]? with
  | some load =>
    ((cache.after (loads.take i)).find? (cacheKey load.1 load.2)).isSome
  | none => false

theorem hitAt_concat_of_lt {load : Load} {i : Nat} (hi : i < loads.length) :
    cache.hitAt (loads ++ [load]) i = cache.hitAt loads i := by
  simp only [hitAt]
  rw [List.getElem?_append_left hi,
    List.take_append_of_le_length (Nat.le_of_lt hi)]

theorem hitAt_concat_length {load : Load} :
    cache.hitAt (loads ++ [load]) loads.length =
      ((cache.after loads).find? (cacheKey load.1 load.2)).isSome := by
  simp [hitAt]

/-- The loads that found their chunks are counted as hits. -/
theorem after_hits (henabled : cache.enabled = true) :
    (cache.after loads).hits =
      cache.hits + (List.range loads.length).countP (cache.hitAt loads) := by
  -- From the back: what the last load finds depends on all the loads before it.
  induction loads using List.reverseRecOn with
  | nil => rfl
  | append_singleton loads load ih =>
    have hbefore :
        (List.range loads.length).countP (cache.hitAt (loads ++ [load])) =
          (List.range loads.length).countP (cache.hitAt loads) :=
      List.countP_congr fun i
        hi => by rw [hitAt_concat_of_lt (List.mem_range.1 hi)]
    rw [after_concat, loading_hits (after_enabled.trans henabled), ih,
      List.length_append, List.length_singleton, List.range_succ,
      List.countP_append, hbefore, List.countP_singleton, hitAt_concat_length]
    exact Nat.add_assoc _ _ _

/-- Wherever one of the loads finds its chunk, it finds what reading the chunk
gives. -/
def Faithful (cache : Cache) : List Load → Prop
  | [] => True
  | load :: rest =>
    (∀ proto, cache.find? (cacheKey load.1 load.2) = some proto →
        undump load.1 load.2 = .ok proto) ∧
      (cache.loading load.1 load.2).Faithful rest

theorem faithful_append {others : List Load} :
    cache.Faithful (loads ++ others) ↔
      cache.Faithful loads ∧ (cache.after loads).Faithful others := by
  induction loads generalizing cache with
  | nil => exact (iff_of_eq (true_and _)).symm
  | cons load rest ih =>
    exact (and_congr_right fun _ => ih).trans and_assoc.symm

/-- Without a collision, nothing else can be found. -/
theorem Genuine.faithful {chunks : List UInt8 → String → Prop}
    (h : cache.Genuine chunks) (hchunks : Distinguished chunks)
    (hloads : ∀ load ∈ loads, chunks load.1 load.2) : cache.Faithful loads := by
  induction loads generalizing cache with
  | nil => exact trivial
  | cons load rest ih =>
    have hload := hloads load List.mem_cons_self
    refine ⟨fun proto hproto => ?_, ih (h.loading hload) fun other hother =>
      hloads other (List.mem_cons_of_mem load hother)⟩
    exact h.trusted hchunks (fun _ _ => id) load.1 load.2 hload proto hproto

/-- A chunk that a load finds was loaded before under that name, and could be
read. -/
theorem exists_load_of_hitAt {capacity i : Nat} {load : Load}
    (hloads : Distinguished fun bytes name => (bytes, name) ∈ loads)
    (hload : loads[i]? = some load) (hit : hitAt { capacity } loads i = true) :
    ∃ j < i,
      loads[j]? = some load ∧ ∃ proto, undump load.1 load.2 = .ok proto := by
  have hgenuine : ({ capacity : Cache }.after (loads.take i)).Genuine
      fun bytes name => (bytes, name) ∈ loads.take i :=
    Genuine.after (fun key proto hentry => nomatch hentry)
      fun load hload => hload
  simp only [hitAt, hload] at hit
  obtain ⟨proto, hproto⟩ := Option.isSome_iff_exists.1 hit
  obtain ⟨bytes, name, hmem, hkey, hread⟩ := hgenuine _ _ (mem_of_find? hproto)
  obtain ⟨hbytes, hname⟩ := hloads load.1 load.2 bytes name
    (List.mem_of_getElem? hload) (List.mem_of_mem_take hmem) hkey
  obtain rfl : load = (bytes, name) := Prod.ext hbytes hname
  obtain ⟨j, hj⟩ := List.getElem?_of_mem hmem
  rw [List.getElem?_take] at hj
  split at hj
  · next hlt => exact ⟨j, hlt, hj, proto, hread⟩
  · cases hj

end Chunk.Cache

namespace Context

variable {ctx : Context} {bytes : List UInt8} {name : String}

/-- What becomes of the cache does not depend on anything else in the
context. -/
theorem cache_loadChunk (ctx : Context) (bytes : List UInt8) (name : String) :
    Ends (loadChunk bytes name ctx) (fun _ c =>
      c.cache = ctx.cache.loading bytes name)
      fun _ c => c.cache = ctx.cache.loading bytes name := by
  have hpush : ∀ (proto : Prototype) (c : Context),
      c.cache = ctx.cache.loading bytes name →
      Ends (pushMain proto c) (fun _ d =>
        d.cache = ctx.cache.loading bytes name)
        fun _ d => d.cache = ctx.cache.loading bytes name :=
    fun proto =>
      (lasting_cache (· = ctx.cache.loading bytes name)).elements.pushMain proto
  simp only [loadChunk]
  rw [ends_bind, ends_get]
  by_cases henabled : ctx.cache.enabled = true
  · rw [if_pos henabled]
    refine (ends_cachedChunk _).bind fun found c hc => ?_
    obtain ⟨rfl, -, hcache⟩ := hc
    cases hproto : ctx.cache.find? (Chunk.cacheKey bytes name) with
    | some proto =>
      exact hpush proto c
        (hcache.trans (Chunk.Cache.loading_of_hit henabled hproto).symm)
    | none =>
      refine (ends_readChunk fun error hread => ?_).bind fun proto c' hc' => ?_
      · exact hcache.trans
          (Chunk.Cache.loading_of_error henabled hproto hread).symm
      · obtain ⟨hread, -, hcache'⟩ := hc'
        refine (ends_rememberChunk _ proto).bind fun _ d hd => hpush proto d ?_
        rw [hd.2, hcache', hcache,
          Chunk.Cache.loading_of_miss henabled hproto hread]
  · have hkept : ctx.cache.loading bytes name = ctx.cache :=
      Chunk.Cache.loading_of_not_enabled henabled
    rw [if_neg henabled]
    exact (ends_readChunk fun error _ => hkept.symm).bind fun proto c hc =>
      hpush proto c (hc.2.2.trans hkept.symm)

end Context

end Isolate
