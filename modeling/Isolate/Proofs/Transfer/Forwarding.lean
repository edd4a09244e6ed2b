import Isolate.Proofs.Chunk.Stripping
import Isolate.Proofs.Context.Loads

/-!
# Functions that are forwarded

A function that goes from context to context goes as a stripped chunk, and every
context attributes what it loads.  Neither adds anything that the next chunk
shows, so all these chunks are one, and a context that loads it again under the
same name finds it in its cache.
-/

namespace Isolate

namespace Context

/-- The object behind a handle is a function made from a prototype. -/
def HasBody (ctx : Context) (function : Handle) (proto : Prototype) : Prop :=
  ∃ closure, ctx.closureOf function = .ok closure ∧ closure.proto = proto

/-- What a prototype becomes on its way through contexts: one context writes its
function as a stripped chunk, and the next one loads that under any name.  What
else they do before and after does not matter. -/
inductive Forwarded (main : Prototype) : Prototype → Prop
  | start : Forwarded main main
  | hop {proto result : Prototype} {source dest c : Context}
      {function copy : Handle} {bytes : List UInt8} {name : String}
      (h : Forwarded main proto) (hfunction : source.HasBody function proto)
      (hchunk : source.chunkOf (.function function) true = .ok bytes)
      (hdest : dest.WellFormed)
      (hcache : dest.cache.Trusted fun bytes'
        name' => bytes' = bytes ∧ name' = name)
      (hload : loadChunk bytes name dest = .ok () c)
      (htop : c.stack.back? = some (.function copy))
      (hcopy : c.HasBody copy result) :
      Forwarded main result

variable {main proto : Prototype} {source dest c : Context} {function : Handle}
  {bytes : List UInt8} {name : String}

theorem HasBody.chunkOf_eq (h : source.HasBody function proto) (strip : Bool) :
    source.chunkOf (.function function) strip =
      Chunk.dump proto strip source.settings.maxChunkSize := by
  obtain ⟨closure, hclosure, rfl⟩ := h
  rw [chunkOf, hclosure]

/-- The function on top after a load was read from the chunk. -/
theorem undump_of_loadChunk {result : Prototype} {copy : Handle}
    (hdest : dest.WellFormed)
    (hcache : dest.cache.Trusted fun bytes'
      name' => bytes' = bytes ∧ name' = name)
    (hload : loadChunk bytes name dest = .ok () c)
    (htop : c.stack.back? = some (.function copy))
    (hcopy : c.HasBody copy result) : Chunk.undump bytes name = .ok result := by
  have hchunks :
      Chunk.Cache.Distinguished fun bytes'
        name' => bytes' = bytes ∧ name' = name := by
    rintro _ _ _ _ ⟨rfl, rfl⟩ ⟨rfl, rfl⟩ _
    exact ⟨rfl, rfl⟩
  have hloaded := ends_loadChunk hdest hcache hchunks
    (⟨rfl, rfl⟩ : bytes = bytes ∧ name = name)
  obtain ⟨-, proto, pushed, cells, hread, hpushed⟩ := hloaded.ok hload
  have hsame : pushed = copy := by
    rw [hpushed.stack, Array.back?_push] at htop
    exact Value.function.inj (Option.some.inj htop)
  obtain ⟨closure, hclosure, rfl⟩ := hcopy
  rw [closureOf, objectAs, ← hsame, hpushed.closure] at hclosure
  cases hclosure
  exact hread

/-- On its way a prototype stays accepted and keeps all that stripping keeps. -/
theorem Forwarded.stable (h : Forwarded main proto)
    (hmain : main.verify = .ok ()) :
    proto.verify = .ok () ∧ proto.stripped = main.stripped := by
  induction h with
  | start => exact ⟨hmain, rfl⟩
  | hop _ hfunction hchunk hdest hcache hload htop hcopy ih =>
    rw [hfunction.chunkOf_eq] at hchunk
    obtain ⟨hverify, hstripped⟩ := Chunk.stripped_of_undump hchunk
      (undump_of_loadChunk hdest hcache hload htop hcopy)
    exact ⟨hverify, hstripped.trans ih.2⟩

/-- The way goes on: a chunk that was written is loaded wherever the
cache can be trusted. -/
theorem Forwarded.exists_hop (h : Forwarded main proto)
    (hmain : main.verify = .ok ()) (hfunction : source.HasBody function proto)
    (hchunk : source.chunkOf (.function function) true = .ok bytes)
    (hdest : dest.WellFormed)
    (hcache : dest.cache.Trusted fun bytes'
      name' => bytes' = bytes ∧ name' = name) :
    ∃ c copy result, loadChunk bytes name dest = .ok () c ∧
      c.stack = dest.stack.push (.function copy) ∧ c.HasBody copy result ∧
      Forwarded main result := by
  have hdump := hchunk
  rw [hfunction.chunkOf_eq] at hdump
  have hread := (Chunk.undump_of_dump hdump name).2 (h.stable hmain).1
  have hloaded : Ends (loadChunk bytes name dest)
      (fun _ c => ∃ proto copy cells, dest.PushedFunction c proto copy cells)
      fun _ _ => False := by
    refine ends_loadChunk_of (fun _ => True) (fun _ => True)
      trivial trivial (fun _ _ => trivial) (fun _ _ => trivial)
      (fun _ _ _ _ => trivial) (fun error _ herror _ _ => ?_)
      fun proto c _ hsame _ => ?_
    · cases hread.symm.trans herror
    · refine (ends_pushMain (hsame.wellFormed hdest) proto).mono
        (fun _ d hd => ?_) fun _ _ he => he
      obtain ⟨-, copy, cells, hpushed⟩ := hd
      exact ⟨proto, copy, cells, hsame.pushedFunction hpushed⟩
  cases hload : loadChunk bytes name dest with
  | error e c => exact (hloaded.error hload).elim
  | ok _ c =>
    obtain ⟨result, copy, cells, hpushed⟩ := hloaded.ok hload
    have hcopy : c.HasBody copy result := by
      refine ⟨⟨result, cells.toArray⟩, ?_, rfl⟩
      rw [closureOf, objectAs, hpushed.closure]
    have htop : c.stack.back? = some (.function copy) := by
      rw [hpushed.stack, Array.back?_push]
    exact ⟨c, copy, result, rfl, hpushed.stack, hcopy,
      h.hop hfunction hchunk hdest hcache hload htop hcopy⟩

/-- Wherever a function got to, its stripped chunk is the one of the first. -/
theorem Forwarded.chunkOf_eq (h : Forwarded main proto)
    (hmain : main.verify = .ok ()) (hfunction : source.HasBody function proto) :
    source.chunkOf (.function function) true =
      Chunk.dump main true source.settings.maxChunkSize := by
  rw [hfunction.chunkOf_eq]
  exact Chunk.dump_true_congr (h.stable hmain).2 _

/-- A chunk that is loaded and was not found in the cache can be read. -/
theorem exists_undump_of_miss
    (hmiss : dest.cache.find? (Chunk.cacheKey bytes name) = none)
    (hload : loadChunk bytes name dest = .ok () c) :
    ∃ proto, Chunk.undump bytes name = .ok proto := by
  have hread : Ends (loadChunk bytes name dest)
      (fun _ _ => ∃ proto, Chunk.undump bytes name = .ok proto)
      fun _ _ => True := by
    refine ends_loadChunk_of (Chunk.undump bytes name = .ok ·) (fun _ => True)
      trivial trivial (fun proto hproto => ?_) (fun _ hproto => hproto)
      (fun _ _ _ _ => trivial) (fun _ _ _ _ _ => trivial)
      fun proto c hproto _ _ => ?_
    · cases hmiss.symm.trans hproto
    · exact (Ends.trivial _).mono (fun _ _ _ => ⟨proto, hproto⟩)
        fun _ _ he => he
  exact hread.ok hload

/-- A load that succeeds leaves one entry for its chunk, and the entries as they
were if there was one before. -/
theorem entries_of_loadChunk (henabled : dest.cache.enabled = true)
    (hcache : dest.cache.Orderly)
    (hload : loadChunk bytes name dest = .ok () c) :
    (∃ found,
      (c.cache.entries.filter fun entry =>
        entry.1 = Chunk.cacheKey bytes name) =
        [(Chunk.cacheKey bytes name, found)]) ∧
      ((dest.cache.find? (Chunk.cacheKey bytes name)).isSome = true →
        c.cache.entries = dest.cache.entries) := by
  have hloaded := (cache_loadChunk dest bytes name).ok hload
  cases hfound : dest.cache.find? (Chunk.cacheKey bytes name) with
  | some found =>
    have hentries : c.cache.entries = dest.cache.entries := by
      rw [hloaded, Chunk.Cache.loading_of_hit henabled hfound,
        Chunk.Cache.get_snd_entries]
    rw [hentries]
    exact ⟨⟨found, hcache.filter_of_find? hfound⟩, fun _ => rfl⟩
  | none =>
    obtain ⟨proto, hread⟩ := exists_undump_of_miss hfound hload
    have henabled' :
        (dest.cache.get (Chunk.cacheKey bytes name)).2.enabled = true := by
      rw [Chunk.Cache.enabled, Chunk.Cache.get_snd_capacity]
      exact henabled
    rw [hloaded, Chunk.Cache.loading_of_miss henabled hfound hread]
    exact ⟨⟨proto, Chunk.Cache.filter_insert henabled'⟩, fun h => by cases h⟩

/-- The two ways to strip agree up to the flags, which come after six bytes, and
a stripped chunk is never longer.  The function read from one is written as that
chunk again, so on its way through contexts a function keeps one chunk, and
every context has one entry for it under each name. -/
theorem stripped_chunks_agree :
    (∀ (proto : Prototype) (limit : Nat),
      (Chunk.dump proto true limit = .error (.tooLarge limit) ∧
          Chunk.dump proto.stripped false limit = .error (.tooLarge limit)) ∨
        ∃ front record, front.length = 6 ∧
          Chunk.dump proto true limit = .ok (front ++ 1 :: record) ∧
          Chunk.dump proto.stripped false limit = .ok (front ++ 0 :: record)) ∧
    (∀ (proto : Prototype) (limit enough : Nat) (short long : List UInt8),
      Chunk.dump proto true limit = .ok short →
      Chunk.dump proto false enough = .ok long → short.length ≤ long.length) ∧
    (∀ (proto : Prototype) (limit : Nat) (bytes : List UInt8) (name : String),
      proto.verify = .ok () → Chunk.dump proto true limit = .ok bytes →
        ∃ result, Chunk.undump bytes name = .ok result ∧
          ∀ enough, bytes.length ≤ enough →
            Chunk.dump result true enough = .ok bytes) ∧
    (∀ (main proto : Prototype) (limit : Nat) (chunk : List UInt8)
      (source : Context) (function : Handle),
      main.verify = .ok () → Chunk.dump main true limit = .ok chunk →
      Forwarded main proto → source.HasBody function proto →
        source.chunkOf (.function function) true =
            (if chunk.length ≤ source.settings.maxChunkSize then .ok chunk
              else .error (.tooLarge source.settings.maxChunkSize)) ∧
          ∀ (dest c : Context) (bytes : List UInt8) (name : String),
            source.chunkOf (.function function) true = .ok bytes →
            dest.cache.enabled = true → dest.cache.Orderly →
            loadChunk bytes name dest = .ok () c →
              (∃ found, (c.cache.entries.filter fun entry =>
                  entry.1 = Chunk.cacheKey chunk name) =
                  [(Chunk.cacheKey chunk name, found)]) ∧
                ((dest.cache.find? (Chunk.cacheKey chunk name)).isSome = true →
                  c.cache.entries = dest.cache.entries)) := by
  refine ⟨fun proto limit => ?_,
    fun proto limit enough short long hshort hlong => ?_,
    fun proto limit bytes name hverify hdump => ?_,
    fun main proto limit chunk source function hmain hdump hproto
      hfunction => ⟨?_, ?_⟩⟩
  · refine (Chunk.dump_stripped proto limit).imp_right
      fun ⟨record, htrue, hfalse⟩ => ?_
    exact ⟨Chunk.front, record, Chunk.length_front, htrue, hfalse⟩
  · obtain ⟨short', hshort', hle⟩ := Chunk.exists_dump_stripped_le hlong
    exact Chunk.dump_unique hshort hshort' ▸ hle
  · have hread := (Chunk.undump_of_dump hdump name).2 hverify
    refine ⟨_, hread, fun enough hroom => ?_⟩
    rw [Chunk.dump_true_congr (Chunk.stripped_of_undump hdump hread).2]
    exact Chunk.dump_of_length_le hdump hroom
  · rw [hproto.chunkOf_eq hmain hfunction]
    by_cases hroom : chunk.length ≤ source.settings.maxChunkSize
    · rw [if_pos hroom, Chunk.dump_of_length_le hdump hroom]
    · rw [if_neg hroom, Chunk.dump_of_appends (Chunk.appends_of_dump hdump),
        if_pos (Nat.not_le.1 hroom)]
  · intro dest c bytes name hbytes henabled hcache hload
    rw [hproto.chunkOf_eq hmain hfunction] at hbytes
    rw [Chunk.dump_unique hdump hbytes]
    exact entries_of_loadChunk henabled hcache hload

/-- The chunk of a function that was forwarded into a fresh context, with a
cache that is on, is the one that it came from. -/
theorem stripped_chunks_agree_capturing : ∃ result chunk,
    Forwarded Chunk.capturing result ∧ result.source = some "=copy" ∧
      Chunk.dump Chunk.capturing true 100 = .ok chunk ∧
      (holding [.table .empty, .closure ⟨result, #[]⟩] #[]).chunkOf
        (.function ⟨1⟩) true =
        .ok chunk := by
  cases hdump : Chunk.dump Chunk.capturing true 100 with
  | error error =>
    exact absurd Chunk.isOk_dump_capturing
      (by rw [hdump]; exact Bool.false_ne_true)
  | ok chunk =>
    have hfits : chunk.length ≤ 16777216 :=
      Nat.le_trans (Chunk.length_le_of_dump hdump) (by decide)
    have hbody : ∀ proto : Prototype,
        (holding [.table .empty, .closure ⟨proto, #[]⟩] #[]).HasBody
          ⟨1⟩ proto :=
      fun proto => ⟨⟨proto, #[]⟩, rfl, rfl⟩
    have hchunk :
        (holding [.table .empty, .closure ⟨Chunk.capturing, #[]⟩] #[]).chunkOf
          (.function ⟨1⟩) true = .ok chunk := by
      rw [(hbody _).chunkOf_eq]
      exact Chunk.dump_of_length_le hdump hfits
    have hcache :
        (create {} {}).cache.Trusted fun bytes
          name => bytes = chunk ∧ name = "=copy" :=
      fun _ _ _ _ hfound => by cases hfound
    have hfresh : (create {} {}).WellFormed :=
      (intact_create {} {}).toWellFormed
    obtain ⟨c, copy, result, hload, hstack, hcopy, hresult⟩ :=
      Forwarded.start.exists_hop Chunk.verify_capturing (hbody _) hchunk
        hfresh hcache
    have htop : c.stack.back? = some (.function copy) := by
      rw [hstack, Array.back?_push]
    have hread := undump_of_loadChunk hfresh hcache hload htop hcopy
    obtain rfl := Except.ok.inj
      (hread.symm.trans
        ((Chunk.undump_of_dump hdump "=copy").2 Chunk.verify_capturing))
    refine ⟨_, chunk, hresult, rfl, rfl, ?_⟩
    have hagree := stripped_chunks_agree.2.2.2 _ _ 100 chunk _ ⟨1⟩
      Chunk.verify_capturing hdump hresult (hbody _)
    rw [hagree.1]
    exact if_pos hfits

end Context

end Isolate
