import Isolate.Chunk.Cache
import Isolate.Proofs.Lookup

/-!
# What the cache holds

A look-up changes only the counts, and an insertion adds one entry and drops
others.  So no key has two entries, and there are never more than there may be.
-/

namespace Isolate.Chunk.Cache

variable {cache : Cache} {key : List UInt8} {proto : Prototype}

@[simp]
theorem get_fst : (cache.get key).1 = cache.find? key := by
  simp only [get]
  split
  · next proto hproto => exact hproto.symm
  · next hnone => exact hnone.symm

@[simp]
theorem get_snd_entries : (cache.get key).2.entries = cache.entries := by
  simp only [get]
  split <;> rfl

theorem mem_of_find? (h : cache.find? key = some proto) :
    (key, proto) ∈ cache.entries :=
  mem_of_lookup h

theorem mem_insert {entry : List UInt8 × Prototype}
    (h : entry ∈ (cache.insert key proto).entries) :
    entry = (key, proto) ∨ entry ∈ cache.entries := by
  simp only [insert] at h
  split at h
  · rcases List.mem_cons.1 h with rfl | h
    · exact Or.inl rfl
    · split at h
      · cases h
      · exact Or.inr (List.mem_filter.1 h).1
  · exact Or.inr h

/-- What is found after an insertion was inserted or was there. -/
theorem find?_insert {key' : List UInt8} {found : Prototype}
    (h : (cache.insert key proto).find? key' = some found) :
    key' = key ∧ found = proto ∨ cache.find? key' = some found := by
  simp only [insert] at h
  split at h
  · rw [find?] at h
    dsimp only at h
    split at h
    · rw [List.lookup_cons] at h
      split at h
      · next heq => exact Or.inl ⟨eq_of_beq heq, (Option.some.inj h).symm⟩
      · cases h
    · rw [lookup_cons_filter_ne] at h
      split at h
      · next heq => exact Or.inl ⟨heq, (Option.some.inj h).symm⟩
      · exact Or.inr h
  · exact Or.inr h

@[simp]
theorem get_snd_capacity : (cache.get key).2.capacity = cache.capacity := by
  simp only [get]
  split <;> rfl

@[simp]
theorem insert_capacity :
    (cache.insert key proto).capacity = cache.capacity := by
  simp only [insert]
  split <;> rfl

/-- A key that was put in has that entry and no other. -/
theorem filter_insert (h : cache.enabled = true) :
    (cache.insert key proto).entries.filter (fun entry => entry.1 = key) =
      [(key, proto)] := by
  have hothers : ∀ entries : List (List UInt8 × Prototype),
      (entries.filter fun entry => entry.1 ≠ key).filter
        (fun entry => entry.1 = key) = [] := by
    intro entries
    rw [List.filter_filter, List.filter_eq_nil_iff]
    simp
  rw [insert, if_pos h]
  dsimp only
  rw [List.filter_cons, if_pos (by simp)]
  split
  · rfl
  · rw [hothers]

/-! ## Bounds -/

/-- No key has two entries, and there are no more of them than there may be. -/
structure Orderly (cache : Cache) : Prop where
  distinct : (cache.entries.map Prod.fst).Nodup
  bounded : cache.size ≤ cache.capacity

theorem orderly_empty (capacity : Nat) : Orderly { capacity } :=
  ⟨List.nodup_nil, Nat.zero_le _⟩

theorem Orderly.get (h : cache.Orderly) : (cache.get key).2.Orderly where
  distinct := by
    rw [get_snd_entries]
    exact h.distinct
  bounded := by
    rw [size, get_snd_entries, get_snd_capacity]
    exact h.bounded

/-- Without its entries for a key, a cache that does not overflow
has room for one. -/
theorem length_filter_lt (h : cache.Orderly) (hcapacity : 0 < cache.capacity)
    (hfits : ¬cache.overflows key = true) :
    (cache.entries.filter fun entry => entry.1 ≠ key).length <
      cache.capacity := by
  have hle :=
    List.length_filter_le (fun entry : List UInt8 × Prototype => entry.1 ≠ key)
      cache.entries
  have hbound : cache.entries.length ≤ cache.capacity := h.bounded
  by_cases hfull : cache.capacity ≤ cache.size
  · have hfound : (cache.find? key).isSome = true := by
      simpa [overflows, enabled, hcapacity, hfull, Option.isSome_iff_ne_none]
        using hfits
    obtain ⟨proto, hproto⟩ := Option.isSome_iff_exists.1 hfound
    refine Nat.lt_of_lt_of_le
      (List.length_filter_lt_length_iff_exists.2 ?_) hbound
    exact ⟨_, mem_of_find? hproto, by simp⟩
  · exact Nat.lt_of_le_of_lt hle (Nat.not_le.1 hfull)

theorem Orderly.insert (h : cache.Orderly) :
    (cache.insert key proto).Orderly := by
  by_cases henabled : cache.enabled = true
  · have hcapacity : 0 < cache.capacity := by simpa [enabled] using henabled
    rw [Cache.insert, if_pos henabled]
    by_cases hfits : cache.overflows key = true
    · rw [if_pos hfits]
      exact ⟨List.nodup_cons.2 ⟨List.not_mem_nil, List.nodup_nil⟩, hcapacity⟩
    · rw [if_neg hfits]
      refine ⟨?_, length_filter_lt h hcapacity hfits⟩
      rw [List.map_cons, List.nodup_cons]
      refine ⟨by simp, (List.filter_sublist.map Prod.fst).nodup h.distinct⟩
  · rw [Cache.insert, if_neg henabled]
    exact h

/-- A key that is found has the entry that was found and no other. -/
theorem Orderly.filter_of_find? (h : cache.Orderly)
    (hproto : cache.find? key = some proto) :
    cache.entries.filter (fun entry => entry.1 = key) = [(key, proto)] := by
  obtain ⟨before, after, hentries, hbefore⟩ := List.lookup_eq_some_iff.1 hproto
  have hdistinct := h.distinct
  rw [hentries, List.map_append, List.map_cons, List.nodup_append] at hdistinct
  have hafter : key ∉ after.map Prod.fst := (List.nodup_cons.1 hdistinct.2.1).1
  rw [hentries, List.filter_append, List.filter_cons, if_pos (by simp),
    List.filter_eq_nil_iff.2 fun entry hentry => ?_,
    List.filter_eq_nil_iff.2 fun entry hentry => ?_, List.nil_append]
  · have hne : entry.1 ≠ key := fun heq =>
      hafter (List.mem_map.2 ⟨entry, hentry, heq⟩)
    simp [hne]
  · have hne : ¬key = entry.1 := by simpa using hbefore entry hentry
    simp [Ne.symm hne]

end Isolate.Chunk.Cache
