import Isolate.Proofs.Lookup
import Isolate.Table

/-!
# Bindings of a table

What an assignment does to the bindings.  The keys of a table are distinct, so a
binding is found exactly if it is one of the entries.
-/

namespace Isolate.Table

variable {t : Table} {key other : Key} {value : Value}

theorem find?_eq_some_iff :
    t.find? key = some value ↔ (key, value) ∈ t.entries := by
  simp only [find?]
  rw [List.lookup_eq_some_iff]
  constructor
  · rintro ⟨before, after, hentries, -⟩
    rw [hentries]
    exact List.mem_append_right before List.mem_cons_self
  · intro h
    obtain ⟨before, after, hentries⟩ := List.append_of_mem h
    refine ⟨before, after, hentries, fun entry hentry => ?_⟩
    have hdistinct := t.distinct
    rw [hentries, List.map_append, List.nodup_append] at hdistinct
    have hne :=
      hdistinct.2.2 entry.1 (List.mem_map_of_mem hentry) key List.mem_cons_self
    exact bne_iff_ne.2 (Ne.symm hne)

theorem find?_eq_none_iff :
    t.find? key = none ↔ key ∉ t.entries.map Prod.fst := by
  rw [Option.eq_none_iff_forall_ne_some]
  constructor
  · intro h hmem
    obtain ⟨⟨found, value⟩, hentry, rfl⟩ := List.mem_map.1 hmem
    exact h value (find?_eq_some_iff.2 hentry)
  · rintro h value hsome
    exact h (List.mem_map.2 ⟨_, find?_eq_some_iff.1 hsome, rfl⟩)

theorem get_eq_nil_iff : t.get key = .nil ↔ t.find? key = none := by
  simp only [get]
  cases h : t.find? key with
  | none => exact ⟨fun _ => rfl, fun _ => rfl⟩
  | some value =>
    constructor
    · intro hnil
      exact absurd hnil (t.bound _ (find?_eq_some_iff.1 h))
    · exact nofun

/-- An assignment changes what its own key is bound to, and nothing else. -/
theorem get_set (t : Table) (key : Key) (value : Value) (other : Key) :
    (t.set key value).get other =
      if other = key then value else t.get other := by
  simp only [get, find?]
  by_cases hvalue : value = .nil
  · rw [set, dif_pos hvalue]
    by_cases hother : other = key
    · have hgone : (t.erase key).find? other = none := by
        rw [find?_eq_none_iff]
        simp [erase, hother]
      rw [if_pos hother, hvalue]
      exact congrArg (Option.getD · Value.nil) hgone
    · rw [if_neg hother]
      exact congrArg (Option.getD · Value.nil) (lookup_filter_ne hother)
  · rw [set, dif_neg hvalue]
    by_cases hother : other = key
    · rw [if_pos hother]
      exact congrArg (Option.getD · Value.nil)
        (lookup_cons_filter_ne.trans (if_pos hother))
    · rw [if_neg hother]
      exact congrArg (Option.getD · Value.nil)
        (lookup_cons_filter_ne.trans (if_neg hother))

theorem get_eq_iff_mem (hvalue : value ≠ .nil) :
    t.get key = value ↔ (key, value) ∈ t.entries := by
  rw [← find?_eq_some_iff, get]
  cases t.find? key with
  | none => simp [Ne.symm hvalue]
  | some found => simp

theorem erase_of_find?_eq_none (h : t.find? key = none) :
    (t.erase key).entries = t.entries := by
  refine List.filter_eq_self.2 fun entry hentry => ?_
  refine decide_eq_true fun heq => find?_eq_none_iff.1 h ?_
  exact List.mem_map.2 ⟨entry, hentry, heq⟩

/-- Binding a key that is not bound puts one entry in front. -/
theorem entries_set_of_find?_eq_none (hvalue : value ≠ .nil)
    (h : t.find? key = none) :
    (t.set key value).entries = (key, value) :: t.entries := by
  rw [set, dif_neg hvalue]
  exact congrArg _ (erase_of_find?_eq_none h)

/-- An assignment keeps the bindings of the other keys. -/
theorem mem_entries_set_of_ne {entry : Key × Value} (h : entry ∈ t.entries)
    (hne : entry.1 ≠ key) : entry ∈ (t.set key value).entries := by
  have herased : entry ∈ (t.erase key).entries :=
    List.mem_filter.2 ⟨h, decide_eq_true hne⟩
  simp only [set]
  split
  · exact herased
  · exact List.mem_cons_of_mem _ herased

/-- An assignment adds one binding at most. -/
theorem mem_of_mem_entries_set {entry : Key × Value}
    (h : entry ∈ (t.set key value).entries) :
    entry ∈ t.entries ∨ entry = (key, value) ∧ value ≠ .nil := by
  simp only [set] at h
  split at h
  · exact Or.inl (List.mem_filter.1 h).1
  · next hvalue =>
    rcases List.mem_cons.1 h with rfl | h
    · exact Or.inr ⟨rfl, hvalue⟩
    · exact Or.inl (List.mem_filter.1 h).1

theorem key_ne_of_find?_eq_none {entry : Key × Value} (h : t.find? key = none)
    (hentry : entry ∈ t.entries) : entry.1 ≠ key := by
  rintro rfl
  exact find?_eq_none_iff.1 h (List.mem_map_of_mem hentry)

/-- What is not bound in a table is not bound in one with fewer bindings. -/
theorem find?_eq_none_of_subset {less : Table}
    (hless : ∀ entry ∈ less.entries, entry ∈ t.entries)
    (h : t.find? key = none) : less.find? key = none := by
  rw [Option.eq_none_iff_forall_ne_some]
  intro value hvalue
  rw [find?_eq_some_iff.2 (hless _ (find?_eq_some_iff.1 hvalue))] at h
  cases h

/-- What an assignment leaves of bindings in front of those that it does not
touch. -/
def reassigned (front : List (Key × Value)) (key : Key) (value : Value) :
    List (Key × Value) :=
  (if value = .nil then [] else [(key, value)]) ++
    front.filter fun entry => entry.1 ≠ key

theorem mem_of_mem_reassigned {front : List (Key × Value)} {entry : Key × Value}
    (h : entry ∈ reassigned front key value) :
    entry ∈ front ∧ entry.1 ≠ key ∨ entry = (key, value) ∧ value ≠ .nil := by
  rcases List.mem_append.1 h with h | h
  · split at h
    · cases h
    · next hvalue => exact Or.inr ⟨List.mem_singleton.1 h, hvalue⟩
  · obtain ⟨hmem, hne⟩ := List.mem_filter.1 h
    exact Or.inl ⟨hmem, of_decide_eq_true hne⟩

/-- An assignment of a key that is not bound among the last bindings. -/
theorem entries_set_append {less : Table} {front : List (Key × Value)}
    (hentries : t.entries = front ++ less.entries) (h : less.find? key = none) :
    (t.set key value).entries = reassigned front key value ++ less.entries := by
  have herased : (t.erase key).entries =
      (front.filter fun entry => entry.1 ≠ key) ++ less.entries := by
    calc
      (t.erase key).entries = t.entries.filter fun entry => entry.1 ≠ key := rfl
      _ = (front.filter fun entry => entry.1 ≠ key) ++
          (less.erase key).entries := by
        rw [hentries, List.filter_append]
        rfl
      _ = (front.filter fun entry => entry.1 ≠ key) ++ less.entries := by
        rw [erase_of_find?_eq_none h]
  simp only [set, reassigned]
  split
  · exact herased
  · rw [List.append_assoc, ← herased]
    rfl

theorem eq_of_entries {other : Table}
    (h : t.entries = other.entries) : t = other := by
  obtain ⟨entries, distinct, bound⟩ := t
  obtain ⟨entries', distinct', bound'⟩ := other
  cases h
  rfl

end Isolate.Table
