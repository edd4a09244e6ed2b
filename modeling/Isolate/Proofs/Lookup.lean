/-!
# Look-ups in lists of pairs

Caches and copies are lists of pairs with the latest in front.
-/

namespace Isolate

variable {α β : Type} [BEq α] [LawfulBEq α] {entries : List (α × β)}
  {key other : α} {value : β}

theorem mem_of_lookup (h : entries.lookup key = some value) :
    (key, value) ∈ entries := by
  obtain ⟨before, after, hentries, -⟩ := List.lookup_eq_some_iff.1 h
  rw [hentries]
  exact List.mem_append_right before List.mem_cons_self

variable [DecidableEq α]

/-- Dropping the entries of one key leaves the others. -/
theorem lookup_filter_ne (h : other ≠ key) :
    (entries.filter fun entry => entry.1 ≠ key).lookup other =
      entries.lookup other := by
  induction entries with
  | nil => rfl
  | cons entry rest ih =>
    rw [List.filter_cons, List.lookup_cons]
    by_cases hkey : entry.1 = key
    · rw [if_neg (by simp [hkey]), ih, hkey, beq_false_of_ne h]
    · rw [if_pos (by simp [hkey]), List.lookup_cons, ih]

/-- Putting a key in front and dropping its other entries. -/
theorem lookup_cons_filter_ne :
    ((key, value) :: entries.filter fun entry => entry.1 ≠ key).lookup
      other = if other = key then some value else entries.lookup other := by
  rw [List.lookup_cons]
  by_cases h : other = key
  · rw [if_pos h, h, beq_self_eq_true]
  · rw [if_neg h, beq_false_of_ne h]
    exact lookup_filter_ne h

end Isolate
