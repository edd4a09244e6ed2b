import Isolate.Heap.Collection

/-!
# Reading the heap after a change

What a handle names after an allocation or an update.  In a well-formed heap the
free slots are empty and different from each other, so a new object takes no
slot of another one.
-/

namespace Isolate.Heap

/-- The object in a slot, given by its handle. -/
def objectIn (slots : Array (Option Entry)) (handle : Handle) : Option Object :=
  slots[handle.index]?.join.map (·.object)

theorem get?_eq_objectIn (heap : Heap) (handle : Handle) :
    heap.get? handle = objectIn heap.slots handle :=
  rfl

theorem objectIn_eq_some_iff {slots : Array (Option Entry)} {handle : Handle}
    {object : Object} :
    objectIn slots handle = some object ↔
      ∃ entry, slots[handle.index]? = some (some entry) ∧
        entry.object = object := by
  simp [objectIn, Option.join_eq_some_iff]

/-- The free slots are empty and different, and nothing is marked. -/
structure WellFormed (heap : Heap) : Prop where
  empty : ∀ slot ∈ heap.free, heap.slots[slot]? = some none
  nodup : heap.free.Nodup
  unmarked : ∀ (slot : Nat) (entry : Entry),
    heap.slots[slot]? = some (some entry) → entry.marked = false

/-! ## Allocation -/

variable {heap : Heap} {object : Object} {handle : Handle}

/-- The slot of the next object. -/
def nextSlot (heap : Heap) : Nat := heap.free.headD heap.slots.size

theorem allocate_of_nil (h : heap.free = []) :
    (heap.allocate object).2.slots = heap.slots.push (some { object }) ∧
      (heap.allocate object).2.free = [] := by
  simp only [allocate]
  rw [h]
  exact ⟨rfl, rfl⟩

theorem allocate_of_cons {slot : Nat} {rest : List Nat}
    (h : heap.free = slot :: rest) :
    (heap.allocate object).2.slots =
      heap.slots.setIfInBounds slot (some { object }) ∧
      (heap.allocate object).2.free = rest := by
  simp only [allocate]
  rw [h]
  exact ⟨rfl, rfl⟩

theorem allocate_fst : (heap.allocate object).1 = ⟨heap.nextSlot⟩ := by
  simp only [allocate, nextSlot]
  cases heap.free <;> rfl

theorem allocate_slots_of_ne {slot : Nat} (hslot : slot ≠ heap.nextSlot) :
    (heap.allocate object).2.slots[slot]? = heap.slots[slot]? := by
  simp only [nextSlot] at hslot
  cases hfree : heap.free with
  | nil =>
    rw [hfree] at hslot
    rw [(allocate_of_nil hfree).1, Array.getElem?_push]
    exact if_neg hslot
  | cons first rest =>
    rw [hfree] at hslot
    rw [(allocate_of_cons hfree).1]
    exact Array.getElem?_setIfInBounds_ne (Ne.symm hslot)

theorem get?_allocate_of_ne (h : handle ≠ (heap.allocate object).1) :
    (heap.allocate object).2.get? handle = heap.get? handle := by
  have hslot : handle.index ≠ heap.nextSlot := by
    rintro hindex
    exact h (allocate_fst.symm ▸ congrArg Handle.mk hindex)
  simp only [get?]
  rw [allocate_slots_of_ne hslot]

theorem WellFormed.nextSlot_spec (hheap : heap.WellFormed) :
    heap.slots[heap.nextSlot]? = some none ∨
      heap.nextSlot = heap.slots.size := by
  simp only [nextSlot]
  cases hfree : heap.free with
  | nil => exact Or.inr rfl
  | cons slot rest =>
    exact Or.inl (hheap.empty slot (hfree ▸ List.mem_cons_self))

theorem WellFormed.get?_allocate_self_before (hheap : heap.WellFormed) :
    heap.get? (heap.allocate object).1 = none := by
  rw [allocate_fst]
  simp only [get?]
  rcases hheap.nextSlot_spec with h | h
  · simp [h]
  · simp [h]

theorem WellFormed.allocate_slots_self (hheap : heap.WellFormed) :
    (heap.allocate object).2.slots[heap.nextSlot]? =
      some (some { object }) := by
  simp only [nextSlot]
  cases hfree : heap.free with
  | nil =>
    rw [(allocate_of_nil hfree).1]
    exact Array.getElem?_push_size
  | cons slot rest =>
    have hslot := hheap.empty slot (hfree ▸ List.mem_cons_self)
    obtain ⟨hlt, -⟩ := Array.getElem?_eq_some_iff.1 hslot
    rw [(allocate_of_cons hfree).1]
    exact Array.getElem?_setIfInBounds_self_of_lt hlt

theorem WellFormed.get?_allocate_self (hheap : heap.WellFormed) :
    (heap.allocate object).2.get? (heap.allocate object).1 = some object := by
  rw [allocate_fst]
  simp only [get?]
  rw [hheap.allocate_slots_self]
  rfl

/-- What a handle names after an allocation, in any heap. -/
theorem get?_allocate_eq_some {found : Object}
    (h : (heap.allocate object).2.get? handle = some found) :
    found = object ∨ heap.get? handle = some found := by
  by_cases hhandle : handle = (heap.allocate object).1
  · left
    subst hhandle
    rw [allocate_fst, get?_eq_objectIn, objectIn_eq_some_iff] at h
    obtain ⟨entry, hentry, rfl⟩ := h
    simp only [nextSlot] at hentry
    cases hfree : heap.free with
    | nil =>
      rw [(allocate_of_nil hfree).1, hfree] at hentry
      cases Array.getElem?_push_size.symm.trans hentry
      rfl
    | cons slot rest =>
      rw [(allocate_of_cons hfree).1, hfree, List.headD_cons,
        Array.getElem?_setIfInBounds_self]
        at hentry
      split at hentry
      · cases hentry
        rfl
      · cases hentry
  · exact Or.inr ((get?_allocate_of_ne hhandle).symm.trans h)

theorem WellFormed.allocate (hheap : heap.WellFormed) :
    (heap.allocate object).2.WellFormed := by
  refine ⟨fun slot hslot => ?_, ?_, fun slot entry hentry => ?_⟩
  · have hne : slot ∈ heap.free ∧ slot ≠ heap.nextSlot := by
      simp only [nextSlot]
      cases hfree : heap.free with
      | nil =>
        rw [(allocate_of_nil hfree).2] at hslot
        cases hslot
      | cons first rest =>
        rw [(allocate_of_cons hfree).2] at hslot
        refine ⟨List.mem_cons_of_mem first hslot, ?_⟩
        rintro rfl
        exact (List.nodup_cons.1 (hfree ▸ hheap.nodup)).1 hslot
    rw [allocate_slots_of_ne hne.2]
    exact hheap.empty slot hne.1
  · cases hfree : heap.free with
    | nil =>
      rw [(allocate_of_nil hfree).2]
      exact List.nodup_nil
    | cons first rest =>
      rw [(allocate_of_cons hfree).2]
      exact (List.nodup_cons.1 (hfree ▸ hheap.nodup)).2
  · by_cases hslot : slot = heap.nextSlot
    · rw [hslot, hheap.allocate_slots_self] at hentry
      cases hentry
      rfl
    · rw [allocate_slots_of_ne hslot] at hentry
      exact hheap.unmarked slot entry hentry

/-! ## Updates -/

variable {f : Object → Object}

theorem get?_update_self :
    (heap.update handle f).get? handle = (heap.get? handle).map f := by
  simp only [update, get?]
  simp only [Array.getElem?_modify, if_true]
  rcases heap.slots[handle.index]? with - | - | entry <;> rfl

theorem get?_update_of_ne {other : Handle} (h : other ≠ handle) :
    (heap.update handle f).get? other = heap.get? other := by
  have hindex : handle.index ≠ other.index := fun hindex =>
    h (congrArg Handle.mk hindex).symm
  simp only [update, get?]
  simp only [Array.getElem?_modify, if_neg hindex]

theorem get?_update (other : Handle) : (heap.update handle f).get? other =
    if other = handle then (heap.get? other).map f else heap.get? other := by
  split
  · next h =>
    subst h
    exact get?_update_self
  · next h => exact get?_update_of_ne h

theorem WellFormed.update (hheap : heap.WellFormed) :
    (heap.update handle f).WellFormed := by
  refine ⟨fun slot hslot => ?_, hheap.nodup, fun slot entry hentry => ?_⟩
  · have hempty := hheap.empty slot hslot
    simp only [Heap.update]
    simp only [Array.getElem?_modify, hempty]
    split <;> rfl
  · simp only [Heap.update] at hentry
    simp only [Array.getElem?_modify] at hentry
    split at hentry
    · rw [Option.map_eq_some_iff] at hentry
      obtain ⟨old, hold, hentry⟩ := hentry
      rw [Option.map_eq_some_iff] at hentry
      obtain ⟨before, rfl, rfl⟩ := hentry
      exact hheap.unmarked slot before hold
    · exact hheap.unmarked slot entry hentry

end Isolate.Heap
