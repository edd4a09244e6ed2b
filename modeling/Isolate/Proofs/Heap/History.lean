import Isolate.Proofs.Heap.Collection

/-!
# Collection is exact

A heap is only ever changed in five ways.  Through all of them each slot is
either occupied or listed exactly once as free, so on every heap that such
changes lead to a collection frees what the roots do not refer to, directly or
through other objects, and nothing else.
-/

namespace Isolate.Heap

/-- The ways in which a heap is changed. -/
inductive Change
  | allocate (object : Object)
  | update (handle : Handle) (f : Object → Object)
  | setEnabled (enabled : Bool)
  | setThreshold (threshold : UInt64)
  | collect (roots : List Value) (handles : List Handle)

def apply (heap : Heap) : Change → Heap
  | .allocate object => (heap.allocate object).2
  | .update handle f => heap.update handle f
  | .setEnabled enabled => { heap with enabled }
  | .setThreshold threshold => heap.setThreshold threshold
  | .collect roots handles => (heap.collect roots handles).2

/-- The heap after a list of changes, the first one first. -/
def run (heap : Heap) (changes : List Change) : Heap := changes.foldl apply heap

/-! ## References -/

/-- One object refers to another: a table by a key or a value, a closure by a
captured cell, a cell by its content. -/
inductive Refers (heap : Heap) (parent child : Handle) : Prop
  | key {table : Table} {key : Key} {value : Value}
      (h : heap.get? parent = some (.table table))
      (hentry : (key, value) ∈ table.entries) (hkey : key.handle? = some child)
  | value {table : Table} {key : Key} {value : Value}
      (h : heap.get? parent = some (.table table))
      (hentry : (key, value) ∈ table.entries)
      (hvalue : value.handle? = some child)
  | captured {closure : Closure}
      (h : heap.get? parent = some (.closure closure))
      (hcell : child ∈ closure.cells)
  | content {value : Value} (h : heap.get? parent = some (.cell value))
      (hvalue : value.handle? = some child)

/-- What root values and root handles lead to. -/
inductive Rooted (heap : Heap) (roots : List Value) (handles : List Handle) :
    Handle → Prop
  | value {value : Value} {handle : Handle} (h : value ∈ roots)
      (hhandle : value.handle? = some handle) : Rooted heap roots handles handle
  | handle {handle : Handle} (h : handle ∈ handles) :
      Rooted heap roots handles handle
  | refers {parent child : Handle} (h : Rooted heap roots handles parent)
      (hchild : heap.Refers parent child) : Rooted heap roots handles child

variable {heap : Heap} {roots : List Value} {handles : List Handle}

theorem refers_iff {parent child : Handle} :
    heap.Refers parent child ↔
      ∃ object, heap.get? parent = some object ∧ child ∈ object.children := by
  constructor
  · intro h
    cases h with
    | key h hentry hkey =>
      exact ⟨_, h,
        List.mem_flatMap.2 ⟨_, hentry, List.mem_append_left _ (by simp [hkey])⟩⟩
    | value h hentry hvalue =>
      exact ⟨_, h,
        List.mem_flatMap.2 ⟨_, hentry,
          List.mem_append_right _ (by simp [hvalue])⟩⟩
    | captured h hcell => exact ⟨_, h, Array.mem_toList_iff.2 hcell⟩
    | content h hvalue => exact ⟨_, h, Option.mem_toList.2 hvalue⟩
  · rintro ⟨object, h, hchild⟩
    cases object with
    | table t =>
      obtain ⟨⟨key, value⟩, hentry, hchild⟩ := List.mem_flatMap.1 hchild
      rcases List.mem_append.1 hchild with hkey | hvalue
      · exact .key h hentry (Option.mem_toList.1 hkey)
      · exact .value h hentry (Option.mem_toList.1 hvalue)
    | closure closure => exact .captured h (Array.mem_toList_iff.1 hchild)
    | cell value => exact .content h (Option.mem_toList.1 hchild)
    | userdata block => nomatch hchild

theorem reachedFrom_iff {handle : Handle} :
    heap.ReachedFrom roots handles handle ↔
      heap.Rooted roots handles handle := by
  constructor
  · intro h
    induction h with
    | root hroot =>
      rcases List.mem_append.1 hroot with hhandle | hvalue
      · exact .handle hhandle
      · obtain ⟨value, hvalue, hhandle⟩ := List.mem_filterMap.1 hvalue
        exact .value hvalue hhandle
    | child _ hobject hchild ih =>
      exact ih.refers (refers_iff.2 ⟨_, hobject, hchild⟩)
  · intro h
    induction h with
    | value hvalue hhandle =>
      exact .root (List.mem_append_right _
        (List.mem_filterMap.2 ⟨_, hvalue, hhandle⟩))
    | handle hhandle => exact .root (List.mem_append_left _ hhandle)
    | refers _ hchild ih =>
      obtain ⟨object, hobject, hchild⟩ := refers_iff.1 hchild
      exact ih.child hobject hchild

/-! ## Every slot is accounted for -/

/-- Well-formed, and no empty slot is forgotten. -/
structure Accounted (heap : Heap) : Prop extends heap.WellFormed where
  listed : ∀ slot, heap.slots[slot]? = some none → slot ∈ heap.free

theorem Accounted.mem_free_iff (h : heap.Accounted) (slot : Nat) :
    slot ∈ heap.free ↔ slot < heap.slots.size ∧ heap.get? ⟨slot⟩ = none := by
  rw [get?_eq_objectIn, ← getElem?_eq_some_none_iff]
  exact ⟨h.empty slot, h.listed slot⟩

theorem accounted_fresh (threshold : UInt64) :
    Accounted { threshold := threshold } where
  empty := fun _ h => nomatch h
  nodup := List.nodup_nil
  unmarked := fun _ _ h => nomatch h
  listed := fun _ h => nomatch h

theorem Accounted.allocate (h : heap.Accounted) (object : Object) :
    (heap.allocate object).2.Accounted := by
  refine ⟨h.toWellFormed.allocate, fun slot hslot => ?_⟩
  have hne : slot ≠ heap.nextSlot := by
    rintro rfl
    rw [h.allocate_slots_self] at hslot
    cases hslot
  rw [allocate_slots_of_ne hne] at hslot
  have hfree := h.listed slot hslot
  simp only [nextSlot] at hne
  cases hcase : heap.free with
  | nil =>
    rw [hcase] at hfree
    cases hfree
  | cons first rest =>
    rw [hcase] at hfree hne
    rw [(allocate_of_cons hcase).2]
    exact (List.mem_cons.1 hfree).resolve_left hne

theorem Accounted.update (h : heap.Accounted) (handle : Handle)
    (f : Object → Object) : (heap.update handle f).Accounted := by
  refine ⟨h.toWellFormed.update, fun slot hslot => h.listed slot ?_⟩
  simp only [Heap.update, Array.getElem?_modify] at hslot
  split at hslot
  · obtain ⟨before, hbefore, hnone⟩ := Option.map_eq_some_iff.1 hslot
    rw [hbefore, Option.map_eq_none_iff.1 hnone]
  · exact hslot

/-- A swept slot is empty when it was free before or held garbage. -/
theorem sweepSlot_eq_none_iff {slot : Option Entry} :
    sweepSlot slot = none ↔
      slot = none ∨ ∃ entry, slot = some entry ∧ entry.marked = false := by
  cases slot with
  | none => simp [sweepSlot]
  | some entry => cases hmarked : entry.marked <;> simp [sweepSlot, hmarked]

theorem Accounted.collect (h : heap.Accounted) (roots : List Value)
    (handles : List Handle) :
    (heap.collect roots handles).2.Accounted := by
  refine ⟨h.toWellFormed.collect, fun slot hslot => ?_⟩
  change (Array.map sweepSlot _)[slot]? = some none at hslot
  rw [Array.getElem?_map, Option.map_eq_some_iff] at hslot
  obtain ⟨before, hbefore, hswept⟩ := hslot
  apply List.mem_append.2
  rcases sweepSlot_eq_none_iff.1 hswept with rfl | ⟨entry, rfl, hunmarked⟩
  · exact Or.inr (h.listed slot
      ((getElem?_mark_eq_none_iff _ _ slot).1 hbefore))
  · exact Or.inl
      (List.mem_reverse.2 (mem_garbage.2 ⟨entry, hbefore, hunmarked⟩))

theorem Accounted.apply (h : heap.Accounted) (change : Change) :
    (heap.apply change).Accounted := by
  cases change with
  | allocate object => exact h.allocate object
  | update handle f => exact h.update handle f
  | setEnabled enabled => exact ⟨⟨h.empty, h.nodup, h.unmarked⟩, h.listed⟩
  | setThreshold threshold => exact ⟨⟨h.empty, h.nodup, h.unmarked⟩, h.listed⟩
  | collect roots handles => exact h.collect roots handles

theorem Accounted.run (h : heap.Accounted) (changes : List Change) :
    (heap.run changes).Accounted := by
  induction changes generalizing heap with
  | nil => exact h
  | cons change rest ih => exact ih (h.apply change)

/-! ## The number of objects freed -/

theorem length_garbage (slots : Array (Option Entry)) :
    (garbage slots).length = unmarkedCount slots := by
  have hslots :
      (List.range slots.size).map (slots.getD · none) = slots.toList := by
    apply List.ext_getElem?
    intro i
    rw [List.getElem?_map, Array.getElem?_toList]
    by_cases hi : i < slots.size <;> simp [hi]
  calc (garbage slots).length
      = ((List.range slots.size).map (slots.getD · none)).countP
        isUnmarked := by
        rw [List.countP_map, List.countP_eq_length_filter]
        rfl
    _ = unmarkedCount slots := by
      rw [hslots, Array.countP_toList, unmarkedCount]

/-- Marking empties no slot and fills none. -/
theorem countP_isSome_mark (slots : Array (Option Entry))
    (worklist : List Handle) :
    (mark slots worklist).countP (·.isSome) = slots.countP (·.isSome) := by
  fun_induction mark slots worklist with
  | case1 slots => rfl
  | case2 slots handle rest h hentry ih => exact ih
  | case3 slots handle rest h entry hentry hmark ih => exact ih
  | case4 slots handle rest h entry hentry hmark ih =>
    have hpos : 0 < slots.countP (·.isSome) :=
      Array.countP_pos_iff.2 ⟨slots[handle.index],
        Array.getElem_mem h, by rw [hentry]; rfl⟩
    rw [ih, Array.countP_set, hentry]
    simp only [Option.isSome_some, if_true]
    omega
  | case5 slots handle rest h ih => exact ih

theorem countP_sweep (slots : Array (Option Entry)) :
    unmarkedCount slots + (slots.map sweepSlot).countP (·.isSome) =
      slots.countP (·.isSome) := by
  rw [unmarkedCount, Array.countP_map]
  rcases slots with ⟨slots⟩
  simp only [List.countP_toArray]
  induction slots with
  | nil => rfl
  | cons slot rest ih =>
    have hslot :
        (if isUnmarked slot then 1 else 0) +
          (if (sweepSlot slot).isSome then 1 else 0)
          = if slot.isSome then 1 else 0 := by
      cases slot with
      | none => rfl
      | some entry =>
        cases hmarked : entry.marked <;> simp [isUnmarked, sweepSlot, hmarked]
    simp only [List.countP_cons, Function.comp_apply]
    omega

/-- What a collection counts are the objects that it takes away. -/
theorem collect_fst_add_liveCount :
    (heap.collect roots handles).1 + (heap.collect roots handles).2.liveCount =
      heap.liveCount := by
  calc (heap.collect roots handles).1 + (heap.collect roots handles).2.liveCount
      = unmarkedCount (mark heap.slots
        (handles ++ roots.filterMap Value.handle?)) +
          ((mark heap.slots (handles ++ roots.filterMap Value.handle?)).map
            sweepSlot).countP (·.isSome) := by rw [← length_garbage]; rfl
    _ = heap.liveCount := by rw [countP_sweep, countP_isSome_mark, liveCount]

/-! ## Exactness -/

/-- A collection that frees exactly the objects that the roots do not lead
to. -/
structure Exact (heap : Heap) (roots : List Value) (handles : List Handle)
    (freed : Nat) (after : Heap) : Prop where
  /-- The live objects are those that were live and that the roots lead to, each
  under its handle and unchanged. -/
  survivors : ∀ handle object, after.get? handle = some object ↔
    heap.get? handle = some object ∧ heap.Rooted roots handles handle
  unmarked : ∀ (slot : Nat) (entry : Entry),
    after.slots[slot]? = some (some entry) → entry.marked = false
  counted : freed + after.liveCount = heap.liveCount
  size : after.slots.size = heap.slots.size
  nodup : after.free.Nodup
  free : ∀ slot,
    slot ∈ after.free ↔ slot < after.slots.size ∧ after.get? ⟨slot⟩ = none
  /-- Whatever happens later, a new object takes the handle of no live one. -/
  fresh : ∀ (changes : List Change) (object : Object),
    (after.run changes).get? ((after.run changes).allocate object).1 = none

/-- On every heap that any changes lead to, and for any roots, a collection is
exact. -/
theorem exact_collect (threshold : UInt64) (changes : List Change)
    (roots : List Value) (handles : List Handle) :
    let heap := run { threshold := threshold } changes
    heap.Exact roots handles (heap.collect roots handles).1
      (heap.collect roots handles).2 := by
  intro heap
  have hheap : heap.Accounted := (accounted_fresh threshold).run changes
  have hafter := hheap.collect roots handles
  exact {
    survivors := fun handle object => by
      rw [hheap.get?_collect, reachedFrom_iff]
      exact and_comm
    unmarked := hafter.unmarked
    counted := collect_fst_add_liveCount
    size := (Array.size_map ..).trans (size_mark ..)
    nodup := hafter.nodup
    free := hafter.mem_free_iff
    fresh := fun changes object =>
      (hafter.run changes).get?_allocate_self_before }

end Isolate.Heap
