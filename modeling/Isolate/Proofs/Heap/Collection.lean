import Isolate.Proofs.Heap.Access

/-!
# What a collection keeps

A collection keeps exactly the objects that the roots lead to, and keeps them as
they are.  Marking is read through two invariants of its worklist: whatever is
marked is led to by the roots, and the children of a marked object are marked or
still on the worklist.
-/

namespace Isolate.Heap

/-- The handles that a list of handles leads to, itself included. -/
inductive Reached (lookup : Handle → Option Object) (roots : List Handle) :
    Handle → Prop
  | root {handle : Handle} (h : handle ∈ roots) : Reached lookup roots handle
  | child {parent handle : Handle} {object : Object}
      (h : Reached lookup roots parent) (hobject : lookup parent = some object)
      (hchild : handle ∈ object.children) :
      Reached lookup roots handle

section Reached

variable {lookup lookup' : Handle → Option Object} {roots roots' : List Handle}

theorem Reached.trans {handle : Handle} (h : Reached lookup roots handle)
    (hroots : ∀ root ∈ roots, Reached lookup roots' root) :
    Reached lookup roots' handle := by
  induction h with
  | root hroot => exact hroots _ hroot
  | child _ hobject hchild ih => exact ih.child hobject hchild

theorem Reached.mono {handle : Handle} (h : Reached lookup roots handle)
    (hroots : ∀ root ∈ roots, root ∈ roots') : Reached lookup roots' handle :=
  h.trans fun root hroot => .root (hroots root hroot)

/-- What is reached depends only on the objects that are reached. -/
theorem Reached.congr {handle : Handle} (h : Reached lookup roots handle)
    (hsame : ∀ handle, Reached lookup roots handle →
      lookup' handle = lookup handle) :
    Reached lookup' roots handle := by
  induction h with
  | root hroot => exact .root hroot
  | child hparent hobject hchild ih =>
    exact ih.child ((hsame _ hparent).trans hobject) hchild

end Reached

/-! ## Marking -/

/-- A slot whose object is marked. -/
def IsMarked (slots : Array (Option Entry)) (handle : Handle) : Prop :=
  ∃ entry, slots[handle.index]? = some (some entry) ∧ entry.marked = true

/-- Every child of a marked object that is there is marked or on the
worklist. -/
def Covered (slots : Array (Option Entry)) (worklist : List Handle) : Prop :=
  ∀ parent object child, IsMarked slots parent →
    objectIn slots parent = some object →
    child ∈ object.children → (objectIn slots child).isSome →
      IsMarked slots child ∨ child ∈ worklist

section Mark

variable {slots : Array (Option Entry)} {handle : Handle} {entry : Entry}

theorem IsMarked.objectIn_isSome (h : IsMarked slots handle) :
    (objectIn slots handle).isSome := by
  obtain ⟨entry, hentry, -⟩ := h
  exact Option.isSome_of_mem (objectIn_eq_some_iff.2 ⟨entry, hentry, rfl⟩)

theorem getElem?_setMark (h : handle.index < slots.size) (other : Handle) :
    (slots.set handle.index
      (some { entry with marked := true }))[other.index]? =
      if other = handle then some (some { entry with marked := true })
      else slots[other.index]? := by
  rw [Array.getElem?_set]
  by_cases hother : other = handle
  · rw [if_pos hother, if_pos (congrArg Handle.index hother.symm)]
  · rw [if_neg hother, if_neg]
    intro hindex
    exact hother (congrArg Handle.mk hindex.symm)

/-- Marking an object changes no object. -/
theorem objectIn_setMark (h : handle.index < slots.size)
    (hentry : slots[handle.index] = some entry) (other : Handle) :
    objectIn (slots.set handle.index
      (some { entry with marked := true })) other =
      objectIn slots other := by
  simp only [objectIn]
  rw [getElem?_setMark]
  split
  · next hother =>
    rw [hother, Array.getElem?_eq_getElem h, hentry]
    rfl
  · rfl

theorem isMarked_setMark (h : handle.index < slots.size) (other : Handle) :
    IsMarked (slots.set handle.index
      (some { entry with marked := true })) other ↔
      other = handle ∨ IsMarked slots other := by
  simp only [IsMarked]
  rw [getElem?_setMark]
  by_cases hother : other = handle
  · rw [if_pos hother]
    exact ⟨fun _ => Or.inl hother, fun _ => ⟨_, rfl, rfl⟩⟩
  · rw [if_neg hother]
    exact ⟨Or.inr, fun hor => hor.resolve_left hother⟩

theorem covered_setMark (h : handle.index < slots.size)
    (hentry : slots[handle.index] = some entry) {rest : List Handle}
    (hcovered : Covered slots (handle :: rest)) :
    Covered (slots.set handle.index (some { entry with marked := true }))
      (entry.object.children ++ rest) := by
  intro parent object child hparent hobject hchild hlive
  rw [objectIn_setMark h hentry] at hobject hlive
  rw [isMarked_setMark] at hparent ⊢
  by_cases hself : parent = handle
  · right
    have hobject' : objectIn slots handle = some entry.object :=
      objectIn_eq_some_iff.2
        ⟨entry, by rw [Array.getElem?_eq_getElem h, hentry], rfl⟩
    rw [hself, hobject', Option.some.injEq] at hobject
    exact List.mem_append_left rest (hobject ▸ hchild)
  · rcases hcovered parent object child (hparent.resolve_left hself) hobject
      hchild hlive
      with hmarked | hmem
    · exact Or.inl (Or.inr hmarked)
    · rcases List.mem_cons.1 hmem with heq | hmem
      · exact Or.inl (Or.inl heq)
      · exact Or.inr (List.mem_append_right _ hmem)

/-- Marking keeps every object. -/
theorem objectIn_mark (slots : Array (Option Entry)) (worklist : List Handle)
    (other : Handle) :
    objectIn (mark slots worklist) other = objectIn slots other := by
  fun_induction mark slots worklist with
  | case1 slots => rfl
  | case2 slots handle rest h hentry ih => exact ih
  | case3 slots handle rest h entry hentry hmark ih => exact ih
  | case4 slots handle rest h entry hentry hmark ih =>
    rw [ih, objectIn_setMark h hentry]
  | case5 slots handle rest h ih => exact ih

theorem IsMarked.mark {worklist : List Handle} {other : Handle}
    (h : IsMarked slots other) : IsMarked (mark slots worklist) other := by
  fun_induction Heap.mark slots worklist with
  | case1 slots => exact h
  | case2 slots handle rest hlt hentry ih => exact ih h
  | case3 slots handle rest hlt entry hentry hmark ih => exact ih h
  | case4 slots handle rest hlt entry hentry hmark ih =>
    exact ih ((isMarked_setMark hlt other).2 (Or.inr h))
  | case5 slots handle rest hlt ih => exact ih h

/-- Whatever marking marks is led to by the worklist. -/
theorem reached_of_isMarked_mark {worklist : List Handle} {other : Handle}
    (h : IsMarked (mark slots worklist) other) :
    IsMarked slots other ∨ Reached (objectIn slots) worklist other := by
  fun_induction mark slots worklist with
  | case1 slots => exact Or.inl h
  | case2 slots handle rest hlt hentry ih =>
    exact (ih h).imp_right fun hr =>
      hr.mono fun _ => List.mem_cons_of_mem handle
  | case3 slots handle rest hlt entry hentry hmark ih =>
    exact (ih h).imp_right fun hr =>
      hr.mono fun _ => List.mem_cons_of_mem handle
  | case4 slots handle rest hlt entry hentry hmark ih =>
    have hself : Reached (objectIn slots) (handle :: rest) handle :=
      .root List.mem_cons_self
    have hobject : objectIn slots handle = some entry.object :=
      objectIn_eq_some_iff.2
        ⟨entry, by rw [Array.getElem?_eq_getElem hlt, hentry], rfl⟩
    rcases ih h with hmarked | hreached
    · rcases (isMarked_setMark hlt other).1 hmarked with rfl | hmarked
      · exact Or.inr hself
      · exact Or.inl hmarked
    · right
      have hreached :=
        hreached.congr fun handle _ => (objectIn_setMark hlt hentry handle).symm
      refine hreached.trans fun root hroot => ?_
      rcases List.mem_append.1 hroot with hroot | hroot
      · exact hself.child hobject hroot
      · exact .root (List.mem_cons_of_mem handle hroot)
  | case5 slots handle rest hlt ih =>
    exact (ih h).imp_right fun hr =>
      hr.mono fun _ => List.mem_cons_of_mem handle

/-- A handle may be dropped that is marked or names no object. -/
theorem Covered.tail {rest : List Handle}
    (hcovered : Covered slots (handle :: rest))
    (hdone : IsMarked slots handle ∨ objectIn slots handle = none) :
    Covered slots rest := by
  intro parent object child hparent hobject hchild hlive
  refine (hcovered parent object child hparent hobject hchild hlive).elim Or.inl
    fun hmem => ?_
  rcases List.mem_cons.1 hmem with rfl | hmem
  · refine Or.inl (hdone.resolve_right fun hnone => ?_)
    rw [hnone] at hlive
    cases hlive
  · exact Or.inr hmem

/-- A handle that names no object need not be marked. -/
theorem marked_cons_of_none {marked : Handle → Prop} {rest : List Handle}
    (hnone : objectIn slots handle = none)
    (h : ∀ other ∈ rest, (objectIn slots other).isSome → marked other) :
    ∀ other ∈ handle :: rest, (objectIn slots other).isSome → marked other := by
  intro other hother hlive
  rcases List.mem_cons.1 hother with rfl | hother
  · rw [hnone] at hlive
    cases hlive
  · exact h other hother hlive

/-- Marking marks what is on the worklist, and all children of what it marks. -/
theorem covered_mark {worklist : List Handle}
    (hcovered : Covered slots worklist) :
    Covered (mark slots worklist) [] ∧
      ∀ handle ∈ worklist, (objectIn slots handle).isSome →
        IsMarked (mark slots worklist) handle := by
  fun_induction mark slots worklist with
  | case1 slots => exact ⟨hcovered, fun handle h => nomatch h⟩
  | case2 slots handle rest hlt hentry ih =>
    have hnone : objectIn slots handle = none := by
      simp only [objectIn]
      rw [Array.getElem?_eq_getElem hlt, hentry]
      rfl
    obtain ⟨hclosed, hmarked⟩ := ih (hcovered.tail (Or.inr hnone))
    exact ⟨hclosed, marked_cons_of_none hnone hmarked⟩
  | case3 slots handle rest hlt entry hentry hmark ih =>
    have hself : IsMarked slots handle :=
      ⟨entry, by rw [Array.getElem?_eq_getElem hlt, hentry], hmark⟩
    obtain ⟨hclosed, hmarked⟩ := ih (hcovered.tail (Or.inl hself))
    refine ⟨hclosed, fun other hother hlive => ?_⟩
    rcases List.mem_cons.1 hother with rfl | hother
    · exact hself.mark
    · exact hmarked other hother hlive
  | case4 slots handle rest hlt entry hentry hmark ih =>
    obtain ⟨hclosed, hmarked⟩ := ih (covered_setMark hlt hentry hcovered)
    refine ⟨hclosed, fun other hother hlive => ?_⟩
    rcases List.mem_cons.1 hother with rfl | hother
    · exact ((isMarked_setMark hlt other).2 (Or.inl rfl)).mark
    · apply hmarked other (List.mem_append_right _ hother)
      rw [objectIn_setMark hlt hentry]
      exact hlive
  | case5 slots handle rest hlt ih =>
    have hnone : objectIn slots handle = none := by
      simp only [objectIn]
      rw [Array.getElem?_eq_none (Nat.le_of_not_lt hlt)]
      rfl
    obtain ⟨hclosed, hmarked⟩ := ih (hcovered.tail (Or.inr hnone))
    exact ⟨hclosed, marked_cons_of_none hnone hmarked⟩

/-- From unmarked slots on, exactly the objects that the worklist leads to are
marked. -/
theorem isMarked_mark_iff {worklist : List Handle}
    (hslots : ∀ handle, ¬IsMarked slots handle) {other : Handle} :
    IsMarked (mark slots worklist) other ↔
      Reached (objectIn slots) worklist other ∧
        (objectIn slots other).isSome := by
  have hcovered : Covered slots worklist := fun parent _ _ hparent =>
    absurd hparent (hslots parent)
  obtain ⟨hclosed, hworklist⟩ := covered_mark hcovered
  constructor
  · intro h
    refine ⟨(reached_of_isMarked_mark h).resolve_left (hslots other), ?_⟩
    rw [← objectIn_mark slots worklist]
    exact h.objectIn_isSome
  · rintro ⟨hreached, hlive⟩
    induction hreached with
    | root hroot => exact hworklist _ hroot hlive
    | @child parent handle object _ hobject hchild ih =>
      have hparent := ih (Option.isSome_of_mem hobject)
      rw [← objectIn_mark slots worklist] at hobject hlive
      exact (hclosed parent object handle hparent hobject hchild
        hlive).resolve_right (nomatch ·)

end Mark

/-! ## Sweeping -/

theorem objectIn_sweep (slots : Array (Option Entry)) (handle : Handle)
    (object : Object) :
    objectIn (slots.map sweepSlot) handle = some object ↔
      IsMarked slots handle ∧ objectIn slots handle = some object := by
  simp only [objectIn, IsMarked]
  rw [Array.getElem?_map]
  rcases slots[handle.index]? with - | - | entry
  · simp
  · simp [sweepSlot]
  · cases hmarked : entry.marked <;> simp [sweepSlot, hmarked]

variable {heap : Heap} {roots : List Value} {handles : List Handle}

theorem WellFormed.not_isMarked (hheap : heap.WellFormed) (handle : Handle) :
    ¬IsMarked heap.slots handle := by
  rintro ⟨entry, hentry, hmarked⟩
  rw [hheap.unmarked _ entry hentry] at hmarked
  cases hmarked

/-- The handles that root values and root handles lead to. -/
def ReachedFrom (heap : Heap) (roots : List Value) (handles : List Handle) :
    Handle → Prop :=
  Reached heap.get? (handles ++ roots.filterMap Value.handle?)

/-- An object that a collection leaves was there before. -/
theorem get?_of_get?_collect {handle : Handle} {object : Object}
    (h : (heap.collect roots handles).2.get? handle = some object) :
    heap.get? handle = some object := by
  have h := ((objectIn_sweep _ handle object).1 h).2
  rwa [objectIn_mark] at h

/-- A collection keeps exactly the objects that the roots lead to, unchanged. -/
theorem WellFormed.get?_collect (hheap : heap.WellFormed) {handle : Handle}
    {object : Object} :
    (heap.collect roots handles).2.get? handle = some object ↔
      heap.ReachedFrom roots handles handle ∧
        heap.get? handle = some object := by
  apply (objectIn_sweep _ handle object).trans
  rw [isMarked_mark_iff hheap.not_isMarked, objectIn_mark]
  constructor
  · rintro ⟨⟨hreached, -⟩, hobject⟩
    exact ⟨hreached, hobject⟩
  · rintro ⟨hreached, hobject⟩
    exact ⟨⟨hreached, Option.isSome_of_mem hobject⟩, hobject⟩

theorem WellFormed.get?_collect_of_reached (hheap : heap.WellFormed)
    {handle : Handle} (h : heap.ReachedFrom roots handles handle) :
    (heap.collect roots handles).2.get? handle = heap.get? handle := by
  cases hobject : heap.get? handle with
  | some object => exact hheap.get?_collect.2 ⟨h, hobject⟩
  | none =>
    rw [Option.eq_none_iff_forall_ne_some]
    intro object hsome
    rw [get?_of_get?_collect hsome] at hobject
    cases hobject

/-! ## The free slots after a collection -/

theorem size_mark (slots : Array (Option Entry)) (worklist : List Handle) :
    (mark slots worklist).size = slots.size := by
  fun_induction mark slots worklist with
  | case1 slots => rfl
  | case2 slots handle rest h hentry ih => exact ih
  | case3 slots handle rest h entry hentry hmark ih => exact ih
  | case4 slots handle rest h entry hentry hmark ih => rw [ih, Array.size_set]
  | case5 slots handle rest h ih => exact ih

theorem getElem?_eq_some_none_iff {slots : Array (Option Entry)} {slot : Nat} :
    slots[slot]? = some none ↔
      slot < slots.size ∧ objectIn slots ⟨slot⟩ = none := by
  simp only [objectIn]
  by_cases hlt : slot < slots.size
  · rw [Array.getElem?_eq_getElem hlt]
    cases slots[slot] <;> simp [hlt]
  · simp [hlt]

theorem getElem?_mark_eq_none_iff (slots : Array (Option Entry))
    (worklist : List Handle) (slot : Nat) :
    (mark slots worklist)[slot]? = some none ↔ slots[slot]? = some none := by
  rw [getElem?_eq_some_none_iff, getElem?_eq_some_none_iff, size_mark,
    objectIn_mark]

theorem mem_garbage {slots : Array (Option Entry)} {slot : Nat} :
    slot ∈ garbage slots ↔
      ∃ entry, slots[slot]? = some (some entry) ∧ entry.marked = false := by
  simp only [garbage]
  rw [List.mem_filter, List.mem_range, Array.getD_eq_getD_getElem?]
  constructor
  · rintro ⟨hlt, hunmarked⟩
    rw [Array.getElem?_eq_getElem hlt] at hunmarked ⊢
    cases hslot : slots[slot] with
    | none => simp [hslot, isUnmarked] at hunmarked
    | some entry =>
      exact ⟨entry, rfl, by simpa [hslot, isUnmarked] using hunmarked⟩
  · rintro ⟨entry, hentry, hunmarked⟩
    obtain ⟨hlt, -⟩ := Array.getElem?_eq_some_iff.1 hentry
    exact ⟨hlt, by simp [hentry, isUnmarked, hunmarked]⟩

theorem nodup_garbage (slots : Array (Option Entry)) : (garbage slots).Nodup :=
  List.filter_sublist.nodup List.nodup_range

theorem WellFormed.collect (hheap : heap.WellFormed) :
    (heap.collect roots handles).2.WellFormed := by
  have hfree : ∀ slot ∈ heap.free,
      (mark heap.slots (handles ++ roots.filterMap Value.handle?))[slot]? =
        some none :=
    fun slot hslot =>
      (getElem?_mark_eq_none_iff _ _ slot).2 (hheap.empty slot hslot)
  refine ⟨fun slot hslot => ?_, ?_, fun slot entry hentry => ?_⟩
  · change (Array.map sweepSlot _)[slot]? = some none
    rw [Array.getElem?_map]
    rcases List.mem_append.1 hslot with hslot | hslot
    · obtain ⟨entry, hentry, hunmarked⟩ :=
        mem_garbage.1 (List.mem_reverse.1 hslot)
      simp [hentry, sweepSlot, hunmarked]
    · rw [hfree slot hslot]
      rfl
  · refine List.nodup_append.2
      ⟨List.pairwise_reverse.2 ((nodup_garbage _).imp Ne.symm), hheap.nodup, ?_⟩
    rintro slot hgarbage other hother rfl
    obtain ⟨entry, hentry, -⟩ := mem_garbage.1 (List.mem_reverse.1 hgarbage)
    cases hentry.symm.trans (hfree slot hother)
  · have hentry : (Array.map sweepSlot _)[slot]? = some (some entry) := hentry
    rw [Array.getElem?_map, Option.map_eq_some_iff] at hentry
    obtain ⟨before, -, hentry⟩ := hentry
    simp only [sweepSlot] at hentry
    split at hentry
    · split at hentry
      · cases hentry
        rfl
      · cases hentry
    · cases hentry

end Isolate.Heap
