import Isolate.Proofs.Machine.Lockstep

/-!
# Collections make no difference

Two contexts that hold the same up to the slots of their objects run alike,
whenever their collectors run.  A collection keeps what the roots lead to;
corresponding roots lead to corresponding objects, so what one context loses the
other one cannot reach.
-/

namespace Isolate

variable {pairs : Handle → Handle → Prop}

/-! ## Corresponding objects -/

section Objects

variable {protos : Prototype → Prototype → Prop} {object other : Object}
  {value value' : Value}

theorem Value.Alike.handle? (h : value.Alike pairs value') :
    Option.Rel pairs value.handle? value'.handle? := by
  cases h with
  | plain hplain =>
    rw [hplain]
    exact .none
  | table hpair => exact .some hpair
  | function hpair => exact .some hpair
  | userdata hpair => exact .some hpair

theorem forall₂_toList {x y : Option Handle} (h : Option.Rel pairs x y) :
    List.Forall₂ pairs x.toList y.toList := by
  cases h with
  | none => exact .nil
  | some hpair => exact .cons hpair .nil

/-- Corresponding objects hold corresponding handles. -/
theorem Object.Matches.children (h : object.Matches protos pairs other) :
    List.Forall₂ pairs object.children other.children := by
  cases h with
  | table h =>
    exact List.rel_flatMap h fun entry entry' hentry =>
      List.rel_append (forall₂_toList hentry.1.handle?)
        (forall₂_toList hentry.2.handle?)
  | closure _ hcells => exact hcells.forall₂
  | cell h => exact forall₂_toList h.handle?
  | userdata => exact .nil

/-- Only the pairs of the handles of a value matter. -/
theorem Value.Alike.restrict {p : Handle → Prop} (h : value.Alike pairs value')
    (hp : ∀ handle, value.handle? = some handle → p handle) :
    value.Alike (fun left right => pairs left right ∧ p left) value' := by
  cases h with
  | plain hplain => exact .plain hplain
  | table hpair => exact .table ⟨hpair, hp _ rfl⟩
  | function hpair => exact .function ⟨hpair, hp _ rfl⟩
  | userdata hpair => exact .userdata ⟨hpair, hp _ rfl⟩

theorem Object.Matches.restrict {p : Handle → Prop}
    (h : object.Matches protos pairs other)
    (hp : ∀ child ∈ object.children, p child) :
    object.Matches protos
      (fun left right => pairs left right ∧ p left) other := by
  cases h with
  | @table table table' h =>
    have hentries := (List.forall₂_and_left table.entries table'.entries).2
      ⟨fun entry hentry => hentry, h⟩
    refine .table
      (hentries.imp fun entry entry' ⟨hmem, hkey, hvalue⟩ => ⟨?_, ?_⟩)
    · exact hkey.restrict fun handle hhandle =>
        hp handle (mem_children_of_entry hmem (Or.inl hhandle))
    · exact hvalue.restrict fun handle hhandle =>
        hp handle (mem_children_of_entry hmem (Or.inr hhandle))
  | closure hproto hcells => exact .closure hproto (hcells.and_left hp)
  | cell h =>
    exact .cell (h.restrict fun handle hhandle =>
      hp handle (Option.mem_toList.2 hhandle))
  | userdata block => exact .userdata block

theorem Object.Matches.self (h : ∀ child ∈ object.children, pairs child child) :
    object.Matches Eq pairs object := by
  cases object with
  | table table =>
    refine .table (List.forall₂_same.2 fun entry hentry => ⟨?_, ?_⟩)
    · exact .self fun handle hhandle =>
        h handle (mem_children_of_entry hentry (Or.inl hhandle))
    · exact .self fun handle hhandle =>
        h handle (mem_children_of_entry hentry (Or.inr hhandle))
  | closure function => exact .closure rfl (.self h)
  | cell value =>
    exact .cell (.self fun handle hhandle =>
      h handle (Option.mem_toList.2 hhandle))
  | userdata block => exact .userdata block

end Objects

/-- Corresponding roots lead to corresponding objects. -/
theorem Heap.Reached.along {lookup lookup' : Handle → Option Object}
    {roots roots' : List Handle} (hroots : List.Forall₂ pairs roots roots')
    (hobjects : ∀ left right object, pairs left right →
      lookup left = some object → ∃ object', lookup' right = some object' ∧
        List.Forall₂ pairs object.children object'.children)
    {handle : Handle} (h : Reached lookup roots handle) :
    ∃ other, pairs handle other ∧ Reached lookup' roots' other := by
  induction h with
  | root hroot =>
    obtain ⟨other, hother, hpair⟩ := exists_of_forall₂ hroots hroot
    exact ⟨other, hpair, .root hother⟩
  | child _ hobject hchild ih =>
    obtain ⟨parent', hpair, hreached⟩ := ih
    obtain ⟨object', hobject', hchildren⟩ := hobjects _ _ _ hpair hobject
    obtain ⟨other, hother, hpair⟩ := exists_of_forall₂ hchildren hchild
    exact ⟨other, hpair, hreached.child hobject' hother⟩

/-! ## Mirrored heaps -/

/-- Every pair is of two objects that correspond. -/
structure Heap.Mirrors (pairs : Handle → Handle → Prop)
    (heap other : Heap) : Prop where
  left : heap.WellFormed
  right : other.WellFormed
  oneToOne : OneToOne pairs
  objects : ∀ left right, pairs left right → ∃ object object',
    heap.get? left = some object ∧
      other.get? right = some object' ∧ object.Matches Eq pairs object'

namespace Heap.Mirrors

variable {heap other : Heap} {left right : Handle}

theorem update (h : heap.Mirrors pairs other) (hpair : pairs left right)
    {f g : Object → Object}
    (hfg : ∀ object object' : Object, object.Matches Eq pairs object' →
      (f object).Matches Eq pairs (g object')) :
    (heap.update left f).Mirrors pairs (other.update right g) where
  left := h.left.update
  right := h.right.update
  oneToOne := h.oneToOne
  objects := by
    intro left' right' hpair'
    obtain ⟨object, object', hobject, hobject', hmatches⟩ :=
      h.objects left' right' hpair'
    by_cases heq : left' = left
    · subst heq
      obtain rfl := h.oneToOne.functional _ _ _ hpair hpair'
      refine ⟨f object, g object', ?_, ?_, hfg object object' hmatches⟩
      · rw [get?_update_self, hobject]
        rfl
      · rw [get?_update_self, hobject']
        rfl
    · have hne : right' ≠ right := by
        rintro rfl
        exact heq (h.oneToOne.injective _ _ _ hpair' hpair)
      refine ⟨object, object', ?_, ?_, hmatches⟩
      · rw [get?_update_of_ne heq, hobject]
      · rw [get?_update_of_ne hne, hobject']

/-- New objects lie in slots that no pair is about. -/
theorem allocate (h : heap.Mirrors pairs other) {object object' : Object}
    (hobject : object.Matches Eq pairs object') :
    ∃ pairs' : Handle → Handle → Prop,
      (∀ left right, pairs left right → pairs' left right) ∧
        (heap.allocate object).2.Mirrors pairs' (other.allocate object').2 ∧
        pairs' (heap.allocate object).1 (other.allocate object').1 := by
  have hnew : ∀ left right, pairs left right →
      left ≠ (heap.allocate object).1 ∧ right ≠ (other.allocate object').1 := by
    intro left right hpair
    obtain ⟨found, found', hfound, hfound', -⟩ := h.objects left right hpair
    constructor
    · rintro rfl
      cases h.left.get?_allocate_self_before.symm.trans hfound
    · rintro rfl
      cases h.right.get?_allocate_self_before.symm.trans hfound'
  refine ⟨fun left right => pairs left right ∨
      left = (heap.allocate object).1 ∧ right = (other.allocate object').1,
    fun _ _ => Or.inl, ⟨h.left.allocate, h.right.allocate, ⟨?_, ?_⟩, ?_⟩,
    Or.inr ⟨rfl, rfl⟩⟩
  · rintro left right right' (hpair | ⟨rfl, rfl⟩) (hpair' | ⟨hleft, rfl⟩)
    · exact h.oneToOne.functional _ _ _ hpair hpair'
    · exact absurd hleft (hnew _ _ hpair).1
    · exact absurd rfl (hnew _ _ hpair').1
    · rfl
  · rintro left left' right (hpair | ⟨rfl, rfl⟩) (hpair' | ⟨rfl, hright⟩)
    · exact h.oneToOne.injective _ _ _ hpair hpair'
    · exact absurd hright (hnew _ _ hpair).2
    · exact absurd rfl (hnew _ _ hpair').2
    · rfl
  · rintro left right (hpair | ⟨rfl, rfl⟩)
    · obtain ⟨found, found', hfound, hfound', hmatches⟩ :=
        h.objects left right hpair
      obtain ⟨hleft, hright⟩ := hnew left right hpair
      refine ⟨found, found', ?_, ?_, hmatches.mono fun _ _ => Or.inl⟩
      · rw [get?_allocate_of_ne hleft, hfound]
      · rw [get?_allocate_of_ne hright, hfound']
    · exact ⟨object, object', h.left.get?_allocate_self,
        h.right.get?_allocate_self, hobject.mono fun _ _ => Or.inl⟩

end Heap.Mirrors

/-! ## Mirrored contexts -/

/-- Settings that differ in nothing but when the collector runs. -/
def ContextSettings.SameButCollector (given other : ContextSettings) : Prop :=
  { given with
    gcThreshold := other.gcThreshold, gcEnabled := other.gcEnabled } = other

namespace Machine

open Context

/-- Objects that correspond may lie in different slots, and other objects may be
there on one side only. -/
def mirrored : Likeness where
  protos := Eq
  settings := ContextSettings.SameButCollector
  heaps := Heap.Mirrors
  journals := fun _ _ => True
  legible := False
  stripped := congrArg _
  nested := by
    rintro proto _ rfl
    exact List.forall₂_same.2 fun _ _ => rfl
  limits := by
    intro given other h
    rw [← h]
    exact ⟨rfl, rfl⟩
  oneToOne := Heap.Mirrors.oneToOne
  objects := by
    intro pairs heap other left right h hpair
    obtain ⟨object, object', hobject, hobject', hmatches⟩ :=
      h.objects left right hpair
    rw [hobject, hobject']
    exact .some hmatches
  absent := by
    intro pairs heap other left right h hpair hnone
    obtain ⟨object, -, hobject, -⟩ := h.objects left right hpair
    cases hnone.symm.trans hobject
  shown := False.elim
  update := fun h hpair hfg => h.update hpair hfg
  allocate := fun h hobject => h.allocate hobject
  executed := fun _ _ _ _ _ _ _ _ => trivial
  failed := fun _ _ _ => trivial

namespace Parallel

variable {c d : Context} (h : Parallel mirrored pairs c d)
include h

/-! ## What the roots lead to -/

theorem roots :
    List.Forall₂ pairs (c.rootHandles ++ c.rootValues.filterMap Value.handle?)
      (d.rootHandles ++ d.rootValues.filterMap Value.handle?) := by
  have hclosures : List.Forall₂ pairs (c.frames.toList.map Frame.closure)
      (d.frames.toList.map Frame.closure) :=
    List.forall₂_map_left_iff.2 (List.forall₂_map_right_iff.2
      (h.frames.forall₂.imp fun _ _ hframe => hframe.closure))
  have hpinned :
      List.Forall₂ (Value.Alike pairs) c.registry.values d.registry.values :=
    List.rel_filterMap (fun _ _ hslot => hslot) h.slots.forall₂
  have hvalues : List.Forall₂ (Value.Alike pairs) c.rootValues d.rootValues :=
    List.rel_append h.stack.forall₂ hpinned
  exact List.rel_append (.cons h.globals hclosures)
    (List.rel_filterMap (fun _ _ hvalue => hvalue.handle?) hvalues)

/-- What one context reaches has a partner that the other one reaches. -/
theorem reaches {left : Handle} (hleft : c.Reaches left) :
    ∃ right, pairs left right ∧ d.Reaches right := by
  refine hleft.along h.roots fun left right object hpair hobject => ?_
  obtain ⟨found, object', hfound, hobject', hmatches⟩ :=
    h.heap.objects left right hpair
  cases hfound.symm.trans hobject
  exact ⟨object', hobject', hmatches.children⟩

theorem reaches_back {right : Handle} (hright : d.Reaches right) :
    ∃ left, pairs left right ∧ c.Reaches left := by
  have hflip : ∀ {lefts rights : List Handle}, List.Forall₂ pairs lefts rights →
      List.Forall₂ (fun right left => pairs left right) rights lefts :=
    fun h => .flip h
  refine hright.along (hflip h.roots)
    fun right left object' hpair hobject' => ?_
  obtain ⟨object, found, hobject, hfound, hmatches⟩ :=
    h.heap.objects left right hpair
  cases hfound.symm.trans hobject'
  exact ⟨object, hobject, hflip hmatches.children⟩

theorem reaches_of_pair {left right : Handle} (hpair : pairs left right)
    (hleft : c.Reaches left) : d.Reaches right := by
  obtain ⟨right', hpair', hright⟩ := h.reaches hleft
  rwa [h.heap.oneToOne.functional _ _ _ hpair hpair']

/-- As long as heaps keep what is reached, only the pairs of what is reached
matter. -/
theorem narrowed (hc : c.Intact) {heap heap' : Heap}
    {journal journal' : Array Notice} (hheap : heap.WellFormed)
    (hheap' : heap'.WellFormed)
    (hkept : ∀ handle, c.Reaches handle → heap.get? handle = c.heap.get? handle)
    (hkept' : ∀ handle, d.Reaches handle →
      heap'.get? handle = d.heap.get? handle) :
    Parallel mirrored (fun left right => pairs left right ∧ c.Reaches left)
      { c with heap, journal }
      { d with heap := heap', journal := journal' } := by
  have honeToOne := h.heap.oneToOne
  refine ⟨⟨hheap, hheap', ⟨?_, ?_⟩, ?_⟩, ?_, ?_, ⟨h.globals, reaches_globals⟩,
    ?_, h.free, h.cache, h.settings, h.bindings, h.tracing, trivial⟩
  · exact fun _ _ _ hpair hpair' => honeToOne.functional _ _ _ hpair.1 hpair'.1
  · exact fun _ _ _ hpair hpair' => honeToOne.injective _ _ _ hpair.1 hpair'.1
  · rintro left right ⟨hpair, hleft⟩
    obtain ⟨object, object', hobject, hobject', hmatches⟩ :=
      h.heap.objects left right hpair
    refine ⟨object, object', (hkept left hleft).trans hobject,
      (hkept' right (h.reaches_of_pair hpair hleft)).trans hobject', ?_⟩
    exact hmatches.restrict fun child hchild => hleft.child hobject hchild
  · refine (h.stack.and_left fun value hvalue => hvalue).mono
      fun value value' ⟨halike, hvalue⟩ => ?_
    exact halike.restrict fun handle hhandle =>
      reaches_of_mem_stack hvalue hhandle
  · refine (h.frames.and_left fun frame hframe => hframe).mono
      fun frame frame' ⟨hmatches, hframe⟩ => ?_
    have hclosure := reaches_of_frame hframe
    refine ⟨⟨hmatches.closure, hclosure⟩, hmatches.proto, ?_, hmatches.ip,
      hmatches.base⟩
    exact hmatches.cells.and_left fun cell hcell =>
      hclosure.child (hc.running frame hframe) hcell
  · refine (h.slots.and_left fun slot hslot => hslot).mono
      fun slot slot' ⟨halike, hslot⟩ => ?_
    cases halike with
    | none => exact .none
    | @some value value' halike =>
      refine .some (halike.restrict fun handle hhandle => ?_)
      have hvalue : value ∈ c.registry.values :=
        List.mem_filterMap.2 ⟨_, hslot, rfl⟩
      exact .root (List.mem_append_right _
        (List.mem_filterMap.2 ⟨_, List.mem_append_right _ hvalue, hhandle⟩))

end Parallel

/-- A collection that may be due keeps what is reached. -/
theorem exists_collectIfDue {ctx : Context} (h : ctx.heap.WellFormed) :
    ∃ (heap : Heap) (journal : Array Notice),
      collectIfDue ctx = .ok () { ctx with heap, journal } ∧ heap.WellFormed ∧
        ∀ handle, ctx.Reaches handle →
          heap.get? handle = ctx.heap.get? handle := by
  simp only [collectIfDue]
  rw [get_bind]
  split
  · exact ⟨_, _, rfl, h.collect, fun handle hreached =>
      h.get?_collect_of_reached hreached⟩
  · exact ⟨_, _, rfl, h, fun _ _ => rfl⟩

/-- Intact contexts stay mirrored. -/
theorem lasting_mirrored {natives : Natives} (hnatives : natives.Quiet) :
    mirrored.Lasting natives Context.Intact Prototype.Accepted where
  collected := by
    intro pairs c d hc hd h
    obtain ⟨heap, journal, hcollected, hheap, hkept⟩ :=
      exists_collectIfDue hc.heap
    obtain ⟨heap', journal', hcollected', hheap', hkept'⟩ :=
      exists_collectIfDue hd.heap
    rw [hcollected, hcollected']
    exact ⟨_, h.narrowed hc hheap hheap' hkept hkept'⟩
  running := fun hctx hframe =>
    hctx.accepted_of_frame (Array.mem_toList_iff.2 (Array.mem_of_back? hframe))
  fetched := fun proto offset op hctx =>
    (hctx.ends_fetch proto offset op).mono (fun _ _ hc => hc)
      fun _ _ _ => trivial
  turned := fun budget hctx hproto =>
    (hctx.ends_turn hnatives hproto).mono (fun _ _ hc => hc)
      fun _ _ _ => trivial
  entered := fun budget calleeSlot argumentCount hctx =>
    (hctx.ends_enter hnatives budget calleeSlot argumentCount).mono
      (fun _ _ hc => hc) fun _ _ _ => trivial

end Machine

namespace Context

open Machine

/-- Contexts that hold the same up to the slots of their objects: live objects
are paired one to one, and correspond. -/
structure Mirrors (pairs : Handle → Handle → Prop) (c d : Context) : Prop
    extends Parallel mirrored pairs c d where
  left : ∀ handle, c.Live handle ↔ ∃ other, pairs handle other
  right : ∀ handle, d.Live handle ↔ ∃ other, pairs other handle

/-- What is not reached is left out of the pairs. -/
theorem Intact.mirrors {c d : Context} (hc : c.Intact)
    (h : Parallel mirrored pairs c d) :
    c.Mirrors (fun left right => pairs left right ∧ c.Reaches left) d where
  toParallel := h.narrowed hc h.heap.left h.heap.right (fun _ _ => rfl)
    fun _ _ => rfl
  left := by
    intro handle
    constructor
    · rintro ⟨hreached, -⟩
      obtain ⟨other, hpair, -⟩ := h.reaches hreached
      exact ⟨other, hpair, hreached⟩
    · rintro ⟨other, hpair, hreached⟩
      obtain ⟨object, -, hobject, -⟩ := h.heap.objects handle other hpair
      exact ⟨hreached, Option.isSome_of_mem hobject⟩
  right := by
    intro handle
    constructor
    · rintro ⟨hreached, -⟩
      obtain ⟨other, hpair, hother⟩ := h.reaches_back hreached
      exact ⟨other, hpair, hother⟩
    · rintro ⟨other, hpair, hother⟩
      obtain ⟨-, object', -, hobject', -⟩ := h.heap.objects other handle hpair
      exact ⟨h.reaches_of_pair hpair hother, Option.isSome_of_mem hobject'⟩

/-- Mirrored contexts take the same instructions in a call that makes no text of
references, end in the same way, and are mirrored again. -/
theorem Mirrors.of_call {c d : Context} (h : c.Mirrors pairs d) (hc : c.Intact)
    (hd : d.Intact) {natives : Natives} (hquiet : natives.Quiet)
    (hanswers : mirrored.Answers natives) {budget argumentCount : Nat}
    (hshows : ¬ShowsReference natives budget argumentCount c) :
    instructionsOf natives budget argumentCount c =
        instructionsOf natives budget argumentCount d ∧
      Accord (call natives budget argumentCount c)
        (call natives budget argumentCount d)
        (fun _ c' _ d' => ∃ pairs, c'.Mirrors pairs d')
        fun error c' error' d' =>
          error = error' ∧ ∃ pairs, c'.Mirrors pairs d' := by
  obtain ⟨hinstructions, hcall⟩ :=
    h.toParallel.call (lasting_mirrored hquiet) hanswers hc hd hshows
  have hends := hc.ends_call hquiet budget argumentCount
  have hends' := hd.ends_call hquiet budget argumentCount
  refine ⟨hinstructions,
    (hcall.and_ends hends hends').mono (fun _ c' _ d' hdone => ?_)
      fun e c' e' d' hfailed => ?_⟩
  · obtain ⟨⟨pairs', h'⟩, hc', -⟩ := hdone
    exact ⟨_, hc'.mirrors h'⟩
  · obtain ⟨⟨pairs', h', halike⟩, hc', -⟩ := hfailed
    refine ⟨?_, _, hc'.intact.mirrors h'⟩
    rcases halike with heq | ⟨left, right, -, rfl, -⟩
    · exact heq
    · exact absurd trivial hc'.named

/-! ## Two settings of the collector -/

/-- The context with these settings of its collector: whether it runs at all,
and after how many allocations. -/
def withCollector (ctx : Context) (enabled : Bool)
    (threshold : UInt64) : Context :=
  { ctx with
    heap := { ctx.heap with enabled, threshold }
    settings := { ctx.settings with
      gcEnabled := enabled, gcThreshold := threshold } }

variable {ctx : Context}

theorem Intact.withCollector (h : ctx.Intact) (enabled : Bool)
    (threshold : UInt64) : (ctx.withCollector enabled threshold).Intact := by
  have hsame : ctx.SameButHeap (ctx.withCollector enabled threshold) :=
    ⟨rfl, rfl, rfl, rfl, rfl⟩
  have hheap : (ctx.withCollector enabled threshold).heap.WellFormed :=
    ⟨h.heap.empty, h.heap.nodup, h.heap.unmarked⟩
  have hwell := hsame.wellFormed h.toWellFormed hheap (fun _ _ => .of_eq rfl)
    fun handle object hobject => (h.objects handle object hobject).transport
      fun _ _ _ => .of_eq rfl
  exact hsame.intact h hwell (fun _ _ hclosure => Or.inl hclosure)
    fun _ _ => rfl

/-- A context is its own image, whatever its collector does. -/
theorem Intact.parallel_withCollector (h : ctx.Intact) (enabled enabled' : Bool)
    (threshold threshold' : UInt64) :
    Parallel mirrored (fun left right =>
      left = right ∧ (ctx.heap.get? left).isSome)
      (ctx.withCollector enabled threshold)
      (ctx.withCollector enabled' threshold') := by
  have hself : ∀ {value : Value}, ctx.Names value →
      value.Alike (fun left right =>
        left = right ∧ (ctx.heap.get? left).isSome) value :=
    fun hvalue => .self fun handle hhandle => ⟨rfl, hvalue.isSome hhandle⟩
  refine ⟨⟨(h.withCollector enabled threshold).heap,
    (h.withCollector enabled' threshold').heap, ⟨?_, ?_⟩, ?_⟩, ?_, ?_,
    ⟨rfl, ?_⟩, ?_, rfl, rfl, rfl, rfl, rfl, trivial⟩
  · exact fun _ _ _ hpair hpair' => hpair.1.symm.trans hpair'.1
  · exact fun _ _ _ hpair hpair' => hpair.1.trans hpair'.1.symm
  · rintro handle _ ⟨rfl, hsome⟩
    obtain ⟨object, hobject⟩ := Option.isSome_iff_exists.1 hsome
    exact ⟨object, object, hobject, hobject, .self fun child hchild =>
      ⟨rfl, (h.objects handle object hobject).isSome hchild⟩⟩
  · exact .self fun value hvalue => hself (h.stack value hvalue)
  · refine .self fun frame hframe =>
      ⟨⟨rfl, ?_⟩, rfl, .self fun cell hcell => ⟨rfl, ?_⟩, rfl, rfl⟩
    · exact Option.isSome_of_mem (h.running frame hframe)
    · obtain ⟨value, hvalue⟩ := h.cells_of_frame hframe hcell
      exact Option.isSome_of_mem hvalue
  · exact h.globals.isSome rfl
  · refine .self fun slot hslot => ?_
    cases slot with
    | none => exact .none
    | some value =>
      obtain ⟨i, hi⟩ := List.mem_iff_getElem?.1 hslot
      have hpin : ctx.registry.get? ⟨i⟩ = some value :=
        Registry.get?_eq_some_iff.2 (Array.getElem?_toList.symm.trans hi)
      exact .some (hself (h.pinned ⟨i⟩ value hpin))

end Context

namespace Machine

open Context

/-- Under two settings of the collector a call that makes no text of references
takes the same instructions, ends in the same way and leaves the same behind, up
to the slots of the objects that can be reached. -/
theorem call_regardless_of_collections {ctx : Context} (h : ctx.Intact)
    (budget argumentCount : Nat) (enabled enabled' : Bool)
    (threshold threshold' : UInt64)
    (hshows : ¬ShowsReference Native.standard budget argumentCount
      (ctx.withCollector enabled threshold)) :
    instructionsOf Native.standard budget argumentCount
      (ctx.withCollector enabled threshold) =
        instructionsOf Native.standard budget argumentCount
          (ctx.withCollector enabled' threshold') ∧
      Accord (call Native.standard budget argumentCount
        (ctx.withCollector enabled threshold))
        (call Native.standard budget argumentCount
          (ctx.withCollector enabled' threshold'))
        (fun _ c _ d => ∃ pairs, c.Mirrors pairs d)
        fun error c error' d =>
          error = error' ∧ ∃ pairs, c.Mirrors pairs d := by
  have hc := h.withCollector enabled threshold
  have hd := h.withCollector enabled' threshold'
  have hmirrors :=
    hc.mirrors (h.parallel_withCollector enabled enabled' threshold threshold')
  exact hmirrors.of_call hc hd Native.quiet_standard
    (answers_standard mirrored) hshows

theorem intact_calling {proto : Prototype} (hproto : proto.Accepted)
    (hupvalues : proto.upvalues = #[]) : (calling proto).Intact := by
  have hglobals : (calling proto).Names (.table ⟨0⟩) := ⟨.empty, rfl⟩
  have hfunction : (calling proto).Names (.function ⟨1⟩) := ⟨⟨proto, #[]⟩, rfl⟩
  refine intact_holding (wellFormed_holding (fun object hobject => ?_)
    (fun value hvalue => ?_) hglobals) fun closure hclosure => ?_
  · rcases List.mem_cons.1 hobject with rfl | hobject
    · exact holds_empty
    · cases List.mem_singleton.1 hobject
      exact ⟨by rw [hupvalues]; rfl, nofun⟩
  · cases List.mem_singleton.1 hvalue
    exact hfunction
  · rcases List.mem_cons.1 hclosure with heq | hclosure
    · cases heq
    · cases List.mem_singleton.1 hclosure
      exact hproto

/-- A function that drops a table and gives back another one, which takes the
slot of the first if that was collected in time. -/
def wasteful : Prototype where
  code := #[11, 4, 11, 27]

theorem call_regardless_of_collections_wasteful :
    (calling wasteful).Intact ∧
      ¬ShowsReference Native.standard 9 0
        ((calling wasteful).withCollector false 0) ∧
      instructionsOf Native.standard 9 0
        ((calling wasteful).withCollector false 0) =
        instructionsOf Native.standard 9 0
          ((calling wasteful).withCollector true 0) ∧
      Accord (call Native.standard 9 0
        ((calling wasteful).withCollector false 0))
        (call Native.standard 9 0 ((calling wasteful).withCollector true 0))
        (fun _ c _ d => ∃ pairs, c.Mirrors pairs d)
        fun error c error' d =>
          error = error' ∧ ∃ pairs, c.Mirrors pairs d := by
  have hintact : (calling wasteful).Intact :=
    intact_calling (Prototype.accepted_of_isOk (by decide +kernel)) rfl
  have hnone :
      ∀ turn ∈ turnsOf Native.standard 9 0
        ((calling wasteful).withCollector false 0),
        (turn.ctx.frames.back?.bind fun frame =>
          turn.proto.code.opcodeAt? frame.ip) ≠
          some .call := by
    decide +kernel
  have hshows :
      ¬ShowsReference Native.standard 9 0
        ((calling wasteful).withCollector false 0) := by
    rintro ⟨-, ⟨name, hname, -⟩ | ⟨turn, hturn, frame, hback, hop, -⟩⟩
    · cases hname
    · apply hnone turn hturn
      rw [hback]
      exact hop
  exact ⟨hintact, hshows,
    call_regardless_of_collections hintact 9 0 false true 0 0 hshows⟩

end Machine

end Isolate
