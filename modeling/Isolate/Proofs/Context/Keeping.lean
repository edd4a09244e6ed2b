import Isolate.Context.Tables
import Isolate.Proofs.Chunk.Cache
import Isolate.Proofs.Context.WellFormed
import Isolate.Proofs.Outcome

/-!
# What actions leave alone

An action keeps a context if everything that was reachable is still there
afterwards, unchanged and reachable by the same roots.  Collections keep the
context that they find, so it does not matter when they happen, and neither they
nor new objects leave a handle dangling.
-/

namespace Isolate.Context

variable {ctx c d : Context} {handle : Handle}

/-- The handles that the roots lead to. -/
def Reaches (ctx : Context) (handle : Handle) : Prop :=
  ctx.heap.ReachedFrom ctx.rootValues ctx.rootHandles handle

/-- A reachable object. -/
def Live (ctx : Context) (handle : Handle) : Prop :=
  ctx.Reaches handle ∧ (ctx.heap.get? handle).isSome

/-- Everything reachable is still there, by the same roots. -/
structure Keeps (ctx c : Context) : Prop where
  globals : c.globals = ctx.globals
  frames : c.frames = ctx.frames
  stack : ctx.stack.toList <+: c.stack.toList
  pinned : ∀ pin value, ctx.registry.get? pin = some value →
    c.registry.get? pin = some value
  objects : ∀ handle, ctx.Live handle →
    c.heap.get? handle = ctx.heap.get? handle

theorem reaches_of_mem_stack {value : Value} (hvalue : value ∈ ctx.stack.toList)
    (hhandle : value.handle? = some handle) : ctx.Reaches handle := by
  refine .root (List.mem_append_right _
    (List.mem_filterMap.2 ⟨value, ?_, hhandle⟩))
  exact List.mem_append_left _ hvalue

theorem reaches_of_pinned {pin : Pin} {value : Value}
    (hvalue : ctx.registry.get? pin = some value)
    (hhandle : value.handle? = some handle) : ctx.Reaches handle := by
  refine .root (List.mem_append_right _
    (List.mem_filterMap.2 ⟨value, ?_, hhandle⟩))
  exact List.mem_append_right _ (Registry.mem_values hvalue)

theorem reaches_globals : ctx.Reaches ctx.globals :=
  .root (List.mem_append_left _ List.mem_cons_self)

theorem reaches_of_frame {frame : Frame} (hframe : frame ∈ ctx.frames.toList) :
    ctx.Reaches frame.closure := by
  refine .root (List.mem_append_left _ (List.mem_cons_of_mem _ ?_))
  exact List.mem_map.2 ⟨frame, hframe, rfl⟩

/-- What is reached by the roots of one context is reached by those of another,
if the second has the roots of the first and its objects lead as far. -/
theorem reaches_of_roots (hglobals : c.globals = ctx.globals)
    (hframes : c.frames = ctx.frames)
    (hstack : ctx.stack.toList <+: c.stack.toList)
    (hpinned : ∀ pin value, ctx.registry.get? pin = some value →
      c.registry.get? pin = some value)
    (hchild : ∀ parent object child, ctx.Reaches parent →
      ctx.heap.get? parent = some object →
        child ∈ object.children → c.Reaches parent → c.Reaches child)
    (hhandle : ctx.Reaches handle) : c.Reaches handle := by
  induction hhandle with
  | @root handle hroot =>
    rcases List.mem_append.1 hroot with hroot | hroot
    · refine .root (List.mem_append_left _ ?_)
      simp only [rootHandles] at hroot ⊢
      rwa [hglobals, hframes]
    · obtain ⟨value, hvalue, hhandle⟩ := List.mem_filterMap.1 hroot
      rcases List.mem_append.1 hvalue with hvalue | hvalue
      · exact reaches_of_mem_stack (hstack.subset hvalue) hhandle
      · obtain ⟨slot, hslot, hsome⟩ := List.mem_filterMap.1 hvalue
        cases hsome
        obtain ⟨i, hi⟩ := List.mem_iff_getElem?.1 hslot
        have hpin : ctx.registry.get? ⟨i⟩ = some value :=
          Registry.get?_eq_some_iff.2 ((Array.getElem?_toList).symm.trans hi)
        exact reaches_of_pinned (hpinned ⟨i⟩ value hpin) hhandle
  | child hparent hobject hmem ih => exact hchild _ _ _ hparent hobject hmem ih

theorem Keeps.reaches (h : ctx.Keeps c) (hhandle : ctx.Reaches handle) :
    c.Reaches handle :=
  reaches_of_roots h.globals h.frames h.stack h.pinned
    (fun parent _ _ hparent hobject hchild hreached => hreached.child
      ((h.objects parent ⟨hparent, Option.isSome_of_mem hobject⟩).trans hobject)
      hchild) hhandle

theorem Keeps.live (h : ctx.Keeps c) (hhandle : ctx.Live handle) :
    c.Live handle :=
  ⟨h.reaches hhandle.1, by rw [h.objects handle hhandle]; exact hhandle.2⟩

theorem Keeps.refl (ctx : Context) : ctx.Keeps ctx :=
  ⟨rfl, rfl, List.prefix_refl _, fun _ _ h => h, fun _ _ => rfl⟩

theorem Keeps.trans (h : ctx.Keeps c) (h' : c.Keeps d) : ctx.Keeps d where
  globals := h'.globals.trans h.globals
  frames := h'.frames.trans h.frames
  stack := h.stack.trans h'.stack
  pinned := fun pin value hvalue =>
    h'.pinned pin value (h.pinned pin value hvalue)
  objects := fun handle hlive =>
    (h'.objects handle (h.live hlive)).trans (h.objects handle hlive)

/-- In a well-formed context what a live object holds is live. -/
theorem WellFormed.live_of_child (h : ctx.WellFormed) {parent : Handle}
    {object : Object} (hparent : ctx.Live parent)
    (hobject : ctx.heap.get? parent = some object)
    (hchild : handle ∈ object.children) : ctx.Live handle :=
  ⟨hparent.1.child hobject hchild,
    (h.objects parent object hobject).isSome hchild⟩

theorem live_globals (h : ctx.WellFormed) : ctx.Live ctx.globals := by
  obtain ⟨table, htable⟩ := h.globals
  exact ⟨reaches_globals, Option.isSome_of_mem htable⟩

/-- Contexts that differ in nothing but the heap and what was reported. -/
structure SameButHeap (ctx c : Context) : Prop where
  globals : c.globals = ctx.globals
  frames : c.frames = ctx.frames
  stack : c.stack = ctx.stack
  registry : c.registry = ctx.registry
  cache : c.cache = ctx.cache

theorem SameButHeap.trans (h : ctx.SameButHeap c) (h' : c.SameButHeap d) :
    ctx.SameButHeap d where
  globals := h'.globals.trans h.globals
  frames := h'.frames.trans h.frames
  stack := h'.stack.trans h.stack
  registry := h'.registry.trans h.registry
  cache := h'.cache.trans h.cache

theorem SameButHeap.keeps (h : ctx.SameButHeap c)
    (hobjects : ∀ handle, ctx.Live handle →
      c.heap.get? handle = ctx.heap.get? handle) :
    ctx.Keeps c where
  globals := h.globals
  frames := h.frames
  stack := h.stack ▸ List.prefix_refl _
  pinned := fun _ _ hvalue => h.registry ▸ hvalue
  objects := hobjects

/-- A context stays well-formed as long as what is live keeps its kind and every
object holds what is there. -/
theorem SameButHeap.wellFormed (h : ctx.SameButHeap c) (hctx : ctx.WellFormed)
    (hheap : c.heap.WellFormed)
    (hkinds : ∀ handle, ctx.Live handle →
      Object.SameKind (ctx.heap.get? handle) (c.heap.get? handle))
    (hobjects : ∀ handle object, c.heap.get? handle = some object →
      c.Holds object) :
    c.WellFormed where
  heap := hheap
  registry := h.registry ▸ hctx.registry
  objects := hobjects
  stack := by
    intro value hvalue
    rw [h.stack] at hvalue
    exact (hctx.stack value hvalue).transport fun handle hhandle hsome =>
      hkinds handle ⟨reaches_of_mem_stack hvalue hhandle, hsome⟩
  pinned := by
    intro pin value hvalue
    rw [h.registry] at hvalue
    exact (hctx.pinned pin value hvalue).transport fun handle hhandle hsome =>
      hkinds handle ⟨reaches_of_pinned hvalue hhandle, hsome⟩
  globals := by
    rw [globalsValue, h.globals]
    refine hctx.globals.transport fun handle hhandle
      hsome => hkinds handle ⟨?_, hsome⟩
    cases hhandle
    exact reaches_globals
  frames := by
    intro frame hframe
    rw [h.frames] at hframe
    refine (hctx.frames frame hframe).transport fun handle hhandle hsome =>
      hkinds handle ⟨?_, hsome⟩
    cases hhandle
    exact reaches_of_frame hframe

/-! ## Gaining bindings -/

/-- One table has got bindings in front of those that it had at first, and
everything else that was reachable is kept. -/
structure Gains (ctx c : Context) (target : Handle) (first : Table)
    (news : List (Key × Value)) : Prop where
  globals : c.globals = ctx.globals
  frames : c.frames = ctx.frames
  stack : ctx.stack.toList <+: c.stack.toList
  pinned : ∀ pin value, ctx.registry.get? pin = some value →
    c.registry.get? pin = some value
  before : ctx.heap.get? target = some (.table first)
  table : ∃ table, c.heap.get? target = some (.table table) ∧
    table.entries = news ++ first.entries
  others : ∀ handle, ctx.Live handle → handle ≠ target →
    c.heap.get? handle = ctx.heap.get? handle

section Gains

variable {target : Handle} {first : Table} {news : List (Key × Value)}

theorem Gains.refl (h : ctx.heap.get? target = some (.table first)) :
    ctx.Gains ctx target first [] :=
  ⟨rfl, rfl, List.prefix_refl _, fun _ _ hvalue => hvalue, h, ⟨first, h, rfl⟩,
    fun _ _ _ => rfl⟩

theorem Gains.live (h : ctx.Gains c target first news)
    (hhandle : ctx.Live handle) : c.Live handle := by
  obtain ⟨table, htable, hentries⟩ := h.table
  refine ⟨reaches_of_roots h.globals h.frames h.stack h.pinned
    (fun parent object child hparent hobject hchild hreached => ?_)
    hhandle.1, ?_⟩
  · by_cases heq : parent = target
    · subst heq
      cases h.before.symm.trans hobject
      refine hreached.child htable ?_
      obtain ⟨entry, hentry, hmem⟩ := List.mem_flatMap.1 hchild
      exact List.mem_flatMap.2
        ⟨entry, hentries ▸ List.mem_append_right news hentry, hmem⟩
    · refine hreached.child ?_ hchild
      exact (h.others parent ⟨hparent, Option.isSome_of_mem hobject⟩
        heq).trans hobject
  · by_cases heq : handle = target
    · rw [heq]
      exact Option.isSome_of_mem htable
    · rw [h.others handle hhandle heq]
      exact hhandle.2

/-- What gained bindings is kept while other things happen. -/
theorem Gains.trans_keeps (h : ctx.Gains c target first news) (h' : c.Keeps d)
    (hlive : c.Live target) : ctx.Gains d target first news where
  globals := h'.globals.trans h.globals
  frames := h'.frames.trans h.frames
  stack := h.stack.trans h'.stack
  pinned := fun pin value hvalue =>
    h'.pinned pin value (h.pinned pin value hvalue)
  before := h.before
  table := by
    obtain ⟨table, htable, hentries⟩ := h.table
    exact ⟨table, (h'.objects target hlive).trans htable, hentries⟩
  others := fun handle hhandle hne =>
    (h'.objects handle (h.live hhandle)).trans (h.others handle hhandle hne)

/-- What gained no bindings is kept. -/
theorem Gains.keeps (h : ctx.Gains c target first []) : ctx.Keeps c where
  globals := h.globals
  frames := h.frames
  stack := h.stack
  pinned := h.pinned
  objects := by
    intro handle hlive
    by_cases heq : handle = target
    · subst heq
      obtain ⟨table, htable, hentries⟩ := h.table
      rw [h.before, htable, Table.eq_of_entries hentries]
    · exact h.others handle hlive heq

end Gains

/-! ## Collection and allocation -/

theorem ends_collectIfDue (hctx : ctx.WellFormed)
    {onError : RuntimeError → Context → Prop} :
    Ends (collectIfDue ctx)
      (fun _ c => ctx.SameButHeap c ∧ c.WellFormed ∧
        ∀ handle, ctx.Live handle → c.heap.get? handle = ctx.heap.get? handle)
      onError := by
  simp only [collectIfDue]
  rw [ends_bind, ends_get]
  split
  · have hkept : ∀ handle, ctx.Reaches handle →
        (ctx.heap.collect ctx.rootValues ctx.rootHandles).2.get? handle =
          ctx.heap.get? handle :=
      fun handle => hctx.heap.get?_collect_of_reached
    have hsame : ctx.SameButHeap
        { ctx with
          heap := (ctx.heap.collect ctx.rootValues ctx.rootHandles).2 } :=
      ⟨rfl, rfl, rfl, rfl, rfl⟩
    have hwell := hsame.wellFormed hctx hctx.heap.collect
      (fun handle hlive => .of_eq (hkept handle hlive.1))
      fun handle object hobject => by
        obtain ⟨hreached, hold⟩ := hctx.heap.get?_collect.1 hobject
        exact (hctx.objects handle object hold).transport fun child hchild _ =>
          .of_eq (hkept child (hreached.child hold hchild))
    exact ⟨⟨rfl, rfl, rfl, rfl, rfl⟩, hwell.note _,
      fun handle hlive => hkept handle hlive.1⟩
  · exact ⟨⟨rfl, rfl, rfl, rfl, rfl⟩, hctx, fun _ _ => rfl⟩

theorem ends_allocate (hctx : ctx.WellFormed) {object : Object}
    (hobject : ctx.Holds object) {onError : RuntimeError → Context → Prop} :
    Ends (allocate object ctx)
      (fun new c =>
        ctx.SameButHeap c ∧ c.WellFormed ∧ ctx.heap.get? new = none ∧
          c.heap.get? new = some object ∧
          ∀ handle, handle ≠ new → c.heap.get? handle = ctx.heap.get? handle)
      onError := by
  have hsame :
      ctx.SameButHeap { ctx with heap := (ctx.heap.allocate object).2 } :=
    ⟨rfl, rfl, rfl, rfl, rfl⟩
  have hkinds : ∀ handle, (ctx.heap.get? handle).isSome →
      Object.SameKind (ctx.heap.get? handle)
        ((ctx.heap.allocate object).2.get? handle) := by
    intro handle hsome
    refine .of_eq (Heap.get?_allocate_of_ne ?_)
    rintro rfl
    rw [hctx.heap.get?_allocate_self_before] at hsome
    cases hsome
  refine ⟨hsame, ?_, hctx.heap.get?_allocate_self_before,
    hctx.heap.get?_allocate_self, fun _ h => Heap.get?_allocate_of_ne h⟩
  refine hsame.wellFormed hctx hctx.heap.allocate
    (fun handle hlive => hkinds handle hlive.2) fun handle found hfound => ?_
  have hholds : ctx.Holds found := by
    rcases Heap.get?_allocate_eq_some hfound with rfl | hold
    · exact hobject
    · exact hctx.objects handle found hold
  exact hholds.transport fun child _ => hkinds child

/-- A handle that names nothing is no live one, whatever was collected. -/
theorem not_live_of_get?_eq_none
    (hkept : ∀ handle, ctx.Live handle →
      c.heap.get? handle = ctx.heap.get? handle)
    (hnone : c.heap.get? handle = none) : ¬ctx.Live handle := by
  intro hlive
  have hsome := hlive.2
  rw [← hkept handle hlive, hnone] at hsome
  cases hsome

/-! ## The stack -/

theorem toList_prefix_push {α : Type} (xs : Array α) (x : α) :
    xs.toList <+: (xs.push x).toList := by
  rw [Array.toList_push]
  exact List.prefix_append _ _

theorem Keeps.push (h : ctx.Keeps c) (value : Value) :
    ctx.Keeps { c with stack := c.stack.push value } where
  globals := h.globals
  frames := h.frames
  stack := h.stack.trans (toList_prefix_push _ _)
  pinned := h.pinned
  objects := h.objects

theorem valueAt_of_getElem? {i : Nat} {value : Value}
    (h : ctx.stack[i]? = some value) :
    ctx.valueAt (i + 1 : Nat) = .ok value := by
  obtain ⟨hlt, -⟩ := Array.getElem?_eq_some_iff.1 h
  have hslot : ctx.slot? (i + 1 : Nat) = some i := by
    simp only [slot?]
    rw [if_pos ⟨by omega, by omega⟩]
    rfl
  simp only [valueAt, value?]
  rw [hslot, Option.map_some, Array.getD_eq_getD_getElem?, h]
  rfl

/-- The slot of a value that is not nil. -/
theorem absoluteIndex_of_valueAt {index : Int} {value : Value}
    (h : ctx.valueAt index = .ok value) (hvalue : value ≠ .nil) :
    ∃ i : Nat, ctx.stack[i]? = some value ∧
      ctx.absoluteIndex index = .ok (i + 1 : Nat) := by
  simp only [valueAt, value?] at h
  simp only [absoluteIndex, slotOf]
  cases hslot : ctx.slot? index with
  | none =>
    rw [hslot] at h
    cases h
  | some i =>
    rw [hslot] at h
    cases h
    refine ⟨i, ?_, rfl⟩
    dsimp only at hvalue ⊢
    rw [Array.getD_eq_getD_getElem?] at hvalue ⊢
    cases hfound : ctx.stack[i]? with
    | none =>
      rw [hfound] at hvalue
      exact absurd rfl hvalue
    | some found => rfl

theorem valueAt_top {rest : Array Value} {value : Value}
    (h : ctx.stack = rest.push value) : ctx.valueAt (-1) = .ok value := by
  have hslot : ctx.slot? (-1) = some rest.size := by
    simp only [slot?, h, Array.size_push]
    rw [if_neg (by omega), if_pos ⟨by omega, by omega⟩]
    exact congrArg some (Nat.add_sub_cancel rest.size 1)
  simp only [valueAt, value?]
  rw [hslot, h, Option.map_some, Array.getD_eq_getD_getElem?,
    Array.getElem?_push_size]
  rfl

theorem popTop_eq {rest : Array Value} {value : Value}
    (h : ctx.stack = rest.push value) :
    popTop ctx = .ok value { ctx with stack := rest } := by
  simp only [popTop]
  rw [h, Array.back?_push, Array.pop_push]

theorem pop_one_eq {rest : Array Value} {value : Value}
    (h : ctx.stack = rest.push value) :
    pop 1 ctx = .ok () { ctx with stack := rest } := by
  have hshrink : (rest.push value).shrink rest.size = rest := by
    apply Array.toList_inj.1
    rw [Array.toList_shrink, Array.toList_push,
      List.take_left' Array.length_toList]
  simp only [pop, truncateStack]
  rw [h, Array.size_push, if_pos (Nat.le_add_left 1 rest.size),
    Nat.add_sub_cancel, hshrink]

/-! ## New objects on the stack -/

/-- A new table on the stack, and nothing else that is reachable. -/
theorem ends_newTable (hctx : ctx.WellFormed)
    {onError : RuntimeError → Context → Prop} :
    Ends (newTable ctx)
      (fun _ c => ∃ new, c.stack = ctx.stack.push (.table new) ∧
        c.heap.get? new = some (.table .empty) ∧ ¬ctx.Live new ∧ ctx.Keeps c ∧
        c.WellFormed ∧ c.registry = ctx.registry ∧ c.cache = ctx.cache)
      onError := by
  refine (ends_collectIfDue hctx).bind fun _ c hc => ?_
  obtain ⟨hsame, hwell, hkept⟩ := hc
  refine (ends_allocate hwell holds_empty).bind fun new c' hc' => ?_
  obtain ⟨hsame', hwell', hnone, hnew, hothers⟩ := hc'
  have hfresh : ¬ctx.Live new := not_live_of_get?_eq_none hkept hnone
  have hkeeps : ctx.Keeps c' := by
    refine (hsame.trans hsame').keeps fun handle hlive => ?_
    calc
      c'.heap.get? handle = c.heap.get? handle :=
        hothers handle fun heq => hfresh (heq ▸ hlive)
      _ = ctx.heap.get? handle := hkept handle hlive
  refine ⟨new, ?_, hnew, hfresh, hkeeps.push _, hwell'.push ⟨_, hnew⟩, ?_, ?_⟩
  · change c'.stack.push _ = _
    rw [(hsame.trans hsame').stack]
  · exact (hsame.trans hsame').registry
  · exact (hsame.trans hsame').cache

theorem ends_newCells (hctx : ctx.WellFormed) (count : Nat) {value : Value}
    (hvalue : ctx.Names value) {onError : RuntimeError → Context → Prop} :
    Ends (newCells count value ctx)
      (fun cells c => ctx.SameButHeap c ∧ c.WellFormed ∧ cells.length = count ∧
        cells.Nodup ∧ (∀ cell ∈ cells, ctx.heap.get? cell = none) ∧
        (∀ i cell, cells[i]? = some cell →
          c.heap.get? cell = some (.cell (if i = 0 then value else .nil))) ∧
        ∀ handle, handle ∉ cells → c.heap.get? handle = ctx.heap.get? handle)
      onError := by
  induction count generalizing value ctx with
  | zero =>
    exact ⟨⟨rfl, rfl, rfl, rfl, rfl⟩, hctx, rfl, List.nodup_nil, nofun, nofun,
      fun _ _ => rfl⟩
  | succ count ih =>
    have hcell : ctx.Holds (.cell value) := hvalue
    refine (ends_allocate hctx hcell).bind fun first c hc => ?_
    obtain ⟨hsame, hwell, hnone, hfirst, hothers⟩ := hc
    have hnil : c.Names .nil := trivial
    refine (ih hwell hnil).bind fun rest c' hc' => ?_
    obtain ⟨hsame', hwell', hlength, hnodup, hempty, hcontents, hothers'⟩ := hc'
    have hmem : first ∉ rest := by
      intro hmem
      cases hfirst.symm.trans (hempty first hmem)
    refine ⟨hsame.trans hsame', hwell', congrArg Nat.succ hlength,
      List.nodup_cons.2 ⟨hmem, hnodup⟩, fun cell hcell => ?_,
      fun i cell hcell => ?_, fun handle hhandle => ?_⟩
    · rcases List.mem_cons.1 hcell with rfl | hcell
      · exact hnone
      · rw [← hothers cell fun heq => hmem (heq ▸ hcell)]
        exact hempty cell hcell
    · cases i with
      | zero =>
        cases hcell
        rw [hothers' _ hmem]
        exact hfirst
      | succ i =>
        rw [hcontents i cell hcell]
        split <;> rfl
    · rw [List.mem_cons, not_or] at hhandle
      calc
        c'.heap.get? handle = c.heap.get? handle := hothers' handle hhandle.2
        _ = ctx.heap.get? handle := hothers handle hhandle.1

/-- A new function on the stack, whose cells are new too.  The first holds the
globals and the others hold nil. -/
structure PushedFunction (ctx c : Context) (proto : Prototype)
    (function : Handle) (cells : List Handle) : Prop where
  stack : c.stack = ctx.stack.push (.function function)
  closure : c.heap.get? function = some (.closure ⟨proto, cells.toArray⟩)
  length : cells.length = proto.upvalues.size
  nodup : cells.Nodup
  contents : ∀ i cell, cells[i]? = some cell →
    c.heap.get? cell = some (.cell (if i = 0 then ctx.globalsValue else .nil))
  fresh : ∀ handle ∈ function :: cells, ¬ctx.Live handle
  keeps : ctx.Keeps c
  wellFormed : c.WellFormed
  registry : c.registry = ctx.registry

theorem ends_pushMain (hctx : ctx.WellFormed) (proto : Prototype)
    {onError : RuntimeError → Context → Prop} :
    Ends (pushMain proto ctx)
      (fun _ c => c.cache = ctx.cache ∧
        ∃ function cells, ctx.PushedFunction c proto function cells)
      onError := by
  refine (ends_collectIfDue hctx).bind fun _ c hc => ?_
  obtain ⟨hsame, hwell, hkept⟩ := hc
  rw [ends_bind, ends_get]
  refine (ends_newCells hwell _ hwell.globals).bind fun cells c' hc' => ?_
  obtain ⟨hsame', hwell', hlength, hnodup, hempty, hcontents, hothers'⟩ := hc'
  have hclosure : c'.Holds (.closure ⟨proto, cells.toArray⟩) := by
    refine ⟨hlength, fun cell hcell => ?_⟩
    obtain ⟨i, hi⟩ := List.mem_iff_getElem?.1 hcell
    exact ⟨_, hcontents i cell hi⟩
  refine (ends_allocate hwell' hclosure).bind fun function d hd => ?_
  obtain ⟨hsame'', hwell'', hnone, hfunction, hothers⟩ := hd
  have hsames := (hsame.trans hsame').trans hsame''
  have hmem : function ∉ cells := by
    intro hmem
    obtain ⟨i, hi⟩ := List.mem_iff_getElem?.1 hmem
    cases (hcontents i function hi).symm.trans hnone
  have hfresh : ∀ handle ∈ function :: cells, ¬ctx.Live handle := by
    intro handle hhandle
    refine not_live_of_get?_eq_none hkept ?_
    rcases List.mem_cons.1 hhandle with rfl | hcell
    · rw [← hothers' handle hmem]
      exact hnone
    · exact hempty handle hcell
  have hkeeps : ctx.Keeps d := by
    refine hsames.keeps fun handle hlive => ?_
    have hnot : handle ∉ function :: cells :=
      fun hhandle => hfresh handle hhandle hlive
    rw [List.mem_cons, not_or] at hnot
    calc
      d.heap.get? handle = c'.heap.get? handle := hothers handle hnot.1
      _ = c.heap.get? handle := hothers' handle hnot.2
      _ = ctx.heap.get? handle := hkept handle hlive
  refine ⟨hsames.cache, function, cells, ?_, hfunction, hlength, hnodup,
    fun i cell hcell => ?_, hfresh, hkeeps.push _, hwell''.push ⟨_, hfunction⟩,
    hsames.registry⟩
  · change d.stack.push _ = _
    rw [hsames.stack]
  · have hne : cell ≠ function := by
      rintro rfl
      exact hmem (List.mem_of_getElem? hcell)
    change d.heap.get? cell = _
    rw [hothers cell hne, hcontents i cell hcell]
    simp only [globalsValue]
    rw [hsame.globals]

end Isolate.Context
