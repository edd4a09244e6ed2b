import Isolate.Context.Functions
import Isolate.Proofs.Context.Assignment
import Isolate.Proofs.Context.Queries
import Isolate.Proofs.Machine.Layout

/-!
# Intact contexts

In an intact context no handle dangles, all code was accepted, and every frame
runs a function that is there.  The operations of a context keep it intact,
whether they succeed or fail, as long as the values that they are given name
something, and then they never find a handle that names nothing.
-/

namespace Isolate

/-- The failure that comes from a handle that names nothing. -/
def RuntimeError.Dangles : RuntimeError → Prop
  | .danglingHandle _ => True
  | _ => False

theorem RuntimeError.Misplaced.not_dangles {e : RuntimeError}
    (h : e.Misplaced) : ¬e.Dangles := by
  cases e with
  | danglingHandle => exact h.elim
  | _ => exact id

namespace Context

variable {ctx c : Context} {handle : Handle} {α : Type}

/-- No handle dangles, all code was accepted, and every frame runs a
function that is there. -/
structure Intact (ctx : Context) : Prop extends ctx.WellFormed where
  code : ∀ handle closure, ctx.heap.get? handle = some (.closure closure) →
    closure.proto.Accepted
  cached : ∀ entry ∈ ctx.cache.entries, entry.2.Accepted
  running : ∀ frame ∈ ctx.frames.toList,
    ctx.heap.get? frame.closure = some (.closure ⟨frame.proto, frame.cells⟩)

/-- A failure that leaves a context intact and does not come from a handle that
names nothing. -/
structure FailsIntact (error : RuntimeError) (ctx : Context) : Prop where
  named : ¬error.Dangles
  intact : ctx.Intact

theorem Intact.fails (h : ctx.Intact) {error : RuntimeError}
    (herror : ¬error.Dangles) : FailsIntact error ctx :=
  ⟨herror, h⟩

/-! ## What values name -/

theorem Names.of_heap {value : Value} (h : ctx.Names value)
    (hheap : c.heap = ctx.heap) : c.Names value :=
  h.transport fun _ _ _ => .of_eq (by rw [hheap])

theorem names_of_plain {value : Value} (h : value.handle? = none) :
    ctx.Names value := by
  cases value with
  | table => cases h
  | function => cases h
  | userdata => cases h
  | _ => trivial

theorem names_getD {slot : Nat}
    (h : ∀ value ∈ ctx.stack.toList, ctx.Names value) :
    ctx.Names (ctx.stack.getD slot .nil) := by
  rw [Array.getD_eq_getD_getElem?]
  cases hfound : ctx.stack[slot]? with
  | none => trivial
  | some value =>
    exact h value (Array.mem_toList_iff.2 (Array.mem_of_getElem? hfound))

theorem Names.key {value : Value} {key : Key} (h : ctx.Names value)
    (hkey : value.key? = some key) : ctx.Names key.toValue := by
  cases value with
  | float x =>
    simp only [Value.key?] at hkey
    split at hkey
    · cases hkey
    · split at hkey <;> cases hkey <;> trivial
  | nil => cases hkey
  | _ =>
    cases hkey
    exact h

/-- What a table binds names something. -/
theorem Holds.get {table : Table} (h : ctx.Holds (.table table)) (key : Key) :
    ctx.Names (table.get key) := by
  simp only [Table.get]
  cases hfound : table.find? key with
  | none => trivial
  | some value => exact (h key value (Table.find?_eq_some_iff.1 hfound)).2.2

/-- The cells of a running function are there. -/
theorem Intact.cells_of_frame (h : ctx.Intact) {frame : Frame}
    (hframe : frame ∈ ctx.frames.toList) {cell : Handle}
    (hcell : cell ∈ frame.cells.toList) :
    ∃ value, ctx.heap.get? cell = some (.cell value) :=
  (h.objects _ _ (h.running frame hframe)).2 cell hcell

theorem Intact.names_of_cell (h : ctx.Intact) {value : Value}
    (hcell : ctx.heap.get? handle = some (.cell value)) : ctx.Names value :=
  h.objects handle _ hcell

/-! ## Changes that leave the heap -/

/-- A context stays intact while its heap stays the same and its roots
name what is there. -/
theorem Intact.change (h : ctx.Intact) (hheap : c.heap = ctx.heap)
    (hglobals : c.globals = ctx.globals) (hregistry : c.registry.WellFormed)
    (hcached : ∀ entry ∈ c.cache.entries, entry.2.Accepted)
    (hstack : ∀ value ∈ c.stack.toList, ctx.Names value)
    (hpinned : ∀ pin value, c.registry.get? pin = some value → ctx.Names value)
    (hframes : ∀ frame ∈ c.frames.toList,
      ctx.heap.get? frame.closure =
        some (.closure ⟨frame.proto, frame.cells⟩)) : c.Intact where
  heap := hheap ▸ h.heap
  registry := hregistry
  objects := by
    intro handle object hobject
    rw [hheap] at hobject
    exact (h.objects handle object hobject).transport
      fun _ _ _ => .of_eq (by rw [hheap])
  stack := fun value hvalue => (hstack value hvalue).of_heap hheap
  pinned := fun pin value hvalue => (hpinned pin value hvalue).of_heap hheap
  globals := by
    rw [globalsValue, hglobals]
    exact h.globals.of_heap hheap
  frames := by
    intro frame hframe
    have hclosure : ctx.Names (.function frame.closure) :=
      ⟨_, hframes frame hframe⟩
    exact hclosure.of_heap hheap
  code := by
    rw [hheap]
    exact h.code
  cached := hcached
  running := by
    rw [hheap]
    exact hframes

theorem Intact.withStack (h : ctx.Intact) {stack : Array Value}
    (hstack : ∀ value ∈ stack.toList, ctx.Names value) :
    ({ ctx with stack } : Context).Intact :=
  h.change rfl rfl h.registry h.cached hstack h.pinned h.running

theorem Intact.note (h : ctx.Intact) (notice : Notice) :
    (ctx.note notice).Intact :=
  h.change rfl rfl h.registry h.cached h.stack h.pinned h.running

theorem Intact.push (h : ctx.Intact) {value : Value}
    (hvalue : ctx.Names value) :
    ({ ctx with stack := ctx.stack.push value } : Context).Intact := by
  refine h.withStack fun found hfound => ?_
  rw [Array.toList_push] at hfound
  rcases List.mem_append.1 hfound with hfound | hfound
  · exact h.stack found hfound
  · cases List.mem_singleton.1 hfound
    exact hvalue

theorem Intact.truncateStack (h : ctx.Intact) (height : Nat) :
    (ctx.truncateStack height).Intact := by
  refine h.withStack fun value hvalue => h.stack value ?_
  rw [Array.toList_shrink] at hvalue
  exact List.mem_of_mem_take hvalue

theorem Intact.resizeStack (h : ctx.Intact) (height : Nat) :
    (ctx.resizeStack height).Intact := by
  refine h.withStack fun value hvalue => ?_
  split at hvalue
  · rw [Array.toList_append, Array.toList_replicate] at hvalue
    rcases List.mem_append.1 hvalue with hvalue | hvalue
    · exact h.stack value hvalue
    · rw [List.eq_of_mem_replicate hvalue]
      trivial
  · rw [Array.toList_shrink] at hvalue
    exact h.stack value (List.mem_of_mem_take hvalue)

theorem Intact.withPin (h : ctx.Intact) {value : Value}
    (hvalue : ctx.Names value) :
    ({ ctx with registry := (ctx.registry.pin value).2 } : Context).Intact := by
  refine h.change rfl rfl h.registry.pin h.cached h.stack
    (fun pin found hfound => ?_) h.running
  rcases Registry.get?_pin_eq_some hfound with rfl | hfound
  · exact hvalue
  · exact h.pinned pin found hfound

theorem Intact.withoutPin (h : ctx.Intact) (pin : Pin) :
    ({ ctx with registry := ctx.registry.unpin pin } : Context).Intact :=
  h.change rfl rfl h.registry.unpin h.cached h.stack
    (fun _ _ hfound =>
      h.pinned _ _ (Registry.get?_of_get?_unpin hfound)) h.running

/-- Frames are dropped. -/
theorem Intact.withFrames (h : ctx.Intact) {frames : Array Frame}
    (hframes : ∀ frame ∈ frames.toList, frame ∈ ctx.frames.toList) :
    ({ ctx with frames } : Context).Intact :=
  h.change rfl rfl h.registry h.cached h.stack h.pinned fun frame hframe =>
    h.running frame (hframes frame hframe)

/-! ## Changes of the heap -/

/-- A context stays intact when its heap changes as long as what is
live keeps its kind, running functions stay what they are, and new
code is accepted code. -/
theorem SameButHeap.intact (hsame : ctx.SameButHeap c) (h : ctx.Intact)
    (hc : c.WellFormed)
    (hcode : ∀ handle closure, c.heap.get? handle = some (.closure closure) →
      ctx.heap.get? handle = some (.closure closure) ∨ closure.proto.Accepted)
    (hframes : ∀ frame ∈ ctx.frames.toList,
      c.heap.get? frame.closure = ctx.heap.get? frame.closure) : c.Intact where
  toWellFormed := hc
  code := fun handle closure hclosure =>
    (hcode handle closure hclosure).elim (h.code _ _) id
  cached := hsame.cache ▸ h.cached
  running := by
    rw [hsame.frames]
    exact fun frame hframe =>
      (hframes frame hframe).trans (h.running frame hframe)

theorem Intact.collected (h : ctx.Intact) :
    Ends (collect ctx) (fun _ c => c.Intact ∧ ctx.SameButHeap c)
      FailsIntact := by
  have hkept : ∀ handle, ctx.Reaches handle →
      (ctx.heap.collect ctx.rootValues ctx.rootHandles).2.get? handle =
        ctx.heap.get? handle :=
    fun handle => h.heap.get?_collect_of_reached
  have hsame : ctx.SameButHeap
      { ctx with
        heap := (ctx.heap.collect ctx.rootValues ctx.rootHandles).2 } :=
    ⟨rfl, rfl, rfl, rfl, rfl⟩
  have hwell := hsame.wellFormed h.toWellFormed h.heap.collect
    (fun handle hlive => .of_eq (hkept handle hlive.1))
    fun handle object hobject => by
      obtain ⟨hreached, hold⟩ := h.heap.get?_collect.1 hobject
      exact (h.objects handle object hold).transport fun child hchild _ =>
        .of_eq (hkept child (hreached.child hold hchild))
  have hintact := hsame.intact h hwell
    (fun handle closure hclosure => Or.inl (Heap.get?_of_get?_collect hclosure))
    fun frame hframe => hkept _ (reaches_of_frame hframe)
  exact ⟨hintact.note _, ⟨rfl, rfl, rfl, rfl, rfl⟩⟩

theorem Intact.ends_collectIfDue (h : ctx.Intact) :
    Ends (collectIfDue ctx) (fun _ c => c.Intact ∧ ctx.SameButHeap c)
      FailsIntact := by
  simp only [collectIfDue]
  rw [ends_bind, ends_get]
  split
  · exact h.collected.bind fun _ c hc => hc
  · exact ⟨h, ⟨rfl, rfl, rfl, rfl, rfl⟩⟩

/-- A new object leaves every other one where it is. -/
theorem Intact.ends_allocate (h : ctx.Intact) {object : Object}
    (hobject : ctx.Holds object)
    (hcode : ∀ closure, object = .closure closure → closure.proto.Accepted) :
    Ends (allocate object ctx)
      (fun new c =>
        c.Intact ∧ ctx.SameButHeap c ∧ c.heap.get? new = some object ∧
          ∀ handle found, ctx.heap.get? handle = some found →
            c.heap.get? handle = some found)
      FailsIntact := by
  have hallocated : Ends (allocate object ctx) _ fun _ _ => False :=
    Context.ends_allocate h.toWellFormed hobject
  obtain ⟨hsame, hwell, hnone, hnew, hothers⟩ := hallocated
  have hkept : ∀ handle found, ctx.heap.get? handle = some found →
      (ctx.heap.allocate object).2.get? handle = some found := by
    intro handle found hfound
    refine (hothers handle ?_).trans hfound
    rintro rfl
    cases hnone.symm.trans hfound
  refine ⟨hsame.intact h hwell (fun handle closure hclosure => ?_)
    fun frame hframe => ?_, hsame,
    hnew, hkept⟩
  · rcases Heap.get?_allocate_eq_some hclosure with heq | hold
    · exact Or.inr (hcode closure heq.symm)
    · exact Or.inl hold
  · exact (hkept _ _ (h.running frame hframe)).trans
      (h.running frame hframe).symm

/-- An object changes, keeps its kind, and holds nothing that dangles. -/
theorem Intact.updated (h : ctx.Intact) {f : Object → Object}
    (hkind : Object.SameKind (ctx.heap.get? handle)
      ((ctx.heap.get? handle).map f))
    (hholds : ∀ object, ctx.heap.get? handle = some object →
      ctx.Holds (f object)) :
    ({ ctx with heap := ctx.heap.update handle f } : Context).Intact := by
  have hclosures : ∀ other closure,
      (ctx.heap.update handle f).get? other = some (.closure closure) ↔
      ctx.heap.get? other = some (.closure closure) := by
    intro other closure
    have hother := hkind.update other
    constructor
    · intro hclosure
      rw [hclosure] at hother
      rcases hbefore :
        ctx.heap.get? other with - | (table | before | value | block)
      · rw [hbefore] at hother
        cases hother
      · rw [hbefore] at hother
        obtain ⟨_, heq⟩ := hother
        cases heq
      · rw [hbefore] at hother
        exact hother.symm
      · rw [hbefore] at hother
        obtain ⟨_, heq⟩ := hother
        cases heq
      · rw [hbefore] at hother
        cases hother
    · intro hclosure
      rw [hclosure] at hother
      exact hother
  have hsame : ctx.SameButHeap { ctx with heap := ctx.heap.update handle f } :=
    ⟨rfl, rfl, rfl, rfl, rfl⟩
  refine hsame.intact h (h.toWellFormed.updated hkind hholds)
    (fun other closure hclosure =>
      Or.inl ((hclosures other closure).1 hclosure))
    fun frame hframe => ?_
  have hrunning := h.running frame hframe
  exact ((hclosures _ _).2 hrunning).trans hrunning.symm

/-! ## Contexts given by their objects -/

theorem intact_holding {objects : List Object} {stack : Array Value}
    (h : (holding objects stack).WellFormed)
    (hcode : ∀ closure, .closure closure ∈ objects → closure.proto.Accepted) :
    (holding objects stack).Intact where
  toWellFormed := h
  code := fun _ closure hclosure =>
    hcode closure (List.mem_of_getElem? (get?_holding.symm.trans hclosure))
  cached := nofun
  running := nofun

theorem intact_bare : bare.Intact := by
  refine intact_holding wellFormed_bare fun closure hclosure => ?_
  cases List.mem_singleton.1 hclosure

end Context

end Isolate
