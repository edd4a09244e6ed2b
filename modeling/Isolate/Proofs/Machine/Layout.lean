import Isolate.Machine.Run
import Isolate.Proofs.Chunk.Verify
import Isolate.Proofs.Heap.Collection
import Isolate.Proofs.Outcome

/-!
# Contexts that run scripts

The invariant of a running context.  Every closure and every frame has a good
prototype and a cell for each of its upvalues, and the frames stand on each
other: the locals of each lie on the stack, below the callee slot of the frame
that it called.  What counts as good is left open; it is accepted code at least,
and nested prototypes share it.
-/

namespace Isolate

/-- A property of accepted prototypes that their nested prototypes share. -/
structure Hereditary (good : Prototype → Prop) : Prop where
  verified : ∀ proto, good proto → proto.verify = .ok ()
  nested : ∀ proto, good proto → ∀ child ∈ proto.protos, good child

/-- The prototypes that verification accepts. -/
def Prototype.Accepted (proto : Prototype) : Prop := proto.verify = .ok ()

theorem Prototype.accepted_of_isOk {proto : Prototype}
    (h : proto.verify.isOk = true) : proto.Accepted := by
  simp only [Accepted]
  cases hverify : proto.verify with
  | ok _ => rfl
  | error e =>
    rw [hverify] at h
    cases h

theorem hereditary_accepted : Hereditary Prototype.Accepted where
  verified := fun _ h => h
  nested := fun _ h _ hchild => Prototype.verify_of_mem_protos h hchild

/-- A good prototype with a cell for each of its upvalues. -/
structure Runnable (good : Prototype → Prop) (proto : Prototype)
    (cells : Array Handle) : Prop where
  good : good proto
  cells : cells.size = proto.upvalues.size

/-- The frames, the innermost first, stand on each other below a height. -/
def Layout : List Frame → Nat → Prop
  | [], _ => True
  | frame :: outer, height =>
    0 < frame.base ∧ frame.localsEnd ≤ height ∧ Layout outer (frame.base - 1)

/-- The height that the innermost frame needs for its locals. -/
def stackFloor : List Frame → Nat
  | [] => 0
  | frame :: _ => frame.localsEnd

theorem Layout.floor_le {frames : List Frame} {height : Nat}
    (h : Layout frames height) : stackFloor frames ≤ height := by
  cases frames with
  | nil => exact Nat.zero_le _
  | cons frame outer => exact h.2.1

theorem Layout.of_floor_le {frames : List Frame} {height other : Nat}
    (h : Layout frames height) (hfloor : stackFloor frames ≤ other) :
    Layout frames other := by
  cases frames with
  | nil => trivial
  | cons frame outer => exact ⟨h.1, hfloor, h.2.2⟩

/-- The callee of a frame lies above the locals of the frame outside of it. -/
theorem Layout.adjacent {before after : List Frame} {inner outer : Frame}
    {height : Nat} (h : Layout (after ++ inner :: outer :: before) height) :
    outer.localsEnd ≤ inner.base - 1 := by
  induction after generalizing height with
  | nil => exact h.2.2.2.1
  | cons frame after ih => exact ih h.2.2

theorem Layout.base_pos {frames : List Frame} {frame : Frame} {height : Nat}
    (h : Layout frames height) (hframe : frame ∈ frames) : 0 < frame.base := by
  induction frames generalizing height with
  | nil => cases hframe
  | cons other rest ih =>
    rcases List.mem_cons.1 hframe with rfl | hframe
    · exact h.1
    · exact ih h.2.2 hframe

theorem Layout.localsEnd_le {frames : List Frame} {frame : Frame} {height : Nat}
    (h : Layout frames height) (hframe : frame ∈ frames) :
    frame.localsEnd ≤ height := by
  induction frames generalizing height with
  | nil => cases hframe
  | cons other rest ih =>
    obtain ⟨hbase, hlocals, hrest⟩ := h
    rcases List.mem_cons.1 hframe with rfl | hframe
    · exact hlocals
    · calc
        frame.localsEnd ≤ other.base - 1 := ih hrest hframe
        _ ≤ other.localsEnd :=
          Nat.le_trans (Nat.sub_le _ _) (Nat.le_add_right _ _)
        _ ≤ height := hlocals

namespace Heap

variable {good : Prototype → Prop} {heap : Heap}

/-- Every closure of the heap can run. -/
def Holds (good : Prototype → Prop) (heap : Heap) : Prop :=
  ∀ handle closure, heap.get? handle = some (.closure closure) →
    Runnable good closure.proto closure.cells

theorem Holds.allocate (h : heap.Holds good) {object : Object}
    (hobject : ∀ closure, object = .closure closure →
      Runnable good closure.proto closure.cells) :
    (heap.allocate object).2.Holds good := by
  intro handle closure hclosure
  rcases get?_allocate_eq_some hclosure with hnew | hold
  · exact hobject closure hnew.symm
  · exact h handle closure hold

theorem Holds.update (h : heap.Holds good) {handle : Handle}
    {f : Object → Object}
    (hf : ∀ object closure, f object = .closure closure →
      object = .closure closure) :
    (heap.update handle f).Holds good := by
  intro other closure hclosure
  rw [get?_update] at hclosure
  split at hclosure
  · obtain ⟨object, hobject, hclosure⟩ := Option.map_eq_some_iff.1 hclosure
    exact h other closure (hf object closure hclosure ▸ hobject)
  · exact h other closure hclosure

theorem Holds.collect (h : heap.Holds good) {roots : List Value}
    {handles : List Handle} :
    (heap.collect roots handles).2.Holds good := fun handle closure hclosure =>
  h handle closure (get?_of_get?_collect hclosure)

end Heap

namespace Context

variable {good : Prototype → Prop} {frames : List Frame} {frame : Frame}
  {outer : List Frame} {ctx ctx' : Context}

theorem size_resizeStack (height : Nat) (ctx : Context) :
    (resizeStack height ctx).stack.size = height := by
  rw [resizeStack]
  split
  · rw [Array.size_append, Array.size_replicate]
    omega
  · rw [Array.size_shrink]
    omega

/-- The invariant of a context whose frames are these, the innermost first. -/
structure Runs (good : Prototype → Prop) (frames : List Frame)
    (ctx : Context) : Prop where
  frames_eq : ctx.frames.toList.reverse = frames
  closures : ctx.heap.Holds good
  cached : ∀ entry ∈ ctx.cache.entries, good entry.2
  runnable : ∀ frame ∈ frames, Runnable good frame.proto frame.cells
  layout : Layout frames ctx.stack.size

/-- Nothing but the closures, the cache and the height of the stack matters. -/
theorem Runs.change (h : ctx.Runs good frames)
    (hframes : ctx'.frames = ctx.frames) (hcache : ctx'.cache = ctx.cache)
    (hheap : ctx'.heap.Holds good)
    (hfloor : stackFloor frames ≤ ctx'.stack.size) : ctx'.Runs good frames where
  frames_eq := hframes ▸ h.frames_eq
  closures := hheap
  cached := hcache ▸ h.cached
  runnable := h.runnable
  layout := h.layout.of_floor_le hfloor

theorem Runs.floor_le (h : ctx.Runs good frames) :
    stackFloor frames ≤ ctx.stack.size :=
  h.layout.floor_le

theorem Runs.withStack (h : ctx.Runs good frames) {stack : Array Value}
    (hfloor : stackFloor frames ≤ stack.size) :
    Runs good frames { ctx with stack } :=
  h.change rfl rfl h.closures hfloor

theorem Runs.withHeap (h : ctx.Runs good frames) {heap : Heap}
    (hheap : heap.Holds good) : Runs good frames { ctx with heap } :=
  h.change rfl rfl hheap h.floor_le

theorem Runs.note (h : ctx.Runs good frames) (notice : Notice) :
    (ctx.note notice).Runs good frames :=
  h.change rfl rfl h.closures h.floor_le

theorem Runs.truncateStack (h : ctx.Runs good frames) {height : Nat}
    (hfloor : stackFloor frames ≤ height) :
    (ctx.truncateStack height).Runs good frames := by
  refine h.change rfl rfl h.closures ?_
  have := h.floor_le
  change _ ≤ (ctx.stack.shrink height).size
  rw [Array.size_shrink]
  omega

theorem Runs.frames_toList (h : ctx.Runs good frames) :
    ctx.frames.toList = frames.reverse := by
  rw [← h.frames_eq, List.reverse_reverse]

theorem Runs.size_eq (h : ctx.Runs good frames) :
    ctx.frames.size = frames.length := by
  rw [← h.frames_eq, List.length_reverse, Array.length_toList]

theorem Runs.frames_push (h : ctx.Runs good (frame :: outer)) :
    ctx.frames = outer.reverse.toArray.push frame := by
  apply Array.toList_inj.1
  rw [h.frames_toList, List.reverse_cons, Array.toList_push]

theorem Runs.back? (h : ctx.Runs good (frame :: outer)) :
    ctx.frames.back? = some frame := by
  rw [h.frames_push, Array.back?_push]

theorem Runs.popped (h : ctx.Runs good (frame :: outer)) :
    Runs good outer { ctx with frames := ctx.frames.pop } where
  frames_eq := by
    change ctx.frames.pop.toList.reverse = outer
    rw [h.frames_push, Array.pop_push, List.reverse_reverse]
  closures := h.closures
  cached := h.cached
  runnable := fun other hother =>
    h.runnable other (List.mem_cons_of_mem frame hother)
  layout := h.layout.2.2.of_floor_le (by
    have hfloor := h.layout.2.2.floor_le
    have hlocals : frame.base + frame.proto.numLocals.toNat ≤ ctx.stack.size :=
      h.layout.2.1
    change stackFloor outer ≤ ctx.stack.size
    omega)

/-- The innermost frame stands at another offset. -/
theorem Runs.moved (h : ctx.Runs good (frame :: outer)) (offset : Nat) :
    Runs good ({ frame with ip := offset } :: outer)
      { ctx with
        frames := ctx.frames.modify (ctx.frames.size - 1) fun frame =>
          { frame with ip := offset } } where
  frames_eq := by
    have hmodify : ∀ f : Frame → Frame,
        (outer.reverse.toArray.push frame).modify outer.length f =
          outer.reverse.toArray.push (f frame) := by
      intro f
      apply Array.ext_getElem?
      intro i
      rw [Array.getElem?_modify, Array.getElem?_push, Array.getElem?_push]
      by_cases hi : i = outer.length
      · simp [hi]
      · simp [hi, Ne.symm hi]
    change (ctx.frames.modify (ctx.frames.size - 1) _).toList.reverse = _
    rw [h.size_eq, h.frames_push]
    simp only [List.length_cons, Nat.add_sub_cancel]
    rw [hmodify, Array.toList_push, List.reverse_append, List.reverse_reverse]
    rfl
  closures := h.closures
  cached := h.cached
  runnable := by
    intro other hother
    rcases List.mem_cons.1 hother with rfl | hother
    · obtain ⟨hgood, hcells⟩ := h.runnable frame List.mem_cons_self
      exact ⟨hgood, hcells⟩
    · exact h.runnable other (List.mem_cons_of_mem frame hother)
  layout := h.layout

/-- A new innermost frame stands on the others. -/
theorem Runs.entered (h : ctx.Runs good frames) {new : Frame}
    (hnew : Runnable good new.proto new.cells) (hbase : 0 < new.base)
    (hfloor : stackFloor frames ≤ new.base - 1) {stack : Array Value}
    (hstack : new.localsEnd ≤ stack.size) :
    Runs good (new :: frames)
      { ctx with stack, frames := ctx.frames.push new } where
  frames_eq := by
    change (ctx.frames.push new).toList.reverse = _
    rw [Array.toList_push, List.reverse_append, h.frames_eq]
    rfl
  closures := h.closures
  cached := h.cached
  runnable := by
    intro other hother
    rcases List.mem_cons.1 hother with rfl | hother
    · exact hnew
    · exact h.runnable other hother
  layout := ⟨hbase, hstack, h.layout.of_floor_le hfloor⟩

/-- Cutting the frames back to the outer ones. -/
theorem Runs.unwound {inner : List Frame} (h : ctx.Runs good (inner ++ outer))
    {height : Nat} (hfloor : stackFloor outer ≤ height)
    (hheight : height ≤ ctx.stack.size) (hlayout : Layout outer height) :
    Runs good outer
      (Context.truncateStack height
        { ctx with frames := ctx.frames.shrink outer.length }) where
  frames_eq := by
    change (ctx.frames.shrink outer.length).toList.reverse = outer
    rw [Array.toList_shrink, h.frames_toList, List.reverse_append,
      List.take_left' (by simp), List.reverse_reverse]
  closures := h.closures
  cached := h.cached
  runnable := fun other hother =>
    h.runnable other (List.mem_append_right inner hother)
  layout := by
    apply hlayout.of_floor_le
    change _ ≤ (ctx.stack.shrink height).size
    rw [Array.size_shrink]
    omega

end Context

end Isolate
