import Isolate.Proofs.Heap.Access
import Isolate.Proofs.Machine.Lockstep

/-!
# Names make no difference

Two contexts that differ in the debug information and the upvalue names of their
prototypes run alike.  A context without names stands for all that differ from
it in no other way; collections commute with dropping names, and so does making
objects.
-/

namespace Isolate

/-! ## Dropping names -/

/-- A closure is as if made from the stripped prototype. -/
def Object.nameless : Object → Object
  | .closure ⟨proto, cells⟩ => .closure ⟨proto.stripped, cells⟩
  | object => object

def Entry.nameless (entry : Entry) : Entry :=
  { entry with object := entry.object.nameless }

def Heap.nameless (heap : Heap) : Heap :=
  { heap with slots := heap.slots.map (Option.map Entry.nameless) }

def Frame.nameless (frame : Frame) : Frame :=
  { frame with proto := frame.proto.stripped }

/-- Where an instruction is in the source is debug information. -/
def Notice.nameless : Notice → Notice
  | .executing _ offset op operands depth top =>
    .executing "" offset op operands depth top
  | notice => notice

/-- The context without the debug information and the upvalue names of its
closures and frames. -/
def Context.nameless (ctx : Context) : Context :=
  { ctx with
    heap := ctx.heap.nameless
    frames := ctx.frames.map Frame.nameless
    journal := ctx.journal.map Notice.nameless }

@[simp]
theorem Object.children_nameless (object : Object) :
    object.nameless.children = object.children := by
  cases object <;> rfl

namespace Heap

variable {heap : Heap} {object : Object}

theorem get?_nameless (heap : Heap) (handle : Handle) :
    heap.nameless.get? handle = (heap.get? handle).map Object.nameless := by
  simp only [get?, nameless]
  rw [Array.getElem?_map]
  rcases heap.slots[handle.index]? with - | - | entry <;> rfl

theorem allocate_nameless (heap : Heap) (object : Object) :
    heap.nameless.allocate object.nameless =
      ((heap.allocate object).1, (heap.allocate object).2.nameless) := by
  simp only [allocate, nameless]
  cases heap.free with
  | nil => simp [Entry.nameless]
  | cons slot rest => simp [Entry.nameless]

theorem mark_nameless (slots : Array (Option Entry)) (worklist : List Handle) :
    mark (slots.map (Option.map Entry.nameless)) worklist =
      (mark slots worklist).map (Option.map Entry.nameless) := by
  have hsize : ∀ slots : Array (Option Entry),
      (slots.map (Option.map Entry.nameless)).size = slots.size :=
    fun _ => Array.size_map
  fun_induction mark slots worklist with
  | case1 slots => rw [mark]
  | case2 slots handle rest h hentry ih =>
    rw [← ih, mark, dif_pos (hsize slots ▸ h)]
    split
    · rfl
    · next entry heq => simp [hentry] at heq
  | case3 slots handle rest h entry hentry hmark ih =>
    rw [← ih, mark, dif_pos (hsize slots ▸ h)]
    split
    · rfl
    · next found heq =>
      obtain rfl : entry.nameless = found := by simpa [hentry] using heq
      exact dif_pos hmark
  | case4 slots handle rest h entry hentry hmark ih =>
    rw [← ih, mark, dif_pos (hsize slots ▸ h)]
    split
    · next heq => simp [hentry] at heq
    · next found heq =>
      obtain rfl : entry.nameless = found := by simpa [hentry] using heq
      refine (dif_neg hmark).trans ?_
      rw [Array.map_set]
      simp [Entry.nameless]
  | case5 slots handle rest h ih =>
    rw [← ih, mark, dif_neg (hsize slots ▸ h)]

theorem liveCount_nameless (heap : Heap) :
    heap.nameless.liveCount = heap.liveCount := by
  simp only [liveCount, nameless, Array.countP_map]
  congr 1
  funext slot
  exact Option.isSome_map

theorem garbage_nameless (slots : Array (Option Entry)) :
    garbage (slots.map (Option.map Entry.nameless)) = garbage slots := by
  have hunmarked :
      ∀ i, isUnmarked ((slots.map (Option.map Entry.nameless)).getD i none) =
        isUnmarked (slots.getD i none) := by
    intro i
    rw [Array.getD_eq_getD_getElem?, Array.getD_eq_getD_getElem?,
      Array.getElem?_map]
    rcases slots[i]? with - | - | entry <;> rfl
  simp only [garbage, Array.size_map, hunmarked]

theorem sweepSlot_nameless (slot : Option Entry) :
    sweepSlot (slot.map Entry.nameless) =
      (sweepSlot slot).map Entry.nameless := by
  cases slot with
  | none => rfl
  | some entry =>
    obtain ⟨object, marked⟩ := entry
    cases marked <;> rfl

theorem collect_nameless (heap : Heap) (roots : List Value)
    (handles : List Handle) :
    heap.nameless.collect roots handles =
      ((heap.collect roots handles).1,
        (heap.collect roots handles).2.nameless) := by
  have hslots : ∀ slots : Array (Option Entry),
      (slots.map (Option.map Entry.nameless)).map sweepSlot =
        (slots.map sweepSlot).map (Option.map Entry.nameless) := by
    intro slots
    rw [Array.map_map, Array.map_map]
    exact congrArg (slots.map ·) (funext sweepSlot_nameless)
  simp only [collect, liveCount_nameless]
  simp only [nameless, mark_nameless, garbage_nameless, hslots]

/-- Objects that differ in names are changed in the same way. -/
theorem update_nameless {heap other : Heap} {handle : Handle}
    {f g : Object → Object} (hheap : heap.nameless = other.nameless)
    (hfg : ∀ object object' : Object, object.nameless = object'.nameless →
      (f object).nameless = (g object').nameless) :
    (heap.update handle f).nameless = (other.update handle g).nameless := by
  have hsame : ∀ slots others : Array (Option Entry),
      Pointwise (fun slot other =>
        slot.map Entry.nameless = other.map Entry.nameless) slots others
        ↔ slots.map (Option.map Entry.nameless) =
          others.map (Option.map Entry.nameless) :=
    fun _ _ => pointwise_iff_map_eq fun _ _ => Iff.rfl
  obtain ⟨hslots, hfree, hallocated, hthreshold, henabled, hcollections,
      hallocations⟩ :=
    Heap.mk.inj hheap
  have hmodified := ((hsame _ _).2 hslots).modify handle.index
    (f := fun slot =>
      slot.map fun entry => { entry with object := f entry.object })
    (g := fun slot =>
      slot.map fun entry => { entry with object := g entry.object })
    fun slot slot' hslot => ?_
  · simp only [nameless, update]
    rw [(hsame _ _).1 hmodified, hfree, hallocated, hthreshold, henabled,
      hcollections, hallocations]
  · cases slot with
    | none =>
      cases slot' with
      | none => rfl
      | some entry => cases hslot
    | some entry =>
      cases slot' with
      | none => cases hslot
      | some entry' =>
        obtain ⟨hobject, hmarked⟩ := Entry.mk.inj (Option.some.inj hslot)
        simp only [Option.map_some, Entry.nameless]
        rw [hfg _ _ hobject, hmarked]

end Heap

/-! ## The same but for names -/

theorem RuntimeError.alike_eq_iff {error other : RuntimeError} :
    error.Alike Eq other ↔ error = other := by
  refine ⟨?_, Or.inl⟩
  rintro (rfl | ⟨handle, _, rfl, rfl, rfl⟩)
  · rfl
  · rfl

theorem Value.alike_eq : Value.Alike Eq = Eq := by
  funext value other
  refine propext ⟨fun h => ?_, ?_⟩
  · cases h with
    | plain => rfl
    | table h => rw [h]
    | function h => rw [h]
    | userdata h => rw [h]
  · rintro rfl
    exact .self fun _ _ => rfl

theorem Table.alike_eq_iff {table other : Table} :
    table.Alike Eq other ↔ table = other := by
  have hentry : Binding.Alike Eq = Eq := by
    funext entry other
    refine propext ⟨fun h => ?_, ?_⟩
    · rw [Binding.Alike, Key.Alike, Value.alike_eq] at h
      exact Prod.ext (Key.toValue_injective h.1) h.2
    · rintro rfl
      rw [Binding.Alike, Key.Alike, Value.alike_eq]
      exact ⟨rfl, rfl⟩
  rw [Table.Alike, hentry, List.forall₂_eq_eq_eq]
  obtain ⟨entries, _, _⟩ := table
  obtain ⟨others, _, _⟩ := other
  simp

/-- Prototypes that differ in nothing but debug information and upvalue
names, at any level. -/
def Prototype.SameCode (proto other : Prototype) : Prop :=
  proto.stripped = other.stripped

theorem Prototype.SameCode.nested {proto other : Prototype}
    (h : proto.SameCode other) :
    List.Forall₂ Prototype.SameCode proto.protos other.protos := by
  have hprotos : proto.protos.map stripped = other.protos.map stripped := by
    rw [← proto.stripped_protos, h, other.stripped_protos]
  rw [← List.forall₂_eq_eq_eq, List.forall₂_map_left_iff,
    List.forall₂_map_right_iff] at hprotos
  exact hprotos

theorem Object.matches_iff (object other : Object) :
    object.Matches Prototype.SameCode Eq other ↔
      object.nameless = other.nameless := by
  constructor
  · intro h
    cases h with
    | table h => rw [Table.alike_eq_iff.1 h]
    | @closure function function' hproto hcells =>
      have hproto : function.proto.stripped = function'.proto.stripped := hproto
      simp only [nameless]
      rw [hproto, pointwise_eq_iff.1 hcells]
    | cell h =>
      rw [Value.alike_eq] at h
      rw [h]
    | userdata => rfl
  · intro h
    cases object with
    | table table =>
      cases other with
      | table table' =>
        cases h
        exact .table (Table.alike_eq_iff.2 rfl)
      | _ => cases h
    | closure function =>
      cases other with
      | closure function' =>
        obtain ⟨hproto, hcells⟩ := Closure.mk.inj (Object.closure.inj h)
        exact .closure hproto (pointwise_eq_iff.2 hcells)
      | _ => cases h
    | cell value =>
      cases other with
      | cell value' =>
        cases h
        exact .cell (.self fun _ _ => rfl)
      | _ => cases h
    | userdata block =>
      cases other with
      | userdata block' =>
        cases h
        exact .userdata block
      | _ => cases h

theorem Frame.matches_iff (frame other : Frame) :
    frame.Matches Prototype.SameCode Eq other ↔
      frame.nameless = other.nameless := by
  constructor
  · intro h
    have hproto : frame.proto.stripped = other.proto.stripped := h.proto
    rw [nameless, nameless, h.closure, hproto, pointwise_eq_iff.1 h.cells,
      h.ip, h.base]
  · intro h
    obtain ⟨hclosure, hproto, hcells, hip, hbase⟩ := Frame.mk.inj h
    exact ⟨hclosure, hproto, pointwise_eq_iff.2 hcells, hip, hbase⟩

namespace Machine

open Context

/-- Objects that correspond lie in the same slots, and differ in names. -/
def nameless : Likeness where
  protos := Prototype.SameCode
  settings := Eq
  heaps := fun pairs heap other => pairs = Eq ∧ heap.nameless = other.nameless
  journals := fun journal other =>
    journal.map Notice.nameless = other.map Notice.nameless
  legible := True
  stripped := id
  nested := Prototype.SameCode.nested
  limits := fun h => ⟨congrArg _ h, congrArg _ h⟩
  oneToOne := by
    rintro pairs heap other ⟨rfl, -⟩
    exact ⟨fun _ _ _ h h' => h.symm.trans h', fun _ _ _ h h' => h.trans h'.symm⟩
  objects := by
    rintro pairs heap other left right ⟨rfl, hheap⟩ rfl
    refine (rel_iff_map_eq Object.matches_iff).2 ?_
    rw [← Heap.get?_nameless, hheap, Heap.get?_nameless]
  absent := by
    rintro pairs heap other left right ⟨rfl, -⟩ hpair -
    exact hpair
  shown := by
    rintro - pairs heap other left right ⟨rfl, -⟩ hpair
    exact hpair
  update := by
    rintro pairs heap other left right f g ⟨rfl, hheap⟩ rfl hfg
    exact ⟨rfl, Heap.update_nameless hheap fun object object' hobject =>
      (Object.matches_iff _ _).1 (hfg object object'
        ((Object.matches_iff _ _).2 hobject))⟩
  allocate := by
    rintro pairs heap other object object' ⟨rfl, hheap⟩ hobject
    have hallocated := Heap.allocate_nameless heap object
    rw [hheap, (Object.matches_iff _ _).1 hobject,
      Heap.allocate_nameless] at hallocated
    obtain ⟨hhandle, hheap⟩ := Prod.mk.inj hallocated
    exact ⟨Eq, fun _ _ => id, ⟨rfl, hheap.symm⟩, hhandle.symm⟩
  executed := by
    intro journal other hjournal location location' offset op operands depth top
    rw [Array.map_push, Array.map_push, hjournal]
    rfl
  failed := by
    rintro pairs heap heap' journal other error error' ⟨rfl, -⟩ hjournal herror
    rw [Array.map_push, Array.map_push, hjournal,
      RuntimeError.alike_eq_iff.1 herror]

theorem parallel_nameless_iff {pairs : Handle → Handle → Prop} {c d : Context} :
    Parallel nameless pairs c d ↔ pairs = Eq ∧ c.nameless = d.nameless := by
  constructor
  · intro h
    obtain ⟨rfl, hheap⟩ := h.heap
    have hframes := (pointwise_iff_map_eq Frame.matches_iff).1 h.frames
    have hjournal : c.journal.map Notice.nameless =
        d.journal.map Notice.nameless := h.journal
    have hsettings : c.settings = d.settings := h.settings
    have hstack := h.stack
    have hslots := h.slots
    rw [Value.alike_eq, pointwise_eq_iff] at hstack
    rw [Value.alike_eq, rel_eq, pointwise_eq_iff] at hslots
    have hregistry : c.registry = d.registry := by
      have hfree := h.free
      revert hslots hfree
      cases c.registry
      cases d.registry
      rintro rfl rfl
      rfl
    refine ⟨rfl, ?_⟩
    rw [Context.nameless, Context.nameless, hheap, hframes, hjournal, hsettings,
      hstack, hregistry, h.globals, h.cache, h.bindings, h.tracing]
  · rintro ⟨rfl, h⟩
    obtain ⟨hheap, hstack, hframes, hregistry, hglobals, hbindings, hcache,
        hsettings, htracing, hjournal⟩ := Context.mk.inj h
    refine ⟨⟨rfl, hheap⟩, ?_,
      (pointwise_iff_map_eq Frame.matches_iff).2 hframes, hglobals, ?_,
      congrArg Registry.free hregistry, hcache, hsettings, hbindings,
      htracing, hjournal⟩
    · rw [Value.alike_eq, pointwise_eq_iff]
      exact hstack
    · rw [Value.alike_eq, rel_eq, pointwise_eq_iff]
      exact congrArg Registry.slots hregistry

theorem rootHandles_nameless (ctx : Context) :
    ctx.nameless.rootHandles = ctx.rootHandles := by
  simp only [rootHandles, Context.nameless, Array.toList_map, List.map_map]
  rfl

/-- Collections do not look at names. -/
theorem collect_nameless (ctx : Context) :
    collect ctx.nameless =
      .ok (ctx.heap.collect ctx.rootValues ctx.rootHandles).1
        (stateOf (collect ctx)).nameless := by
  change (fun collected : Nat × Heap => EStateM.Result.ok collected.1
    (note (.collected collected.1 collected.2.liveCount)
      { ctx.nameless with heap := collected.2 }))
    (ctx.heap.nameless.collect ctx.rootValues ctx.nameless.rootHandles) = _
  rw [rootHandles_nameless, Heap.collect_nameless]
  dsimp only
  rw [Heap.liveCount_nameless]
  simp only [collect, stateOf, note, Context.nameless, Array.map_push]
  rfl

theorem collectIfDue_nameless (ctx : Context) :
    ∃ ctx', collectIfDue ctx = .ok () ctx' ∧
      collectIfDue ctx.nameless = .ok () ctx'.nameless := by
  simp only [collectIfDue]
  rw [get_bind, get_bind]
  change ∃ ctx', (if ctx.heap.due then _ else _ : Action Unit) ctx = _ ∧
    (if ctx.heap.due then _ else _ : Action Unit) ctx.nameless = _
  split
  · refine ⟨stateOf (collect ctx), rfl, ?_⟩
    rw [bind_of_ok (collect_nameless ctx)]
    rfl
  · exact ⟨ctx, rfl, rfl⟩

theorem lasting_nameless (natives : Natives) :
    nameless.Lasting natives (fun _ => True) fun _ => True where
  collected := by
    intro pairs c d _ _ h
    obtain ⟨rfl, hnameless⟩ := parallel_nameless_iff.1 h
    obtain ⟨c', hc, hc'⟩ := collectIfDue_nameless c
    obtain ⟨d', hd, hd'⟩ := collectIfDue_nameless d
    rw [hnameless, hd'] at hc'
    obtain ⟨-, hcollected⟩ := EStateM.Result.ok.inj hc'
    rw [hc, hd]
    exact ⟨Eq, parallel_nameless_iff.2 ⟨rfl, hcollected.symm⟩⟩
  running := fun _ _ => trivial
  fetched := fun _ _ _ _ => .trivial _
  turned := fun _ _ _ => .trivial _
  entered := fun _ _ _ _ => .trivial _

/-- A call takes the same instructions, ends in the same way and leaves the
same behind, whatever debug information and upvalue names the prototypes of
closures and frames have. -/
theorem call_regardless_of_names {c d : Context} (h : c.nameless = d.nameless)
    (budget argumentCount : Nat) :
    instructionsOf Native.standard budget argumentCount c =
        instructionsOf Native.standard budget argumentCount d ∧
      Accord (call Native.standard budget argumentCount c)
        (call Native.standard budget argumentCount d)
        (fun _ c' _ d' => c'.nameless = d'.nameless)
        fun error c' error' d' =>
          error = error' ∧ c'.nameless = d'.nameless := by
  have hparallel : Parallel nameless Eq c d := parallel_nameless_iff.2 ⟨rfl, h⟩
  have hlegible : ShowsReference Native.standard budget argumentCount c →
      nameless.legible :=
    fun _ => trivial
  obtain ⟨hinstructions, hcall⟩ :=
    hparallel.call (lasting_nameless Native.standard)
      (answers_standard nameless) trivial trivial hlegible
  refine ⟨hinstructions,
    hcall.mono (fun _ c' _ d' hdone => ?_) fun e c' e' d' hfailed => ?_⟩
  · obtain ⟨pairs, hdone⟩ := hdone
    exact (parallel_nameless_iff.1 hdone).2
  · obtain ⟨pairs, hfailed, halike⟩ := hfailed
    obtain ⟨rfl, hsame⟩ := parallel_nameless_iff.1 hfailed
    exact ⟨RuntimeError.alike_eq_iff.1 halike, hsame⟩

theorem nameless_calling_stripped (proto : Prototype) :
    (calling proto.stripped).nameless = (calling proto).nameless := by
  simp [calling, holding, Context.nameless, Heap.nameless, Entry.nameless,
    Object.nameless]

/-- A function that makes and calls another one, both with names. -/
def naming : Prototype where
  code := #[28, 0, 0, 26, 0, 27]
  protos := [{
    code := #[7, 0, 27]
    upvalues := #[⟨some "count", .ofLocal 0⟩]
    debug := some { name := some "inner" } }]
  numLocals := 1
  debug := some
    { name := some "outer", source := some "=names", lines := #[(0, 1)] }

theorem call_regardless_of_names_naming :
    (calling naming).nameless = (calling naming.stripped).nameless ∧
      (turnsOf Native.standard 9 0 (calling naming)).length = 5 ∧
      instructionsOf Native.standard 9 0 (calling naming) =
        instructionsOf Native.standard 9 0 (calling naming.stripped) ∧
      Accord (call Native.standard 9 0 (calling naming))
        (call Native.standard 9 0 (calling naming.stripped))
        (fun _ c' _ d' => c'.nameless = d'.nameless)
        fun error c' error' d' => error = error' ∧ c'.nameless = d'.nameless :=
  have hnames := (nameless_calling_stripped naming).symm
  ⟨hnames, by decide +kernel, call_regardless_of_names hnames 9 0⟩

end Machine

end Isolate
