import Isolate.Native.Standard
import Isolate.Proofs.Accord
import Isolate.Proofs.Machine.Intact
import Isolate.Proofs.Machine.Parts

/-!
# What a run does not look at

A frame looks at nothing on the stack below the slot of its callee, and scripts
look neither at what was reported nor at the cache of chunks.  So an instruction
does the same whatever is there, and leaves it there.  A collection is the one
thing that goes through the whole stack; it looks for references.
-/

namespace Isolate

/-- What is hidden from a run: the values at the bottom of the stack, what
was reported before it, and the cache of chunks with the size that the
settings give it. -/
structure Hidden (depth : Nat) where
  below : Vector Value depth
  past : Array Notice := #[]
  cache : Chunk.Cache
  capacity : Nat

namespace Hidden

variable {depth : Nat}

/-- The references among the hidden values. -/
def references (hidden : Hidden depth) : List Handle :=
  hidden.below.toArray.toList.filterMap Value.handle?

/-- The context that hides this, with what a run sees of the stack
and of the reports. -/
def put (hidden : Hidden depth) (ctx : Context) (upper : Array Value)
    (recent : Array Notice) : Context :=
  { ctx with
    stack := hidden.below.toArray ++ upper
    journal := hidden.past ++ recent
    cache := hidden.cache
    settings := { ctx.settings with chunkCacheCapacity := hidden.capacity } }

end Hidden

/-- Contexts that differ in what they hide.  A collection that may come finds
the same references. -/
inductive Context.Apart {depth : Nat} (hidden other : Hidden depth) :
    Context → Context → Prop
  | intro (ctx : Context) (upper : Array Value) (recent : Array Notice)
      (hroots : ctx.heap.enabled = false ∨
        hidden.references = other.references) :
      Apart hidden other (hidden.put ctx upper recent)
        (other.put ctx upper recent)

namespace Context.Apart

open Context

variable {depth : Nat} {hidden other : Hidden depth} {c d : Context}

theorem of_hidden (ctx : Context) (upper : Array Value) (recent : Array Notice)
    {c d : Context} (hc : c = hidden.put ctx upper recent)
    (hd : d = other.put ctx upper recent)
    (hroots : ctx.heap.enabled = false ∨ hidden.references = other.references) :
    Apart hidden other c d := by
  rw [hc, hd]
  exact .intro ctx upper recent hroots

section

variable (h : Apart hidden other c d)
include h

theorem heap_eq : c.heap = d.heap := by
  cases h
  rfl

theorem frames_eq : c.frames = d.frames := by
  cases h
  rfl

theorem globals_eq : c.globals = d.globals := by
  cases h
  rfl

theorem bindings_eq : c.bindings = d.bindings := by
  cases h
  rfl

theorem tracing_eq : c.tracing = d.tracing := by
  cases h
  rfl

theorem maxStack_eq : c.settings.maxStack = d.settings.maxStack := by
  cases h
  rfl

theorem maxCallDepth_eq :
    c.settings.maxCallDepth = d.settings.maxCallDepth := by
  cases h
  rfl

theorem size_eq : c.stack.size = d.stack.size := by
  cases h
  simp [Hidden.put]

theorem depth_le : depth ≤ c.stack.size := by
  cases h
  simp [Hidden.put]

/-- Above what is hidden the stacks are the same. -/
theorem getElem?_eq {slot : Nat} (hslot : depth ≤ slot) :
    c.stack[slot]? = d.stack[slot]? := by
  cases h
  simp only [Hidden.put]
  rw [Array.getElem?_append_right (by simpa using hslot),
    Array.getElem?_append_right (by simpa using hslot)]
  simp

theorem back?_eq (hroom : depth < c.stack.size) :
    c.stack.back? = d.stack.back? := by
  rw [Array.back?_eq_getElem?, Array.back?_eq_getElem?, ← h.size_eq]
  exact h.getElem?_eq (by omega)

theorem getD_eq {slot : Nat} (hslot : depth ≤ slot) (value : Value) :
    c.stack.getD slot value = d.stack.getD slot value := by
  rw [Array.getD_eq_getD_getElem?, Array.getD_eq_getD_getElem?,
    h.getElem?_eq hslot]

theorem extract_eq {start : Nat} (hstart : depth ≤ start) :
    c.stack.extract start = d.stack.extract start := by
  apply Array.ext_getElem?
  intro i
  rw [Array.getElem?_extract, Array.getElem?_extract, h.size_eq,
    h.getElem?_eq (Nat.le_trans hstart (Nat.le_add_right _ _))]

/-- The heap changes in both contexts. -/
theorem withHeap (f : Heap → Heap)
    (henabled : (f c.heap).enabled = c.heap.enabled) :
    Apart hidden other { c with heap := f c.heap }
      { d with heap := f d.heap } := by
  cases h with
  | intro ctx upper recent hroots =>
    exact .of_hidden { ctx with heap := f ctx.heap } upper recent rfl rfl
      (hroots.imp_left henabled.trans)

theorem withFrames (f : Array Frame → Array Frame) :
    Apart hidden other { c with frames := f c.frames }
      { d with frames := f d.frames } := by
  cases h with
  | intro ctx upper recent hroots =>
    exact .of_hidden { ctx with frames := f ctx.frames } upper recent
      rfl rfl hroots

theorem note (notice : Notice) :
    Apart hidden other (c.note notice) (d.note notice) := by
  cases h with
  | intro ctx upper recent hroots =>
    refine .of_hidden ctx upper (recent.push notice) ?_ ?_ hroots
    · simp only [Context.note, Hidden.put, Array.append_push]
    · simp only [Context.note, Hidden.put, Array.append_push]

theorem push (value : Value) :
    Apart hidden other { c with stack := c.stack.push value }
      { d with stack := d.stack.push value } := by
  cases h with
  | intro ctx upper recent hroots =>
    refine .of_hidden ctx (upper.push value) recent ?_ ?_ hroots
    · simp only [Hidden.put, Array.append_push]
    · simp only [Hidden.put, Array.append_push]

/-- A stack is cut down no further than to what is hidden. -/
theorem truncateStack {height : Nat} (hheight : depth ≤ height) :
    Apart hidden other (c.truncateStack height) (d.truncateStack height) := by
  cases h with
  | intro ctx upper recent hroots =>
    have hshrink :
        ∀ hidden : Hidden depth, (hidden.below.toArray ++ upper).shrink height =
          hidden.below.toArray ++ upper.shrink (height - depth) := by
      intro hidden
      apply Array.toList_inj.1
      have hbelow : hidden.below.toArray.toList.length = depth := by simp
      rw [Array.toList_shrink, Array.toList_append, Array.toList_append,
        Array.toList_shrink, List.take_append,
        List.take_of_length_le (by omega), hbelow]
    refine .of_hidden ctx (upper.shrink (height - depth)) recent ?_ ?_ hroots
    · simp only [Context.truncateStack, Hidden.put, hshrink]
    · simp only [Context.truncateStack, Hidden.put, hshrink]

theorem append (values : Array Value) :
    Apart hidden other { c with stack := c.stack ++ values }
      { d with stack := d.stack ++ values } := by
  cases h with
  | intro ctx upper recent hroots =>
    refine .of_hidden ctx (upper ++ values) recent ?_ ?_ hroots
    · simp only [Hidden.put, Array.append_assoc]
    · simp only [Hidden.put, Array.append_assoc]

theorem resizeStack {height : Nat} (hheight : depth ≤ height) :
    Apart hidden other (c.resizeStack height) (d.resizeStack height) := by
  simp only [Context.resizeStack, h.size_eq]
  split
  · exact h.append _
  · exact h.truncateStack hheight

theorem pop (hroom : depth < c.stack.size) :
    Apart hidden other { c with stack := c.stack.pop }
      { d with stack := d.stack.pop } := by
  have hpop :
      ∀ stack : Array Value, stack.pop = stack.shrink (stack.size - 1) := by
    intro stack
    apply Array.toList_inj.1
    rw [Array.toList_pop, Array.toList_shrink, List.dropLast_eq_take,
      Array.length_toList]
  rw [hpop c.stack, hpop d.stack, ← h.size_eq]
  exact h.truncateStack (by omega)

theorem setIfInBounds {slot : Nat} (hslot : depth ≤ slot) (value : Value) :
    Apart hidden other { c with stack := c.stack.setIfInBounds slot value }
      { d with stack := d.stack.setIfInBounds slot value } := by
  cases h with
  | intro ctx upper recent hroots =>
    have hset : ∀ hidden : Hidden depth,
        (hidden.below.toArray ++ upper).setIfInBounds slot value =
          hidden.below.toArray ++ upper.setIfInBounds (slot - depth) value := by
      intro hidden
      apply Array.toList_inj.1
      have hbelow : hidden.below.toArray.toList.length = depth := by simp
      rw [Array.toList_setIfInBounds, Array.toList_append, Array.toList_append,
        Array.toList_setIfInBounds,
        List.set_append_right _ _ (by omega), hbelow]
    refine .of_hidden ctx (upper.setIfInBounds (slot - depth) value) recent
      ?_ ?_ hroots
    · simp only [Hidden.put, hset]
    · simp only [Hidden.put, hset]

/-- A collection finds the same references, or there is none. -/
theorem collectIfDue : Accord (collectIfDue c) (collectIfDue d)
    (fun _ c' _ d' => Apart hidden other c' d' ∧ c'.frames = c.frames)
    fun _ _ _ _ => False := by
  have hdue : c.heap.due = d.heap.due := by rw [h.heap_eq]
  simp only [Context.collectIfDue]
  rw [get_bind, get_bind, hdue]
  refine .ite Iff.rfl (fun hcollects => ?_) fun _ => ⟨h, rfl⟩
  -- With collection off, different references may be hidden, but then nothing
  -- is ever due.
  have hreferences : hidden.references = other.references := by
    cases h with
    | intro ctx upper recent hroots =>
      refine hroots.resolve_left fun hoff => ?_
      change ctx.heap.due = true at hcollects
      rw [Heap.due, hoff] at hcollects
      cases hcollects
  have hroots : c.rootValues.filterMap Value.handle? =
      d.rootValues.filterMap Value.handle? := by
    cases h with
    | intro ctx upper recent _ =>
      simp only [rootValues, Hidden.put, Array.toList_append,
        List.filterMap_append]
      exact congrArg (fun handles => handles ++ _ ++ _) hreferences
  have hhandles : c.rootHandles = d.rootHandles := by
    simp only [rootHandles, h.globals_eq, h.frames_eq]
  have hcollected : c.heap.collect c.rootValues c.rootHandles =
      d.heap.collect d.rootValues d.rootHandles := by
    simp only [Heap.collect, hroots, hhandles, h.heap_eq]
  have hafter :=
    (h.withHeap (fun _ =>
      (c.heap.collect c.rootValues c.rootHandles).2) rfl).note
      (.collected (c.heap.collect c.rootValues c.rootHandles).1
        (c.heap.collect c.rootValues c.rootHandles).2.liveCount)
  refine ⟨?_, rfl⟩
  change Apart hidden other _ (Context.note (.collected
    (d.heap.collect d.rootValues d.rootHandles).1
      (d.heap.collect d.rootValues d.rootHandles).2.liveCount)
    { d with heap := (d.heap.collect d.rootValues d.rootHandles).2 })
  rw [← hcollected]
  exact hafter

end

end Context.Apart

/-- A native function that only looks, and no further than at the heap
and the bindings. -/
def Native.Looks (native : Native) : Prop :=
  ∃ f : Context → List Value → Except String Value, native = ofQuery f ∧
    ∀ c d : Context, c.heap = d.heap → c.bindings = d.bindings → f c = f d

def Natives.Look (natives : Natives) : Prop :=
  ∀ name native, natives name = some native → Native.Looks native

namespace Native

theorem looks_ofOne {name : String} {f : Context → Value → Except String Value}
    (hf : ∀ c d : Context, c.heap = d.heap →
      c.bindings = d.bindings → f c = f d) :
    Looks (ofOne name f) :=
  ⟨_, rfl, fun c d hheap hbindings => by rw [hf c d hheap hbindings]⟩

/-- The standard natives look no further. -/
theorem look_standard : Natives.Look standard := by
  intro name native hnative
  simp only [standard] at hnative
  split at hnative <;> cases hnative
  · exact looks_ofOne fun _ _ _ _ => rfl
  · refine looks_ofOne fun c d hheap _ => funext fun value => ?_
    rw [Machine.lengthOf_congr hheap]
  · exact ⟨_, rfl, fun _ _ _ _ => rfl⟩
  · exact looks_ofOne fun _ _ _ _ => rfl
  · exact ⟨_, rfl, fun _ _ _ _ => rfl⟩
  · exact looks_ofOne fun c d _ hbindings => by rw [hbindings]

end Native

/-! ## Parts of instructions -/

namespace Machine

open Context

variable {depth : Nat} {hidden other : Hidden depth} {c d : Context}
  {α β : Type} {natives : Natives} {callBack : CallBack}

/-- The innermost frame and its callee stand above what is hidden. -/
def Clear (depth : Nat) (ctx : Context) : Prop :=
  ∀ frame, ctx.frames.back? = some frame → depth ≤ frame.base - 1

theorem clear_zero (ctx : Context) : Clear 0 ctx := fun _ _ => Nat.zero_le _

theorem Clear.of_frames (h : Clear depth c) (hframes : d.frames = c.frames) :
    Clear depth d :=
  fun frame hframe => h frame (hframes ▸ hframe)

/-- Two runs end in the same way, and hide what they hid. -/
def Agree (hidden other : Hidden depth)
    (left right : EStateM.Result RuntimeError Context α) : Prop :=
  Accord left right (fun a c b d => a = b ∧ Apart hidden other c d)
    fun e c e' d => e = e' ∧ Apart hidden other c d

/-- An action that sees nothing of what is hidden, and stays above it. -/
def Oblivious (depth : Nat) (action : Action α) : Prop :=
  ∀ (hidden other : Hidden depth) (c d : Context), Clear depth c →
    Apart hidden other c d → Accord (action c) (action d)
      (fun a c' b d' => (a = b ∧ Apart hidden other c' d') ∧ Clear depth c')
      fun e c' e' d' => e = e' ∧ Apart hidden other c' d'

namespace Oblivious

theorem agree {x : Action α} (h : Oblivious depth x) (hclear : Clear depth c)
    (hapart : Apart hidden other c d) : Agree hidden other (x c) (x d) :=
  (h hidden other c d hclear hapart).mono (fun _ _ _ _ hdone => hdone.1)
    fun _ _ _ _ => id

theorem bind_agree {x : Action α} {f : α → Action β} (h : Oblivious depth x)
    (hclear : Clear depth c) (hapart : Apart hidden other c d)
    (hf : ∀ a c d, Clear depth c → Apart hidden other c d →
      Agree hidden other (f a c) (f a d)) :
    Agree hidden other ((x >>= f) c) ((x >>= f) d) := by
  refine (h hidden other c d hclear hapart).bind fun a c' b d' hdone => ?_
  obtain ⟨⟨rfl, hapart'⟩, hclear'⟩ := hdone
  exact hf a c' d' hclear' hapart'

theorem bind {x : Action α} {f : α → Action β} (hx : Oblivious depth x)
    (hf : ∀ a, Oblivious depth (f a)) : Oblivious depth (x >>= f) := by
  intro hidden other c d hclear hapart
  refine (hx hidden other c d hclear hapart).bind fun a c' b d' hdone => ?_
  obtain ⟨⟨rfl, hapart'⟩, hclear'⟩ := hdone
  exact hf a hidden other c' d' hclear' hapart'

/-- What an action looks at first is not hidden. -/
theorem look {f : Context → Action α}
    (hsame : ∀ {hidden other : Hidden depth} {c d : Context},
      Apart hidden other c d → f c = f d)
    (hf : ∀ ctx, Oblivious depth (f ctx)) : Oblivious depth (get >>= f) := by
  intro hidden other c d hclear hapart
  rw [get_bind, get_bind, hsame hapart]
  exact hf d hidden other c d hclear hapart

/-- The stack and the rest change in the same way, above what is hidden. -/
theorem modify {f : Context → Context}
    (hframes : ∀ ctx, (f ctx).frames = ctx.frames)
    (hf : ∀ {hidden other : Hidden depth} {c d : Context},
      Apart hidden other c d →
      Apart hidden other (f c) (f d)) :
    Oblivious depth (modify f : Action Unit) :=
  fun _ _ c _ hclear hapart => ⟨⟨rfl, hf hapart⟩, hclear.of_frames (hframes c)⟩

end Oblivious

theorem oblivious_pure (a : α) : Oblivious depth (pure a) :=
  fun _ _ _ _ hclear hapart => ⟨⟨rfl, hapart⟩, hclear⟩

theorem oblivious_throw (e : RuntimeError) :
    Oblivious depth (throw e : Action α) :=
  fun _ _ _ _ _ hapart => ⟨rfl, hapart⟩

theorem oblivious_query (f : Context → Except RuntimeError α)
    (hf : ∀ c d : Context, c.heap = d.heap → f c = f d) :
    Oblivious depth (query f) := by
  intro hidden other c d hclear hapart
  simp only [query]
  rw [hf c d hapart.heap_eq]
  cases f d with
  | error e => exact ⟨rfl, hapart⟩
  | ok a => exact ⟨⟨rfl, hapart⟩, hclear⟩

/-- The frame that is found stands above what is hidden. -/
theorem oblivious_innermost {f : Frame → Action α}
    (hf : ∀ frame, depth ≤ frame.base - 1 → Oblivious depth (f frame)) :
    Oblivious depth (innermost >>= f) := by
  intro hidden other c d hclear hapart
  simp only [innermost]
  rw [bind_assoc, get_bind, get_bind, ← hapart.frames_eq]
  cases hback : c.frames.back? with
  | none => exact ⟨rfl, hapart⟩
  | some frame =>
    exact hf frame (hclear frame hback) hidden other c d hclear hapart

theorem oblivious_push (value : Value) : Oblivious depth (push value) :=
  .modify (fun _ => rfl) fun hapart => hapart.push value

theorem oblivious_putOperand (value : Value) :
    Oblivious depth (putOperand value) := by
  intro hidden other c d hclear hapart
  rw [putOperand, get_bind, get_bind, hapart.maxStack_eq, hapart.size_eq]
  exact .ite Iff.rfl (fun _ => ⟨rfl, hapart⟩) fun _ =>
    oblivious_push value hidden other c d hclear hapart

theorem accord_popTop (hclear : Clear depth c) (hapart : Apart hidden other c d)
    (hroom : depth < c.stack.size) :
    Accord (popTop c) (popTop d)
      (fun a c' b d' => (a = b ∧ Apart hidden other c' d') ∧ Clear depth c')
      fun e c' e' d' => e = e' ∧ Apart hidden other c' d' := by
  simp only [popTop]
  rw [← hapart.back?_eq hroom]
  cases c.stack.back? with
  | none => exact ⟨rfl, hapart⟩
  | some value => exact ⟨⟨rfl, hapart.pop hroom⟩, hclear⟩

/-- The operands of a frame lie above its locals, and those above what is
hidden. -/
theorem oblivious_takeOperand : Oblivious depth takeOperand := by
  refine oblivious_innermost fun frame hframe => ?_
  intro hidden other c d hclear hapart
  rw [get_bind, get_bind, hapart.size_eq]
  refine .ite Iff.rfl (fun _ => ⟨rfl, hapart⟩) fun hroom => ?_
  have hlocals : frame.base ≤ frame.localsEnd := Nat.le_add_right _ _
  refine accord_popTop hclear hapart ?_
  rw [hapart.size_eq]
  omega

theorem oblivious_moveTo (offset : Nat) : Oblivious depth (moveTo offset) := by
  intro hidden other c d hclear hapart
  refine ⟨⟨rfl, hapart.withFrames fun frames =>
    frames.modify (frames.size - 1) fun frame => { frame with ip := offset }⟩,
    fun frame hframe => ?_⟩
  · change (c.frames.modify _ _).back? = some frame at hframe
    rw [Array.back?_eq_getElem?, Array.size_modify,
      Array.getElem?_modify, if_pos rfl, ← Array.back?_eq_getElem?] at hframe
    obtain ⟨before, hbefore, rfl⟩ := Option.map_eq_some_iff.1 hframe
    exact hclear before hbefore

theorem oblivious_collectIfDue : Oblivious depth collectIfDue :=
  fun _ _ _ _ hclear hapart => hapart.collectIfDue.mono
    (fun _ _ _ _ hdone => ⟨⟨rfl, hdone.1⟩, hclear.of_frames hdone.2⟩)
    fun _ _ _ _ => False.elim

theorem enabled_allocate (heap : Heap) (object : Object) :
    (heap.allocate object).2.enabled = heap.enabled := by
  simp only [Heap.allocate]
  split <;> rfl

theorem oblivious_allocate (object : Object) :
    Oblivious depth (allocate object) := by
  intro hidden other c d hclear hapart
  refine ⟨⟨congrArg (fun heap => (Heap.allocate heap object).1) hapart.heap_eq,
    ?_⟩, hclear⟩
  exact hapart.withHeap (fun heap => (heap.allocate object).2)
    (enabled_allocate _ object)

/-- An object is changed in place. -/
theorem oblivious_update (handle : Handle) (f : Object → Object) :
    Oblivious depth
      (modify fun ctx => { ctx with heap := ctx.heap.update handle f } :
        Action Unit) :=
  .modify (fun _ => rfl) fun hapart =>
    hapart.withHeap (fun heap => heap.update handle f) rfl

theorem oblivious_report (proto : Prototype) (offset : Nat) (op : Opcode) :
    Oblivious depth (report proto offset op) := by
  intro hidden other c d hclear hapart
  rw [report, get_bind, get_bind, hapart.tracing_eq, hapart.frames_eq,
    hapart.size_eq]
  refine .ite Iff.rfl (fun _ => ?_) fun _ => ⟨⟨rfl, hapart⟩, hclear⟩
  cases proto.code.operandsAt? (offset + 1) op.widths with
  | none => exact ⟨rfl, hapart⟩
  | some operands => exact ⟨⟨rfl, hapart.note _⟩, hclear⟩

theorem parts_oblivious (depth : Nat) :
    Parts (fun frame => depth ≤ frame.base - 1)
      fun _ action => Oblivious depth action where
  pure := oblivious_pure
  throw := oblivious_throw
  query := oblivious_query
  bind := .bind
  innermost := oblivious_innermost
  height := fun hf =>
    .look (fun hapart => by rw [hapart.size_eq]) fun ctx => hf ctx.stack.size
  inFrame := fun hframe index _ hf =>
    .look (fun hapart => by rw [hapart.getD_eq (by omega)]) fun ctx => hf _
  moveTo := oblivious_moveTo
  putOperand := oblivious_putOperand
  takeOperand := oblivious_takeOperand
  storeCell := fun handle value =>
    (oblivious_query _ fun _ _ hheap => cellOf_congr hheap _).bind
      fun _ => oblivious_update handle _
  storeKey := fun handle key value =>
    (oblivious_query _ fun _ _ hheap => tableOf_congr hheap _).bind
      fun _ => oblivious_update handle _
  allocate := oblivious_allocate
  collectIfDue := oblivious_collectIfDue
  report := oblivious_report

/-! ## Instructions that reach further -/

/-- A local is assigned among the slots of its frame. -/
theorem oblivious_setLocal (proto : Prototype) (offset : Nat) :
    Oblivious depth (execute natives callBack proto offset .setLocal) := by
  refine ((parts_oblivious depth).byteOperand proto _).bind fun index => ?_
  simp only [slotOfLocal, bind_assoc]
  refine oblivious_innermost fun frame hframe => ?_
  refine .look (fun hapart => by rw [hapart.size_eq]) fun ctx => ?_
  split
  · exact oblivious_throw .stackUnderflow
  · rw [pure_bind]
    exact oblivious_takeOperand.bind fun value =>
      .modify (fun _ => rfl) fun hapart =>
        hapart.setIfInBounds (by omega) value

theorem oblivious_newTable (proto : Prototype) (offset : Nat) :
    Oblivious depth (execute natives callBack proto offset .newTable) := by
  have hmade : Oblivious depth (do collectIfDue; allocate (.table .empty)) :=
    oblivious_collectIfDue.bind fun _ => oblivious_allocate _
  have hexecute : execute natives callBack proto offset .newTable =
      ((do collectIfDue; allocate (.table .empty) : Action Handle) >>=
        fun handle => do
          push (.table handle)
          let ctx ← get
          if ctx.settings.maxStack < ctx.stack.size then
            modify fun ctx => { ctx with stack := ctx.stack.pop }
            throw (.stackOverflow ctx.settings.maxStack)) := by
    simp only [execute, newTable, bind_assoc]
  rw [hexecute]
  refine hmade.bind fun handle hidden other c d hclear hapart => ?_
  have hpushed := hapart.push (.table handle)
  have hroom : depth < (c.stack.push (.table handle)).size := by
    rw [Array.size_push]
    exact Nat.lt_succ_of_le hapart.depth_le
  rw [push, modify_bind, modify_bind, get_bind, get_bind, hpushed.maxStack_eq,
    hpushed.size_eq]
  exact .ite Iff.rfl (fun _ => ⟨rfl, hpushed.pop hroom⟩)
    fun _ => ⟨⟨rfl, hpushed⟩, hclear⟩

section Starting

variable {calleeSlot : Nat} (hslot : depth ≤ calleeSlot)
include hslot

/-- A frame that is entered stands above the slot of its callee. -/
theorem oblivious_enterClosure (handle : Handle) (argumentCount : Nat) :
    Oblivious depth (enterClosure handle calleeSlot argumentCount) := by
  intro hidden other c d hclear hapart
  rw [enterClosure, get_bind, get_bind, hapart.maxCallDepth_eq,
    hapart.maxStack_eq, hapart.frames_eq]
  refine .ite Iff.rfl (fun _ => ⟨rfl, hapart⟩) fun _ => ?_
  refine (oblivious_query _ (fun _ _ hheap => closureOf_congr hheap _)).bind
    (fun closure => ?_) hidden other c d hclear hapart
  intro hidden other c d hclear hapart
  refine .ite Iff.rfl (fun _ => ⟨rfl, hapart⟩) fun _ =>
    ⟨⟨rfl, ?_⟩, fun frame hframe => ?_⟩
  · exact ((hapart.truncateStack (by omega)).resizeStack (by
      exact Nat.le_trans (Nat.le_succ_of_le hslot)
        (Nat.le_add_right _ _))).withFrames fun frames => frames.push _
  · change (c.frames.push _).back? = some frame at hframe
    rw [Array.back?_push] at hframe
    cases hframe
    exact hslot

theorem oblivious_runNative (hnatives : natives.Look) (name : String) :
    Oblivious depth (runNative natives callBack name calleeSlot) := by
  simp only [runNative]
  cases hnative : natives name with
  | none => exact oblivious_throw _
  | some native =>
    obtain ⟨f, rfl, hf⟩ := hnatives name native hnative
    refine .look (fun hapart => by rw [hapart.extract_eq (by omega)])
      fun ctx => ?_
    have hanswer :
        ∀ arguments, Oblivious depth (Native.ofQuery f callBack arguments) := by
      intro arguments hidden other c d hclear hapart
      have heq := hf c d hapart.heap_eq hapart.bindings_eq
      exact ⟨⟨congrFun heq arguments, hapart⟩, hclear⟩
    refine (hanswer _).bind fun result => ?_
    cases result with
    | error message => exact oblivious_throw _
    | ok value =>
      exact Oblivious.bind (.modify (fun _ => rfl)
        fun hapart => hapart.truncateStack hslot)
        fun _ => oblivious_putOperand value

theorem oblivious_startCall (hnatives : natives.Look) (argumentCount : Nat) :
    Oblivious depth (startCall natives callBack calleeSlot argumentCount) := by
  refine .look (fun hapart => by rw [hapart.getD_eq hslot]) fun ctx => ?_
  cases ctx.stack.getD calleeSlot .nil with
  | function handle => exact oblivious_enterClosure hslot handle argumentCount
  | native name => exact oblivious_runNative hslot hnatives name
  | _ => exact oblivious_throw _

end Starting

/-- The callee of a call lies among the operands of the frame. -/
theorem oblivious_execute_call (hnatives : natives.Look) (proto : Prototype)
    (offset : Nat) :
    Oblivious depth (execute natives callBack proto offset .call) := by
  refine ((parts_oblivious depth).byteOperand proto _).bind
    fun argumentCount => ?_
  refine oblivious_innermost fun frame hframe => ?_
  refine .look (fun hapart => by rw [hapart.size_eq]) fun ctx => ?_
  dsimp only
  split
  · have hlocals : frame.base ≤ frame.localsEnd := Nat.le_add_right _ _
    exact oblivious_startCall (by omega) hnatives argumentCount
  · exact oblivious_throw _

/-- A return goes down to the slot of the callee. -/
theorem agree_returnValue (result : Value) (hclear : Clear depth c)
    (hapart : Apart hidden other c d) :
    Agree hidden other (returnValue result c) (returnValue result d) := by
  simp only [returnValue, innermost]
  rw [bind_assoc, get_bind, get_bind, ← hapart.frames_eq]
  cases hback : c.frames.back? with
  | none => exact ⟨rfl, hapart⟩
  | some frame =>
    exact ⟨rfl,
      ((hapart.withFrames Array.pop).truncateStack (hclear frame hback)).push
        result⟩

theorem agree_execute_ret (proto : Prototype) (offset : Nat)
    (hclear : Clear depth c) (hapart : Apart hidden other c d) :
    Agree hidden other (execute natives callBack proto offset .ret c)
      (execute natives callBack proto offset .ret d) := by
  simp only [execute, innermost]
  rw [bind_assoc, get_bind, get_bind, ← hapart.frames_eq]
  cases hback : c.frames.back? with
  | none => exact ⟨rfl, hapart⟩
  | some frame =>
    have hlocals : frame.base ≤ frame.localsEnd := Nat.le_add_right _ _
    have hbase := hclear frame hback
    rw [pure_bind, get_bind, get_bind, hapart.size_eq]
    refine .ite Iff.rfl (fun hroom => ?_) fun _ =>
      agree_returnValue .nil hclear hapart
    refine (accord_popTop hclear hapart (by rw [hapart.size_eq]; omega)).bind
      fun value c' value' d' hdone => ?_
    obtain ⟨⟨rfl, hapart'⟩, hclear'⟩ := hdone
    exact agree_returnValue value hclear' hapart'

theorem agree_execute (hnatives : natives.Look) (proto : Prototype)
    (offset : Nat) (op : Opcode) (hclear : Clear depth c)
    (hapart : Apart hidden other c d) :
    Agree hidden other (execute natives callBack proto offset op c)
      (execute natives callBack proto offset op d) := by
  by_cases hfurther : op ∈ [Opcode.setLocal, .newTable, .call, .ret]
  · rcases (by simpa using hfurther : op = .setLocal ∨ op = .newTable ∨
      op = .call ∨ op = .ret)
      with rfl | rfl | rfl | rfl
    · exact (oblivious_setLocal proto offset).agree hclear hapart
    · exact (oblivious_newTable proto offset).agree hclear hapart
    · exact (oblivious_execute_call hnatives proto offset).agree hclear hapart
    · exact agree_execute_ret proto offset hclear hapart
  · exact Oblivious.agree ((parts_oblivious depth).execute proto offset
      hfurther) hclear hapart

/-- A turn sees nothing of what lies below the callee of its frame,
and leaves it there. -/
theorem agree_turn (hnatives : natives.Look) (proto : Prototype)
    (hclear : Clear depth c) (hapart : Apart hidden other c d) :
    Agree hidden other (turn natives callBack proto c)
      (turn natives callBack proto d) := by
  simp only [turn, innermost]
  rw [bind_assoc, get_bind, get_bind, ← hapart.frames_eq]
  cases c.frames.back? with
  | none => exact ⟨rfl, hapart⟩
  | some frame =>
    rw [pure_bind]
    cases proto.code[frame.ip]? with
    | none => exact agree_returnValue .nil hclear hapart
    | some byte =>
      dsimp only
      cases Opcode.ofByte? byte with
      | none => exact ⟨rfl, hapart⟩
      | some op =>
        exact (oblivious_report proto frame.ip op).bind_agree hclear hapart
          fun _ c d hclear hapart =>
            (oblivious_moveTo _).bind_agree hclear hapart
              fun _ c d hclear hapart =>
                agree_execute hnatives proto frame.ip op hclear hapart

/-! ## Whole runs -/

/-- Where nothing is hidden on the stack, all frames stand above it. -/
theorem oblivious_of_agree {x : Action α}
    (h : ∀ (hidden other : Hidden 0) (c d : Context), Apart hidden other c d →
      Agree hidden other (x c) (x d)) : Oblivious 0 x :=
  fun hidden other c d _ hapart => (h hidden other c d hapart).mono
    (fun _ c' _ _ hdone => ⟨hdone, clear_zero c'⟩) fun _ _ _ _ => id

theorem oblivious_turn (hnatives : natives.Look) (proto : Prototype) :
    Oblivious 0 (turn natives callBack proto) :=
  oblivious_of_agree fun _ _ c _ hapart =>
    agree_turn hnatives proto (clear_zero c) hapart

theorem oblivious_loop (hnatives : natives.Look) (budget entry depth : Nat)
    (proto : Prototype) :
    Oblivious 0 (loop natives budget entry depth proto) := by
  -- The budget also bounds the calls that natives make within a turn.
  induction budget generalizing depth proto with
  | zero => exact oblivious_throw _
  | succ budget ih =>
    have hround : ∀ (count : Nat) (found : Prototype), Oblivious 0 (do
        turn natives (call natives budget) found
        loop natives budget entry count found) := fun count found =>
      (oblivious_turn hnatives found).bind fun _ => ih count found
    rw [loop]
    refine .look (fun hapart => by rw [hapart.frames_eq]) fun ctx => ?_
    dsimp only
    split
    · exact oblivious_pure _
    · split
      · exact hround _ proto
      · rw [map_eq_pure_bind, bind_assoc]
        exact oblivious_innermost fun frame _ => hround _ frame.proto

theorem oblivious_unwinding {action : Action Unit} (entry slot : Nat)
    (h : Oblivious 0 action) : Oblivious 0 (unwinding entry slot action) := by
  refine oblivious_of_agree fun hidden other c d hapart => ?_
  have haction := h.agree (clear_zero c) hapart
  simp only [unwinding]
  rcases haction.cases with
    ⟨a, c', b, d', hc, hd, hdone⟩ | ⟨e, c', e', d', hc, hd, rfl, hfailed⟩
  · rw [hc, hd]
    exact hdone
  · rw [hc, hd]
    exact ⟨rfl, ((hfailed.note (.callFailed e)).withFrames fun frames =>
      frames.shrink entry).truncateStack (Nat.zero_le slot)⟩

/-- A call sees neither the cache nor the journal. -/
theorem oblivious_call (hnatives : natives.Look) (budget argumentCount : Nat) :
    Oblivious 0 (call natives budget argumentCount) := by
  cases budget with
  | zero => exact oblivious_throw _
  | succ budget =>
    rw [call]
    refine .look (fun hapart => by rw [hapart.size_eq, hapart.frames_eq])
      fun ctx => ?_
    dsimp only
    split
    · exact oblivious_throw _
    · refine oblivious_collectIfDue.bind fun _ => oblivious_unwinding _ _ ?_
      refine (oblivious_startCall (Nat.zero_le _) hnatives argumentCount).bind
        fun _ => ?_
      refine .look (fun hapart => by rw [hapart.frames_eq]) fun c => ?_
      cases c.frames.back? with
      | none => exact oblivious_pure _
      | some frame =>
        exact .look (fun hapart => by rw [hapart.frames_eq]) fun c =>
          oblivious_loop hnatives _ _ _ _

end Machine

end Isolate
