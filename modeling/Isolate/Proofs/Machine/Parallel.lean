import Isolate.Machine.Step
import Isolate.Proofs.Accord
import Isolate.Proofs.Code.Prototype
import Isolate.Proofs.Value.Alike

/-!
# Contexts that run in parallel

Two contexts run in parallel if they hold the same but for the handles of
objects and for what prototypes say about themselves.  How far heaps and
prototypes may differ is a likeness; handles of objects that correspond are
paired one to one.  Whatever an action does in one context it does in the other,
and both stay parallel, with more pairs if objects were made.
-/

namespace Isolate

/-- Objects that hold the same but for handles and prototypes. -/
inductive Object.Matches (protos : Prototype → Prototype → Prop)
    (pairs : Handle → Handle → Prop) :
    Object → Object → Prop
  | table {table other : Table} (h : table.Alike pairs other) :
      Matches protos pairs (.table table) (.table other)
  | closure {closure other : Closure}
      (hproto : protos closure.proto other.proto)
      (hcells : Pointwise pairs closure.cells other.cells) :
      Matches protos pairs (.closure closure) (.closure other)
  | cell {value other : Value} (h : value.Alike pairs other) :
      Matches protos pairs (.cell value) (.cell other)
  | userdata (block : Userdata) :
      Matches protos pairs (.userdata block) (.userdata block)

/-- Frames of functions that correspond, at the same offset and with their
locals in the same slots. -/
structure Frame.Matches (protos : Prototype → Prototype → Prop)
    (pairs : Handle → Handle → Prop) (frame other : Frame) : Prop where
  closure : pairs frame.closure other.closure
  proto : protos frame.proto other.proto
  cells : Pointwise pairs frame.cells other.cells
  ip : frame.ip = other.ip
  base : frame.base = other.base

/-- Errors that are the same, but for the handle that a dangling one has. -/
def RuntimeError.Alike (pairs : Handle → Handle → Prop)
    (error other : RuntimeError) : Prop :=
  error = other ∨
    ∃ left right, pairs left right ∧ error = .danglingHandle left ∧
      other = .danglingHandle right

namespace Machine

/-- How far the heaps, prototypes, settings and journals of two contexts
may differ, so that neither reading nor writing nor making objects tells
the contexts apart. -/
structure Likeness where
  protos : Prototype → Prototype → Prop
  settings : ContextSettings → ContextSettings → Prop
  heaps : (Handle → Handle → Prop) → Heap → Heap → Prop
  journals : Array Notice → Array Notice → Prop
  /-- Handles may become text, since they are the same. -/
  legible : Prop
  stripped : ∀ {proto other : Prototype}, protos proto other →
    proto.stripped = other.stripped
  nested : ∀ {proto other : Prototype}, protos proto other →
    List.Forall₂ protos proto.protos other.protos
  limits : ∀ {given other : ContextSettings}, settings given other →
    given.maxStack = other.maxStack ∧ given.maxCallDepth = other.maxCallDepth
  oneToOne : ∀ {pairs : Handle → Handle → Prop} {heap other : Heap},
    heaps pairs heap other → OneToOne pairs
  objects : ∀ {pairs : Handle → Handle → Prop} {heap other : Heap}
    {left right : Handle}, heaps pairs heap other → pairs left right →
      Option.Rel (Object.Matches protos pairs) (heap.get? left)
        (other.get? right)
  /-- A handle that dangles is the same on both sides. -/
  absent : ∀ {pairs : Handle → Handle → Prop} {heap other : Heap}
    {left right : Handle},
    heaps pairs heap other → pairs left right → heap.get? left = none →
    left = right
  shown : legible → ∀ {pairs : Handle → Handle → Prop} {heap other : Heap}
    {left right : Handle},
    heaps pairs heap other → pairs left right → left = right
  update : ∀ {pairs : Handle → Handle → Prop} {heap other : Heap}
    {left right : Handle} {f g : Object → Object}, heaps pairs heap other →
      pairs left right →
      (∀ object object', object.Matches protos pairs object' →
        (f object).Matches protos pairs (g object')) →
      heaps pairs (heap.update left f) (other.update right g)
  allocate : ∀ {pairs : Handle → Handle → Prop} {heap other : Heap}
    {object object' : Object},
    heaps pairs heap other → object.Matches protos pairs object' →
      ∃ pairs' : Handle → Handle → Prop,
      (∀ left right, pairs left right → pairs' left right) ∧
        heaps pairs' (heap.allocate object).2 (other.allocate object').2 ∧
        pairs' (heap.allocate object).1 (other.allocate object').1
  executed : ∀ {journal other : Array Notice}, journals journal other →
    ∀ (location location' : String) (offset : Nat) (op : Opcode)
      (operands : List Nat) (depth top : Nat),
      journals (journal.push (.executing location offset op operands depth top))
        (other.push (.executing location' offset op operands depth top))
  failed : ∀ {pairs : Handle → Handle → Prop} {heap heap' : Heap}
    {journal other : Array Notice} {error error' : RuntimeError},
    heaps pairs heap heap' → journals journal other → error.Alike pairs error' →
      journals (journal.push (.callFailed error))
        (other.push (.callFailed error'))

/-- Contexts that hold the same, up to a likeness. -/
structure Parallel (like : Likeness) (pairs : Handle → Handle → Prop)
    (c d : Context) : Prop where
  heap : like.heaps pairs c.heap d.heap
  stack : Pointwise (Value.Alike pairs) c.stack d.stack
  frames : Pointwise (Frame.Matches like.protos pairs) c.frames d.frames
  globals : pairs c.globals d.globals
  slots : Pointwise (Option.Rel (Value.Alike pairs)) c.registry.slots
    d.registry.slots
  free : c.registry.free = d.registry.free
  cache : c.cache = d.cache
  settings : like.settings c.settings d.settings
  bindings : c.bindings = d.bindings
  tracing : c.tracing = d.tracing
  journal : like.journals c.journal d.journal

/-- What two successes leave behind is parallel. -/
def Likeness.Done (like : Likeness) (_ : Unit) (c : Context) (_ : Unit)
    (d : Context) : Prop :=
  ∃ pairs, Parallel like pairs c d

/-- Two failures have like errors and leave parallel contexts. -/
def Likeness.Failed (like : Likeness) (error : RuntimeError) (c : Context)
    (other : RuntimeError) (d : Context) : Prop :=
  ∃ pairs, Parallel like pairs c d ∧ error.Alike pairs other

/-- Prototypes that say the same for the machine. -/
structure SameBody (proto other : Prototype) : Prop where
  code : proto.code = other.code
  constants : proto.constants = other.constants
  captures : proto.upvalues.toList.map Upvalue.capture =
    other.upvalues.toList.map Upvalue.capture
  numParams : proto.numParams = other.numParams
  numLocals : proto.numLocals = other.numLocals

theorem sameBody_of_stripped {proto other : Prototype}
    (h : proto.stripped = other.stripped) : SameBody proto other where
  code := by rw [← proto.stripped_code, h, other.stripped_code]
  constants := by rw [← proto.stripped_constants, h, other.stripped_constants]
  captures := by
    have hcaptures :
        ∀ proto : Prototype, proto.upvalues.toList.map Upvalue.capture =
          proto.stripped.upvalues.toList.map Upvalue.capture := by
      intro proto
      rw [proto.stripped_upvalues, Array.toList_map, List.map_map]
      rfl
    rw [hcaptures proto, h, ← hcaptures other]
  numParams := by rw [← proto.stripped_numParams, h, other.stripped_numParams]
  numLocals := by rw [← proto.stripped_numLocals, h, other.stripped_numLocals]

end Machine

section Matches

variable {protos : Prototype → Prototype → Prop}
  {pairs pairs' : Handle → Handle → Prop}
  (himp : ∀ left right, pairs left right → pairs' left right)

theorem Object.Matches.kindName_eq {object other : Object}
    (h : object.Matches protos pairs other) :
    object.kindName = other.kindName := by
  cases h <;> rfl

include himp

theorem Object.Matches.mono {object other : Object}
    (h : object.Matches protos pairs other) :
    object.Matches protos pairs' other := by
  cases h with
  | table h => exact .table (h.mono himp)
  | closure hproto hcells => exact .closure hproto (hcells.mono himp)
  | cell h => exact .cell (h.mono himp)
  | userdata block => exact .userdata block

theorem Frame.Matches.mono {frame other : Frame}
    (h : frame.Matches protos pairs other) :
    frame.Matches protos pairs' other where
  closure := himp _ _ h.closure
  proto := h.proto
  cells := h.cells.mono himp
  ip := h.ip
  base := h.base

end Matches

namespace Machine

open Context

variable {like : Likeness} {pairs pairs' : Handle → Handle → Prop}
  {c d : Context}

theorem Likeness.sameBody (like : Likeness) {proto other : Prototype}
    (h : like.protos proto other) : SameBody proto other :=
  sameBody_of_stripped (like.stripped h)

theorem localsEnd_eq {frame other : Frame}
    (h : frame.Matches like.protos pairs other) :
    frame.localsEnd = other.localsEnd := by
  rw [Frame.localsEnd, Frame.localsEnd, h.base,
    (like.sameBody h.proto).numLocals]

namespace Parallel

variable (h : Parallel like pairs c d)
include h

theorem done : like.Done () c () d := ⟨pairs, h⟩

theorem fails (error : RuntimeError) :
    like.Failed error c error d := ⟨pairs, h, Or.inl rfl⟩

theorem note {notice notice' : Notice}
    (hjournal : like.journals (c.journal.push notice)
      (d.journal.push notice')) :
    Parallel like pairs (c.note notice) (d.note notice') :=
  ⟨h.heap, h.stack, h.frames, h.globals, h.slots, h.free, h.cache,
    h.settings, h.bindings, h.tracing, hjournal⟩

theorem withStack {stack stack' : Array Value}
    (hstack : Pointwise (Value.Alike pairs) stack stack') :
    Parallel like pairs { c with stack } { d with stack := stack' } :=
  ⟨h.heap, hstack, h.frames, h.globals, h.slots, h.free, h.cache,
    h.settings, h.bindings, h.tracing, h.journal⟩

theorem withFrames {frames frames' : Array Frame}
    (hframes : Pointwise (Frame.Matches like.protos pairs) frames frames') :
    Parallel like pairs { c with frames } { d with frames := frames' } :=
  ⟨h.heap, h.stack, hframes, h.globals, h.slots, h.free, h.cache,
    h.settings, h.bindings, h.tracing, h.journal⟩

/-- The heaps change, and there are more pairs. -/
theorem withHeap {heap heap' : Heap}
    (himp : ∀ left right, pairs left right → pairs' left right)
    (hheap : like.heaps pairs' heap heap') :
    Parallel like pairs' { c with heap } { d with heap := heap' } := by
  refine ⟨hheap, h.stack.mono fun _ _ hvalue => hvalue.mono himp,
    h.frames.mono fun _ _ hframe => hframe.mono himp, himp _ _ h.globals, ?_,
    h.free, h.cache, h.settings, h.bindings, h.tracing, h.journal⟩
  refine h.slots.mono fun _ _ hslot => ?_
  cases hslot with
  | none => exact .none
  | some hvalue => exact .some (hvalue.mono himp)

theorem truncateStack (height : Nat) :
    Parallel like pairs (c.truncateStack height) (d.truncateStack height) :=
  h.withStack (h.stack.shrink height)

theorem resizeStack (height : Nat) :
    Parallel like pairs (c.resizeStack height) (d.resizeStack height) := by
  refine h.withStack ?_
  rw [h.stack.size_eq]
  split
  · exact h.stack.append (.replicate _ (.plain rfl))
  · exact h.stack.shrink height

/-! ## The stack and the innermost frame -/

theorem innermost : Accord (innermost c) (innermost d)
    (fun frame c' frame' d' => c' = c ∧ d' = d ∧ c.frames.back? = some frame ∧
      frame.Matches like.protos pairs frame')
    like.Failed := by
  have hback := h.frames.back?
  simp only [Machine.innermost]
  rw [get_bind, get_bind]
  generalize c.frames.back? = frame at hback ⊢
  generalize d.frames.back? = frame' at hback ⊢
  cases hback with
  | none => exact h.fails _
  | some hframe => exact ⟨rfl, rfl, rfl, hframe⟩

theorem moveTo (offset : Nat) :
    Accord (moveTo offset c) (moveTo offset d) like.Done like.Failed := by
  refine ⟨pairs, h.withFrames ?_⟩
  rw [h.frames.size_eq]
  exact h.frames.modify _ fun frame frame' hframe =>
    ⟨hframe.closure, hframe.proto, hframe.cells, rfl, hframe.base⟩

theorem push {value value' : Value} (hvalue : value.Alike pairs value') :
    Accord (push value c) (push value' d) like.Done like.Failed :=
  ⟨pairs, h.withStack (h.stack.push hvalue)⟩

theorem putOperand {value value' : Value} (hvalue : value.Alike pairs value') :
    Accord (putOperand value c) (putOperand value' d)
      like.Done like.Failed := by
  simp only [Machine.putOperand]
  rw [get_bind, get_bind]
  rw [(like.limits h.settings).1, h.stack.size_eq]
  exact .ite Iff.rfl (fun _ => h.fails _) fun _ => h.push hvalue

theorem popTop : Accord (popTop c) (popTop d)
    (fun value c' value' d' =>
      Parallel like pairs c' d' ∧ value.Alike pairs value')
    like.Failed := by
  have hback := h.stack.back?
  simp only [Context.popTop]
  generalize c.stack.back? = value at hback ⊢
  generalize d.stack.back? = value' at hback ⊢
  cases hback with
  | none => exact h.fails _
  | some hvalue => exact ⟨h.withStack h.stack.pop, hvalue⟩

theorem takeOperand : Accord (takeOperand c) (takeOperand d)
    (fun value c' value' d' =>
      Parallel like pairs c' d' ∧ value.Alike pairs value')
    like.Failed := by
  refine h.innermost.look fun frame frame' ⟨_, hframe⟩ => ?_
  rw [get_bind, get_bind, h.stack.size_eq, localsEnd_eq hframe]
  exact .ite Iff.rfl (fun _ => h.fails _) fun _ => h.popTop

theorem slotOfLocal (index : Nat) :
    Accord (slotOfLocal index c) (slotOfLocal index d)
      (fun slot c' slot' d' => c' = c ∧ d' = d ∧ slot = slot') like.Failed := by
  refine h.innermost.look fun frame frame' ⟨_, hframe⟩ => ?_
  rw [get_bind, get_bind, h.stack.size_eq, localsEnd_eq hframe, hframe.base]
  exact .ite Iff.rfl (fun _ => h.fails _) fun _ => ⟨rfl, rfl, rfl⟩

theorem cellOfUpvalue (index : Nat) :
    Accord (cellOfUpvalue index c) (cellOfUpvalue index d)
      (fun cell c' cell' d' =>
        c' = c ∧ d' = d ∧ pairs cell cell') like.Failed := by
  refine h.innermost.look fun frame frame' ⟨_, hframe⟩ => ?_
  have hcell := hframe.cells index
  generalize frame.cells[index]? = cell at hcell ⊢
  generalize frame'.cells[index]? = cell' at hcell ⊢
  cases hcell with
  | none => exact h.fails _
  | some hcell => exact ⟨rfl, rfl, hcell⟩

/-! ## Reading the code -/

theorem byteOperand {proto proto' : Prototype}
    (hcode : proto.code = proto'.code) (offset : Nat) :
    Accord (byteOperand proto offset c) (byteOperand proto' offset d)
      (fun operand c' operand' d' => c' = c ∧ d' = d ∧ operand = operand' ∧
        proto.code.byteAt? offset = some operand) like.Failed := by
  simp only [Machine.byteOperand, hcode]
  cases proto'.code.byteAt? offset with
  | none => exact h.fails _
  | some operand => exact ⟨rfl, rfl, rfl, rfl⟩

theorem pairOperand {proto proto' : Prototype}
    (hcode : proto.code = proto'.code) (offset : Nat) :
    Accord (pairOperand proto offset c) (pairOperand proto' offset d)
      (fun operand c' operand' d' =>
        c' = c ∧ d' = d ∧ operand = operand') like.Failed := by
  simp only [Machine.pairOperand, hcode]
  cases proto'.code.pairAt? offset with
  | none => exact h.fails _
  | some operand => exact ⟨rfl, rfl, rfl⟩

theorem literal {proto proto' : Prototype}
    (hconstants : proto.constants = proto'.constants) (index offset : Nat) :
    Accord (literal proto index offset c) (literal proto' index offset d)
      (fun value c' value' d' =>
        c' = c ∧ d' = d ∧ value.Alike pairs value') like.Failed := by
  simp only [Machine.literal, hconstants]
  cases proto'.constants[index]? with
  | none => exact h.fails _
  | some constant =>
    refine ⟨rfl, rfl, .plain ?_⟩
    cases constant <;> rfl

/-! ## Objects -/

/-- Objects of a kind, or the same error. -/
theorem objectAs {α : Type} {onOk : α → α → Prop} (expected : String)
    {select : Object → Option α}
    (hselect : ∀ object object' : Object,
      object.Matches like.protos pairs object' →
      Option.Rel onOk (select object) (select object'))
    {left right : Handle} (hpair : pairs left right) :
    Answered (objectAs expected select left c)
      (objectAs expected select right d) onOk Eq := by
  have hobject := like.objects h.heap hpair
  have habsent := like.absent h.heap hpair
  simp only [Context.objectAs]
  generalize c.heap.get? left = object at hobject habsent ⊢
  generalize d.heap.get? right = object' at hobject ⊢
  cases hobject with
  | none => exact congrArg RuntimeError.danglingHandle (habsent rfl)
  | @some object object' hobject =>
    have hselected := hselect _ _ hobject
    dsimp only
    generalize select object = selected at hselected ⊢
    generalize select object' = selected' at hselected ⊢
    cases hselected with
    | none => exact congrArg _ hobject.kindName_eq
    | some hselected => exact hselected

theorem tableOf {left right : Handle} (hpair : pairs left right) :
    Answered (c.tableOf left) (d.tableOf right) (Table.Alike pairs) Eq := by
  refine h.objectAs "table" (fun object object' hobject => ?_) hpair
  cases hobject with
  | table htable => exact .some htable
  | _ => exact .none

theorem closureOf {left right : Handle} (hpair : pairs left right) :
    Answered (c.closureOf left) (d.closureOf right)
      (fun closure closure' => like.protos closure.proto closure'.proto ∧
        Pointwise pairs closure.cells closure'.cells) Eq := by
  refine h.objectAs "function" (fun object object' hobject => ?_) hpair
  cases hobject with
  | closure hproto hcells => exact .some ⟨hproto, hcells⟩
  | _ => exact .none

theorem cellOf {left right : Handle} (hpair : pairs left right) :
    Answered (c.cellOf left) (d.cellOf right) (Value.Alike pairs)
      (RuntimeError.Alike pairs) := by
  have hobject := like.objects h.heap hpair
  have hdangles :
      RuntimeError.Alike pairs (.danglingHandle left) (.danglingHandle right) :=
    Or.inr ⟨left, right, hpair, rfl, rfl⟩
  simp only [Context.cellOf]
  generalize c.heap.get? left = object at hobject ⊢
  generalize d.heap.get? right = object' at hobject ⊢
  cases hobject with
  | none => exact hdangles
  | some hobject =>
    cases hobject with
    | cell hvalue => exact hvalue
    | _ => exact hdangles

theorem lengthOf {value value' : Value} (hvalue : value.Alike pairs value') :
    Answered (c.lengthOf value) (d.lengthOf value') Eq Eq := by
  cases hvalue with
  | plain hplain =>
    cases value with
    | table => cases hplain
    | _ => exact rfl
  | table hpair =>
    refine (h.tableOf hpair).bind (g := fun table => .ok table.border)
      fun table table' htable => ?_
    exact Table.Alike.border_eq (like.oneToOne h.heap) htable
  | _ => exact rfl

theorem lookupKey {left right : Handle} (hpair : pairs left right)
    {key key' : Value} (hkey : key.Alike pairs key') :
    Answered (c.lookupKey left key) (d.lookupKey right key')
      (Value.Alike pairs) Eq := by
  refine (h.tableOf hpair).bind fun table table' htable => ?_
  have hkey' := hkey.key?
  generalize key.key? = found at hkey' ⊢
  generalize key'.key? = found' at hkey' ⊢
  cases hkey' with
  | none => exact .plain rfl
  | some hkey' => exact Table.Alike.get (like.oneToOne h.heap) htable hkey'

/-- A query that is answered in the same way. -/
theorem query {α β : Type} {f : Context → Except RuntimeError α}
    {g : Context → Except RuntimeError β} {onOk : α → β → Prop}
    (hanswered : Answered (f c) (g d) onOk Eq) :
    Accord (query f c) (query g d)
      (fun a c' b d' => c' = c ∧ d' = d ∧ onOk a b) like.Failed :=
  accord_query (hanswered.mono (fun _ _ => id)
    fun _ _ heq => ⟨pairs, h, Or.inl heq⟩)

theorem queryCell {left right : Handle} (hpair : pairs left right) :
    Accord (Context.query (·.cellOf left) c) (Context.query (·.cellOf right) d)
      (fun value c' value' d' =>
        c' = c ∧ d' = d ∧ value.Alike pairs value') like.Failed :=
  accord_query ((h.cellOf hpair).mono (fun _ _ => id)
    fun _ _ halike => ⟨pairs, h, halike⟩)

theorem indexed {target target' key key' : Value}
    (htarget : target.Alike pairs target') (hkey : key.Alike pairs key') :
    Accord (indexed target key c) (indexed target' key' d)
      (fun value c' value' d' =>
        c' = c ∧ d' = d ∧ value.Alike pairs value') like.Failed := by
  cases htarget with
  | plain hplain =>
    cases target with
    | table => cases hplain
    | _ => exact h.fails _
  | @table left right hpair =>
    exact h.query (f := (·.lookupKey left key)) (g := (·.lookupKey right key'))
      (h.lookupKey hpair hkey)
  | _ => exact h.fails _

/-! ## Writing objects -/

/-- Objects that correspond are changed in the same way. -/
theorem update {left right : Handle} (hpair : pairs left right)
    {f g : Object → Object}
    (hfg : ∀ object object' : Object, object.Matches like.protos pairs object' →
      (f object).Matches like.protos pairs (g object')) :
    like.Done () { c with heap := c.heap.update left f } ()
      { d with heap := d.heap.update right g } :=
  ⟨pairs, h.withHeap (fun _ _ => id) (like.update h.heap hpair hfg)⟩

theorem storeCell {left right : Handle} (hpair : pairs left right)
    {value value' : Value} (hvalue : value.Alike pairs value') :
    Accord (storeCell left value c) (storeCell right value' d)
      like.Done like.Failed := by
  refine (h.queryCell hpair).look fun _ _ _ => ?_
  exact h.update hpair fun _ _ _ => .cell hvalue

theorem storeKey {left right : Handle} (hpair : pairs left right)
    {key key' : Key} (hkey : key.Alike pairs key') {value value' : Value}
    (hvalue : value.Alike pairs value') :
    Accord (storeKey left key value c) (storeKey right key' value' d)
      like.Done like.Failed := by
  refine (h.query (h.tableOf hpair)).look fun _ _ _ => ?_
  refine h.update hpair fun object object' hobject => ?_
  cases hobject with
  | table htable =>
    exact .table (Table.Alike.set (like.oneToOne h.heap) htable hkey hvalue)
  | closure hproto hcells => exact .closure hproto hcells
  | cell h => exact .cell h
  | userdata block => exact .userdata block

theorem assign {target target' key key' value value' : Value}
    (htarget : target.Alike pairs target') (hkey : key.Alike pairs key')
    (hvalue : value.Alike pairs value') :
    Accord (assign target key value c) (assign target' key' value' d)
      like.Done like.Failed := by
  cases htarget with
  | plain hplain =>
    cases target with
    | table => cases hplain
    | _ => exact h.fails _
  | @table left right hpair =>
    have hkey' := hkey.key?
    simp only [Machine.assign, bindKey]
    rw [hkey.isNil_eq]
    generalize key.key? = found at hkey' ⊢
    generalize key'.key? = found' at hkey' ⊢
    cases hkey' with
    | none => exact h.fails _
    | some hkey' => exact h.storeKey hpair hkey' hvalue
  | _ => exact h.fails _

/-- New objects are paired. -/
theorem allocate {object object' : Object}
    (hobject : object.Matches like.protos pairs object') :
    Accord (allocate object c) (allocate object' d)
      (fun left c' right d' => ∃ pairs' : Handle → Handle → Prop,
        (∀ left right, pairs left right → pairs' left right) ∧
          Parallel like pairs' c' d' ∧ pairs' left right)
      like.Failed := by
  obtain ⟨pairs', himp, hheap, hpair⟩ := like.allocate h.heap hobject
  exact ⟨pairs', himp, h.withHeap himp hheap, hpair⟩

end Parallel

end Machine

end Isolate
