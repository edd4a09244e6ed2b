import Isolate.Context.Functions
import Isolate.Proofs.Heap.Collection
import Isolate.Proofs.Registry
import Isolate.Proofs.Table
import Isolate.Proofs.Value.Key

/-!
# Well-formed contexts

In a well-formed context every handle that a value, a table, a function or a pin
holds names an object of its kind, and every function has one cell for each of
its upvalues.
-/

namespace Isolate

namespace Object

/-! ## Objects and their kinds -/

/-- Tables stay tables, cells stay cells, and everything else stays what it
is. -/
def SameKind : Option Object → Option Object → Prop
  | some (.table _), found => ∃ table, found = some (.table table)
  | some (.cell _), found => ∃ value, found = some (.cell value)
  | before, found => found = before

theorem SameKind.of_eq {before found : Option Object} (h : found = before) :
    SameKind before found := by
  subst h
  rcases found with - | (table | closure | value | block)
  · rfl
  · exact ⟨table, rfl⟩
  · rfl
  · exact ⟨value, rfl⟩
  · rfl

theorem SameKind.update {heap : Heap} {handle : Handle} {f : Object → Object}
    (h : SameKind (heap.get? handle) ((heap.get? handle).map f))
    (other : Handle) :
    SameKind (heap.get? other) ((heap.update handle f).get? other) := by
  rw [Heap.get?_update]
  split
  · next heq => exact heq ▸ h
  · exact .of_eq rfl

theorem mem_children_of_entry {table : Table} {key : Key} {value : Value}
    (hentry : (key, value) ∈ table.entries) {handle : Handle}
    (hhandle : key.toValue.handle? = some handle ∨
      value.handle? = some handle) :
    handle ∈ (Object.table table).children := by
  refine List.mem_flatMap.2 ⟨(key, value), hentry, List.mem_append.2 ?_⟩
  exact hhandle.imp Option.mem_toList.2 Option.mem_toList.2

end Object

namespace Context

variable {ctx : Context} {handle : Handle}

/-! ## Access by kind -/

theorem objectAs_eq_ok_iff {α : Type} {expected : String}
    {select : Object → Option α} {a : α} :
    ctx.objectAs expected select handle = .ok a ↔
      ∃ object, ctx.heap.get? handle = some object ∧
        select object = some a := by
  simp only [objectAs]
  cases ctx.heap.get? handle with
  | none => simp
  | some object => cases hselect : select object <;> simp [hselect]

theorem tableOf_eq_ok_iff {table : Table} :
    ctx.tableOf handle = .ok table ↔
      ctx.heap.get? handle = some (.table table) := by
  simp only [tableOf]
  rw [objectAs_eq_ok_iff]
  constructor
  · rintro ⟨object, hobject, hselect⟩
    cases object <;> cases hselect
    exact hobject
  · exact fun h => ⟨_, h, rfl⟩

theorem closureOf_eq_ok_iff {closure : Closure} :
    ctx.closureOf handle = .ok closure ↔
      ctx.heap.get? handle = some (.closure closure) := by
  simp only [closureOf]
  rw [objectAs_eq_ok_iff]
  constructor
  · rintro ⟨object, hobject, hselect⟩
    cases object <;> cases hselect
    exact hobject
  · exact fun h => ⟨_, h, rfl⟩

theorem cellOf_eq_ok_iff {value : Value} :
    ctx.cellOf handle = .ok value ↔
      ctx.heap.get? handle = some (.cell value) := by
  simp only [cellOf]
  split
  · next found hfound => simp [hfound]
  · next hnone =>
    constructor
    · exact nofun
    · exact fun h => absurd h (hnone value)

/-- Only functions are written as chunks. -/
theorem exists_closure_of_chunkOf {value : Value} {strip : Bool}
    {bytes : List UInt8} (h : ctx.chunkOf value strip = .ok bytes) :
    ∃ handle closure, value = .function handle ∧
      ctx.heap.get? handle = some (.closure closure) ∧
      Chunk.dump closure.proto strip ctx.settings.maxChunkSize = .ok bytes := by
  cases value with
  | function handle =>
    simp only [chunkOf] at h
    cases hclosure : ctx.closureOf handle with
    | error error =>
      rw [hclosure] at h
      cases h
    | ok closure =>
      rw [hclosure] at h
      exact ⟨handle, closure, rfl, closureOf_eq_ok_iff.1 hclosure, h⟩
  | _ => cases h

/-! ## Well-formedness -/

/-- The handle of a value names an object of the kind that the value says. -/
def Names (ctx : Context) : Value → Prop
  | .table handle => ∃ table, ctx.heap.get? handle = some (.table table)
  | .function handle =>
    ∃ closure, ctx.heap.get? handle = some (.closure closure)
  | .userdata handle => ∃ block, ctx.heap.get? handle = some (.userdata block)
  | _ => True

/-- What an object holds names objects of their kinds; its keys are canonical,
and it has a cell for each of its upvalues. -/
def Holds (ctx : Context) : Object → Prop
  | .table table => ∀ key value, (key, value) ∈ table.entries →
      key.Canonical ∧ ctx.Names key.toValue ∧ ctx.Names value
  | .closure closure => closure.cells.size = closure.proto.upvalues.size ∧
      ∀ cell ∈ closure.cells.toList,
        ∃ value, ctx.heap.get? cell = some (.cell value)
  | .cell value => ctx.Names value
  | .userdata _ => True

/-- A value names what it named as long as that keeps its kind. -/
theorem Names.transport {c : Context} {value : Value} (h : ctx.Names value)
    (hkinds : ∀ handle, value.handle? = some handle →
      (ctx.heap.get? handle).isSome →
      Object.SameKind (ctx.heap.get? handle) (c.heap.get? handle)) :
    c.Names value := by
  cases value with
  | table handle =>
    obtain ⟨table, htable⟩ := h
    have hkind := hkinds handle rfl (Option.isSome_of_mem htable)
    rw [htable] at hkind
    exact hkind
  | function handle =>
    obtain ⟨closure, hclosure⟩ := h
    have hkind := hkinds handle rfl (Option.isSome_of_mem hclosure)
    rw [hclosure] at hkind
    exact ⟨closure, hkind⟩
  | userdata handle =>
    obtain ⟨block, hblock⟩ := h
    have hkind := hkinds handle rfl (Option.isSome_of_mem hblock)
    rw [hblock] at hkind
    exact ⟨block, hkind⟩
  | _ => trivial

/-- A value that holds a handle names something. -/
theorem Names.isSome {value : Value} (h : ctx.Names value)
    (hhandle : value.handle? = some handle) :
    (ctx.heap.get? handle).isSome := by
  cases value with
  | table =>
    cases hhandle
    obtain ⟨_, hobject⟩ := h
    exact Option.isSome_of_mem hobject
  | function =>
    cases hhandle
    obtain ⟨_, hobject⟩ := h
    exact Option.isSome_of_mem hobject
  | userdata =>
    cases hhandle
    obtain ⟨_, hobject⟩ := h
    exact Option.isSome_of_mem hobject
  | _ => cases hhandle

theorem Holds.transport {c : Context} {object : Object} (h : ctx.Holds object)
    (hkinds : ∀ handle ∈ object.children, (ctx.heap.get? handle).isSome →
      Object.SameKind (ctx.heap.get? handle) (c.heap.get? handle)) :
    c.Holds object := by
  cases object with
  | table table =>
    intro key value hentry
    obtain ⟨hcanonical, hkey, hvalue⟩ := h key value hentry
    refine ⟨hcanonical, hkey.transport fun handle hhandle => ?_,
      hvalue.transport fun handle hhandle => ?_⟩
    · exact hkinds handle (Object.mem_children_of_entry hentry (Or.inl hhandle))
    · exact hkinds handle (Object.mem_children_of_entry hentry (Or.inr hhandle))
  | closure closure =>
    refine ⟨h.1, fun cell hcell => ?_⟩
    obtain ⟨value, hvalue⟩ := h.2 cell hcell
    have hkind := hkinds cell hcell (Option.isSome_of_mem hvalue)
    rw [hvalue] at hkind
    exact hkind
  | cell value =>
    have hnames : ctx.Names value := h
    exact hnames.transport fun handle hhandle =>
      hkinds handle (Option.mem_toList.2 hhandle)
  | userdata => trivial

/-- What an object of a well-formed context holds is there. -/
theorem Holds.isSome {object : Object} (h : ctx.Holds object)
    (hchild : handle ∈ object.children) : (ctx.heap.get? handle).isSome := by
  cases object with
  | table table =>
    obtain ⟨⟨key, value⟩, hentry, hmem⟩ := List.mem_flatMap.1 hchild
    obtain ⟨-, hkey, hvalue⟩ := h key value hentry
    rcases List.mem_append.1 hmem with hmem | hmem
    · exact hkey.isSome (Option.mem_toList.1 hmem)
    · exact hvalue.isSome (Option.mem_toList.1 hmem)
  | closure closure =>
    obtain ⟨value, hvalue⟩ := h.2 handle hchild
    exact Option.isSome_of_mem hvalue
  | cell value =>
    have hnames : ctx.Names value := h
    exact hnames.isSome (Option.mem_toList.1 hchild)
  | userdata => cases hchild

/-- An assignment brings in the key and the value, unless it removes the key. -/
theorem Holds.set {table : Table} (h : ctx.Holds (.table table)) {key : Key}
    {value : Value}
    (hkey : value ≠ .nil → key.Canonical ∧ ctx.Names key.toValue)
    (hvalue : ctx.Names value) : ctx.Holds (.table (table.set key value)) := by
  intro other bound hentry
  rcases Table.mem_of_mem_entries_set hentry with hold | ⟨heq, hbound⟩
  · exact h other bound hold
  · cases heq
    exact ⟨(hkey hbound).1, (hkey hbound).2, hvalue⟩

theorem holds_empty {ctx : Context} : ctx.Holds (.table .empty) :=
  fun _ _ hentry => (List.not_mem_nil hentry).elim

/-- No handle dangles. -/
structure WellFormed (ctx : Context) : Prop where
  heap : ctx.heap.WellFormed
  registry : ctx.registry.WellFormed
  objects : ∀ handle object, ctx.heap.get? handle = some object →
    ctx.Holds object
  stack : ∀ value ∈ ctx.stack.toList, ctx.Names value
  pinned : ∀ pin value, ctx.registry.get? pin = some value → ctx.Names value
  globals : ctx.Names ctx.globalsValue
  frames : ∀ frame ∈ ctx.frames.toList, ctx.Names (.function frame.closure)

theorem WellFormed.names_of_valueAt (h : ctx.WellFormed) {index : Int}
    {value : Value} (hvalue : ctx.valueAt index = .ok value) :
    ctx.Names value := by
  simp only [valueAt, value?] at hvalue
  cases hslot : ctx.slot? index with
  | none =>
    rw [hslot] at hvalue
    cases hvalue
  | some slot =>
    rw [hslot] at hvalue
    cases hvalue
    dsimp only
    rw [Array.getD_eq_getD_getElem?]
    cases hfound : ctx.stack[slot]? with
    | none => trivial
    | some value =>
      exact h.stack value
        (Array.mem_toList_iff.2 (Array.mem_of_getElem? hfound))

/-! ## Changes to a well-formed context -/

theorem WellFormed.withStack (h : ctx.WellFormed) {stack : Array Value}
    (hstack : ∀ value ∈ stack.toList, ctx.Names value) :
    ({ ctx with stack } : Context).WellFormed :=
  ⟨h.heap, h.registry, h.objects, hstack, h.pinned, h.globals, h.frames⟩

theorem WellFormed.note (h : ctx.WellFormed) (notice : Notice) :
    (ctx.note notice).WellFormed :=
  ⟨h.heap, h.registry, h.objects, h.stack, h.pinned, h.globals, h.frames⟩

theorem WellFormed.names_of_below (h : ctx.WellFormed) {stack : Array Value}
    (hbelow : stack.toList <+: ctx.stack.toList) {value : Value}
    (hvalue : value ∈ stack.toList) : ctx.Names value :=
  h.stack value (hbelow.subset hvalue)

theorem WellFormed.push (h : ctx.WellFormed) {value : Value}
    (hvalue : ctx.Names value) :
    ({ ctx with stack := ctx.stack.push value } : Context).WellFormed := by
  refine h.withStack fun found hfound => ?_
  rw [Array.toList_push] at hfound
  rcases List.mem_append.1 hfound with hfound | hfound
  · exact h.stack found hfound
  · cases List.mem_singleton.1 hfound
    exact hvalue

theorem WellFormed.withPin (h : ctx.WellFormed) {value : Value}
    (hvalue : ctx.Names value) :
    ({ ctx with registry := (ctx.registry.pin value).2 } :
      Context).WellFormed := by
  refine ⟨h.heap, h.registry.pin, h.objects, h.stack,
    fun pin found hfound => ?_, h.globals, h.frames⟩
  rcases Registry.get?_pin_eq_some hfound with rfl | hfound
  · exact hvalue
  · exact h.pinned pin found hfound

/-- An object changes, keeps its kind, and holds nothing that dangles. -/
theorem WellFormed.updated (h : ctx.WellFormed) {f : Object → Object}
    (hkind : Object.SameKind (ctx.heap.get? handle)
      ((ctx.heap.get? handle).map f))
    (hholds : ∀ object, ctx.heap.get? handle = some object →
      ctx.Holds (f object)) :
    ({ ctx with heap := ctx.heap.update handle f } : Context).WellFormed := by
  have hnames : ∀ {value}, ctx.Names value →
      ({ ctx with heap := ctx.heap.update handle f } : Context).Names value :=
    fun hvalue => hvalue.transport fun other _ _ => hkind.update other
  refine ⟨h.heap.update, h.registry, fun other object hobject => ?_,
    fun value hvalue => hnames (h.stack value hvalue),
    fun pin value hvalue => hnames (h.pinned pin value hvalue),
    hnames h.globals, fun frame hframe => hnames (h.frames frame hframe)⟩
  have hold : ctx.Holds object := by
    have hobject : (ctx.heap.update handle f).get? other = some object :=
      hobject
    rw [Heap.get?_update] at hobject
    split at hobject
    · next heq =>
      obtain ⟨before, hbefore, rfl⟩ := Option.map_eq_some_iff.1 hobject
      exact hholds before (heq ▸ hbefore)
    · exact h.objects other object hobject
  exact hold.transport fun child _ _ => hkind.update child

/-! ## Upvalues of a well-formed context -/

theorem upvaluesFrom_getElem? {function : Value} {number count : Nat}
    (h : ∀ i < count, (ctx.upvalue? function (number + i)).isSome) (i : Nat) :
    (ctx.upvaluesFrom function number count)[i]? =
      if i < count then ctx.upvalue? function (number + i) else none := by
  induction count generalizing number i with
  | zero => rfl
  | succ count ih =>
    obtain ⟨first, hfirst⟩ :=
      Option.isSome_iff_exists.1 (h 0 (Nat.succ_pos count))
    have hrest :
        ∀ i < count, (ctx.upvalue? function (number + 1 + i)).isSome := by
      intro i hi
      have := h (i + 1) (Nat.succ_lt_succ hi)
      rwa [Nat.add_comm i 1, ← Nat.add_assoc] at this
    rw [upvaluesFrom]
    rw [Nat.add_zero] at hfirst
    simp only [hfirst]
    cases i with
    | zero => simp [hfirst]
    | succ i =>
      rw [List.getElem?_cons_succ, ih hrest i]
      simp only [Nat.add_lt_add_iff_right, Nat.add_assoc, Nat.add_comm 1 i]

/-- The upvalues of a function of a well-formed context, in the order of its
cells. -/
theorem WellFormed.upvalues_getElem? (h : ctx.WellFormed) {closure : Closure}
    (hclosure : ctx.heap.get? handle = some (.closure closure)) {i : Nat}
    {name : String} {value : Value} :
    (ctx.upvalues (.function handle))[i]? = some (name, value) ↔
      ∃ cell, closure.cells[i]? = some cell ∧
        ctx.heap.get? cell = some (.cell value) ∧
        name = (closure.proto.upvalueName i).getD "" := by
  have hcells := (h.objects handle _ hclosure).2
  have hupvalue : ∀ i, ctx.upvalue? (.function handle) (i + 1) =
      closure.cells[i]?.bind fun cell =>
        (ctx.cellOf cell).toOption.bind fun value =>
          some ((closure.proto.upvalueName i).getD "", value) := by
    intro i
    simp only [upvalue?]
    rw [closureOf_eq_ok_iff.2 hclosure]
    rfl
  have hsome : ∀ i < closure.cells.size,
      (ctx.upvalue? (.function handle) (1 + i)).isSome := by
    intro i hi
    obtain ⟨value, hvalue⟩ :=
      hcells closure.cells[i] (Array.getElem_mem_toList hi)
    rw [Nat.add_comm, hupvalue, Array.getElem?_eq_getElem hi, Option.bind_some,
      cellOf_eq_ok_iff.2 hvalue]
    rfl
  simp only [upvalues]
  rw [closureOf_eq_ok_iff.2 hclosure]
  dsimp only
  rw [upvaluesFrom_getElem? hsome, Nat.add_comm, hupvalue]
  constructor
  · intro hfound
    split at hfound
    · obtain ⟨cell, hcell, hfound⟩ := Option.bind_eq_some_iff.1 hfound
      obtain ⟨found, hvalue, hfound⟩ := Option.bind_eq_some_iff.1 hfound
      cases hfound
      refine ⟨cell, hcell, ?_, rfl⟩
      cases hcellOf : ctx.cellOf cell with
      | error e => simp [hcellOf, Except.toOption] at hvalue
      | ok found =>
        rw [hcellOf] at hvalue
        cases hvalue
        exact cellOf_eq_ok_iff.1 hcellOf
    · cases hfound
  · rintro ⟨cell, hcell, hvalue, rfl⟩
    obtain ⟨hi, -⟩ := Array.getElem?_eq_some_iff.1 hcell
    rw [if_pos hi, hcell, Option.bind_some, cellOf_eq_ok_iff.2 hvalue]
    rfl

theorem WellFormed.length_upvalues (h : ctx.WellFormed) {closure : Closure}
    (hclosure : ctx.heap.get? handle = some (.closure closure)) :
    (ctx.upvalues (.function handle)).length = closure.cells.size := by
  have hcells := (h.objects handle _ hclosure).2
  have hsome :
      ∀ i, i < (ctx.upvalues (.function handle)).length ↔
        i < closure.cells.size := by
    intro i
    constructor
    · intro hi
      obtain ⟨cell, hcell, -⟩ :=
        (h.upvalues_getElem? hclosure).1 (List.getElem?_eq_getElem hi)
      exact (Array.getElem?_eq_some_iff.1 hcell).1
    · intro hi
      obtain ⟨value, hvalue⟩ :=
        hcells closure.cells[i] (Array.getElem_mem_toList hi)
      have hfound := (h.upvalues_getElem? hclosure).2
        ⟨_, Array.getElem?_eq_getElem hi, hvalue, rfl⟩
      exact (List.getElem?_eq_some_iff.1 hfound).1
  refine Nat.le_antisymm (Nat.le_of_not_lt fun hlt => ?_)
    (Nat.le_of_not_lt fun hlt => ?_)
  · exact absurd ((hsome _).1 hlt) (Nat.lt_irrefl _)
  · exact absurd ((hsome _).2 hlt) (Nat.lt_irrefl _)

/-! ## Contexts given by their objects -/

/-- A context of these objects, the first of which are the globals, without a
cache. -/
def holding (objects : List Object) (stack : Array Value) : Context where
  heap := { slots := (objects.map fun object => some { object }).toArray }
  stack := stack
  globals := ⟨0⟩
  bindings := {}
  cache := { capacity := 0 }
  settings := {}
  tracing := false

variable {objects : List Object} {stack : Array Value}

theorem get?_holding :
    (holding objects stack).heap.get? handle = objects[handle.index]? := by
  rw [holding, Heap.get?]
  dsimp only
  rw [List.getElem?_toArray, List.getElem?_map]
  cases objects[handle.index]? <;> rfl

theorem wellFormed_holding
    (hobjects : ∀ object ∈ objects, (holding objects stack).Holds object)
    (hstack : ∀ value ∈ stack.toList, (holding objects stack).Names value)
    (hglobals : (holding objects stack).Names (.table ⟨0⟩)) :
    (holding objects stack).WellFormed where
  heap := by
    refine ⟨nofun, List.nodup_nil, fun slot entry hentry => ?_⟩
    rw [holding] at hentry
    dsimp only at hentry
    rw [List.getElem?_toArray, List.getElem?_map] at hentry
    obtain ⟨object, -, hobject⟩ := Option.map_eq_some_iff.1 hentry
    cases hobject
    rfl
  registry := ⟨nofun, List.nodup_nil⟩
  objects := fun handle object hobject =>
    hobjects object (List.mem_of_getElem? (get?_holding.symm.trans hobject))
  stack := hstack
  pinned := nofun
  globals := hglobals
  frames := nofun

/-- A context that has nothing but its globals. -/
def bare : Context := holding [.table .empty] #[]

theorem wellFormed_bare : bare.WellFormed := by
  refine wellFormed_holding (fun object hobject => ?_)
    (fun value hvalue => ?_) ⟨_, rfl⟩
  · cases List.mem_singleton.1 hobject
    exact holds_empty
  · cases hvalue

end Context

end Isolate
