import Isolate.Proofs.Context.Chunks
import Isolate.Transfer.Copy

/-!
# Copies and what they are made of

A copy of a table is one object of the destination, and a copy of a function is
one object and its cells.  The copies of a sound transfer have the kinds and the
shapes of what they were made from, and no two of them share a part.
-/

namespace Isolate

/-! ## What travels -/

/-- The values that a transfer of a root comes to.  A first upvalue that holds
the environment stays behind. -/
inductive Context.Travels (source : Context) (root : Value) : Value → Prop
  | root : source.Travels root root
  | key {handle : Handle} {table : Table} {key : Key} {value : Value}
      (h : source.Travels root (.table handle))
      (htable : source.heap.get? handle = some (.table table))
      (hentry : (key, value) ∈ table.entries) : source.Travels root key.toValue
  | value {handle : Handle} {table : Table} {key : Key} {value : Value}
      (h : source.Travels root (.table handle))
      (htable : source.heap.get? handle = some (.table table))
      (hentry : (key, value) ∈ table.entries) : source.Travels root value
  | captured {handle : Handle} {i : Nat} {name : String} {value : Value}
      (h : source.Travels root (.function handle))
      (hupvalue : (source.upvalues (.function handle))[i]? = some (name, value))
      (hplace : ¬(i = 0 ∧ source.bindsGlobals name value = true)) :
        source.Travels root value

theorem Context.WellFormed.names_of_travels {source : Context}
    (hsource : source.WellFormed) {root value : Value}
    (hroot : source.Names root) (h : source.Travels root value) :
    source.Names value := by
  induction h with
  | root => exact hroot
  | key _ htable hentry => exact ((hsource.objects _ _ htable) _ _ hentry).2.1
  | value _ htable hentry => exact ((hsource.objects _ _ htable) _ _ hentry).2.2
  | captured _ hupvalue _ ih =>
    obtain ⟨closure, hclosure⟩ := ih
    obtain ⟨cell, -, hcell, -⟩ :=
      (hsource.upvalues_getElem? hclosure).1 hupvalue
    exact hsource.objects _ _ hcell

/-- The chunks that the functions of a source travel as. -/
def Context.Travelling (source : Context) (settings : TransferSettings)
    (bytes : List UInt8) (name : String) : Prop :=
  name = settings.chunkName ∧
    ∃ function, source.chunkOf function settings.stripDebug = .ok bytes

/-! ## Images -/

namespace Transfer

/-- The copy that is recorded for an identity. -/
def copyOf? (t : Transfer) (identity : Nat) : Option Value :=
  (t.copies.find? identity).bind t.dest.registry.get?

/-- A transfer in which everything is recorded that was recorded in another. -/
def Remembers (t' t : Transfer) : Prop :=
  ∀ identity copy, t.copyOf? identity = some copy →
    t'.copyOf? identity = some copy

/-- A value of the destination stands for a value of the source: plain data for
itself and a copy for what it was made from. -/
inductive Image (t : Transfer) : Value → Value → Prop
  | plain {value : Value} (hhandle : value.handle? = none)
      (hnative : ∀ name, value ≠ .native name) : t.Image value value
  | table {handle copy : Handle}
      (hcopy : t.copyOf? handle.index = some (.table copy)) :
      t.Image (.table handle) (.table copy)
  | function {handle copy : Handle}
      (hcopy : t.copyOf? handle.index = some (.function copy)) :
      t.Image (.function handle) (.function copy)

variable {t t' : Transfer} {identity : Nat} {value image : Value}

theorem Image.mono (h : t.Image value image) (hcopies : t'.Remembers t) :
    t'.Image value image := by
  cases h with
  | plain hhandle hnative => exact .plain hhandle hnative
  | table hcopy => exact .table (hcopies _ _ hcopy)
  | function hcopy => exact .function (hcopies _ _ hcopy)

theorem Image.ne_nil (h : t.Image value image) (hvalue : value ≠ .nil) :
    image ≠ .nil := by
  cases h with
  | plain => exact hvalue
  | table => exact nofun
  | function => exact nofun

theorem Image.ne_native (h : t.Image value image) (name : String) :
    value ≠ .native name := by
  cases h with
  | plain _ hnative => exact hnative name
  | table => exact nofun
  | function => exact nofun

theorem Image.ne_userdata (h : t.Image value image) (handle : Handle) :
    value ≠ .userdata handle := by
  rintro rfl
  cases h with
  | plain hhandle => cases hhandle

/-- The image of a key is a key. -/
theorem Image.key? {key : Key} (h : t.Image key.toValue image)
    (hkey : key.Canonical) :
    ∃ imageKey, image.key? = some imageKey ∧ imageKey.toValue = image := by
  generalize hvalue : key.toValue = value at h
  cases h with
  | plain => exact ⟨key, hvalue ▸ hkey, hvalue⟩
  | table => exact ⟨.table _, rfl, rfl⟩
  | function => exact ⟨.function _, rfl, rfl⟩

end Transfer

/-! ## Parts of a copy -/

/-- The objects that a copy is made of: itself and, if it is a function, its
cells. -/
def Context.partsOf (ctx : Context) : Value → List Handle
  | .table handle => [handle]
  | .function handle =>
    match ctx.heap.get? handle with
    | some (.closure closure) => handle :: closure.cells.toList
    | _ => [handle]
  | _ => []

namespace Transfer

/-- The objects that the copy of an identity is made of. -/
def parts (t : Transfer) (identity : Nat) : List Handle :=
  match t.copyOf? identity with
  | some copy => t.dest.partsOf copy
  | none => []

variable {t t' : Transfer} {identity : Nat} {copy handle : Handle}

theorem parts_of_none (hcopy : t.copyOf? identity = none) :
    t.parts identity = [] := by
  simp only [parts]
  rw [hcopy]

theorem parts_of_table (hcopy : t.copyOf? identity = some (.table copy)) :
    t.parts identity = [copy] := by
  simp only [parts]
  rw [hcopy]
  rfl

theorem parts_of_function {closure : Closure}
    (hcopy : t.copyOf? identity = some (.function copy))
    (hclosure : t.dest.heap.get? copy = some (.closure closure)) :
    t.parts identity = copy :: closure.cells.toList := by
  simp only [parts, Context.partsOf]
  rw [hcopy]
  dsimp only
  rw [hclosure]

theorem mem_parts_of_function
    (hcopy : t.copyOf? identity = some (.function copy)) :
    copy ∈ t.parts identity := by
  simp only [parts, Context.partsOf]
  rw [hcopy]
  dsimp only
  split <;> exact List.mem_cons_self

theorem contains_of_copyOf? {value : Value}
    (hcopy : t.copyOf? identity = some value) :
    t.copies.contains identity = true := by
  obtain ⟨pin, hpin, -⟩ := Option.bind_eq_some_iff.1 hcopy
  exact Option.isSome_of_mem hpin

/-- A reference that has an image has a copy. -/
theorem Image.contains {value image : Value} (h : t.Image value image)
    (hhandle : value.handle? = some handle) :
    t.copies.contains handle.index = true := by
  cases h with
  | plain hplain => cases hplain.symm.trans hhandle
  | table hcopy =>
    cases hhandle
    exact contains_of_copyOf? hcopy
  | function hcopy =>
    cases hhandle
    exact contains_of_copyOf? hcopy

theorem copyOf?_of_not_contains (h : ¬t.copies.contains identity = true) :
    t.copyOf? identity = none := by
  rw [Option.eq_none_iff_forall_ne_some]
  exact fun value hcopy => h (contains_of_copyOf? hcopy)

theorem contains_of_mem_parts (hmem : handle ∈ t.parts identity) :
    t.copies.contains identity = true := by
  refine Decidable.byContradiction fun hnot => ?_
  rw [parts_of_none (copyOf?_of_not_contains hnot)] at hmem
  cases hmem

theorem contains_of_mem_parts_dest {c : Context}
    (hmem : handle ∈ ({ t with dest := c } : Transfer).parts identity) :
    t.copies.contains identity = true :=
  have hcontains :
    ({ t with dest := c } : Transfer).copies.contains identity = true :=
    contains_of_mem_parts hmem
  hcontains

/-! ## Twins -/

/-- The copy of a function: the prototype that its chunk is read as, and a cell
of its own for each upvalue. -/
structure Counterpart (settings : TransferSettings) (dest : Context)
    (closure copied : Closure) : Prop where
  proto : copied.proto =
    (closure.proto.kept settings.stripDebug).attributedTo settings.chunkName
  size : copied.cells.size = closure.cells.size
  nodup : copied.cells.toList.Nodup
  cells : ∀ cell ∈ copied.cells.toList,
    ∃ value, dest.heap.get? cell = some (.cell value)

theorem Counterpart.transport {settings : TransferSettings}
    {dest dest' : Context} {closure copied : Closure}
    (h : Counterpart settings dest closure copied)
    (hcells : ∀ cell ∈ copied.cells.toList,
      Object.SameKind (dest.heap.get? cell) (dest'.heap.get? cell)) :
    Counterpart settings dest' closure copied := by
  refine ⟨h.proto, h.size, h.nodup, fun cell hcell => ?_⟩
  obtain ⟨value, hvalue⟩ := h.cells cell hcell
  have hkind := hcells cell hcell
  rw [hvalue] at hkind
  exact hkind

/-- The object of an identity has a copy of its kind, and the two are
related. -/
inductive Twin (source : Context) (settings : TransferSettings) (t : Transfer)
    (identity : Nat) (ofTables : Table → Table → Prop)
    (ofClosures : Closure → Closure → Prop) : Prop
  | table {table copied : Table} {copy : Handle}
      (hsource : source.heap.get? ⟨identity⟩ = some (.table table))
      (hcopy : t.copyOf? identity = some (.table copy))
      (hobject : t.dest.heap.get? copy = some (.table copied))
      (hrelated : ofTables table copied)
  | function {closure copied : Closure} {copy : Handle}
      (hsource : source.heap.get? ⟨identity⟩ = some (.closure closure))
      (hcopy : t.copyOf? identity = some (.function copy))
      (hobject : t.dest.heap.get? copy = some (.closure copied))
      (hcounterpart : Counterpart settings t.dest closure copied)
      (hrelated : ofClosures closure copied)

/-- The object of an identity has a copy of its kind, however much of it is
filled. -/
def Shaped (source : Context) (settings : TransferSettings) (t : Transfer)
    (identity : Nat) : Prop :=
  Twin source settings t identity (fun _ _ => True) fun _ _ => True

section Twin

variable {source : Context} {settings : TransferSettings}
  {ofTables ofTables' : Table → Table → Prop}
  {ofClosures ofClosures' : Closure → Closure → Prop}

theorem Twin.shaped (h : Twin source settings t identity ofTables ofClosures) :
    Shaped source settings t identity := by
  cases h with
  | table hsource hcopy hobject => exact .table hsource hcopy hobject trivial
  | function hsource hcopy hobject hcounterpart =>
    exact .function hsource hcopy hobject hcounterpart trivial

theorem Twin.of_table (h : Twin source settings t identity ofTables ofClosures)
    {table : Table}
    (htable : source.heap.get? ⟨identity⟩ = some (.table table)) :
    ∃ copy copied, t.copyOf? identity = some (.table copy) ∧
      t.dest.heap.get? copy = some (.table copied) ∧ ofTables table copied := by
  cases h with
  | table hsource hcopy hobject hrelated =>
    cases hsource.symm.trans htable
    exact ⟨_, _, hcopy, hobject, hrelated⟩
  | function hsource => cases hsource.symm.trans htable

theorem Twin.of_closure
    (h : Twin source settings t identity ofTables ofClosures)
    {closure : Closure}
    (hclosure : source.heap.get? ⟨identity⟩ = some (.closure closure)) :
    ∃ copy copied, t.copyOf? identity = some (.function copy) ∧
      t.dest.heap.get? copy = some (.closure copied) ∧
      Counterpart settings t.dest closure copied ∧
      ofClosures closure copied := by
  cases h with
  | table hsource => cases hsource.symm.trans hclosure
  | function hsource hcopy hobject hcounterpart hrelated =>
    cases hsource.symm.trans hclosure
    exact ⟨_, _, hcopy, hobject, hcounterpart, hrelated⟩

/-- The parts of a copy are there, and a pin keeps them alive. -/
theorem Twin.live (h : Twin source settings t identity ofTables ofClosures)
    (hmem : handle ∈ t.parts identity) : t.dest.Live handle := by
  cases h with
  | @table table copied copy hsource hcopy hobject =>
    rw [parts_of_table hcopy, List.mem_singleton] at hmem
    subst hmem
    obtain ⟨pin, -, hpinned⟩ := Option.bind_eq_some_iff.1 hcopy
    exact ⟨Context.reaches_of_pinned hpinned rfl, Option.isSome_of_mem hobject⟩
  | @function closure copied copy hsource hcopy hobject hcounterpart =>
    obtain ⟨pin, -, hpinned⟩ := Option.bind_eq_some_iff.1 hcopy
    have hreaches : t.dest.Reaches copy := Context.reaches_of_pinned hpinned rfl
    rw [parts_of_function hcopy hobject] at hmem
    rcases List.mem_cons.1 hmem with rfl | hcell
    · exact ⟨hreaches, Option.isSome_of_mem hobject⟩
    · obtain ⟨value, hvalue⟩ := hcounterpart.cells handle hcell
      exact ⟨hreaches.child hobject hcell, Option.isSome_of_mem hvalue⟩

/-- A table is part of no copy but its own. -/
theorem Twin.not_mem_parts
    (h : Twin source settings t identity ofTables ofClosures)
    {table : Table} (htable : t.dest.heap.get? handle = some (.table table))
    (hcopy : t.copyOf? identity ≠ some (.table handle)) :
    handle ∉ t.parts identity := by
  intro hmem
  cases h with
  | table _ hfound =>
    rw [parts_of_table hfound, List.mem_singleton] at hmem
    exact hcopy (hmem ▸ hfound)
  | function _ hfound hobject hcounterpart =>
    rw [parts_of_function hfound hobject] at hmem
    rcases List.mem_cons.1 hmem with rfl | hcell
    · cases htable.symm.trans hobject
    · obtain ⟨value, hvalue⟩ := hcounterpart.cells handle hcell
      cases htable.symm.trans hvalue

/-- A copy whose parts stay as they are is related as before. -/
theorem Twin.transport (h : Twin source settings t identity ofTables ofClosures)
    (hcopies : ∀ value, t.copyOf? identity = some value →
      t'.copyOf? identity = some value)
    (hparts : ∀ handle ∈ t.parts identity,
      t'.dest.heap.get? handle = t.dest.heap.get? handle)
    (htables : ∀ table copied, ofTables table copied → ofTables' table copied)
    (hclosures : ∀ closure copied, (∀ cell ∈ copied.cells.toList,
        t'.dest.heap.get? cell = t.dest.heap.get? cell) →
      ofClosures closure copied → ofClosures' closure copied) :
    Twin source settings t' identity ofTables' ofClosures' := by
  cases h with
  | @table table copied copy hsource hcopy hobject hrelated =>
    rw [parts_of_table hcopy] at hparts
    refine .table hsource (hcopies _ hcopy) ?_ (htables table copied hrelated)
    exact (hparts copy List.mem_cons_self).trans hobject
  | @function closure copied copy hsource hcopy hobject hcounterpart hrelated =>
    rw [parts_of_function hcopy hobject] at hparts
    have hcells := fun cell hcell =>
      hparts cell (List.mem_cons_of_mem copy hcell)
    refine .function hsource (hcopies _ hcopy) ?_ ?_
      (hclosures closure copied hcells hrelated)
    · exact (hparts copy List.mem_cons_self).trans hobject
    · exact hcounterpart.transport fun cell hcell => .of_eq (hcells cell hcell)

end Twin

variable {source : Context} {settings : TransferSettings}

theorem Shaped.transport (h : Shaped source settings t identity)
    (hcopies : ∀ value, t.copyOf? identity = some value →
      t'.copyOf? identity = some value)
    (hparts : ∀ handle ∈ t.parts identity,
      Object.SameKind (t.dest.heap.get? handle) (t'.dest.heap.get? handle)) :
    Shaped source settings t' identity ∧
      t'.parts identity = t.parts identity := by
  cases h with
  | @table table copied copy hsource hcopy hobject =>
    rw [parts_of_table hcopy] at hparts ⊢
    have hkind := hparts copy List.mem_cons_self
    rw [hobject] at hkind
    obtain ⟨table', hobject'⟩ := hkind
    exact ⟨.table hsource (hcopies _ hcopy) hobject' trivial,
      parts_of_table (hcopies _ hcopy)⟩
  | @function closure copied copy hsource hcopy hobject hcounterpart =>
    rw [parts_of_function hcopy hobject] at hparts ⊢
    have hobject' := hparts copy List.mem_cons_self
    rw [hobject] at hobject'
    refine ⟨.function hsource (hcopies _ hcopy) hobject' ?_ trivial,
      parts_of_function (hcopies _ hcopy) hobject'⟩
    exact hcounterpart.transport fun cell hcell =>
      hparts cell (List.mem_cons_of_mem copy hcell)

/-! ## Soundness -/

/-- The destination is well-formed, every recorded copy has the shape of what
it was made from, no two copies share a part, and the cache can be trusted
with what travels. -/
structure Sound (source : Context) (settings : TransferSettings)
    (t : Transfer) : Prop where
  wellFormed : t.dest.WellFormed
  trusted : t.dest.cache.Trusted (source.Travelling settings)
  shaped : ∀ identity, t.copies.contains identity = true →
    Shaped source settings t identity
  separate : ∀ identity other handle, handle ∈ t.parts identity →
    handle ∈ t.parts other → identity = other

theorem sound_start {dest : Context} (hdest : dest.WellFormed)
    (htrusted : dest.cache.Trusted (source.Travelling settings)) :
    Sound source settings (start dest) :=
  ⟨hdest, htrusted,
    nofun, fun _ _ _ hmem => by cases contains_of_mem_parts hmem⟩

theorem Sound.live (h : Sound source settings t)
    (hmem : handle ∈ t.parts identity) : t.dest.Live handle :=
  (h.shaped identity (contains_of_mem_parts hmem)).live hmem

theorem Sound.exists_copyOf? (h : Sound source settings t)
    (hcontains : t.copies.contains identity = true) :
    ∃ copy, t.copyOf? identity = some copy := by
  cases h.shaped identity hcontains with
  | table _ hcopy => exact ⟨_, hcopy⟩
  | function _ hcopy => exact ⟨_, hcopy⟩

/-- A transfer stays sound as long as its copies stay pinned and keep their
kinds. -/
theorem Sound.transport (h : Sound source settings t) {c : Context}
    (hc : c.WellFormed)
    (htrusted : c.cache.Trusted (source.Travelling settings))
    (hpinned : ∀ pin value, t.dest.registry.get? pin = some value →
      c.registry.get? pin = some value)
    (hparts : ∀ identity, ∀ handle ∈ t.parts identity,
      Object.SameKind (t.dest.heap.get? handle) (c.heap.get? handle)) :
    Sound source settings { t with dest := c } := by
  have hcopies : ∀ identity value, t.copyOf? identity = some value →
      ({ t with dest := c } : Transfer).copyOf? identity = some value := by
    intro identity value hcopy
    obtain ⟨pin, hpin, hvalue⟩ := Option.bind_eq_some_iff.1 hcopy
    exact Option.bind_eq_some_iff.2 ⟨pin, hpin, hpinned pin value hvalue⟩
  have htransport := fun identity hcontains =>
    (h.shaped identity hcontains).transport (hcopies identity) (hparts identity)
  have hmem : ∀ identity handle,
      handle ∈ ({ t with dest := c } : Transfer).parts identity →
      handle ∈ t.parts identity := by
    intro identity handle hmem
    rwa [(htransport identity (contains_of_mem_parts_dest hmem)).2] at hmem
  exact ⟨hc, htrusted,
    fun identity hcontains => (htransport identity hcontains).1,
    fun identity other handle hmem₁ hmem₂ =>
      h.separate identity other handle (hmem identity handle hmem₁)
        (hmem other handle hmem₂)⟩

theorem Sound.withStack (h : Sound source settings t) {stack : Array Value}
    (hstack : ∀ value ∈ stack.toList, t.dest.Names value) :
    Sound source settings { t with dest := { t.dest with stack } } :=
  h.transport (h.wellFormed.withStack hstack) h.trusted
    (fun _ _ hvalue => hvalue) fun _ _ _ => .of_eq rfl

/-- Nothing that is reachable has changed. -/
theorem Sound.keeps (h : Sound source settings t) {c : Context}
    (hkeeps : t.dest.Keeps c) (hc : c.WellFormed)
    (htrusted : c.cache.Trusted (source.Travelling settings)) :
    Sound source settings { t with dest := c } :=
  h.transport hc htrusted hkeeps.pinned fun _ handle hmem =>
    .of_eq (hkeeps.objects handle (h.live hmem))

theorem Sound.names_of_image (h : Sound source settings t) {value image : Value}
    (himage : t.Image value image) : t.dest.Names image := by
  cases himage with
  | plain hhandle =>
    cases value with
    | table handle => cases hhandle
    | function handle => cases hhandle
    | userdata handle => cases hhandle
    | _ => trivial
  | table hcopy =>
    cases h.shaped _ (contains_of_copyOf? hcopy) with
    | table _ hfound hobject =>
      cases hcopy.symm.trans hfound
      exact ⟨_, hobject⟩
    | function _ hfound => cases hcopy.symm.trans hfound
  | function hcopy =>
    cases h.shaped _ (contains_of_copyOf? hcopy) with
    | table _ hfound => cases hcopy.symm.trans hfound
    | function _ hfound hobject =>
      cases hcopy.symm.trans hfound
      exact ⟨_, hobject⟩

/-- Different values have different images. -/
theorem Sound.image_injective (h : Sound source settings t)
    {value other image : Value} (hvalue : t.Image value image)
    (hother : t.Image other image) : value = other := by
  cases hvalue with
  | plain hhandle =>
    cases hother with
    | plain => rfl
    | table => cases hhandle
    | function => cases hhandle
  | @table a copy hcopy =>
    cases hother with
    | plain hhandle => cases hhandle
    | @table b _ hcopy' =>
      have hindex : a.index = b.index := by
        apply h.separate _ _ copy
        · exact parts_of_table hcopy ▸ List.mem_cons_self
        · exact parts_of_table hcopy' ▸ List.mem_cons_self
      exact congrArg (Value.table ⟨·⟩) hindex
  | @function a copy hcopy =>
    cases hother with
    | plain hhandle => cases hhandle
    | @function b _ hcopy' =>
      have hindex : a.index = b.index :=
        h.separate _ _ copy (mem_parts_of_function hcopy)
          (mem_parts_of_function hcopy')
      exact congrArg (Value.function ⟨·⟩) hindex

end Transfer

end Isolate
