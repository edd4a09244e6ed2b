import Isolate.Proofs.Transfer.Settling

/-!
# Fidelity of a transfer

What a successful transfer pushes is an image of the source value under a
renaming of the tables and functions that travel.  The renaming keeps them apart
and gives them new handles, and every object is the image of the one that it
renames.
-/

namespace Isolate

/-- The value with its tables and functions renamed. -/
def Value.rename (rename : Handle → Handle) : Value → Value
  | .table handle => .table (rename handle)
  | .function handle => .function (rename handle)
  | plain => plain

theorem Value.rename_of_handle? {value : Value} (h : value.handle? = none)
    (rename : Handle → Handle) : value.rename rename = value := by
  cases value with
  | table => cases h
  | function => cases h
  | _ => rfl

namespace Context

/-- A destination holds, under a renaming, the graph of what travels with a
value of the source. -/
structure Faithful (source dest dest' : Context) (settings : TransferSettings)
    (root : Value) (rename : Handle → Handle) : Prop where
  /-- Exactly one value was pushed. -/
  pushed : dest'.stack = dest.stack.push (root.rename rename)
  /-- Nothing that was reachable changed. -/
  kept : ∀ handle, dest.Live handle →
    dest'.heap.get? handle = dest.heap.get? handle
  /-- What travels can live in any context. -/
  portable : ∀ value, source.Travels root value →
    (∀ name, value ≠ .native name) ∧ ∀ handle, value ≠ .userdata handle
  injective : ∀ value other handle handle', source.Travels root value →
    source.Travels root other → value.handle? = some handle →
    other.handle? = some handle' →
      rename handle = rename handle' → handle = handle'
  fresh : ∀ value handle, source.Travels root value →
    value.handle? = some handle → ¬dest.Live (rename handle)
  /-- A table has the images of its entries and no others. -/
  tables : ∀ handle table, source.Travels root (.table handle) →
    source.heap.get? handle = some (.table table) →
      ∃ copied, dest'.heap.get? (rename handle) = some (.table copied) ∧
        ∀ key value, (key, value) ∈ copied.entries ↔
          ∃ key' value', (key', value') ∈ table.entries ∧
            key.toValue = key'.toValue.rename rename ∧
            value = value'.rename rename
  /-- A function has the prototype that its chunk keeps and holds the
  image of each upvalue, but the globals of the destination in the place
  of the environment. -/
  functions : ∀ handle closure, source.Travels root (.function handle) →
    source.heap.get? handle = some (.closure closure) →
      ∃ copied, dest'.heap.get? (rename handle) = some (.closure copied) ∧
        copied.proto =
          (closure.proto.kept settings.stripDebug).attributedTo
            settings.chunkName ∧
        copied.cells.size = closure.cells.size ∧
        ∀ i name value, (source.upvalues (.function handle))[i]? =
          some (name, value) →
          ∃ cell, copied.cells[i]? = some cell ∧ ¬dest.Live cell ∧
            dest'.heap.get? cell = some (.cell
              (if i = 0 ∧ source.bindsGlobals name value = true then
                dest.globalsValue else value.rename rename))
  /-- No two upvalues share a cell. -/
  cells : ∀ (handle handle' : Handle) (copied copied' : Closure) (i j : Nat)
    (cell : Handle),
    source.Travels root (.function handle) →
    source.Travels root (.function handle') →
      dest'.heap.get? (rename handle) = some (.closure copied) →
      dest'.heap.get? (rename handle') = some (.closure copied') →
      copied.cells[i]? = some cell → copied'.cells[j]? = some cell →
      handle = handle' ∧ i = j

/-- A destination holds the graphs of several values of the source at once,
under one renaming, so what they share is shared by their copies. -/
structure Replicated (source dest dest' : Context) (settings : TransferSettings)
    (among : Value → Prop) (rename : Handle → Handle) : Prop where
  portable : ∀ value, among value →
    (∀ name, value ≠ .native name) ∧ ∀ handle, value ≠ .userdata handle
  injective : ∀ value other handle handle', among value → among other →
    value.handle? = some handle → other.handle? = some handle' →
      rename handle = rename handle' → handle = handle'
  fresh : ∀ value handle, among value → value.handle? = some handle →
    ¬dest.Live (rename handle)
  /-- A table has the images of its entries and no others. -/
  tables : ∀ handle table, among (.table handle) →
    source.heap.get? handle = some (.table table) →
      ∃ copied, dest'.heap.get? (rename handle) = some (.table copied) ∧
        ∀ key value, (key, value) ∈ copied.entries ↔
          ∃ key' value', (key', value') ∈ table.entries ∧
            key.toValue = key'.toValue.rename rename ∧
            value = value'.rename rename
  /-- A function has the prototype that its chunk keeps and holds the
  image of each upvalue, but the globals of the destination in the place
  of the environment. -/
  functions : ∀ handle closure, among (.function handle) →
    source.heap.get? handle = some (.closure closure) →
      ∃ copied, dest'.heap.get? (rename handle) = some (.closure copied) ∧
        copied.proto =
          (closure.proto.kept settings.stripDebug).attributedTo
            settings.chunkName ∧
        copied.cells.size = closure.cells.size ∧
        ∀ i name value, (source.upvalues (.function handle))[i]? =
          some (name, value) →
          ∃ cell, copied.cells[i]? = some cell ∧ ¬dest.Live cell ∧
            dest'.heap.get? cell = some (.cell
              (if i = 0 ∧ source.bindsGlobals name value = true then
                dest.globalsValue else value.rename rename))
  /-- No two upvalues share a cell. -/
  cells : ∀ (handle handle' : Handle) (copied copied' : Closure) (i j : Nat)
    (cell : Handle), among (.function handle) → among (.function handle') →
      dest'.heap.get? (rename handle) = some (.closure copied) →
      dest'.heap.get? (rename handle') = some (.closure copied') →
      copied.cells[i]? = some cell → copied'.cells[j]? = some cell →
      handle = handle' ∧ i = j

end Context

namespace Transfer

variable {source : Context} {settings : TransferSettings} {t t₀ : Transfer}

/-- The handle of the copy of an object. -/
def newHandle (t : Transfer) (handle : Handle) : Handle :=
  ((t.copyOf? handle.index).bind Value.handle?).getD handle

theorem Image.eq_rename {value image : Value} (h : t.Image value image) :
    image = value.rename t.newHandle := by
  cases h with
  | plain hhandle => exact (Value.rename_of_handle? hhandle _).symm
  | table hcopy =>
    simp only [Value.rename, newHandle]
    rw [hcopy]
    rfl
  | function hcopy =>
    simp only [Value.rename, newHandle]
    rw [hcopy]
    rfl

theorem newHandle_of_copyOf? {handle copy : Handle} {value : Value}
    (hcopy : t.copyOf? handle.index = some value)
    (hvalue : value.handle? = some copy) : t.newHandle handle = copy := by
  simp only [newHandle]
  rw [hcopy, Option.bind_some, hvalue]
  rfl

theorem Image.newHandle_mem_parts {value image : Value}
    (h : t.Image value image) {handle : Handle}
    (hhandle : value.handle? = some handle) :
    t.newHandle handle ∈ t.parts handle.index := by
  cases h with
  | plain hplain => cases hplain.symm.trans hhandle
  | table hcopy =>
    cases hhandle
    rw [newHandle_of_copyOf? hcopy rfl, parts_of_table hcopy]
    exact List.mem_cons_self
  | function hcopy =>
    cases hhandle
    rw [newHandle_of_copyOf? hcopy rfl]
    exact mem_parts_of_function hcopy

/-! ## Arrival -/

/-- Every value among some of the source has its image, and all copies are
filled and made of new objects. -/
structure Landed (source : Context) (settings : TransferSettings)
    (dest : Context) (among : Value → Prop) (t : Transfer) : Prop where
  sound : Sound source settings t
  globals : t.dest.globals = dest.globals
  filled : ∀ identity, t.copies.contains identity = true →
    Filled source settings t identity
  fresh : ∀ identity, ∀ handle ∈ t.parts identity, ¬dest.Live handle
  image : ∀ value, among value → ∃ image, t.Image value image

/-- Everything that travels with the root has landed, and nothing that was
reachable changed. -/
structure Arrived (source : Context) (settings : TransferSettings)
    (dest : Context) (root : Value) (t : Transfer) : Prop
    extends Landed source settings dest (source.Travels root) t where
  keeps : dest.Keeps t.dest

/-- A transfer that recorded nothing before and is settled has arrived. -/
theorem Settled.arrived (h : Settled source settings t₀ t)
    (hempty : t₀.copies.entries = []) (hsource : source.WellFormed)
    {root image : Value} (hroot : source.Names root)
    (himage : t.Image root image) : Arrived source settings t₀.dest root t := by
  have hnot : ∀ identity, ¬t₀.copies.contains identity = true := by
    intro identity
    rw [Copies.contains, Copies.find?, hempty]
    exact Bool.false_ne_true
  have hfilled := fun identity => h.filled identity (hnot identity)
  have hall : ∀ value, source.Travels root value → ∃ image,
      t.Image value image := fun _ =>
    image_of_travels hsource hroot (fun _ _ handle _ hcontains =>
      (hfilled handle.index hcontains).complete) ⟨image, himage⟩
  exact ⟨⟨h.grown.sound, h.grown.keeps.globals, hfilled,
    fun identity => h.grown.fresh identity (hnot identity), hall⟩,
    h.grown.keeps⟩

/-- The images of the entries of a table, and nothing else, are the
entries of its copy. -/
theorem Binds.mem_entries_iff {entries : List (Key × Value)} {copied : Table}
    (h : t.Binds entries copied) {key : Key} {value : Value} :
    (key, value) ∈ copied.entries ↔ ∃ key' value', (key', value') ∈ entries ∧
        key.toValue = key'.toValue.rename t.newHandle ∧
        value = value'.rename t.newHandle := by
  refine ⟨fun hentry => ?_, ?_⟩
  · obtain ⟨key', value', hentry', hkey, hvalue⟩ := h.back key value hentry
    exact ⟨key', value', hentry', hkey.eq_rename, hvalue.eq_rename⟩
  · rintro ⟨key', value', hentry', hkey, rfl⟩
    obtain ⟨found, image, hentry, hfound, himage⟩ := h.forth key' value' hentry'
    rw [himage.eq_rename] at hentry
    rwa [Key.toValue_injective (hkey.trans hfound.eq_rename.symm)]

namespace Landed

variable {dest : Context} {among : Value → Prop} {handle : Handle}

theorem newHandle_mem_parts (h : Landed source settings dest among t)
    {value : Value} (hamong : among value)
    (hhandle : value.handle? = some handle) :
    t.newHandle handle ∈ t.parts handle.index := by
  obtain ⟨image, himage⟩ := h.image value hamong
  exact himage.newHandle_mem_parts hhandle

theorem of_table (h : Landed source settings dest among t)
    (hamong : among (.table handle)) {table : Table}
    (htable : source.heap.get? handle = some (.table table)) :
    ∃ copied, t.dest.heap.get? (t.newHandle handle) = some (.table copied) ∧
      t.Binds table.entries copied := by
  obtain ⟨image, himage⟩ := h.image _ hamong
  obtain ⟨copy, copied, hcopy, hobject, hbinds⟩ :=
    Twin.of_table (h.filled _ (himage.contains rfl)) htable
  rw [newHandle_of_copyOf? hcopy rfl]
  exact ⟨copied, hobject, hbinds⟩

theorem of_closure (h : Landed source settings dest among t)
    (hamong : among (.function handle)) {closure : Closure}
    (hclosure : source.heap.get? handle = some (.closure closure)) :
    ∃ copied : Closure,
      t.dest.heap.get? (t.newHandle handle) = some (.closure copied) ∧
        (∀ (i : Nat) (cell : Handle), copied.cells[i]? = some cell →
          cell ∈ t.parts handle.index) ∧
        Counterpart settings t.dest closure copied ∧
        Captures source t (.function handle) closure.cells.size copied := by
  obtain ⟨image, himage⟩ := h.image _ hamong
  obtain ⟨copy, copied, hcopy, hobject, hcounterpart, hcaptures⟩ :=
    Twin.of_closure (h.filled _ (himage.contains rfl)) hclosure
  rw [newHandle_of_copyOf? hcopy rfl]
  refine ⟨copied, hobject, fun i cell hcell => ?_, hcounterpart, hcaptures⟩
  rw [parts_of_function hcopy hobject]
  exact List.mem_cons_of_mem _
    (Array.mem_toList_iff.2 (Array.mem_of_getElem? hcell))

theorem newHandle_injective (h : Landed source settings dest among t)
    {value other : Value} {handle' : Handle} (hamong : among value)
    (hamong' : among other) (hhandle : value.handle? = some handle)
    (hhandle' : other.handle? = some handle')
    (heq : t.newHandle handle = t.newHandle handle') : handle = handle' := by
  have hmem := h.newHandle_mem_parts hamong hhandle
  rw [heq] at hmem
  exact congrArg Handle.mk
    (h.sound.separate _ _ _ hmem (h.newHandle_mem_parts hamong' hhandle'))

/-- What is placed in the copy of a function, in terms of the new handles. -/
theorem eq_of_placed (h : Landed source settings dest among t) {i : Nat}
    {name : String} {value image : Value}
    (hplaced : Placed source t i name value image) :
    image = if i = 0 ∧ source.bindsGlobals name value = true then
      dest.globalsValue else value.rename t.newHandle := by
  simp only [Placed] at hplaced
  split at hplaced
  · next hplace =>
    rw [if_pos hplace, hplaced, Context.globalsValue,
      Context.globalsValue, h.globals]
  · next hplace => rw [if_neg hplace, hplaced.eq_rename]

/-- A cell belongs to one function and to one of its upvalues. -/
theorem cell_injective (h : Landed source settings dest among t)
    (hnames : ∀ value, among value → source.Names value) {handle' : Handle}
    {copied copied' : Closure} {i j : Nat} {cell : Handle}
    (hamong : among (.function handle)) (hamong' : among (.function handle'))
    (hobject : t.dest.heap.get? (t.newHandle handle) = some (.closure copied))
    (hobject' : t.dest.heap.get? (t.newHandle handle') =
      some (.closure copied'))
    (hi : copied.cells[i]? = some cell) (hj : copied'.cells[j]? = some cell) :
    handle = handle' ∧ i = j := by
  obtain ⟨closure, hclosure⟩ := hnames _ hamong
  obtain ⟨closure', hclosure'⟩ := hnames _ hamong'
  obtain ⟨found, hfound, hparts, hcounterpart, -⟩ :=
    h.of_closure hamong hclosure
  obtain ⟨found', hfound', hparts', -, -⟩ := h.of_closure hamong' hclosure'
  cases hobject.symm.trans hfound
  cases hobject'.symm.trans hfound'
  have hsame : handle = handle' :=
    congrArg Handle.mk
      (h.sound.separate _ _ cell (hparts i cell hi) (hparts' j cell hj))
  subst hsame
  cases hobject.symm.trans hobject'
  refine ⟨rfl, (List.getElem?_inj ?_ hcounterpart.nodup).1 ?_⟩
  · exact (Array.getElem?_eq_some_iff.1 hi).1
  · rw [Array.getElem?_toList, Array.getElem?_toList, hi, hj]

/-- What has landed is replicated. -/
theorem replicated (h : Landed source settings dest among t)
    (hsource : source.WellFormed)
    (hnames : ∀ value, among value → source.Names value) :
    source.Replicated dest t.dest settings among t.newHandle where
  portable := by
    intro value hamong
    obtain ⟨image, himage⟩ := h.image value hamong
    exact ⟨himage.ne_native, himage.ne_userdata⟩
  injective := fun _ _ _ _ => h.newHandle_injective
  fresh := fun _ _ hamong hhandle =>
    h.fresh _ _ (h.newHandle_mem_parts hamong hhandle)
  tables := by
    intro handle table hamong htable
    obtain ⟨copied, hobject, hbinds⟩ := h.of_table hamong htable
    exact ⟨copied, hobject, fun key value => hbinds.mem_entries_iff⟩
  functions := by
    intro handle closure hamong hclosure
    obtain ⟨copied, hobject, hparts, hcounterpart, hcaptures⟩ :=
      h.of_closure hamong hclosure
    refine ⟨copied, hobject, hcounterpart.proto, hcounterpart.size,
      fun i name value hupvalue => ?_⟩
    have hi := (List.getElem?_eq_some_iff.1 hupvalue).1
    rw [hsource.length_upvalues hclosure] at hi
    obtain ⟨cell, image, hcell, hheld, hplaced⟩ :=
      hcaptures i name value hi hupvalue
    refine ⟨cell, hcell, h.fresh _ cell (hparts i cell hcell), ?_⟩
    rw [hheld, h.eq_of_placed hplaced]
  cells := fun _ _ _ _ _ _ _ => h.cell_injective hnames

end Landed

/-- A transfer that has arrived and pushed the image of the root is faithful. -/
theorem Arrived.faithful {dest : Context} {root : Value}
    (h : Arrived source settings dest root t) (hsource : source.WellFormed)
    (hroot : source.Names root) {image : Value} (himage : t.Image root image)
    (hstack : t.dest.stack = dest.stack.push image) :
    source.Faithful dest t.dest settings root t.newHandle := by
  obtain ⟨hportable, hinjective, hfresh, htables, hfunctions, hcells⟩ :=
    h.replicated hsource fun _ => hsource.names_of_travels hroot
  exact ⟨himage.eq_rename ▸ hstack, h.keeps.objects, hportable, hinjective,
    hfresh, htables, hfunctions, hcells⟩

/-- The end of a transfer changes nothing but pins. -/
theorem finish_dest (t : Transfer) :
    t.finish.2.stack = t.dest.stack ∧ t.finish.2.heap = t.dest.heap := by
  let same : List (Nat × Pin) → Context → Prop :=
    fun _ c => c.stack = t.dest.stack ∧ c.heap = t.dest.heap
  have hstart : same [] t.dest := ⟨rfl, rfl⟩
  have hrelease :
      Ends (t.copies.release t.dest) (fun _ c => same t.copies.entries c)
        fun _ _ => False := by
    simp only [Copies.release]
    refine ends_forM hstart (fun _ entry _ c _ hc => ?_)
      (List.nil_append _).symm
    exact hc
  rw [finish_dest_eq]
  exact hrelease.stateOf (fun _ _ hc => hc) fun _ _ => False.elim

end Transfer

namespace Context

variable {source dest dest' c : Context} {settings : TransferSettings}
  {root : Value} {rename : Handle → Handle}

theorem Faithful.congr (h : source.Faithful dest c settings root rename)
    (hstack : dest'.stack = c.stack) (hheap : dest'.heap = c.heap) :
    source.Faithful dest dest' settings root rename := by
  refine ⟨hstack.trans h.pushed, ?_, h.portable, h.injective,
    h.fresh, ?_, ?_, ?_⟩
  · rw [hheap]
    exact h.kept
  · rw [hheap]
    exact h.tables
  · rw [hheap]
    exact h.functions
  · rw [hheap]
    exact h.cells

/-- A transfer that succeeds holds the graph of what is at its index. -/
theorem ends_receive_faithful {chunks : List UInt8 → String → Prop}
    (hsource : source.WellFormed) (hdest : dest.WellFormed)
    (hchunks : Chunk.Cache.Distinguished chunks)
    (hcache : dest.cache.Genuine chunks)
    (htravelling : ∀ bytes name, source.Travelling settings bytes name →
      chunks bytes name) (index : Int) :
    Ends (source.receive index settings dest)
      (fun _ dest' => ∃ root rename, source.valueAt index = .ok root ∧
        source.Faithful dest dest' settings root rename)
      fun _ _ => True := by
  simp only [receive]
  cases hroot : source.valueAt index with
  | error error => exact trivial
  | ok root =>
    dsimp only
    have hnames := hsource.names_of_valueAt hroot
    have hsound : Transfer.Sound source settings
        (.start (dest.note (.transferStarted root.kindName))) :=
      Transfer.sound_start (hdest.note _) (hcache.trusted hchunks htravelling)
    have hcopy :=
      Transfer.ends_copy hsound rfl hsource (hchunks.mono htravelling) hnames
    cases hresult : Transfer.copy source settings root
        (.start (dest.note (.transferStarted root.kindName))) with
    | error error t => exact trivial
    | ok _ t =>
      obtain ⟨hsettled, image, himage, hstack⟩ := hcopy.ok hresult
      have hfaithful :=
        (hsettled.arrived rfl hsource hnames himage).faithful hsource hnames
          himage hstack
      obtain ⟨hstack', hheap'⟩ := t.finish_dest
      have hdest' : source.Faithful dest t.dest settings root t.newHandle :=
        ⟨hfaithful.pushed, hfaithful.kept, hfaithful.portable,
          hfaithful.injective, hfaithful.fresh, hfaithful.tables,
          hfaithful.functions, hfaithful.cells⟩
      exact ⟨root, t.newHandle, rfl, hdest'.congr hstack' hheap'⟩

/-- A transfer that succeeds is faithful, whatever is collected on the way and
whatever the cache holds, as long as no two of the chunks that it was filled
from or that travel share a key. -/
theorem receive_faithful {chunks : List UInt8 → String → Prop} {index : Int}
    (hsource : source.WellFormed) (hdest : dest.WellFormed)
    (hchunks : Chunk.Cache.Distinguished chunks)
    (hcache : dest.cache.Genuine chunks)
    (htravelling : ∀ bytes name, source.Travelling settings bytes name →
      chunks bytes name)
    (h : source.receive index settings dest = .ok () dest') :
    ∃ root rename, source.valueAt index = .ok root ∧
      source.Faithful dest dest' settings root rename :=
  (ends_receive_faithful hsource hdest hchunks hcache htravelling index).ok h

/-- A table that holds itself and a function that has captured it. -/
def knot : Table where
  entries := [(.string "self", .table ⟨1⟩), (.integer 1, .function ⟨2⟩)]
  distinct := by decide
  bound := by decide

/-- The function returns at once and has one upvalue. -/
def knotted : Context :=
  holding [.table .empty, .table knot,
    .closure ⟨{
      code := #[27]
      upvalues := #[{ name := none, capture := .ofLocal 0 }] }, #[⟨3⟩]⟩,
    .cell (.table ⟨1⟩)] #[.table ⟨1⟩]

theorem wellFormed_knotted : knotted.WellFormed := by
  refine wellFormed_holding (fun object hobject => ?_)
    (fun value hvalue => ?_) ⟨_, rfl⟩
  · simp only [List.mem_cons, List.not_mem_nil, or_false] at hobject
    rcases hobject with rfl | rfl | rfl | rfl
    · exact holds_empty
    · intro key value hentry
      simp only [knot, List.mem_cons, List.not_mem_nil, or_false] at hentry
      rcases hentry with ⟨rfl, rfl⟩ | ⟨rfl, rfl⟩
      · exact ⟨rfl, trivial, knot, rfl⟩
      · exact ⟨rfl, trivial, _, rfl⟩
    · refine ⟨rfl, fun cell hcell => ?_⟩
      cases List.mem_singleton.1 hcell
      exact ⟨_, rfl⟩
    · exact ⟨knot, rfl⟩
  · cases List.mem_singleton.1 hvalue
    exact ⟨knot, rfl⟩

theorem distinguished_knotted :
    Chunk.Cache.Distinguished (knotted.Travelling {}) := by
  have honly : ∀ {function bytes}, knotted.chunkOf function true = .ok bytes →
      function = .function ⟨2⟩ := by
    intro function bytes hbytes
    obtain ⟨⟨index⟩, closure, rfl, hclosure, -⟩ :=
      exists_closure_of_chunkOf hbytes
    rw [knotted, get?_holding] at hclosure
    rcases index with - | - | - | - | index
    · cases hclosure
    · cases hclosure
    · rfl
    · cases hclosure
    · cases hclosure
  rintro bytes name bytes' name' ⟨rfl, function, hbytes⟩
    ⟨rfl, function', hbytes'⟩ -
  rw [honly hbytes] at hbytes
  rw [honly hbytes'] at hbytes'
  exact ⟨Except.ok.inj (hbytes.symm.trans hbytes'), rfl⟩

theorem isOk_receive_knotted :
    (failureOf (knotted.receive 1 {} bare)).isNone = true := by
  decide +kernel

theorem receive_faithful_knotted :
    ∃ dest' root rename, knotted.receive 1 {} bare = .ok () dest' ∧
      knotted.valueAt 1 = .ok root ∧
      knotted.Faithful bare dest' {} root rename := by
  cases h : knotted.receive 1 {} bare with
  | error e c =>
    have hok := isOk_receive_knotted
    rw [h] at hok
    cases hok
  | ok _ dest' =>
    obtain ⟨root, rename, hroot, hfaithful⟩ :=
      receive_faithful wellFormed_knotted wellFormed_bare
        distinguished_knotted nofun (fun _ _ h => h) h
    exact ⟨dest', root, rename, rfl, hroot, hfaithful⟩

end Context

end Isolate
