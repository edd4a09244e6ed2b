import Isolate.Proofs.Context.Confined
import Isolate.Proofs.Transfer.Settling

/-!
# The walk of a transfer

A transfer comes from one value of the source to the next, and records what it
comes to.  Whatever the cache of the destination holds, the walk leaves the
destination intact, takes new pins only, and stops early only at a value that
cannot be copied.
-/

namespace Isolate

/-! ## The graph of the source -/

namespace Context

variable {source : Context} {settings : TransferSettings} {root value : Value}
  {handle : Handle}

/-- What a transfer comes to directly from a value. -/
inductive Leads (source : Context) : Value → Value → Prop
  | key {handle : Handle} {table : Table} {key : Key} {value : Value}
      (htable : source.heap.get? handle = some (.table table))
      (hentry : (key, value) ∈ table.entries) :
        source.Leads (.table handle) key.toValue
  | value {handle : Handle} {table : Table} {key : Key} {value : Value}
      (htable : source.heap.get? handle = some (.table table))
      (hentry : (key, value) ∈ table.entries) :
        source.Leads (.table handle) value
  | captured {handle : Handle} {i : Nat} {name : String} {value : Value}
      (hupvalue : (source.upvalues (.function handle))[i]? = some (name, value))
      (hplace : ¬(i = 0 ∧ source.bindsGlobals name value = true)) :
      source.Leads (.function handle) value

/-- Values that name something, with all that they lead to. -/
structure Closed (source : Context) (among : Value → Prop) : Prop where
  names : ∀ value, among value → source.Names value
  next : ∀ value next, among value → source.Leads value next → among next

theorem Travels.next {other : Value} (h : source.Travels root value)
    (hnext : source.Leads value other) :
    source.Travels root other := by
  cases hnext with
  | key htable hentry => exact h.key htable hentry
  | value htable hentry => exact h.value htable hentry
  | captured hupvalue hplace => exact h.captured hupvalue hplace

theorem WellFormed.closed_travels (h : source.WellFormed)
    (hroot : source.Names root) : source.Closed (source.Travels root) :=
  ⟨fun _ htravels => h.names_of_travels hroot htravels,
    fun _ _ htravels => htravels.next⟩

theorem WellFormed.closed_names (h : source.WellFormed) :
    source.Closed source.Names :=
  ⟨fun _ hnames => hnames, fun _ _ hnames hnext =>
    h.names_of_travels hnames (Travels.root.next hnext)⟩

/-- Why a value cannot be copied into another context. -/
inductive Refuses (source : Context) (settings : TransferSettings) :
    Value → TransferError → Prop
  | native (name : String) :
      Refuses source settings (.native name) (.dump (.nativeFunction name))
  | userdata (handle : Handle) :
      Refuses source settings (.userdata handle) (.unsupported "userdata")
  | tooLarge {handle : Handle}
      (h : source.chunkOf (.function handle) settings.stripDebug =
        .error (.tooLarge source.settings.maxChunkSize)) :
      Refuses source settings (.function handle)
        (.dump (.tooLarge source.settings.maxChunkSize))

/-- A function is not written only if it is too large. -/
theorem refuses_of_chunkOf (hnames : source.Names (.function handle))
    {error : DumpError}
    (h : source.chunkOf (.function handle) settings.stripDebug = .error error) :
    source.Refuses settings (.function handle) (.dump error) := by
  obtain ⟨closure, hclosure⟩ := hnames
  have hdump := h
  simp only [chunkOf] at hdump
  rw [closureOf_eq_ok_iff.2 hclosure] at hdump
  obtain rfl := Chunk.eq_tooLarge_of_dump hdump
  exact .tooLarge h

/-- What accepted code is written as can be read. -/
theorem Intact.exists_undump_of_chunkOf (h : source.Intact) {strip : Bool}
    {bytes : List UInt8} (hbytes : source.chunkOf value strip = .ok bytes)
    (name : String) : ∃ proto, Chunk.undump bytes name = .ok proto := by
  obtain ⟨handle, closure, rfl, hclosure, hdump⟩ :=
    exists_closure_of_chunkOf hbytes
  exact (Chunk.undump_of_dump hdump name).1.2 (h.code handle closure hclosure)

end Context

/-! ## The state of a walk -/

/-- What the queue says of a copy. -/
def Filling.entry (filling : Filling) :
    Nat × Pin := (filling.identity, filling.pin)

/-- The value that a copy is filled from. -/
def Filling.source : Filling → Value
  | .table source _ => .table source
  | .captured source _ => source

namespace Copies

variable {copies : Copies} {identity : Nat} {pin : Pin}

theorem contains_of_mem {entry : Nat × Pin} (h : entry ∈ copies.entries) :
    copies.contains entry.1 = true := by
  refine Decidable.byContradiction fun hnot => ?_
  have hnone := find?_of_not_contains hnot
  rw [find?, List.lookup_eq_none_iff] at hnone
  have hne := hnone entry h
  rw [bne_self_eq_false] at hne
  cases hne

theorem entries_insert (hnew : ¬copies.contains identity = true) :
    (copies.insert identity pin).entries =
      (identity, pin) :: copies.entries := by
  refine congrArg (List.cons (identity, pin)) ?_
  refine List.filter_eq_self.2 fun entry hentry => decide_eq_true fun heq => ?_
  exact hnew (heq ▸ contains_of_mem hentry)

end Copies

namespace Transfer

variable {source : Context} {settings : TransferSettings} {among : Value → Prop}
  {t t' t'' : Transfer} {c : Context} {identity : Nat} {value image : Value}

/-- The copy of an identity has the kind of what it was made from, and functions
have been written. -/
inductive Recorded (source : Context) (settings : TransferSettings)
    (among : Value → Prop) (t : Transfer) (identity : Nat) : Prop
  | table {copy : Handle} (hsource : among (.table ⟨identity⟩))
      (hcopy : t.copyOf? identity = some (.table copy))
  | function {copy : Handle} {bytes : List UInt8}
      (hsource : among (.function ⟨identity⟩))
      (hbytes : source.chunkOf (.function ⟨identity⟩) settings.stripDebug =
        .ok bytes) (hcopy : t.copyOf? identity = some (.function copy))

/-- What waits in the queue was recorded. -/
inductive Pending (among : Value → Prop) (t : Transfer) : Filling → Prop
  | table {handle : Handle} {pin : Pin} (hsource : among (.table handle))
      (hpin : t.copies.find? handle.index = some pin) :
        Pending among t (.table handle pin)
  | captured {handle : Handle} {pin : Pin} (hsource : among (.function handle))
      (hpin : t.copies.find? handle.index = some pin) :
      Pending among t (.captured (.function handle) pin)

/-- A walk among values of the source, with an intact destination. -/
structure Traversing (source : Context) (settings : TransferSettings)
    (among : Value → Prop) (t : Transfer) : Prop where
  dest : t.dest.Intact
  distinct : (t.copies.entries.map Prod.fst).Nodup
  counted : t.copied = t.copies.size
  recorded : ∀ identity, t.copies.contains identity = true →
    Recorded source settings among t identity
  pending : ∀ filling ∈ t.fillings, Pending among t filling

/-- A walk goes on: recorded copies stay recorded, and only pins that
were free are taken. -/
structure Onward (t t' : Transfer) : Prop where
  globals : t'.dest.globals = t.dest.globals
  frames : t'.dest.frames = t.dest.frames
  pinned : ∀ pin value, t.dest.registry.get? pin = some value →
    t'.dest.registry.get? pin = some value
  others : ∀ pin, t'.dest.registry.get? pin = t.dest.registry.get? pin ∨
    ∃ entry ∈ t'.copies.entries, entry.2 = pin
  free : ∀ entry ∈ t'.copies.entries, entry ∈ t.copies.entries ∨
    t.dest.registry.get? entry.2 = none
  copies : ∀ identity pin, t.copies.find? identity = some pin →
    t'.copies.find? identity = some pin
  entries : t.copies.entries <:+ t'.copies.entries

/-- What is newly recorded waits in the queue. -/
structure Walked (t t' : Transfer) : Prop extends Onward t t' where
  queue : ∃ new : List Filling, t'.fillings = new ++ t.fillings ∧
    t'.copies.entries = new.map Filling.entry ++ t.copies.entries

/-- Nothing keeps a value from being copied, and a reference has a copy. -/
structure Carried (source : Context) (settings : TransferSettings)
    (t : Transfer) (value : Value) : Prop where
  accepted : ∀ error, ¬source.Refuses settings value error
  contains : ∀ handle, value.handle? = some handle →
    t.copies.contains handle.index = true

theorem Onward.refl (t : Transfer) : Onward t t :=
  ⟨rfl, rfl, fun _ _ h => h, fun _ => Or.inl rfl, fun _ h => Or.inl h,
    fun _ _ h => h, List.suffix_refl _⟩

theorem Onward.trans (h : Onward t t') (h' : Onward t' t'') : Onward t t'' where
  globals := h'.globals.trans h.globals
  frames := h'.frames.trans h.frames
  pinned := fun pin value hvalue =>
    h'.pinned pin value (h.pinned pin value hvalue)
  others := by
    intro pin
    rcases h'.others pin with hsame' | hrecorded
    · rcases h.others pin with hsame | ⟨entry, hentry, hpin⟩
      · exact Or.inl (hsame'.trans hsame)
      · exact Or.inr ⟨entry, h'.entries.subset hentry, hpin⟩
    · exact Or.inr hrecorded
  free := by
    intro entry hentry
    rcases h'.free entry hentry with hbefore | hfree
    · exact h.free entry hbefore
    · refine Or.inr (Option.eq_none_iff_forall_ne_some.2 fun value hvalue => ?_)
      cases hfree.symm.trans (h.pinned _ value hvalue)
  copies := fun identity pin hpin =>
    h'.copies identity pin (h.copies identity pin hpin)
  entries := h.entries.trans h'.entries

theorem Onward.contains (h : Onward t t')
    (hcontains : t.copies.contains identity = true) :
    t'.copies.contains identity = true := by
  obtain ⟨pin, hpin⟩ := Option.isSome_iff_exists.1 hcontains
  exact Option.isSome_of_mem (h.copies identity pin hpin)

theorem Onward.remembers (h : Onward t t') : t'.Remembers t := by
  intro identity copy hcopy
  obtain ⟨pin, hpin, hvalue⟩ := Option.bind_eq_some_iff.1 hcopy
  exact Option.bind_eq_some_iff.2
    ⟨pin, h.copies identity pin hpin, h.pinned pin copy hvalue⟩

theorem Walked.refl (t : Transfer) : Walked t t := ⟨.refl t, [], rfl, rfl⟩

theorem Walked.trans (h : Walked t t') (h' : Walked t' t'') : Walked t t'' where
  toOnward := h.toOnward.trans h'.toOnward
  queue := by
    obtain ⟨new, hfillings, hentries⟩ := h.queue
    obtain ⟨new', hfillings', hentries'⟩ := h'.queue
    refine ⟨new' ++ new, ?_, ?_⟩
    · rw [hfillings', hfillings, List.append_assoc]
    · rw [hentries', hentries, List.map_append, List.append_assoc]

theorem Carried.mono (h : Carried source settings t value)
    (honward : Onward t t') : Carried source settings t' value :=
  ⟨h.accepted, fun handle hhandle =>
    honward.contains (h.contains handle hhandle)⟩

theorem Recorded.mono (h : Recorded source settings among t identity)
    (hcopies : t'.Remembers t) :
    Recorded source settings among t' identity := by
  cases h with
  | table hsource hcopy => exact .table hsource (hcopies _ _ hcopy)
  | function hsource hbytes hcopy =>
    exact .function hsource hbytes (hcopies _ _ hcopy)

theorem Pending.mono {filling : Filling} (h : Pending among t filling)
    (honward : Onward t t') : Pending among t' filling := by
  cases h with
  | table hsource hpin => exact .table hsource (honward.copies _ _ hpin)
  | captured hsource hpin => exact .captured hsource (honward.copies _ _ hpin)

theorem traversing_start {dest : Context} (hdest : dest.Intact) :
    Traversing source settings among (start dest) :=
  ⟨hdest, List.nodup_nil, rfl, nofun, nofun⟩

/-- The destination changes and keeps its pins. -/
theorem Walked.withDest (hsame : t.dest.SameRoots c) :
    Walked t { t with dest := c } where
  globals := hsame.globals
  frames := hsame.frames
  pinned := fun _ _ hvalue => hsame.registry ▸ hvalue
  others := fun pin => Or.inl (by rw [hsame.registry])
  free := fun _ hentry => Or.inl hentry
  copies := fun _ _ hpin => hpin
  entries := List.suffix_refl _
  queue := ⟨[], rfl, rfl⟩

theorem Traversing.withDest (h : Traversing source settings among t)
    (hc : c.Intact) (hsame : t.dest.SameRoots c) :
    Traversing source settings among { t with dest := c } where
  dest := hc
  distinct := h.distinct
  counted := h.counted
  recorded := fun identity hcontains =>
    (h.recorded identity hcontains).mono (Walked.withDest hsame).remembers
  pending := fun filling hfilling =>
    (h.pending filling hfilling).mono (Walked.withDest hsame).toOnward

/-! ## Pushing images -/

/-- The image of a value is on the stack, and the value is carried. -/
structure Pushes (source : Context) (settings : TransferSettings)
    (among : Value → Prop) (value : Value) (t t' : Transfer) : Prop where
  traversing : Traversing source settings among t'
  walked : Walked t t'
  carried : Carried source settings t' value
  image : ∃ image,
    t'.Image value image ∧ t'.dest.stack = t.dest.stack.push image

theorem Traversing.names_of_image (h : Traversing source settings among t)
    (himage : t.Image value image) : t.dest.Names image := by
  have hcopied : ∀ {identity copy}, t.copyOf? identity = some copy →
      t.dest.Names copy := by
    intro identity copy hcopy
    obtain ⟨pin, -, hvalue⟩ := Option.bind_eq_some_iff.1 hcopy
    exact h.dest.pinned pin copy hvalue
  cases himage with
  | plain hhandle => exact Context.names_of_plain hhandle
  | table hcopy => exact hcopied hcopy
  | function hcopy => exact hcopied hcopy

theorem Traversing.pushes_of_image (h : Traversing source settings among t)
    (himage : t.Image value image)
    (hcarried : Carried source settings t value) :
    Pushes source settings among value t
      { t with dest := { t.dest with stack := t.dest.stack.push image } } := by
  have hsame :
      t.dest.SameRoots { t.dest with stack := t.dest.stack.push image } :=
    ⟨rfl, rfl, rfl⟩
  exact ⟨h.withDest (h.dest.push (h.names_of_image himage)) hsame,
    .withDest hsame, hcarried.mono (Walked.withDest hsame).toOnward,
    image, himage.mono fun _ _ hcopy => hcopy, rfl⟩

theorem entries_recorded {copy : Value} {fill : Pin → Filling}
    (hnew : ¬t.copies.contains identity = true) :
    (t.recorded c copy identity fill).copies.entries =
      (identity, (c.registry.pin copy).1) :: t.copies.entries :=
  Copies.entries_insert hnew

/-- A walk goes on when a new object is recorded. -/
theorem walked_recorded {copy : Value} {fill : Pin → Filling}
    (hnew : ¬t.copies.contains identity = true) (hc : c.Intact)
    (hsame : t.dest.SameRoots c)
    (hentry : ∀ pin, (fill pin).entry = (identity, pin)) :
    Walked t (t.recorded c copy identity fill) := by
  have hentries : (t.recorded c copy identity fill).copies.entries = _ :=
    entries_recorded hnew
  refine ⟨⟨hsame.globals, hsame.frames, fun pin found hfound => ?_,
    fun pin => ?_, fun entry hmem => ?_, fun other pin hpin => ?_,
    hentries ▸ List.suffix_cons _ _⟩,
    [fill (c.registry.pin copy).1], rfl, ?_⟩
  · rw [← hsame.registry] at hfound
    exact hc.registry.get?_pin_of_some hfound
  · by_cases hpin : pin = (c.registry.pin copy).1
    · exact Or.inr ⟨_, hentries ▸ List.mem_cons_self, hpin.symm⟩
    · refine Or.inl ((Registry.get?_pin_of_ne hpin).trans ?_)
      rw [hsame.registry]
  · rw [hentries] at hmem
    rcases List.mem_cons.1 hmem with rfl | hmem
    · rw [← hsame.registry]
      exact Or.inr hc.registry.get?_pin_before
    · exact Or.inl hmem
  · have hne : other ≠ identity := by
      rintro rfl
      exact hnew (Option.isSome_of_mem hpin)
    exact Copies.find?_insert.trans ((if_neg hne).trans hpin)
  · rw [hentries, List.map_singleton, hentry]
    rfl

/-- A new object of the destination is recorded as the copy of an identity. -/
theorem Traversing.pushes_recorded (h : Traversing source settings among t)
    {copy : Value} {fill : Pin → Filling}
    (hnew : ¬t.copies.contains identity = true) (hc : c.Intact)
    (hsame : t.dest.SameRoots c) (hstack : c.stack = t.dest.stack.push copy)
    (hentry : ∀ pin, (fill pin).entry = (identity, pin))
    (hrecorded : Recorded source settings among
      (t.recorded c copy identity fill) identity)
    (hpending : Pending among (t.recorded c copy identity fill)
      (fill (c.registry.pin copy).1))
    (himage : (t.recorded c copy identity fill).Image value copy)
    (hhandle : ∀ handle, value.handle? = some handle → handle.index = identity)
    (haccepted : ∀ error, ¬source.Refuses settings value error) :
    Pushes source settings among value t (t.recorded c copy identity fill) := by
  have hentries : (t.recorded c copy identity fill).copies.entries = _ :=
    entries_recorded hnew
  have hwalked : Walked t (t.recorded c copy identity fill) :=
    walked_recorded hnew hc hsame hentry
  have hnames : c.Names copy := by
    refine hc.stack copy ?_
    rw [hstack, Array.toList_push]
    exact List.mem_append_right _ List.mem_cons_self
  refine ⟨⟨hc.withPin hnames, ?_, ?_, fun other hcontains => ?_,
    fun filling hfilling => ?_⟩,
    hwalked, ⟨haccepted, fun handle hfound => ?_⟩, copy, himage, hstack⟩
  · rw [hentries, List.map_cons, List.nodup_cons]
    refine ⟨fun hmem => hnew ?_, h.distinct⟩
    obtain ⟨entry, hmem, hkey⟩ := List.mem_map.1 hmem
    have hidentity : entry.1 = identity := hkey
    exact hidentity ▸ Copies.contains_of_mem hmem
  · rw [Copies.size, hentries, List.length_cons]
    exact congrArg Nat.succ h.counted
  · rcases Copies.contains_insert.1 hcontains with rfl | hcontains
    · exact hrecorded
    · exact (h.recorded other hcontains).mono hwalked.remembers
  · rcases List.mem_cons.1 hfilling with rfl | hfilling
    · exact hpending
    · exact (h.pending filling hfilling).mono hwalked.toOnward
  · rw [hhandle handle hfound]
    exact Copies.contains_insert.2 (Or.inl rfl)

/-- A copy that is recorded is pushed again, and another one is made. -/
theorem Traversing.ends_pushShared (h : Traversing source settings among t)
    {create : Copying Unit} {handle : Handle}
    (hhandle : value.handle? = some handle)
    (hidentity : handle.index = identity)
    (himage : Recorded source settings among t identity → ∃ copy,
      t.copyOf? identity = some copy ∧ t.Image value copy ∧
        ∀ error, ¬source.Refuses settings value error)
    (hcreate : ¬t.copies.contains identity = true →
      Ends (create t) (fun _ t' => Pushes source settings among value t t')
        fun e t' => t' = t ∧ source.Refuses settings value e) :
    Ends (pushSharedImage identity create t)
      (fun _ t' => Pushes source settings among value t t')
      fun e t' => t' = t ∧ source.Refuses settings value e := by
  simp only [pushSharedImage]
  rw [ends_bind, ends_get]
  cases hpin : t.copies.find? identity with
  | none =>
    refine hcreate fun hcontains => ?_
    rw [Copies.contains, hpin] at hcontains
    cases hcontains
  | some pin =>
    have hcontains : t.copies.contains identity = true :=
      Option.isSome_of_mem hpin
    obtain ⟨copy, hcopy, himage, haccepted⟩ :=
      himage (h.recorded identity hcontains)
    obtain ⟨found, hfound, hpinned⟩ := Option.bind_eq_some_iff.1 hcopy
    cases hpin.symm.trans hfound
    refine ends_onDest_of_eq (Context.pushPinned_eq hpinned)
      (h.pushes_of_image himage ⟨haccepted, fun other hother => ?_⟩)
    cases hhandle.symm.trans hother
    rw [hidentity]
    exact hcontains

theorem Traversing.ends_pushTableImage (h : Traversing source settings among t)
    {handle : Handle} (hvalue : among (.table handle))
    (hnew : ¬t.copies.contains handle.index = true) :
    Ends (pushTableImage handle.index handle t)
      (fun _ t' => Pushes source settings among (.table handle) t t')
      fun e t' => t' = t ∧ source.Refuses settings (.table handle) e := by
  refine ends_onDest_bind h.dest.ends_newTable_top (fun _ c hc => ?_)
    fun _ _ => False.elim
  obtain ⟨hintact, hsame, new, hstack⟩ := hc
  rw [recordTop_eq hstack hnew]
  have hcopy :
      (t.recorded c (.table new) handle.index (.table handle)).copyOf?
        handle.index =
        some (.table new) := copyOf?_recorded hintact.registry
  refine h.pushes_recorded hnew hintact hsame hstack (fun _ => rfl)
    (.table hvalue hcopy) (.table hvalue ?_) (.table hcopy) (fun _ => ?_) nofun
  · exact Copies.find?_insert.trans (if_pos rfl)
  · rintro ⟨⟩
    rfl

theorem Traversing.ends_pushFunctionImage
    (h : Traversing source settings among t)
    (hsource : source.Intact) {handle : Handle}
    (hvalue : among (.function handle))
    (hnames : source.Names (.function handle))
    (hnew : ¬t.copies.contains handle.index = true) :
    Ends (pushFunctionImage source settings handle.index (.function handle) t)
      (fun _ t' => Pushes source settings among (.function handle) t t')
      fun e t' => t' = t ∧ source.Refuses settings (.function handle) e := by
  simp only [pushFunctionImage]
  cases hbytes : source.chunkOf (.function handle) settings.stripDebug with
  | error error => exact ⟨rfl, Context.refuses_of_chunkOf hnames hbytes⟩
  | ok bytes =>
    obtain ⟨proto, hread⟩ :=
      hsource.exists_undump_of_chunkOf hbytes settings.chunkName
    refine ends_onDest_bind (h.dest.ends_loadChunk_top hread) (fun _ c hc => ?_)
      fun _ _ => False.elim
    obtain ⟨hintact, hsame, new, hstack⟩ := hc
    rw [recordTop_eq hstack hnew]
    have hcopy : (t.recorded c (.function new) handle.index
        (.captured (.function handle))).copyOf? handle.index =
        some (.function new) :=
      copyOf?_recorded hintact.registry
    refine h.pushes_recorded hnew hintact hsame hstack (fun _ => rfl)
      (.function hvalue hbytes hcopy) (.captured hvalue ?_) (.function hcopy)
      (fun _ => ?_) ?_
    · exact Copies.find?_insert.trans (if_pos rfl)
    · rintro ⟨⟩
      rfl
    · rintro error ⟨⟩
      next hlarge => cases hlarge.symm.trans hbytes

/-- Pushing the image of a value fails only if the value cannot be copied. -/
theorem Traversing.ends_pushImage (h : Traversing source settings among t)
    (hsource : source.Intact) (hclosed : source.Closed among)
    (hvalue : among value) :
    Ends (pushImage source settings value t)
      (fun _ t' => Pushes source settings among value t t')
      fun e t' => t' = t ∧ source.Refuses settings value e := by
  have hplain : value.handle? = none → (∀ name, value ≠ .native name) →
      Ends (onDest (Context.push value) t)
        (fun _ t' => Pushes source settings among value t t')
        fun e t' => t' = t ∧ source.Refuses settings value e := by
    intro hhandle hnative
    refine ends_onDest_of_eq
      rfl (h.pushes_of_image (.plain hhandle hnative) ⟨?_, ?_⟩)
    · rintro error ⟨⟩
      · exact hnative _ rfl
      · cases hhandle
      · cases hhandle
    · intro handle hfound
      cases hhandle.symm.trans hfound
  have hnames := hclosed.names value hvalue
  cases value with
  | table handle =>
    refine h.ends_pushShared rfl rfl (fun hrecorded => ?_)
      (h.ends_pushTableImage hvalue)
    cases hrecorded with
    | table _ hcopy => exact ⟨_, hcopy, .table hcopy, nofun⟩
    | function hfunction =>
      obtain ⟨table, htable⟩ := hnames
      obtain ⟨closure, hclosure⟩ := hclosed.names _ hfunction
      cases htable.symm.trans hclosure
  | function handle =>
    refine h.ends_pushShared rfl rfl (fun hrecorded => ?_)
      (h.ends_pushFunctionImage hsource hvalue hnames)
    cases hrecorded with
    | table hfound =>
      obtain ⟨closure, hclosure⟩ := hnames
      obtain ⟨table, htable⟩ := hclosed.names _ hfound
      cases htable.symm.trans hclosure
    | function _ hbytes hcopy =>
      refine ⟨_, hcopy, .function hcopy, ?_⟩
      rintro error ⟨⟩
      next hlarge => cases hlarge.symm.trans hbytes
  | native name => exact ⟨rfl, .native name⟩
  | userdata handle => exact ⟨rfl, .userdata handle⟩
  | nil => exact hplain rfl nofun
  | boolean value => exact hplain rfl nofun
  | integer value => exact hplain rfl nofun
  | float value => exact hplain rfl nofun
  | string value => exact hplain rfl nofun
  | light value => exact hplain rfl nofun
  | proxy value => exact hplain rfl nofun

end Transfer

end Isolate
