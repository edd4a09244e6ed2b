import Isolate.Proofs.Context.Assignment
import Isolate.Proofs.Transfer.Twins

/-!
# Pushing the image of a value

Pushing an image leaves everything reachable in the destination alone and makes
at most one copy, from new objects.  A new copy is empty and waits to be filled.
-/

namespace Isolate

/-- The identity of the object that a filling copies from. -/
def Filling.identity : Filling → Nat
  | .table source _ => source.index
  | .captured source _ => source.identity?.getD 0

def Filling.pin : Filling → Pin
  | .table _ copy | .captured _ copy => copy

namespace Copies

variable {copies : Copies} {identity other : Nat} {pin : Pin}

theorem find?_insert : (copies.insert identity pin).find? other =
    if other = identity then some pin else copies.find? other :=
  lookup_cons_filter_ne

theorem contains_insert : (copies.insert identity pin).contains other = true ↔
    other = identity ∨ copies.contains other = true := by
  simp only [contains]
  rw [find?_insert]
  split
  · next h => simp [h]
  · next h => simp [h]

theorem find?_of_not_contains (h : ¬copies.contains identity = true) :
    copies.find? identity = none :=
  Option.not_isSome_iff_eq_none.1 h

end Copies

namespace Transfer

variable {source : Context} {settings : TransferSettings} {t t' t'' : Transfer}
  {c : Context} {identity : Nat}

/-! ## Acting on the destination -/

theorem ends_onDest {α : Type} {action : Action α} {onOk : α → Transfer → Prop}
    {onError : TransferError → Transfer → Prop} :
    Ends (onDest action t) onOk onError ↔
      Ends (action t.dest) (fun a c => onOk a { t with dest := c })
        (fun e c => onError (.ofRuntime e) { t with dest := c }) := by
  obtain ⟨dest, copies, fillings, copied⟩ := t
  rw [onDest]
  dsimp only
  cases action dest <;> exact Iff.rfl

/-- The outcome of a sequence that acts on the destination first. -/
theorem ends_onDest_bind {α β : Type} {action : Action α} {f : α → Copying β}
    {onFirst : α → Context → Prop} {onFail : RuntimeError → Context → Prop}
    {onOk : β → Transfer → Prop} {onError : TransferError → Transfer → Prop}
    (h : Ends (action t.dest) onFirst onFail)
    (hok : ∀ a c, onFirst a c → Ends (f a { t with dest := c }) onOk onError)
    (herror : ∀ e c, onFail e c → onError (.ofRuntime e) { t with dest := c }) :
    Ends ((onDest action >>= f) t) onOk onError := by
  rw [ends_bind, ends_onDest]
  exact h.mono hok herror

/-- The outcome of an action on the destination that is known to succeed. -/
theorem ends_onDest_of_eq {α : Type} {action : Action α} {a : α}
    {onOk : α → Transfer → Prop} {onError : TransferError → Transfer → Prop}
    (h : action t.dest = .ok a c) (hok : onOk a { t with dest := c }) :
    Ends (onDest action t) onOk onError := by
  rw [ends_onDest, h]
  exact hok

/-! ## Ends of transfers -/

/-- Cuts the destination stack back if a request fails, and forgets what it
queued. -/
def restoring (request : Copying Unit) : Copying Unit := fun t =>
  match request t with
  | .ok () t' => .ok () t'
  | .error error t' =>
    .error error (truncateDest t.dest.stack.size { t' with fillings := [] })

theorem copy_eq_restoring (value : Value) :
    copy source settings value = restoring (do
      pushImage source settings value
      settle source settings) :=
  rfl

theorem ends_restoring {request : Copying Unit} {onOk : Unit → Transfer → Prop}
    {onError : TransferError → Transfer → Prop}
    (h : Ends (request t) onOk fun e t' =>
      onError e { t' with
          dest := t'.dest.truncateStack t.dest.stack.size, fillings := [] }) :
    Ends (restoring request t) onOk onError := by
  simp only [restoring]
  cases hresult : request t with
  | ok _ t' => exact h.ok hresult
  | error e t' => exact h.error hresult

theorem finish_dest_eq (t : Transfer) :
    t.finish.2 = stateOf (t.copies.release t.dest) := by
  obtain ⟨dest, copies, fillings, copied⟩ := t
  rw [finish]
  cases copies.release dest <;> rfl

/-! ## Growth -/

/-- Everything reachable in the destination is left alone, recorded copies stay
recorded, and the others are made of new objects. -/
structure Grown (source : Context) (settings : TransferSettings)
    (t t' : Transfer) : Prop where
  sound : Sound source settings t'
  keeps : t.dest.Keeps t'.dest
  copies : t'.Remembers t
  fresh : ∀ identity, ¬t.copies.contains identity = true →
    ∀ handle ∈ t'.parts identity, ¬t.dest.Live handle

theorem Grown.refl (h : Sound source settings t) :
    Grown source settings t t where
  sound := h
  keeps := .refl _
  copies := fun _ _ hcopy => hcopy
  fresh := fun _ hnot _ hmem => absurd (contains_of_mem_parts hmem) hnot

/-- The destination grew and no copy was recorded. -/
theorem Sound.grown (h : Sound source settings t) (hkeeps : t.dest.Keeps c)
    (hc : c.WellFormed)
    (htrusted : c.cache.Trusted (source.Travelling settings)) :
    Grown source settings t { t with dest := c } where
  sound := h.keeps hkeeps hc htrusted
  keeps := hkeeps
  copies := by
    intro identity copy hcopy
    obtain ⟨pin, hpin, hvalue⟩ := Option.bind_eq_some_iff.1 hcopy
    exact Option.bind_eq_some_iff.2 ⟨pin, hpin, hkeeps.pinned pin copy hvalue⟩
  fresh := fun _ hnot _ hmem => absurd (contains_of_mem_parts_dest hmem) hnot

theorem Grown.contains (h : Grown source settings t t')
    (hs : Sound source settings t)
    (hcontains : t.copies.contains identity = true) :
    t'.copies.contains identity = true := by
  obtain ⟨copy, hcopy⟩ := hs.exists_copyOf? hcontains
  exact contains_of_copyOf? (h.copies identity copy hcopy)

/-- The parts of the copies that were recorded are left alone. -/
theorem Grown.get?_of_mem_parts (h : Grown source settings t t')
    (hs : Sound source settings t) {handle : Handle}
    (hmem : handle ∈ t.parts identity) :
    t'.dest.heap.get? handle = t.dest.heap.get? handle :=
  h.keeps.objects handle (hs.live hmem)

/-- The copies that were recorded are made of what they were made of. -/
theorem Grown.parts (h : Grown source settings t t')
    (hs : Sound source settings t)
    (hcontains : t.copies.contains identity = true) :
    t'.parts identity = t.parts identity :=
  ((hs.shaped identity hcontains).transport (h.copies identity) fun _ hmem =>
    .of_eq (h.get?_of_mem_parts hs hmem)).2

theorem Grown.trans (h : Grown source settings t t')
    (hs : Sound source settings t') (h' : Grown source settings t' t'') :
    Grown source settings t t'' where
  sound := h'.sound
  keeps := h.keeps.trans h'.keeps
  copies := fun identity copy hcopy =>
    h'.copies identity copy (h.copies identity copy hcopy)
  fresh := by
    intro identity hnot handle hmem hlive
    by_cases hcontains : t'.copies.contains identity = true
    · rw [h'.parts hs hcontains] at hmem
      exact h.fresh identity hnot handle hmem hlive
    · exact h'.fresh identity hcontains handle hmem (h.keeps.live hlive)

/-! ## Recording a copy -/

/-- The transfer once a new value of its destination is recorded as the
copy of an identity. -/
def recorded (t : Transfer) (c : Context) (value : Value) (identity : Nat)
    (fill : Pin → Filling) : Transfer :=
  ⟨{ c with registry := (c.registry.pin value).2 },
    t.copies.insert identity (c.registry.pin value).1,
    fill (c.registry.pin value).1 :: t.fillings, t.copied + 1⟩

theorem recordTop_eq {rest : Array Value} {value : Value} {fill : Pin → Filling}
    (hstack : c.stack = rest.push value)
    (hnew : ¬t.copies.contains identity = true) :
    recordTop identity fill { t with dest := c } =
      .ok () (t.recorded c value identity fill) := by
  have hpin : onDest (Context.pin (-1)) { t with dest := c } =
      .ok (c.registry.pin value).1
        { t with dest := { c with registry := (c.registry.pin value).2 } } := by
    simp only [onDest]
    rw [Context.pin_top_eq hstack]
  have hget : ∀ t : Transfer, (get : Copying Transfer) t = .ok t t :=
    fun _ => rfl
  rw [recordTop, bind_of_ok hpin, bind_of_ok (hget _),
    Copies.find?_of_not_contains hnew]
  rfl

theorem copyOf?_recorded {value : Value} {fill : Pin → Filling}
    (hregistry : c.registry.WellFormed) :
    (t.recorded c value identity fill).copyOf? identity = some value := by
  refine Option.bind_eq_some_iff.2 ⟨_, ?_, hregistry.get?_pin_self⟩
  exact Copies.find?_insert.trans (if_pos rfl)

theorem remembers_recorded {value : Value} {fill : Pin → Filling}
    (hnew : ¬t.copies.contains identity = true)
    (hpinned : ∀ pin copy, t.dest.registry.get? pin = some copy →
      c.registry.get? pin = some copy)
    (hregistry : c.registry.WellFormed) :
    (t.recorded c value identity fill).Remembers t := by
  intro other copy hcopy
  have hne : other ≠ identity := by
    rintro rfl
    exact hnew (contains_of_copyOf? hcopy)
  obtain ⟨pin, hpin, hvalue⟩ := Option.bind_eq_some_iff.1 hcopy
  refine Option.bind_eq_some_iff.2 ⟨pin, ?_, ?_⟩
  · exact Copies.find?_insert.trans ((if_neg hne).trans hpin)
  · exact hregistry.get?_pin_of_some (hpinned pin copy hvalue)

/-- A new value of the destination becomes the copy of an identity that had
none. -/
theorem Sound.grown_recorded (h : Sound source settings t) {value : Value}
    {fill : Pin → Filling} (hnew : ¬t.copies.contains identity = true)
    (hkeeps : t.dest.Keeps c) (hc : c.WellFormed)
    (htrusted : c.cache.Trusted (source.Travelling settings))
    (hvalue : c.Names value)
    (hfresh : ∀ handle ∈ c.partsOf value, ¬t.dest.Live handle)
    (hshaped : Shaped source settings
      (t.recorded c value identity fill) identity) :
    Grown source settings t (t.recorded c value identity fill) := by
  have hkeeps' : t.dest.Keeps (t.recorded c value identity fill).dest :=
    ⟨hkeeps.globals, hkeeps.frames, hkeeps.stack, fun pin found hfound =>
      hc.registry.get?_pin_of_some (hkeeps.pinned pin found hfound),
      hkeeps.objects⟩
  have hcopies : (t.recorded c value identity fill).Remembers t :=
    remembers_recorded hnew hkeeps.pinned hc.registry
  have hold : ∀ other, t.copies.contains other = true →
      Shaped source settings (t.recorded c value identity fill) other ∧
        (t.recorded c value identity fill).parts other = t.parts other := by
    intro other hcontains
    exact (h.shaped other hcontains).transport (hcopies other)
      fun handle hmem =>
        .of_eq (hkeeps'.objects handle (h.live hmem))
  have hparts :
      (t.recorded c value identity fill).parts identity = c.partsOf value := by
    simp only [parts]
    rw [copyOf?_recorded hc.registry]
    rfl
  have hcases :
      ∀ other handle, handle ∈ (t.recorded c value identity fill).parts other →
        other = identity ∧ handle ∈ c.partsOf value ∨
          t.copies.contains other = true ∧ handle ∈ t.parts other := by
    intro other handle hmem
    rcases Copies.contains_insert.1 (contains_of_mem_parts hmem) with
      rfl | hcontains
    · exact Or.inl ⟨rfl, hparts ▸ hmem⟩
    · exact Or.inr ⟨hcontains, (hold other hcontains).2 ▸ hmem⟩
  refine ⟨⟨hc.withPin hvalue, htrusted, fun other hcontains => ?_,
    fun other other' handle hmem hmem' => ?_⟩, hkeeps', hcopies,
    fun other hnot handle hmem => ?_⟩
  · rcases Copies.contains_insert.1 hcontains with rfl | hcontains
    · exact hshaped
    · exact (hold other hcontains).1
  · rcases hcases other handle hmem with ⟨rfl, hvalue⟩ | ⟨_, hpart⟩
    · rcases hcases other' handle hmem' with ⟨rfl, _⟩ | ⟨_, hpart'⟩
      · rfl
      · exact absurd (h.live hpart') (hfresh handle hvalue)
    · rcases hcases other' handle hmem' with ⟨rfl, hvalue⟩ | ⟨_, hpart'⟩
      · exact absurd (h.live hpart) (hfresh handle hvalue)
      · exact h.separate other other' handle hpart hpart'
  · rcases hcases other handle hmem with ⟨_, hvalue⟩ | ⟨hcontains, _⟩
    · exact hfresh handle hvalue
    · exact absurd hcontains hnot

/-! ## Waiting copies -/

/-- A copy that is recorded and empty. -/
inductive Waiting (source : Context) (settings : TransferSettings)
    (t : Transfer) : Filling → Prop
  | table {handle : Handle} {pin : Pin}
      (hpin : t.copies.find? handle.index = some pin)
      (htwin : Twin source settings t handle.index
        (fun _ copied => copied.entries = []) fun _ _ => False) :
          Waiting source settings t (.table handle pin)
  | captured {handle : Handle} {pin : Pin}
      (hpin : t.copies.find? handle.index = some pin)
      (htwin : Twin source settings t handle.index (fun _ _ => False)
        fun _ _ => True) :
      Waiting source settings t (.captured (.function handle) pin)

theorem Waiting.find? {filling : Filling}
    (h : Waiting source settings t filling) :
    t.copies.find? filling.identity = some filling.pin := by
  cases h with
  | table hpin => exact hpin
  | captured hpin => exact hpin

theorem Waiting.contains {filling : Filling}
    (h : Waiting source settings t filling) :
    t.copies.contains filling.identity = true :=
  Option.isSome_of_mem h.find?

theorem Waiting.shaped {filling : Filling}
    (h : Waiting source settings t filling) :
    Shaped source settings t filling.identity := by
  cases h with
  | table _ htwin => exact htwin.shaped
  | captured _ htwin => exact htwin.shaped

theorem Waiting.transport {filling : Filling}
    (h : Waiting source settings t filling)
    (hpins : t'.copies.find? filling.identity = t.copies.find? filling.identity)
    (hcopies : ∀ copy, t.copyOf? filling.identity = some copy →
      t'.copyOf? filling.identity = some copy)
    (hparts : ∀ handle ∈ t.parts filling.identity,
      t'.dest.heap.get? handle = t.dest.heap.get? handle) :
    Waiting source settings t' filling := by
  cases h with
  | table hpin htwin =>
    refine .table (hpins.trans hpin) ?_
    exact htwin.transport hcopies hparts (fun _ _ hempty => hempty)
      fun _ _ _ hfalse => hfalse
  | captured hpin htwin =>
    refine .captured (hpins.trans hpin) ?_
    exact htwin.transport hcopies hparts (fun _ _ hfalse => hfalse)
      fun _ _ _ htrue => htrue

/-! ## Images on the stack -/

/-- What pushing an image records: nothing, or one copy that waits to be
filled. -/
inductive Queued (source : Context) (settings : TransferSettings)
    (t t' : Transfer) : Prop
  | same (hcopies : t'.copies = t.copies) (hfillings : t'.fillings = t.fillings)
  | more {filling : Filling} (hnew : ¬t.copies.contains filling.identity = true)
      (hcopies : t'.copies = t.copies.insert filling.identity filling.pin)
      (hfillings : t'.fillings = filling :: t.fillings)
      (hwaiting : Waiting source settings t' filling)

/-- The image of a value is on the stack. -/
structure Pushed (source : Context) (settings : TransferSettings)
    (value : Value) (t t' : Transfer) : Prop where
  grown : Grown source settings t t'
  image : ∃ image,
    t'.Image value image ∧ t'.dest.stack = t.dest.stack.push image
  queued : Queued source settings t t'

/-- An image that is already there is pushed as it is. -/
theorem Sound.pushed_of_image (h : Sound source settings t)
    {value image : Value} (himage : t.Image value image) :
    Pushed source settings value t
      { t with dest := { t.dest with stack := t.dest.stack.push image } } :=
  ⟨h.grown ((Context.Keeps.refl t.dest).push image)
      (h.wellFormed.push (h.names_of_image himage)) h.trusted,
    ⟨image, himage.mono fun _ _ hcopy => hcopy, rfl⟩, .same rfl rfl⟩

theorem ends_pushShared (h : Sound source settings t) {value : Value}
    {create : Copying Unit}
    (himage : ∀ copy, t.copyOf? identity = some copy → t.Image value copy)
    (hcreate : ¬t.copies.contains identity = true →
      Ends (create t) (fun _ t' => Pushed source settings value t t')
        fun _ t' => Grown source settings t t') :
    Ends (pushSharedImage identity create t)
      (fun _ t' => Pushed source settings value t t')
      fun _ t' => Grown source settings t t' := by
  simp only [pushSharedImage]
  rw [ends_bind, ends_get]
  cases hpin : t.copies.find? identity with
  | none =>
    refine hcreate fun hcontains => ?_
    rw [Copies.contains, hpin] at hcontains
    cases hcontains
  | some pin =>
    obtain ⟨copy, hcopy⟩ := h.exists_copyOf? (Option.isSome_of_mem hpin)
    obtain ⟨found, hfound, hpinned⟩ := Option.bind_eq_some_iff.1 hcopy
    cases hpin.symm.trans hfound
    exact ends_onDest_of_eq (Context.pushPinned_eq hpinned)
      (h.pushed_of_image (himage copy hcopy))

/-- The copy of an identity that is on top of the destination stack. -/
theorem Sound.pushed_recorded (h : Sound source settings t)
    {fill : Pin → Filling} {value copy : Value}
    (hidentity : ∀ pin, (fill pin).identity = identity)
    (hpin : ∀ pin, (fill pin).pin = pin)
    (hnew : ¬t.copies.contains identity = true) (hkeeps : t.dest.Keeps c)
    (hc : c.WellFormed)
    (htrusted : c.cache.Trusted (source.Travelling settings))
    (hfresh : ∀ handle ∈ c.partsOf copy, ¬t.dest.Live handle)
    (hstack : c.stack = t.dest.stack.push copy)
    (himage : (t.recorded c copy identity fill).Image value copy)
    (hwaiting : Waiting source settings (t.recorded c copy identity fill)
      (fill (c.registry.pin copy).1)) :
    Pushed source settings value t (t.recorded c copy identity fill) := by
  have hshaped := hwaiting.shaped
  rw [hidentity] at hshaped
  have hnames : c.Names copy := by
    refine hc.stack copy ?_
    rw [hstack, Array.toList_push]
    exact List.mem_append_right _ List.mem_cons_self
  refine ⟨h.grown_recorded hnew hkeeps hc htrusted hnames hfresh hshaped,
    ⟨copy, himage, hstack⟩, .more ?_ ?_ rfl hwaiting⟩
  · rwa [hidentity]
  · rw [hidentity, hpin]
    rfl

theorem ends_pushTableImage (h : Sound source settings t) {handle : Handle}
    {table : Table} (htable : source.heap.get? handle = some (.table table))
    (hnew : ¬t.copies.contains handle.index = true) :
    Ends (pushTableImage handle.index handle t)
      (fun _ t' => Pushed source settings (.table handle) t t')
      fun _ t' => Grown source settings t t' := by
  refine ends_onDest_bind (Context.ends_newTable h.wellFormed)
    (fun _ c hc => ?_) fun _ _ => False.elim
  obtain ⟨copy, hstack, hobject, hfresh, hkeeps, hwell, -, hcache⟩ := hc
  rw [recordTop_eq hstack hnew]
  have hcopy :
      (t.recorded c (.table copy) handle.index (.table handle)).copyOf?
        handle.index =
        some (.table copy) := copyOf?_recorded hwell.registry
  refine h.pushed_recorded (fun _ => rfl) (fun _ => rfl) hnew hkeeps hwell
    (hcache ▸ h.trusted) ?_ hstack (.table hcopy)
    (.table ?_ (.table htable hcopy hobject rfl))
  · intro part hpart
    rwa [List.mem_singleton.1 hpart]
  · exact Copies.find?_insert.trans (if_pos rfl)

/-- A function of the source that was read back from its chunk. -/
theorem proto_of_chunkOf {handle : Handle} {closure : Closure}
    {bytes : List UInt8} {name : String} {proto : Prototype} {strip : Bool}
    (hclosure : source.heap.get? handle = some (.closure closure))
    (hbytes : source.chunkOf (.function handle) strip = .ok bytes)
    (hproto : Chunk.undump bytes name = .ok proto) :
    proto = (closure.proto.kept strip).attributedTo name := by
  obtain ⟨_, found, heq, hfound, hdump⟩ :=
    Context.exists_closure_of_chunkOf hbytes
  cases heq
  cases hclosure.symm.trans hfound
  obtain ⟨hiff, hread⟩ := Chunk.undump_of_dump hdump name
  exact Except.ok.inj (hproto.symm.trans (hread (hiff.1 ⟨proto, hproto⟩)))

theorem ends_pushFunctionImage (h : Sound source settings t) {handle : Handle}
    {closure : Closure} (hsource : source.WellFormed)
    (hchunks : Chunk.Cache.Distinguished (source.Travelling settings))
    (hclosure : source.heap.get? handle = some (.closure closure))
    (hnew : ¬t.copies.contains handle.index = true) :
    Ends (pushFunctionImage source settings handle.index (.function handle) t)
      (fun _ t' => Pushed source settings (.function handle) t t')
      fun _ t' => Grown source settings t t' := by
  simp only [pushFunctionImage]
  cases hbytes : source.chunkOf (.function handle) settings.stripDebug with
  | error error => exact .refl h
  | ok bytes =>
    have hload :=
      Context.ends_loadChunk h.wellFormed h.trusted hchunks ⟨rfl, _, hbytes⟩
    refine ends_onDest_bind hload (fun _ c hc => ?_) fun e c hc => ?_
    · obtain ⟨htrusted, proto, copy, cells, hproto, hpushed⟩ := hc
      rw [recordTop_eq hpushed.stack hnew]
      have hcopy : (t.recorded c (.function copy) handle.index
          (.captured (.function handle))).copyOf? handle.index =
          some (.function copy) :=
        copyOf?_recorded hpushed.wellFormed.registry
      have hparts : c.partsOf (.function copy) = copy :: cells := by
        simp only [Context.partsOf]
        rw [hpushed.closure]
      have hsame := proto_of_chunkOf hclosure hbytes hproto
      have hcounterpart :
          Counterpart settings (t.recorded c (.function copy) handle.index
            (.captured (.function handle))).dest closure
              ⟨proto, cells.toArray⟩ := by
        refine ⟨hsame, ?_, hpushed.nodup, fun cell hcell => ?_⟩
        · rw [List.size_toArray, hpushed.length, hsame,
            Prototype.attributedTo_upvalues, Prototype.size_upvalues_kept,
            (hsource.objects _ _ hclosure).1]
        · obtain ⟨i, hi⟩ := List.mem_iff_getElem?.1 hcell
          exact ⟨_, hpushed.contents i cell hi⟩
      refine h.pushed_recorded (fun _ => rfl) (fun _ => rfl) hnew hpushed.keeps
        hpushed.wellFormed htrusted ?_ hpushed.stack (.function hcopy)
        (.captured ?_ (.function hclosure hcopy hpushed.closure
          hcounterpart trivial))
      · rw [hparts]
        exact hpushed.fresh
      · exact Copies.find?_insert.trans (if_pos rfl)
    · obtain ⟨hsame, htrusted⟩ := hc
      exact h.grown hsame.keeps (hsame.wellFormed h.wellFormed) htrusted

/-- Pushing the image of a value of the source. -/
theorem ends_pushImage (h : Sound source settings t)
    (hsource : source.WellFormed)
    (hchunks : Chunk.Cache.Distinguished (source.Travelling settings))
    {value : Value} (hvalue : source.Names value) :
    Ends (pushImage source settings value t)
      (fun _ t' => Pushed source settings value t t')
      fun _ t' => Grown source settings t t' := by
  have hplain : value.handle? = none → (∀ name, value ≠ .native name) →
      Ends (onDest (Context.push value) t)
        (fun _ t' => Pushed source settings value t t')
        fun _ t' => Grown source settings t t' := by
    intro hhandle hnative
    exact ends_onDest_of_eq rfl (h.pushed_of_image (.plain hhandle hnative))
  cases value with
  | table handle =>
    obtain ⟨table, htable⟩ := hvalue
    refine ends_pushShared h (fun copy hcopy => ?_)
      (ends_pushTableImage h htable)
    cases h.shaped handle.index (contains_of_copyOf? hcopy) with
    | table _ hfound =>
      cases hcopy.symm.trans hfound
      exact .table hcopy
    | function hclosure => cases htable.symm.trans hclosure
  | function handle =>
    obtain ⟨closure, hclosure⟩ := hvalue
    refine ends_pushShared h (fun copy hcopy => ?_)
      (ends_pushFunctionImage h hsource hchunks hclosure)
    cases h.shaped handle.index (contains_of_copyOf? hcopy) with
    | table htable => cases hclosure.symm.trans htable
    | function _ hfound =>
      cases hcopy.symm.trans hfound
      exact .function hcopy
  | native name => exact .refl h
  | userdata handle => exact .refl h
  | nil => exact hplain rfl nofun
  | boolean value => exact hplain rfl nofun
  | integer value => exact hplain rfl nofun
  | float value => exact hplain rfl nofun
  | string value => exact hplain rfl nofun
  | light value => exact hplain rfl nofun
  | proxy value => exact hplain rfl nofun

end Transfer

end Isolate
