import Isolate.Proofs.Transfer.Pushing

/-!
# Filling copies

While copies are filled, every new copy is filled, waits, or is the busy one.
The parts of the busy copy belong to no other, so filling it leaves the others
as they are.  The slots of the source bound what is still to come.
-/

namespace Isolate.Transfer

variable {source : Context} {settings : TransferSettings} {t t' t₀ : Transfer}
  {identity : Nat}

/-! ## Contents -/

/-- These bindings are bound to their images in a copied table. -/
def Includes (t : Transfer) (entries : List (Key × Value))
    (copied : Table) : Prop :=
  ∀ key value, (key, value) ∈ entries → ∃ key' value',
    (key', value') ∈ copied.entries ∧
      t.Image key.toValue key'.toValue ∧ t.Image value value'

/-- The bindings of a copied table are the images of these and no others. -/
structure Binds (t : Transfer) (entries : List (Key × Value))
    (copied : Table) : Prop where
  forth : t.Includes entries copied
  back : ∀ key' value', (key', value') ∈ copied.entries → ∃ key value,
    (key, value) ∈ entries ∧
      t.Image key.toValue key'.toValue ∧ t.Image value value'

/-- What the copy of a function holds in the place of an upvalue. -/
def Placed (source : Context) (t : Transfer) (i : Nat) (name : String)
    (value image : Value) : Prop :=
  if i = 0 ∧ source.bindsGlobals name value = true then
    image = t.dest.globalsValue else t.Image value image

/-- The first cells of a copied function hold what they should. -/
def Captures (source : Context) (t : Transfer) (function : Value) (count : Nat)
    (copied : Closure) : Prop :=
  ∀ i name value, i < count →
    (source.upvalues function)[i]? = some (name, value) →
    ∃ cell image, copied.cells[i]? = some cell ∧
      t.dest.heap.get? cell = some (.cell image) ∧
      Placed source t i name value image

/-- The copy of an identity has all that its source has, and nothing else. -/
def Filled (source : Context) (settings : TransferSettings) (t : Transfer)
    (identity : Nat) : Prop :=
  Twin source settings t identity
    (fun table copied => t.Binds table.entries copied) fun closure copied =>
      Captures source t (.function ⟨identity⟩) closure.cells.size copied

theorem Includes.mono {entries : List (Key × Value)} {copied : Table}
    (h : t.Includes entries copied) (hcopies : t'.Remembers t) :
    t'.Includes entries copied := by
  intro key value hentry
  obtain ⟨key', value', hentry', hkey, hvalue⟩ := h key value hentry
  exact ⟨key', value', hentry', hkey.mono hcopies, hvalue.mono hcopies⟩

theorem Binds.mono {entries : List (Key × Value)} {copied : Table}
    (h : t.Binds entries copied) (hcopies : t'.Remembers t) :
    t'.Binds entries copied := by
  refine ⟨h.forth.mono hcopies, fun key' value' hentry' => ?_⟩
  obtain ⟨key, value, hentry, hkey, hvalue⟩ := h.back key' value' hentry'
  exact ⟨key, value, hentry, hkey.mono hcopies, hvalue.mono hcopies⟩

theorem Placed.mono {i : Nat} {name : String} {value image : Value}
    (h : Placed source t i name value image) (hcopies : t'.Remembers t)
    (hglobals : t'.dest.globals = t.dest.globals) :
    Placed source t' i name value image := by
  simp only [Placed] at h ⊢
  split
  · next hplace =>
    rw [if_pos hplace] at h
    rw [h, Context.globalsValue, Context.globalsValue, hglobals]
  · next hplace =>
    rw [if_neg hplace] at h
    exact h.mono hcopies

theorem Captures.mono {function : Value} {count : Nat} {copied : Closure}
    (h : Captures source t function count copied) (hcopies : t'.Remembers t)
    (hglobals : t'.dest.globals = t.dest.globals)
    (hcells : ∀ cell ∈ copied.cells.toList,
      t'.dest.heap.get? cell = t.dest.heap.get? cell) :
    Captures source t' function count copied := by
  intro i name value hi hupvalue
  obtain ⟨cell, image, hcell, hheld, hplaced⟩ := h i name value hi hupvalue
  refine ⟨cell, image, hcell, ?_, hplaced.mono hcopies hglobals⟩
  rw [hcells cell (Array.mem_toList_iff.2 (Array.mem_of_getElem? hcell))]
  exact hheld

/-- The next cell of a copied function takes what belongs in the
place of its upvalue. -/
theorem Captures.store {function : Value} {i : Nat} {name : String}
    {value image : Value} {copied : Closure}
    (h : Captures source t function i copied)
    (hnodup : copied.cells.toList.Nodup) (hi : i < copied.cells.size)
    (hlive : (t.dest.heap.get? copied.cells[i]).isSome)
    (hupvalue : (source.upvalues function)[i]? = some (name, value))
    (hplaced : Placed source t i name value image) (stack : Array Value) :
    Captures source { t with dest := { t.dest with
        stack, heap := t.dest.heap.update copied.cells[i]
          fun _ => .cell image } }
      function (i + 1) copied := by
  intro j otherName other hj hother
  rcases Nat.lt_succ_iff_lt_or_eq.1 hj with hlt | rfl
  · obtain ⟨cell, held, hcell, hheld, hplaced'⟩ :=
      h j otherName other hlt hother
    have hne : cell ≠ copied.cells[i] := by
      rintro rfl
      have hsame : copied.cells.toList[j]? = copied.cells.toList[i]? := by
        rw [Array.getElem?_toList, Array.getElem?_toList, hcell,
          Array.getElem?_eq_getElem hi]
      have hj' : j < copied.cells.toList.length := Nat.lt_trans hlt hi
      exact Nat.ne_of_lt hlt ((List.getElem?_inj hj' hnodup).1 hsame)
    refine ⟨cell, held, hcell, (Heap.get?_update_of_ne hne).trans hheld, ?_⟩
    exact hplaced'.mono (fun _ _ hcopy => hcopy) rfl
  · cases hother.symm.trans hupvalue
    obtain ⟨old, hold⟩ := Option.isSome_iff_exists.1 hlive
    refine ⟨copied.cells[j], image, Array.getElem?_eq_getElem hi, ?_, ?_⟩
    · exact Heap.get?_update_self.trans (by rw [hold]; rfl)
    · exact hplaced.mono (fun _ _ hcopy => hcopy) rfl

theorem Filled.transport (h : Filled source settings t identity)
    (hcopies : t'.Remembers t) (hglobals : t'.dest.globals = t.dest.globals)
    (hparts : ∀ handle ∈ t.parts identity,
      t'.dest.heap.get? handle = t.dest.heap.get? handle) :
    Filled source settings t' identity :=
  Twin.transport h (hcopies identity) hparts
    (fun _ _ hbinds => hbinds.mono hcopies) fun _ _ hcells hcaptures =>
      hcaptures.mono hcopies hglobals hcells

theorem Binds.nil {copied : Table} (h : copied.entries = []) :
    t.Binds [] copied where
  forth := fun _ _ hentry => (List.not_mem_nil hentry).elim
  back := by
    intro key' value' hentry
    rw [h] at hentry
    exact (List.not_mem_nil hentry).elim

/-- A new binding with the image of a key that was not bound yet. -/
theorem Binds.set (hs : Sound source settings t)
    {done rest : List (Key × Value)} {table : Table} {key key' : Key}
    {value value' : Value} {copied : Table} (h : t.Binds done copied)
    (hentries : table.entries = done ++ (key, value) :: rest)
    (hkey : t.Image key.toValue key'.toValue) (hvalue : t.Image value value') :
    t.Binds (done ++ [(key, value)]) (copied.set key' value') := by
  have hentry : (key, value) ∈ table.entries :=
    hentries ▸ List.mem_append_right done List.mem_cons_self
  have hnil : value' ≠ .nil := hvalue.ne_nil (table.bound _ hentry)
  have hunbound : copied.find? key' = none := by
    refine Table.find?_eq_none_iff.2 fun hmem => ?_
    obtain ⟨⟨found, bound⟩, hfound, rfl⟩ := List.mem_map.1 hmem
    obtain ⟨other, otherValue, hother, himage, -⟩ := h.back found bound hfound
    have hsame : other = key :=
      Key.toValue_injective (hs.image_injective himage hkey)
    have hdistinct := table.distinct
    rw [hentries, List.map_append, List.nodup_append] at hdistinct
    exact hdistinct.2.2 other (List.mem_map.2 ⟨_, hother, rfl⟩) key
      List.mem_cons_self hsame
  have hset := Table.entries_set_of_find?_eq_none hnil hunbound
  refine ⟨fun other bound hother => ?_, fun found bound hfound => ?_⟩
  · rcases List.mem_append.1 hother with hother | hother
    · obtain ⟨found, image, hfound, himages⟩ := h.forth other bound hother
      exact ⟨found, image, hset ▸ List.mem_cons_of_mem _ hfound, himages⟩
    · cases List.mem_singleton.1 hother
      exact ⟨key', value', hset ▸ List.mem_cons_self, hkey, hvalue⟩
  · rw [hset] at hfound
    rcases List.mem_cons.1 hfound with heq | hfound
    · cases heq
      exact ⟨key, value, List.mem_append_right done List.mem_cons_self,
        hkey, hvalue⟩
    · obtain ⟨other, otherValue, hother, himages⟩ := h.back found bound hfound
      exact ⟨other, otherValue, List.mem_append_left _ hother, himages⟩

/-- The copy of an identity has all that its source has, and perhaps more. -/
def Complete (source : Context) (settings : TransferSettings) (t : Transfer)
    (identity : Nat) : Prop :=
  Twin source settings t identity
    (fun table copied => t.Includes table.entries copied) fun closure copied =>
      Captures source t (.function ⟨identity⟩) closure.cells.size copied

theorem Filled.complete (h : Filled source settings t identity) :
    Complete source settings t identity :=
  Twin.transport h (fun _ hcopy => hcopy) (fun _ _ => rfl)
    (fun _ _ hbinds => hbinds.forth) fun _ _ _ hcaptures => hcaptures

theorem Complete.transport (h : Complete source settings t identity)
    (hcopies : t'.Remembers t) (hglobals : t'.dest.globals = t.dest.globals)
    (hparts : ∀ handle ∈ t.parts identity,
      t'.dest.heap.get? handle = t.dest.heap.get? handle) :
    Complete source settings t' identity :=
  Twin.transport h (hcopies identity) hparts
    (fun _ _ hincludes => hincludes.mono hcopies) fun _ _ hcells hcaptures =>
      hcaptures.mono hcopies hglobals hcells

/-- Where the copies are complete, everything that travels has an image. -/
theorem image_of_travels {root value : Value} (hsource : source.WellFormed)
    (hnames : source.Names root)
    (hcomplete : ∀ value, source.Travels root value → ∀ handle,
      value.handle? = some handle →
      t.copies.contains handle.index = true →
      Complete source settings t handle.index)
    (hroot : ∃ image, t.Image root image) (h : source.Travels root value) :
    ∃ image, t.Image value image := by
  induction h with
  | root => exact hroot
  | @key handle table key value h htable hentry ih =>
    obtain ⟨image, himage⟩ := ih
    have htwin := hcomplete _ h handle rfl (himage.contains rfl)
    obtain ⟨copy, copied, -, -, hincludes⟩ := Twin.of_table htwin htable
    obtain ⟨key', value', -, hkey, -⟩ := hincludes key value hentry
    exact ⟨_, hkey⟩
  | @value handle table key value h htable hentry ih =>
    obtain ⟨image, himage⟩ := ih
    have htwin := hcomplete _ h handle rfl (himage.contains rfl)
    obtain ⟨copy, copied, -, -, hincludes⟩ := Twin.of_table htwin htable
    obtain ⟨key', value', -, -, hvalue⟩ := hincludes key value hentry
    exact ⟨_, hvalue⟩
  | @captured handle i name value h hupvalue hplace ih =>
    obtain ⟨image, himage⟩ := ih
    have htwin := hcomplete _ h handle rfl (himage.contains rfl)
    obtain ⟨closure, hclosure⟩ := hsource.names_of_travels hnames h
    obtain ⟨copy, copied, -, -, -, hcaptures⟩ := Twin.of_closure htwin hclosure
    have hi := (List.getElem?_eq_some_iff.1 hupvalue).1
    rw [hsource.length_upvalues hclosure] at hi
    obtain ⟨cell, held, -, -, hplaced⟩ := hcaptures i name value hi hupvalue
    rw [Placed, if_neg hplace] at hplaced
    exact ⟨held, hplaced⟩

/-! ## Copies that a transfer does not touch -/

/-- An image that was live before was recorded before. -/
theorem Grown.image_of_live (h : Grown source settings t t')
    (hs : Sound source settings t) {value image : Value}
    (himage : t'.Image value image)
    (hlive : ∀ handle, image.handle? = some handle → t.dest.Live handle) :
    t.Image value image := by
  cases himage with
  | plain hhandle hnative => exact .plain hhandle hnative
  | @table handle copy hcopy =>
    have hmem : copy ∈ t'.parts handle.index :=
      parts_of_table hcopy ▸ List.mem_cons_self
    have hcontains : t.copies.contains handle.index = true :=
      Decidable.byContradiction fun hnot =>
        h.fresh _ hnot copy hmem (hlive copy rfl)
    obtain ⟨found, hfound⟩ := hs.exists_copyOf? hcontains
    cases hcopy.symm.trans (h.copies _ _ hfound)
    exact .table hfound
  | @function handle copy hcopy =>
    have hmem : copy ∈ t'.parts handle.index := mem_parts_of_function hcopy
    have hcontains : t.copies.contains handle.index = true :=
      Decidable.byContradiction fun hnot =>
        h.fresh _ hnot copy hmem (hlive copy rfl)
    obtain ⟨found, hfound⟩ := hs.exists_copyOf? hcontains
    cases hcopy.symm.trans (h.copies _ _ hfound)
    exact .function hfound

theorem Grown.placed_of_live (h : Grown source settings t t')
    (hs : Sound source settings t) {i : Nat} {name : String}
    {value image : Value} (hplaced : Placed source t' i name value image)
    (hlive : ∀ handle, image.handle? = some handle → t.dest.Live handle) :
    Placed source t i name value image := by
  simp only [Placed] at hplaced ⊢
  split
  · next hplace =>
    rw [if_pos hplace] at hplaced
    rw [hplaced, Context.globalsValue, Context.globalsValue, h.keeps.globals]
  · next hplace =>
    rw [if_neg hplace] at hplaced
    exact h.image_of_live hs hplaced hlive

/-- A copy that was recorded before is complete only if it was complete before:
what is missing from it is not added later. -/
theorem Grown.complete_before (h : Grown source settings t t')
    (hs : Sound source settings t)
    (hcontains : t.copies.contains identity = true)
    (hcomplete : Complete source settings t' identity) :
    Complete source settings t identity := by
  cases hs.shaped identity hcontains with
  | @table table copied copy hsource hcopy hobject =>
    have hlive : t.dest.Live copy :=
      hs.live (parts_of_table hcopy ▸ List.mem_cons_self)
    obtain ⟨copy', copied', hcopy', hobject', hincludes⟩ :=
      Twin.of_table hcomplete hsource
    cases hcopy'.symm.trans (h.copies _ _ hcopy)
    cases hobject'.symm.trans ((h.keeps.objects copy hlive).trans hobject)
    refine .table hsource hcopy hobject fun key value hentry => ?_
    obtain ⟨key', value', hentry', hkey, hvalue⟩ := hincludes key value hentry
    refine ⟨key', value', hentry',
      h.image_of_live hs hkey fun handle hhandle => ?_,
      h.image_of_live hs hvalue fun handle hhandle => ?_⟩
    · exact hs.wellFormed.live_of_child hlive hobject
        (Object.mem_children_of_entry hentry' (Or.inl hhandle))
    · exact hs.wellFormed.live_of_child hlive hobject
        (Object.mem_children_of_entry hentry' (Or.inr hhandle))
  | @function closure copied copy hsource hcopy hobject hcounterpart =>
    have hlive : t.dest.Live copy := hs.live (mem_parts_of_function hcopy)
    obtain ⟨copy', copied', hcopy', hobject', -, hcaptures⟩ :=
      Twin.of_closure hcomplete hsource
    cases hcopy'.symm.trans (h.copies _ _ hcopy)
    cases hobject'.symm.trans ((h.keeps.objects copy hlive).trans hobject)
    refine .function hsource hcopy hobject hcounterpart
      fun i name value hi hupvalue => ?_
    obtain ⟨cell, image, hcell, hheld, hplaced⟩ :=
      hcaptures i name value hi hupvalue
    have hcellLive :
        t.dest.Live cell := hs.wellFormed.live_of_child hlive hobject
          (Array.mem_toList_iff.2 (Array.mem_of_getElem? hcell))
    have hheld' : t.dest.heap.get? cell = some (.cell image) :=
      (h.keeps.objects cell hcellLive).symm.trans hheld
    refine ⟨cell, image, hcell, hheld',
      h.placed_of_live hs hplaced fun handle hhandle => ?_⟩
    exact hs.wellFormed.live_of_child hcellLive hheld'
      (Option.mem_toList.2 hhandle)

/-! ## Transfers under way -/

/-- The slots of the source whose objects have no copy. -/
def unrecorded (source : Context) (copies : Copies) : List Nat :=
  (List.range source.heap.slots.size).filter
    fun identity => !copies.contains identity

theorem length_unrecorded_insert {copies : Copies} {pin : Pin} {object : Object}
    (hnew : ¬copies.contains identity = true)
    (hobject : source.heap.get? ⟨identity⟩ = some object) :
    (unrecorded source (copies.insert identity pin)).length <
      (unrecorded source copies).length := by
  have hfilter : unrecorded source (copies.insert identity pin) =
      (unrecorded source copies).filter fun other => other ≠ identity := by
    simp only [unrecorded]
    rw [List.filter_filter]
    refine List.filter_congr fun other _ => Bool.eq_iff_iff.2 ?_
    simp [Copies.contains_insert, ← Bool.not_eq_true]
  have hlt : identity < source.heap.slots.size := by
    obtain ⟨entry, hentry, -⟩ := Heap.objectIn_eq_some_iff.1 hobject
    exact (Array.getElem?_eq_some_iff.1 hentry).1
  rw [hfilter, List.length_filter_lt_length_iff_exists]
  refine ⟨identity, List.mem_filter.2 ⟨List.mem_range.2 hlt, ?_⟩, by simp⟩
  rw [Bool.not_eq_true] at hnew
  rw [hnew]
  rfl

/-- The root has its image, every copy made since `t₀` is busy, waits, or is
filled, and so many steps are enough for what is still to come. -/
structure Underway (source : Context) (settings : TransferSettings)
    (t₀ : Transfer) (root rootImage : Value) (busy : Option Nat) (steps : Nat)
    (t : Transfer) : Prop where
  start : Sound source settings t₀
  rooted : t.Image root rootImage
  grown : Grown source settings t₀ t
  engaged : ∀ identity ∈ busy,
    t.copies.contains identity = true ∧ ¬t₀.copies.contains identity = true
  waiting : ∀ filling ∈ t.fillings, Waiting source settings t filling
  fresh : ∀ filling ∈ t.fillings,
    ¬t₀.copies.contains filling.identity = true ∧ filling.identity ∉ busy
  distinct : (t.fillings.map Filling.identity).Nodup
  filled : ∀ identity, ¬t₀.copies.contains identity = true →
    t.copies.contains identity = true →
    identity ∈ busy ∨ identity ∈ t.fillings.map Filling.identity ∨
      Filled source settings t identity
  budget : t.fillings.length + (unrecorded source t.copies).length ≤ steps

section Underway

variable {root rootImage : Value} {busy : Option Nat} {steps : Nat}

theorem Sound.underway (h : Sound source settings t)
    (hfillings : t.fillings = []) :
    Underway source settings t .nil .nil none source.heap.slots.size t where
  start := h
  rooted := .plain rfl nofun
  grown := .refl h
  engaged := nofun
  waiting := by
    rw [hfillings]
    exact nofun
  fresh := by
    rw [hfillings]
    exact nofun
  distinct := by
    rw [hfillings]
    exact List.nodup_nil
  filled := fun _ hnot hcontains => absurd hcontains hnot
  budget := by
    have hlength :=
      List.length_filter_le (fun identity => !t.copies.contains identity)
        (List.range source.heap.slots.size)
    rw [List.length_range] at hlength
    rw [hfillings, List.length_nil, Nat.zero_add]
    exact hlength

/-- The copies that are not busy stay as they are. -/
theorem Underway.transport
    (h : Underway source settings t₀ root rootImage busy steps t)
    (hcopies : t'.copies = t.copies) (hfillings : t'.fillings = t.fillings)
    (hgrown : Grown source settings t₀ t') (hpinned : t'.Remembers t)
    (hglobals : t'.dest.globals = t.dest.globals)
    (hparts : ∀ identity, identity ∉ busy → ∀ handle ∈ t.parts identity,
      t'.dest.heap.get? handle = t.dest.heap.get? handle) :
    Underway source settings t₀ root rootImage busy steps t' where
  start := h.start
  rooted := h.rooted.mono hpinned
  grown := hgrown
  engaged := hcopies ▸ h.engaged
  waiting := by
    intro filling hfilling
    rw [hfillings] at hfilling
    exact (h.waiting filling hfilling).transport (by rw [hcopies]) (hpinned _)
      (hparts _ (h.fresh filling hfilling).2)
  fresh := hfillings ▸ h.fresh
  distinct := hfillings ▸ h.distinct
  filled := by
    intro identity hnot hcontains
    rw [hcopies] at hcontains
    rw [hfillings]
    by_cases hbusy : identity ∈ busy
    · exact Or.inl hbusy
    · refine (h.filled identity hnot hcontains).imp_right
        (Or.imp_right fun hfilled => ?_)
      exact hfilled.transport hpinned hglobals (hparts identity hbusy)
  budget := by
    rw [hcopies, hfillings]
    exact h.budget

theorem Grown.withStack (h : Grown source settings t₀ t) {stack : Array Value}
    (hnamed : ∀ value ∈ stack.toList, t.dest.Names value)
    (hstack : t₀.dest.stack.toList <+: stack.toList) :
    Grown source settings t₀ { t with dest := { t.dest with stack } } where
  sound := h.sound.withStack hnamed
  keeps := ⟨h.keeps.globals, h.keeps.frames, hstack, h.keeps.pinned,
    h.keeps.objects⟩
  copies := h.copies
  fresh := h.fresh

theorem Underway.withStack
    (h : Underway source settings t₀ root rootImage busy steps t)
    {stack : Array Value} (hnamed : ∀ value ∈ stack.toList, t.dest.Names value)
    (hstack : t₀.dest.stack.toList <+: stack.toList) :
    Underway source settings t₀ root rootImage busy steps
      { t with dest := { t.dest with stack } } :=
  h.transport rfl rfl (h.grown.withStack hnamed hstack)
    (fun _ _ hcopy => hcopy) rfl fun _ _ _ _ => rfl

/-- One new object changes and keeps its kind. -/
theorem Grown.update (h : Grown source settings t₀ t) {stack : Array Value}
    {handle : Handle} {f : Object → Object}
    (hnamed : ∀ value ∈ stack.toList, t.dest.Names value)
    (hstack : t₀.dest.stack.toList <+: stack.toList)
    (hfresh : ¬t₀.dest.Live handle)
    (hkind : Object.SameKind (t.dest.heap.get? handle)
      ((t.dest.heap.get? handle).map f))
    (hholds : ∀ object, t.dest.heap.get? handle = some object →
      t.dest.Holds (f object)) :
    Grown source settings t₀
      { t with
        dest := { t.dest with
          stack, heap := t.dest.heap.update handle f } } where
  sound := h.sound.transport
    ((h.sound.wellFormed.withStack hnamed).updated hkind hholds)
    h.sound.trusted (fun _ _ hvalue => hvalue)
    fun _ other _ => hkind.update other
  keeps := by
    refine ⟨h.keeps.globals, h.keeps.frames, hstack, h.keeps.pinned,
      fun other hlive => ?_⟩
    have hne : other ≠ handle := by
      rintro rfl
      exact hfresh hlive
    exact (Heap.get?_update_of_ne hne).trans (h.keeps.objects other hlive)
  copies := h.copies
  fresh := by
    intro identity hnot other hmem
    have hshaped := h.sound.shaped identity (contains_of_mem_parts_dest hmem)
    let changed : Transfer :=
      { t with
        dest := { t.dest with stack, heap := t.dest.heap.update handle f } }
    have hchanged : Shaped source settings changed identity ∧
        changed.parts identity = t.parts identity :=
      hshaped.transport (fun _ hcopy => hcopy) fun other _ => hkind.update other
    exact h.fresh identity hnot other (hchanged.2 ▸ hmem)

/-- A part of the busy copy changes and keeps its kind. -/
theorem Underway.update
    (h : Underway source settings t₀ root rootImage (some identity) steps t)
    {stack : Array Value} {handle : Handle} {f : Object → Object}
    (hnamed : ∀ value ∈ stack.toList, t.dest.Names value)
    (hstack : t₀.dest.stack.toList <+: stack.toList)
    (hpart : handle ∈ t.parts identity)
    (hkind : Object.SameKind (t.dest.heap.get? handle)
      ((t.dest.heap.get? handle).map f))
    (hholds : ∀ object, t.dest.heap.get? handle = some object →
      t.dest.Holds (f object)) :
    Underway source settings t₀ root rootImage (some identity) steps
      { t with
        dest := { t.dest with
          stack, heap := t.dest.heap.update handle f } } := by
  have hfresh := h.grown.fresh identity (h.engaged identity rfl).2 handle hpart
  refine h.transport rfl rfl (h.grown.update hnamed hstack hfresh hkind hholds)
    (fun _ _ hcopy => hcopy)
    rfl fun other hbusy part hmem => Heap.get?_update_of_ne ?_
  rintro rfl
  exact hbusy (congrArg some
    (h.grown.sound.separate identity other part hpart hmem))

/-- One copy more is recorded, and it waits. -/
theorem Underway.queued
    (h : Underway source settings t₀ root rootImage busy steps t)
    (hgrown : Grown source settings t t') {filling : Filling}
    (hnew : ¬t.copies.contains filling.identity = true)
    (hcopies : t'.copies = t.copies.insert filling.identity filling.pin)
    (hfillings : t'.fillings = filling :: t.fillings)
    (hwaiting : Waiting source settings t' filling) :
    Underway source settings t₀ root rootImage busy steps t' where
  start := h.start
  rooted := h.rooted.mono hgrown.copies
  grown := h.grown.trans h.grown.sound hgrown
  engaged := fun identity hbusy =>
    ⟨hgrown.contains h.grown.sound (h.engaged identity hbusy).1,
      (h.engaged identity hbusy).2⟩
  waiting := by
    intro other hother
    rw [hfillings] at hother
    rcases List.mem_cons.1 hother with rfl | hother
    · exact hwaiting
    · have hold := h.waiting other hother
      have hne : other.identity ≠ filling.identity :=
        fun heq => hnew (heq ▸ hold.contains)
      refine hold.transport ?_ (hgrown.copies _) fun _ =>
        hgrown.get?_of_mem_parts h.grown.sound
      rw [hcopies, Copies.find?_insert, if_neg hne]
  fresh := by
    intro other hother
    rw [hfillings] at hother
    rcases List.mem_cons.1 hother with rfl | hother
    · exact ⟨fun hcontains => hnew (h.grown.contains h.start hcontains),
        fun hbusy => hnew (h.engaged _ hbusy).1⟩
    · exact h.fresh other hother
  distinct := by
    rw [hfillings, List.map_cons, List.nodup_cons]
    refine ⟨fun hmem => ?_, h.distinct⟩
    obtain ⟨other, hother, heq⟩ := List.mem_map.1 hmem
    exact hnew (heq ▸ (h.waiting other hother).contains)
  filled := by
    intro identity hnot hcontains
    rw [hcopies, Copies.contains_insert] at hcontains
    rw [hfillings, List.map_cons]
    rcases hcontains with rfl | hcontains
    · exact Or.inr (Or.inl List.mem_cons_self)
    · refine (h.filled identity hnot hcontains).imp_right
        (Or.imp ?_ fun hfilled => ?_)
      · exact List.mem_cons_of_mem _
      · exact hfilled.transport hgrown.copies hgrown.keeps.globals
          fun _ => hgrown.get?_of_mem_parts h.grown.sound
  budget := by
    have hlt : (unrecorded source t'.copies).length <
        (unrecorded source t.copies).length := by
      rw [hcopies]
      cases hwaiting.shaped with
      | table hsource => exact length_unrecorded_insert hnew hsource
      | function hsource => exact length_unrecorded_insert hnew hsource
    have hbudget := h.budget
    rw [hfillings, List.length_cons]
    omega

/-- Pushing an image may add one copy, which waits. -/
theorem Underway.pushed
    (h : Underway source settings t₀ root rootImage busy steps t)
    {value : Value} (hpushed : Pushed source settings value t t') :
    Underway source settings t₀ root rootImage busy steps t' := by
  have hgrown := hpushed.grown
  cases hpushed.queued with
  | same hcopies hfillings =>
    exact h.transport hcopies hfillings (h.grown.trans h.grown.sound hgrown)
      hgrown.copies hgrown.keeps.globals fun _ _ _ =>
        hgrown.get?_of_mem_parts h.grown.sound
  | more hnew hcopies hfillings hwaiting =>
    exact h.queued hgrown hnew hcopies hfillings hwaiting

end Underway

end Isolate.Transfer
