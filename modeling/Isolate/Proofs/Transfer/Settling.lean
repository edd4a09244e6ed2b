import Isolate.Proofs.Transfer.Contents

/-!
# Settling a transfer

Filling one copy is a run over its bindings or upvalues, and settling is a run
over the copies that wait.  A copy that succeeds leaves every new copy filled
and the image of its value on the stack, and one that fails leaves the stack as
it was.
-/

namespace Isolate.Transfer

variable {source : Context} {settings : TransferSettings} {t t' t₀ : Transfer}
  {identity : Nat}

/-! ## Queues -/

theorem Sound.withFillings (h : Sound source settings t)
    (fillings : List Filling) : Sound source settings { t with fillings } where
  wellFormed := h.wellFormed
  trusted := h.trusted
  shaped := fun identity hcontains =>
    Twin.transport (h.shaped identity hcontains) (fun _ hcopy => hcopy)
      (fun _ _ => rfl) (fun _ _ => id) fun _ _ _ => id
  separate := h.separate

theorem Grown.withFillings (h : Grown source settings t₀ t)
    (fillings : List Filling) : Grown source settings t₀ { t with fillings } :=
  ⟨h.sound.withFillings fillings, h.keeps, h.copies, h.fresh⟩

section Underway

variable {root rootImage : Value} {busy : Option Nat} {steps : Nat}

/-- The copy that was queued last becomes the busy one. -/
theorem Underway.take {filling : Filling} {rest : List Filling}
    (h : Underway source settings t₀ root rootImage none (steps + 1) t)
    (hfillings : t.fillings = filling :: rest) :
    Underway source settings t₀ root rootImage (some filling.identity) steps
      { t with fillings := rest } where
  start := h.start
  rooted := h.rooted.mono fun _ _ hcopy => hcopy
  grown := h.grown.withFillings rest
  engaged := by
    rintro _ ⟨⟩
    have hmem : filling ∈ t.fillings := hfillings ▸ List.mem_cons_self
    exact ⟨(h.waiting filling hmem).contains, (h.fresh filling hmem).1⟩
  waiting := by
    intro other hother
    have hmem : other ∈ t.fillings :=
      hfillings ▸ List.mem_cons_of_mem filling hother
    exact (h.waiting other hmem).transport rfl (fun _ hcopy => hcopy)
      fun _ _ => rfl
  fresh := by
    intro other hother
    have hmem : other ∈ t.fillings :=
      hfillings ▸ List.mem_cons_of_mem filling hother
    refine ⟨(h.fresh other hmem).1, fun heq => ?_⟩
    have hdistinct := h.distinct
    rw [hfillings, List.map_cons, List.nodup_cons] at hdistinct
    exact hdistinct.1
      (List.mem_map.2 ⟨other, hother, (Option.some.inj heq).symm⟩)
  distinct := by
    have hdistinct := h.distinct
    rw [hfillings, List.map_cons, List.nodup_cons] at hdistinct
    exact hdistinct.2
  filled := by
    intro identity hnot hcontains
    rcases h.filled identity hnot hcontains with hbusy | hqueued | hfilled
    · cases hbusy
    · rw [hfillings, List.map_cons] at hqueued
      rcases List.mem_cons.1 hqueued with rfl | hqueued
      · exact Or.inl rfl
      · exact Or.inr (Or.inl hqueued)
    · exact Or.inr
        (Or.inr (hfilled.transport (fun _ _ hcopy => hcopy) rfl fun _ _ => rfl))
  budget := by
    have hbudget := h.budget
    rw [hfillings, List.length_cons] at hbudget
    change rest.length + (unrecorded source t.copies).length ≤ steps
    omega

/-- The busy copy is filled. -/
theorem Underway.finished
    (h : Underway source settings t₀ root rootImage (some identity) steps t)
    (hfilled : Filled source settings t identity) :
    Underway source settings t₀ root rootImage none steps t where
  start := h.start
  rooted := h.rooted
  grown := h.grown
  engaged := nofun
  waiting := h.waiting
  fresh := fun filling hfilling => ⟨(h.fresh filling hfilling).1, nofun⟩
  distinct := h.distinct
  filled := by
    intro other hnot hcontains
    rcases h.filled other hnot hcontains with hbusy | hothers
    · cases Option.some.inj hbusy
      exact Or.inr (Or.inr hfilled)
    · exact Or.inr hothers
  budget := h.budget

theorem Underway.ends_pushImage
    (h : Underway source settings t₀ root rootImage busy steps t)
    (hsource : source.WellFormed)
    (hchunks : Chunk.Cache.Distinguished (source.Travelling settings))
    {value : Value} (hvalue : source.Names value) :
    Ends (pushImage source settings value t)
      (fun _ t' => Underway source settings t₀ root rootImage busy steps t' ∧
        Grown source settings t t' ∧
        ∃ image, t'.Image value image ∧ t'.dest.stack = t.dest.stack.push image)
      fun _ t' => Grown source settings t₀ t' :=
  (Transfer.ends_pushImage h.grown.sound hsource hchunks hvalue).mono
    (fun _ _ hpushed => ⟨h.pushed hpushed, hpushed.grown, hpushed.image⟩)
    fun _ _ hgrown => h.grown.trans h.grown.sound hgrown

end Underway

/-! ## Bindings -/

theorem getElem?_push_of_some {α : Type} {xs : Array α} {i : Nat} {x y : α}
    (h : xs[i]? = some x) : (xs.push y)[i]? = some x := by
  obtain ⟨hlt, -⟩ := Array.getElem?_eq_some_iff.1 h
  rw [Array.getElem?_push, if_neg (Nat.ne_of_lt hlt)]
  exact h

section Bindings

variable {root rootImage : Value} {steps : Nat} {base : Array Value}
  {handle copy : Handle} {pin : Pin} {table : Table}

/-- A table is being filled and has the images of the bindings that are done. -/
structure Binding (source : Context) (settings : TransferSettings)
    (t₀ : Transfer) (root rootImage : Value) (identity steps : Nat)
    (base : Array Value) (copy : Handle) (done : List (Key × Value))
    (t : Transfer) : Prop where
  underway : Underway source settings t₀ root rootImage (some identity) steps t
  stack : t.dest.stack = base.push (.table copy)
  recorded : t.copyOf? identity = some (.table copy)
  binds : ∃ copied,
    t.dest.heap.get? copy = some (.table copied) ∧ t.Binds done copied

/-- One binding is copied. -/
theorem Binding.ends_round {done rest : List (Key × Value)} {key : Key}
    {value : Value}
    (h : Binding source settings t₀ root rootImage handle.index steps base copy
      done t) (hbase : t₀.dest.stack.toList <+: base.toList)
    (hsource : source.WellFormed)
    (hchunks : Chunk.Cache.Distinguished (source.Travelling settings))
    (htable : source.heap.get? handle = some (.table table))
    (hentries : table.entries = done ++ (key, value) :: rest) :
    Ends ((do
        pushImage source settings key.toValue
        pushImage source settings value
        onDest (Context.rawSet (base.size + 1 : Nat)) : Copying Unit) t)
      (fun _ t' =>
        Binding source settings t₀ root rootImage handle.index steps base copy
          (done ++ [(key, value)]) t')
      fun _ t' => Grown source settings t₀ t' := by
  have hentry : (key, value) ∈ table.entries :=
    hentries ▸ List.mem_append_right done List.mem_cons_self
  obtain ⟨hcanonical, hkeyNames, hvalueNames⟩ :=
    hsource.objects _ _ htable key value hentry
  refine (h.underway.ends_pushImage hsource hchunks hkeyNames).bind
    fun _ t₁ ht₁ => ?_
  obtain ⟨hunderway₁, hgrown₁, keyImage, hkeyImage, hstack₁⟩ := ht₁
  refine (hunderway₁.ends_pushImage hsource hchunks hvalueNames).bind
    fun _ t₂ ht₂ => ?_
  obtain ⟨hunderway₂, hgrown₂, valueImage, hvalueImage, hstack₂⟩ := ht₂
  obtain ⟨key', hkey', rfl⟩ := hkeyImage.key? hcanonical
  have hgrown := hgrown₁.trans hunderway₁.grown.sound hgrown₂
  obtain ⟨copied, hobject, hbinds⟩ := h.binds
  have hpart : copy ∈ t.parts handle.index :=
    parts_of_table h.recorded ▸ List.mem_cons_self
  have hobject₂ : t₂.dest.heap.get? copy = some (.table copied) := by
    calc
      t₂.dest.heap.get? copy = t.dest.heap.get? copy :=
        hgrown.get?_of_mem_parts h.underway.grown.sound hpart
      _ = some (.table copied) := hobject
  have hrecorded₂ := hgrown.copies _ _ h.recorded
  have hpart₂ : copy ∈ t₂.parts handle.index :=
    parts_of_table hrecorded₂ ▸ List.mem_cons_self
  have hstack : t₂.dest.stack =
      ((base.push (.table copy)).push key'.toValue).push valueImage := by
    calc
      t₂.dest.stack = t₁.dest.stack.push valueImage := hstack₂
      _ = (t.dest.stack.push key'.toValue).push valueImage := by rw [hstack₁]
      _ = ((base.push (.table copy)).push key'.toValue).push valueImage := by
        rw [h.stack]
  have hslot : t₂.dest.stack[base.size]? = some (.table copy) := by
    rw [hstack]
    exact getElem?_push_of_some (getElem?_push_of_some Array.getElem?_push_size)
  have hset := (hbinds.mono hgrown.copies).set hunderway₂.grown.sound hentries
    (hkeyImage.mono hgrown₂.copies) hvalueImage
  have hs₂ := hunderway₂.grown.sound
  have hbelow : (base.push (.table copy)).toList <+: t₂.dest.stack.toList := by
    rw [hstack]
    exact (Context.toList_prefix_push _ _).trans
      (Context.toList_prefix_push _ _)
  have hholds : t₂.dest.Holds (.table (copied.set key' valueImage)) := by
    have hold : t₂.dest.Holds (.table copied) :=
      hs₂.wellFormed.objects _ _ hobject₂
    refine hold.set (fun _ => ⟨hkey', ?_⟩) (hs₂.names_of_image hvalueImage)
    exact hs₂.names_of_image (hkeyImage.mono hgrown₂.copies)
  refine ends_onDest_of_eq (Context.rawSet_eq hslot hstack hobject₂ hkey')
    ⟨?_, rfl, ?_, ?_⟩
  · refine hunderway₂.update (fun _ => hs₂.wellFormed.names_of_below hbelow)
      (hbase.trans (Context.toList_prefix_push _ _)) hpart₂ ?_
      fun object hfound => ?_
    · rw [hobject₂]
      exact ⟨_, rfl⟩
    · cases hobject₂.symm.trans hfound
      exact hholds
  · exact hrecorded₂
  · refine ⟨copied.set key' valueImage,
      Context.get?_storeKey hobject₂ key' valueImage, ?_⟩
    exact hset.mono fun _ _ hcopy => hcopy

theorem ends_fillBindings
    (h : Underway source settings t₀ root rootImage (some handle.index) steps t)
    (hsource : source.WellFormed)
    (hchunks : Chunk.Cache.Distinguished (source.Travelling settings))
    (hpin : t.copies.find? handle.index = some pin)
    (htwin : Twin source settings t handle.index
      (fun _ copied => copied.entries = []) fun _ _ => False)
    (hbase : t₀.dest.stack.toList <+: t.dest.stack.toList) :
    Ends (fillBindings source settings handle pin t)
      (fun _ t' => Underway source settings t₀ root rootImage none steps t' ∧
        t'.dest.stack = t.dest.stack)
      fun _ t' => Grown source settings t₀ t' := by
  cases htwin with
  | function _ _ _ _ hfalse => exact hfalse.elim
  | @table table copied copy htable hcopy hobject hempty =>
    obtain ⟨found, hfound, hpinned⟩ := Option.bind_eq_some_iff.1 hcopy
    cases hpin.symm.trans hfound
    simp only [fillBindings]
    rw [Context.tableOf_eq_ok_iff.2 htable]
    refine ends_bind.2 (ends_onDest_of_eq (Context.pushPinned_eq hpinned) ?_)
    rw [ends_bind, ends_get]
    have hnames : t.dest.Names (.table copy) := ⟨copied, hobject⟩
    have hstart : Binding source settings t₀ root rootImage handle.index steps
        t.dest.stack copy []
        { t with
          dest := { t.dest with stack := t.dest.stack.push (.table copy) } } :=
      ⟨h.withStack (h.grown.sound.wellFormed.push hnames).stack
        (hbase.trans (Context.toList_prefix_push _ _)), rfl, hcopy, copied,
        hobject, .nil hempty⟩
    refine Ends.bind (ends_forM hstart
      (fun done entry rest t₁ hentries ht₁ => ?_) (List.nil_append _).symm)
      fun _ t₂ ht₂ => ?_
    · obtain ⟨key, value⟩ := entry
      dsimp only [Context.height]
      rw [Array.size_push]
      exact ht₁.ends_round hbase hsource hchunks htable hentries
    · refine ends_onDest_of_eq (Context.pop_one_eq ht₂.stack) ⟨?_, rfl⟩
      obtain ⟨copied, hobject, hbinds⟩ := ht₂.binds
      have hnamed :
          ∀ {value}, value ∈ t.dest.stack.toList → t₂.dest.Names value :=
        ht₂.underway.grown.sound.wellFormed.names_of_below
          (ht₂.stack ▸ Context.toList_prefix_push _ _)
      refine (ht₂.underway.withStack (fun _ => hnamed) hbase).finished
        (.table htable ht₂.recorded hobject ?_)
      exact hbinds.mono fun _ _ hcopy => hcopy

end Bindings

/-! ## Captured variables -/

section Captured

variable {root rootImage : Value} {steps : Nat} {base : Array Value}
  {handle copy : Handle} {pin : Pin} {closure : Closure}

/-- A function is being filled and has its first upvalues. -/
structure Capturing (source : Context) (settings : TransferSettings)
    (t₀ : Transfer) (root rootImage : Value) (handle : Handle) (steps : Nat)
    (base : Array Value) (copy : Handle) (closure : Closure) (count : Nat)
    (t : Transfer) : Prop where
  underway : Underway source settings t₀ root rootImage
    (some handle.index) steps t
  stack : t.dest.stack = base.push (.function copy)
  recorded : t.copyOf? handle.index = some (.function copy)
  captures : ∃ copied, t.dest.heap.get? copy = some (.closure copied) ∧
    Counterpart settings t.dest closure copied ∧
    Captures source t (.function handle) count copied

/-- What one upvalue becomes is put on the stack. -/
theorem Capturing.ends_place {i : Nat} (name : String) {value : Value}
    (h : Capturing source settings t₀ root rootImage handle steps base copy
      closure i t)
    (hbase : t₀.dest.stack.toList <+: base.toList) (hsource : source.WellFormed)
    (hchunks : Chunk.Cache.Distinguished (source.Travelling settings))
    (hvalue : source.Names value) :
    Ends ((if (i + 1 = 1 && source.bindsGlobals name value) = true then
        onDest Context.pushGlobals else pushImage source settings value :
        Copying Unit) t)
      (fun _ t' =>
        Underway source settings t₀ root rootImage
            (some handle.index) steps t' ∧
          Grown source settings t t' ∧
          ∃ image, Placed source t' i name value image ∧
            t'.dest.stack = t.dest.stack.push image)
      fun _ t' => Grown source settings t₀ t' := by
  have hplace : (decide (i + 1 = 1) && source.bindsGlobals name value) = true ↔
      i = 0 ∧ source.bindsGlobals name value = true := by
    simp
  simp only [Placed]
  split
  · next hglobals =>
    have hs := h.underway.grown.sound
    have hpushed := hs.wellFormed.push hs.wellFormed.globals
    refine ends_onDest_of_eq rfl
      ⟨h.underway.withStack hpushed.stack ?_, ?_, t.dest.globalsValue, ?_, rfl⟩
    · rw [h.stack]
      exact (hbase.trans (Context.toList_prefix_push _ _)).trans
        (Context.toList_prefix_push _ _)
    · exact (Grown.refl hs).withStack hpushed.stack
        (Context.toList_prefix_push _ _)
    · rw [if_pos (hplace.1 hglobals)]
      rfl
  · next hglobals =>
    rw [hplace] at hglobals
    simp only [if_neg hglobals]
    exact h.underway.ends_pushImage hsource hchunks hvalue

/-- What is on the stack becomes the value of the next cell. -/
theorem Capturing.ends_store {i : Nat} {name : String} {value image : Value}
    (h : Capturing source settings t₀ root rootImage handle steps base copy
      closure i t)
    (hbase : t₀.dest.stack.toList <+: base.toList) (hsource : source.WellFormed)
    (hclosure : source.heap.get? handle = some (.closure closure))
    (hupvalue : (source.upvalues (.function handle))[i]? = some (name, value))
    (hunderway : Underway source settings t₀ root rootImage
      (some handle.index) steps t')
    (hgrown : Grown source settings t t')
    (hplaced : Placed source t' i name value image)
    (hstack : t'.dest.stack = t.dest.stack.push image) :
    Ends (onDest (Context.setUpvalue (base.size + 1 : Nat) (i + 1)) t')
      (fun _ t'' =>
        Capturing source settings t₀ root rootImage handle steps base
            copy closure (i + 1) t'')
      fun _ t'' => Grown source settings t₀ t'' := by
  obtain ⟨copied, hobject, hcounterpart, hcaptures⟩ := h.captures
  have hparts := parts_of_function h.recorded hobject
  have hkept : ∀ part ∈ copy :: copied.cells.toList,
      t'.dest.heap.get? part = t.dest.heap.get? part := by
    intro part hpart
    exact hgrown.get?_of_mem_parts h.underway.grown.sound (hparts.symm ▸ hpart)
  have hcells := fun cell hcell => hkept cell (List.mem_cons_of_mem copy hcell)
  have hobject' : t'.dest.heap.get? copy = some (.closure copied) := by
    calc
      t'.dest.heap.get? copy = t.dest.heap.get? copy :=
        hkept copy List.mem_cons_self
      _ = some (.closure copied) := hobject
  have hrecorded' := hgrown.copies _ _ h.recorded
  rw [h.stack] at hstack
  have hslot : t'.dest.stack[base.size]? = some (.function copy) := by
    rw [hstack]
    exact getElem?_push_of_some Array.getElem?_push_size
  have hi : i < copied.cells.size := by
    rw [hcounterpart.size, ← hsource.length_upvalues hclosure]
    exact (List.getElem?_eq_some_iff.1 hupvalue).1
  have hmem : copied.cells[i] ∈ copied.cells.toList :=
    Array.getElem_mem_toList hi
  obtain ⟨old, hold⟩ := hcounterpart.cells _ hmem
  rw [← hcells _ hmem] at hold
  have hkind : Object.SameKind (t'.dest.heap.get? copied.cells[i])
      ((t'.dest.heap.get? copied.cells[i]).map fun _ => .cell image) := by
    rw [hold]
    exact ⟨image, rfl⟩
  have hwell := hunderway.grown.sound.wellFormed
  have hholds : t'.dest.Holds (.cell image) := by
    refine hwell.stack image ?_
    rw [hstack, Array.toList_push]
    exact List.mem_append_right _ List.mem_cons_self
  obtain ⟨stored, hset⟩ := Context.setUpvalue_eq hslot hstack hobject'
    (Array.getElem?_eq_getElem hi) hold
  refine ends_onDest_of_eq hset ⟨?_, rfl, hrecorded', copied, ?_, ?_, ?_⟩
  · refine hunderway.update (fun _ => hwell.names_of_below ?_)
      (hbase.trans (Context.toList_prefix_push _ _)) ?_ hkind fun _ _ => hholds
    · rw [hstack]
      exact Context.toList_prefix_push _ _
    · rw [parts_of_function hrecorded' hobject']
      exact List.mem_cons_of_mem copy hmem
  · refine (Heap.get?_update_of_ne ?_).trans hobject'
    intro heq
    rw [← heq, hobject'] at hold
    cases hold
  · refine (hcounterpart.transport
      fun cell hcell => .of_eq (hcells cell hcell)).transport ?_
    exact fun cell _ => hkind.update cell
  · exact (hcaptures.mono hgrown.copies hgrown.keeps.globals hcells).store
      hcounterpart.nodup hi (Option.isSome_of_mem hold) hupvalue hplaced _

/-- The upvalues from one on are copied. -/
theorem Capturing.ends_fill {i : Nat} {rest : List (String × Value)}
    (h : Capturing source settings t₀ root rootImage handle steps base copy
      closure i t)
    (hbase : t₀.dest.stack.toList <+: base.toList) (hsource : source.WellFormed)
    (hchunks : Chunk.Cache.Distinguished (source.Travelling settings))
    (hclosure : source.heap.get? handle = some (.closure closure))
    (hrest : (source.upvalues (.function handle)).drop i = rest) :
    Ends (fillCapturedFrom source settings (base.size + 1) (i + 1) rest t)
      (fun _ t' =>
        Capturing source settings t₀ root rootImage handle steps base
            copy closure closure.cells.size t')
      fun _ t' => Grown source settings t₀ t' := by
  induction rest generalizing i t with
  | nil =>
    have hle : closure.cells.size ≤ i := by
      rw [← hsource.length_upvalues hclosure]
      exact List.drop_eq_nil_iff.1 hrest
    obtain ⟨copied, hobject, hcounterpart, hcaptures⟩ := h.captures
    refine ⟨h.underway, h.stack, h.recorded, copied, hobject, hcounterpart, ?_⟩
    exact fun j name value hj =>
      hcaptures j name value (Nat.lt_of_lt_of_le hj hle)
  | cons upvalue rest ih =>
    obtain ⟨name, value⟩ := upvalue
    have hupvalue :
        (source.upvalues (.function handle))[i]? = some (name, value) := by
      rw [← List.head?_drop, hrest]
      rfl
    have hdrop : (source.upvalues (.function handle)).drop (i + 1) = rest := by
      rw [← List.drop_drop, hrest]
      rfl
    obtain ⟨cell, -, hcell, -⟩ :=
      (hsource.upvalues_getElem? hclosure).1 hupvalue
    have hplace :=
      h.ends_place name hbase hsource hchunks (hsource.objects _ _ hcell)
    rw [fillCapturedFrom]
    dsimp only
    split
    · next hglobals =>
      rw [if_pos hglobals] at hplace
      refine hplace.bind fun _ t₁ ⟨hunderway, hgrown, image, hplaced, hstack⟩ =>
        ?_
      refine (h.ends_store hbase hsource hclosure hupvalue hunderway hgrown
        hplaced hstack).bind fun _ t₂ ht₂ => ih ht₂ hdrop
    · next hglobals =>
      rw [if_neg hglobals] at hplace
      refine hplace.bind fun _ t₁ ⟨hunderway, hgrown, image, hplaced, hstack⟩ =>
        ?_
      refine (h.ends_store hbase hsource hclosure hupvalue hunderway hgrown
        hplaced hstack).bind fun _ t₂ ht₂ => ih ht₂ hdrop

theorem ends_fillCaptured
    (h : Underway source settings t₀ root rootImage (some handle.index) steps t)
    (hsource : source.WellFormed)
    (hchunks : Chunk.Cache.Distinguished (source.Travelling settings))
    (hpin : t.copies.find? handle.index = some pin)
    (htwin : Twin source settings t handle.index (fun _ _ => False)
      fun _ _ => True)
    (hbase : t₀.dest.stack.toList <+: t.dest.stack.toList) :
    Ends (fillCaptured source settings (.function handle) pin t)
      (fun _ t' => Underway source settings t₀ root rootImage none steps t' ∧
        t'.dest.stack = t.dest.stack)
      fun _ t' => Grown source settings t₀ t' := by
  cases htwin with
  | table _ _ _ hfalse => exact hfalse.elim
  | @function closure copied copy hclosure hcopy hobject hcounterpart =>
    obtain ⟨found, hfound, hpinned⟩ := Option.bind_eq_some_iff.1 hcopy
    cases hpin.symm.trans hfound
    simp only [fillCaptured]
    refine ends_bind.2 (ends_onDest_of_eq (Context.pushPinned_eq hpinned) ?_)
    rw [ends_bind, ends_get]
    have hnames : t.dest.Names (.function copy) := ⟨copied, hobject⟩
    have hstart : Capturing source settings t₀ root rootImage handle steps
        t.dest.stack copy closure 0
        { t with
          dest := { t.dest with
            stack := t.dest.stack.push (.function copy) } } := by
      refine ⟨h.withStack (h.grown.sound.wellFormed.push hnames).stack
        (hbase.trans (Context.toList_prefix_push _ _)), rfl, hcopy, copied,
        hobject, ?_, nofun⟩
      exact hcounterpart.transport fun _ _ => .of_eq rfl
    dsimp only [Context.height]
    rw [Array.size_push]
    refine (hstart.ends_fill hbase hsource hchunks hclosure rfl).bind
      fun _ t₂ ht₂ => ?_
    refine ends_onDest_of_eq (Context.pop_one_eq ht₂.stack) ⟨?_, rfl⟩
    obtain ⟨copied, hobject, hcounterpart, hcaptures⟩ := ht₂.captures
    have hnamed :
        ∀ {value}, value ∈ t.dest.stack.toList → t₂.dest.Names value :=
      ht₂.underway.grown.sound.wellFormed.names_of_below
        (ht₂.stack ▸ Context.toList_prefix_push _ _)
    refine (ht₂.underway.withStack (fun _ => hnamed) hbase).finished
      (.function hclosure ht₂.recorded hobject ?_ ?_)
    · exact hcounterpart.transport fun _ _ => .of_eq rfl
    · exact hcaptures.mono (fun _ _ hcopy => hcopy) rfl fun _ _ => rfl

end Captured

/-! ## Settling -/

section Settling

variable {root rootImage : Value} {steps : Nat}

theorem ends_fill {filling : Filling}
    (h : Underway source settings t₀ root rootImage
      (some filling.identity) steps t)
    (hsource : source.WellFormed)
    (hchunks : Chunk.Cache.Distinguished (source.Travelling settings))
    (hwaiting : Waiting source settings t filling)
    (hbase : t₀.dest.stack.toList <+: t.dest.stack.toList) :
    Ends (fill source settings filling t)
      (fun _ t' => Underway source settings t₀ root rootImage none steps t' ∧
        t'.dest.stack = t.dest.stack)
      fun _ t' => Grown source settings t₀ t' := by
  cases hwaiting with
  | table hpin htwin =>
    exact ends_fillBindings h hsource hchunks hpin htwin hbase
  | captured hpin htwin =>
    exact ends_fillCaptured h hsource hchunks hpin htwin hbase

/-- Every copy made since `t₀` is filled and none waits. -/
structure Settled (source : Context) (settings : TransferSettings)
    (t₀ t : Transfer) : Prop where
  grown : Grown source settings t₀ t
  idle : t.fillings = []
  filled : ∀ identity, ¬t₀.copies.contains identity = true →
    t.copies.contains identity = true → Filled source settings t identity

theorem nextFilling_of_nil (h : t.fillings = []) :
    nextFilling t = .ok none t := by
  obtain ⟨dest, copies, fillings, copied⟩ := t
  cases h
  rfl

theorem nextFilling_of_cons {filling : Filling} {rest : List Filling}
    (h : t.fillings = filling :: rest) :
    nextFilling t = .ok (some filling) { t with fillings := rest } := by
  obtain ⟨dest, copies, fillings, copied⟩ := t
  cases h
  rfl

theorem Underway.settled
    (h : Underway source settings t₀ root rootImage none steps t)
    (hidle : t.fillings = []) : Settled source settings t₀ t := by
  refine ⟨h.grown, hidle, fun identity hnot hcontains => ?_⟩
  rcases h.filled identity hnot hcontains with hbusy | hqueued | hfilled
  · cases hbusy
  · rw [hidle] at hqueued
    cases hqueued
  · exact hfilled

/-- As many steps as the invariant asks for settle the transfer. -/
theorem ends_settleWithin
    (h : Underway source settings t₀ root rootImage none steps t)
    (hsource : source.WellFormed)
    (hchunks : Chunk.Cache.Distinguished (source.Travelling settings))
    (hbase : t₀.dest.stack.toList <+: t.dest.stack.toList) :
    Ends (settleWithin source settings (steps + 1) t)
      (fun _ t' => Settled source settings t₀ t' ∧ t'.Image root rootImage ∧
        t'.dest.stack = t.dest.stack)
      fun _ t' => Grown source settings t₀ t' := by
  induction steps generalizing t with
  | zero =>
    have hbudget := h.budget
    have hidle : t.fillings = [] := List.length_eq_zero_iff.1 (by omega)
    simp only [settleWithin]
    rw [ends_bind, nextFilling_of_nil hidle]
    exact ⟨h.settled hidle, h.rooted, rfl⟩
  | succ steps ih =>
    simp only [settleWithin]
    rw [ends_bind]
    cases hfillings : t.fillings with
    | nil =>
      rw [nextFilling_of_nil hfillings]
      exact ⟨h.settled hfillings, h.rooted, rfl⟩
    | cons filling rest =>
      rw [nextFilling_of_cons hfillings]
      have hwaiting := h.waiting filling (hfillings ▸ List.mem_cons_self)
      have hwaiting' :
          Waiting source settings { t with fillings := rest } filling :=
        hwaiting.transport rfl (fun _ hcopy => hcopy) fun _ _ => rfl
      have hfill := ends_fill (h.take hfillings) hsource hchunks hwaiting' hbase
      refine hfill.bind fun _ t₁ ⟨hunderway, hstack⟩ => ?_
      rw [← hstack] at hbase
      refine (ih hunderway hbase).mono
        (fun _ t₂ ⟨hsettled, hrooted, hsame⟩ => ?_) fun _ _ hgrown => hgrown
      exact ⟨hsettled, hrooted, hsame.trans hstack⟩

end Settling

theorem truncateStack_of_prefix {c : Context} {stack : Array Value}
    (h : stack.toList <+: c.stack.toList) :
    (c.truncateStack stack.size).stack = stack := by
  obtain ⟨above, habove⟩ := h
  apply Array.toList_inj.1
  change (c.stack.shrink stack.size).toList = _
  rw [Array.toList_shrink, ← habove, List.take_left' Array.length_toList]

/-- A copy puts the image of the value on the stack and leaves every new copy
filled, or fails and leaves the stack as it was. -/
theorem ends_copy (h : Sound source settings t) (hidle : t.fillings = [])
    (hsource : source.WellFormed)
    (hchunks : Chunk.Cache.Distinguished (source.Travelling settings))
    {value : Value} (hvalue : source.Names value) :
    Ends (copy source settings value t)
      (fun _ t' => Settled source settings t t' ∧
        ∃ image, t'.Image value image ∧ t'.dest.stack = t.dest.stack.push image)
      fun _ t' => Grown source settings t t' ∧ t'.fillings = [] ∧
        t'.dest.stack = t.dest.stack := by
  have hsteps : Ends ((do
      pushImage source settings value
      settle source settings : Copying Unit) t)
      (fun _ t' => Settled source settings t t' ∧
        ∃ image, t'.Image value image ∧ t'.dest.stack = t.dest.stack.push image)
      fun _ t' => Grown source settings t t' := by
    refine ((h.underway hidle).ends_pushImage hsource hchunks hvalue).bind
      fun _ t₁ ht₁ => ?_
    obtain ⟨hunderway, hgrown, image, himage, hstack⟩ := ht₁
    have hrooted := { hunderway with rooted := himage }
    refine (ends_settleWithin hrooted hsource hchunks hgrown.keeps.stack).mono
      (fun _ t₂ ⟨hsettled, himage₂, hsame⟩ => ?_) fun _ _ hgrown => hgrown
    exact ⟨hsettled, image, himage₂, hsame.trans hstack⟩
  rw [copy_eq_restoring]
  refine ends_restoring (hsteps.mono (fun _ _ ht' => ht') fun e t' hgrown => ?_)
  have hstack : t'.dest.stack.shrink t.dest.stack.size = t.dest.stack :=
    truncateStack_of_prefix hgrown.keeps.stack
  have hsame :
      t.dest.stack.toList = (t'.dest.stack.shrink t.dest.stack.size).toList :=
    congrArg Array.toList hstack.symm
  have hnamed : ∀ value ∈ (t'.dest.stack.shrink t.dest.stack.size).toList,
      t'.dest.Names value := by
    rw [← hsame]
    exact fun _ => hgrown.sound.wellFormed.names_of_below hgrown.keeps.stack
  exact ⟨(hgrown.withFillings []).withStack hnamed (hsame ▸ List.prefix_refl _),
    rfl, hstack⟩

end Isolate.Transfer
