import Isolate.Proofs.Transfer.Traversal

/-!
# Filling on a walk

A walk that fills a copy comes to everything that its source leads to.  It
leaves what was on the stack, records what it comes to, and stops only at a
value that cannot be copied.
-/

namespace Isolate.Transfer

variable {source : Context} {settings : TransferSettings} {among : Value → Prop}
  {t t' t'' : Transfer} {c : Context} {identity : Nat} {value : Value}

/-! ## Progress -/

/-- A walk has gone on and left what was on the stack. -/
structure Passage (source : Context) (settings : TransferSettings)
    (among : Value → Prop) (t t' : Transfer) : Prop where
  traversing : Traversing source settings among t'
  onward : Onward t t'
  stack : t.dest.stack.toList <+: t'.dest.stack.toList

/-- A walk has gone on, and what it recorded waits. -/
structure Progress (source : Context) (settings : TransferSettings)
    (among : Value → Prop) (t t' : Transfer) : Prop where
  traversing : Traversing source settings among t'
  walked : Walked t t'
  stack : t.dest.stack.toList <+: t'.dest.stack.toList

/-- A walk has gone on and stopped at a value that cannot be copied. -/
structure Stops (source : Context) (settings : TransferSettings)
    (among : Value → Prop) (t : Transfer) (error : TransferError)
    (t' : Transfer) : Prop where
  passage : Passage source settings among t t'
  refused : ∃ value, among value ∧ source.Refuses settings value error

theorem Passage.trans (h : Passage source settings among t t')
    (h' : Passage source settings among t' t'') :
    Passage source settings among t t'' :=
  ⟨h'.traversing, h.onward.trans h'.onward, h.stack.trans h'.stack⟩

theorem Passage.stops (h : Passage source settings among t t')
    {error : TransferError} (h' : Stops source settings among t' error t'') :
    Stops source settings among t error t'' :=
  ⟨h.trans h'.passage, h'.refused⟩

theorem Progress.passage (h : Progress source settings among t t') :
    Passage source settings among t t' :=
  ⟨h.traversing, h.walked.toOnward, h.stack⟩

theorem Progress.refl (h : Traversing source settings among t) :
    Progress source settings among t t :=
  ⟨h, .refl t, List.prefix_refl _⟩

theorem Progress.trans (h : Progress source settings among t t')
    (h' : Progress source settings among t' t'') :
    Progress source settings among t t'' :=
  ⟨h'.traversing, h.walked.trans h'.walked, h.stack.trans h'.stack⟩

theorem Pushes.progress (h : Pushes source settings among value t t') :
    Progress source settings among t t' := by
  obtain ⟨image, -, hstack⟩ := h.image
  exact ⟨h.traversing, h.walked, hstack ▸ Context.toList_prefix_push _ _⟩

theorem Progress.stops (h : Progress source settings among t t')
    {error : TransferError} (h' : Stops source settings among t' error t'') :
    Stops source settings among t error t'' :=
  h.passage.stops h'

/-- A walk that pushes the image of one value more. -/
theorem Progress.ends_pushImage (h : Progress source settings among t t')
    (hsource : source.Intact) (hclosed : source.Closed among)
    (hvalue : among value) :
    Ends (pushImage source settings value t')
      (fun _ t'' => Pushes source settings among value t' t'')
      fun e t'' => Stops source settings among t e t'' := by
  refine (h.traversing.ends_pushImage hsource hclosed hvalue).mono
    (fun _ _ hpushes => hpushes) fun e t'' ⟨heq, hrefused⟩ => ?_
  subst heq
  exact ⟨h.passage, value, hvalue, hrefused⟩

theorem exists_top_of_prefix {α : Type} {xs ys : Array α} {x : α}
    (h : (xs.push x).toList <+: ys.toList) :
    ∃ (rest : Array α) (top : α),
      ys = rest.push top ∧ xs.toList <+: rest.toList := by
  have hlength := h.length_le
  obtain ⟨rest, top, rfl⟩ : ∃ (rest : Array α) (top : α),
      ys = rest.push top := by
    refine Array.eq_push_of_size_ne_zero fun hsize => ?_
    simp [hsize] at hlength
  refine ⟨rest, top, rfl, ?_⟩
  rw [Array.toList_push, Array.toList_push, List.prefix_concat_iff] at h
  rcases h with heq | hprefix
  · exact (List.append_inj_left' heq rfl) ▸ List.prefix_refl _
  · exact (List.prefix_append _ _).trans hprefix

theorem getElem?_of_below {α : Type} {xs ys : Array α} {i : Nat} {x : α}
    (h : xs.toList <+: ys.toList) (hx : xs[i]? = some x) : ys[i]? = some x := by
  obtain ⟨above, habove⟩ := h
  rw [← Array.getElem?_toList] at hx ⊢
  rw [← habove, List.getElem?_append_left (List.getElem?_eq_some_iff.1 hx).1]
  exact hx

/-- What an action on the destination does to the walk. -/
theorem Traversing.progress_of_eq
    (h : Traversing source settings among t) {α : Type}
    {action : Action α} (hconfined : Context.Confined action) {a : α}
    (heq : action t.dest = .ok a c) (hc : c.Intact) :
    Traversing source settings among { t with dest := c } ∧
      Walked t { t with dest := c } := by
  have hsame := (hconfined t.dest).ok heq
  exact ⟨h.withDest hc hsame, .withDest hsame⟩

/-- One binding is copied into the table on top. -/
theorem Traversing.ends_round (h : Traversing source settings among t)
    (hsource : source.Intact) (hclosed : source.Closed among)
    {base : Array Value} {copy : Handle} {key : Key}
    (hstack : t.dest.stack = base.push (.table copy))
    (hcanonical : key.Canonical) (hkey : among key.toValue)
    (hvalue : among value) :
    Ends ((do
        pushImage source settings key.toValue
        pushImage source settings value
        onDest (Context.rawSet (base.size + 1 : Nat)) : Copying Unit) t)
      (fun _ t' => Progress source settings among t t' ∧
        t'.dest.stack = base.push (.table copy) ∧
        Carried source settings t' key.toValue ∧
        Carried source settings t' value)
      fun e t' => Stops source settings among t e t' := by
  refine ((Progress.refl h).ends_pushImage hsource hclosed hkey).bind
    fun _ t₁ h₁ => ?_
  refine (h₁.progress.ends_pushImage hsource hclosed hvalue).bind
    fun _ t₂ h₂ => ?_
  obtain ⟨keyImage, hkeyImage, hstack₁⟩ := h₁.image
  obtain ⟨valueImage, -, hstack₂⟩ := h₂.image
  obtain ⟨key', hkey', rfl⟩ := hkeyImage.key? hcanonical
  have hfull : t₂.dest.stack =
      ((base.push (.table copy)).push key'.toValue).push valueImage := by
    rw [hstack₂, hstack₁, hstack]
  have hslot : t₂.dest.stack[base.size]? = some (.table copy) := by
    rw [hfull]
    exact getElem?_push_of_some (getElem?_push_of_some Array.getElem?_push_size)
  obtain ⟨table, htable⟩ : t₂.dest.Names (.table copy) :=
    h₂.traversing.dest.stack _
      (Array.mem_toList_iff.2 (Array.mem_of_getElem? hslot))
  have hset := Context.rawSet_eq hslot hfull htable hkey'
  obtain ⟨hwalk, hwalked⟩ :=
    h₂.traversing.progress_of_eq (Context.elements_confined.rawSet _) hset
    ((h₂.traversing.dest.ends_rawSet _).ok hset).1
  refine ends_onDest_of_eq hset
    ⟨⟨hwalk, (h₁.walked.trans h₂.walked).trans hwalked, ?_⟩, rfl, ?_, ?_⟩
  · exact hstack ▸ List.prefix_refl _
  · exact (h₁.carried.mono h₂.walked.toOnward).mono hwalked.toOnward
  · exact h₂.carried.mono hwalked.toOnward

/-- What was pushed first is dropped again. -/
theorem Progress.ends_pop {copy : Value}
    (h : Progress source settings among
      { t with dest := { t.dest with stack := t.dest.stack.push copy } } t')
    {onError : TransferError → Transfer → Prop} :
    Ends (onDest (Context.pop 1) t')
      (fun _ t'' =>
        Progress source settings among t t'' ∧ Onward t' t'') onError := by
  obtain ⟨rest, top, hrest, hbase⟩ := exists_top_of_prefix h.stack
  have hpop := Context.pop_one_eq hrest
  obtain ⟨hwalk, hwalked⟩ :=
    h.traversing.progress_of_eq (Context.elements_confined.pop 1) hpop
      ((h.traversing.dest.ends_pop 1).ok hpop)
  have hpushed :
      Walked t
        { t with dest := { t.dest with stack := t.dest.stack.push copy } } :=
    .withDest ⟨rfl, rfl, rfl⟩
  exact ends_onDest_of_eq hpop
    ⟨⟨hwalk, (hpushed.trans h.walked).trans hwalked, hbase⟩, hwalked.toOnward⟩

/-- The copy that is to be filled is pushed. -/
theorem Traversing.progress_push (h : Traversing source settings among t)
    {copy : Value} (hcopy : t.copyOf? identity = some copy) :
    Progress source settings among t
      { t with dest := { t.dest with stack := t.dest.stack.push copy } } := by
  have hsame :
      t.dest.SameRoots { t.dest with stack := t.dest.stack.push copy } :=
    ⟨rfl, rfl, rfl⟩
  obtain ⟨pin, -, hpinned⟩ := Option.bind_eq_some_iff.1 hcopy
  exact ⟨h.withDest (h.dest.push (h.dest.pinned pin copy hpinned)) hsame,
    .withDest hsame, Context.toList_prefix_push _ _⟩

theorem Traversing.ends_fillBindings (h : Traversing source settings among t)
    (hsource : source.Intact) (hclosed : source.Closed among)
    {handle : Handle} {pin : Pin} (htable : among (.table handle))
    (hpin : t.copies.find? handle.index = some pin) :
    Ends (fillBindings source settings handle pin t)
      (fun _ t' => Progress source settings among t t' ∧
        ∀ value, source.Leads (.table handle) value →
          Carried source settings t' value)
      fun e t' => Stops source settings among t e t' := by
  obtain ⟨table, hobject⟩ := hclosed.names _ htable
  obtain ⟨copy, hcopy⟩ : ∃ copy,
      t.copyOf? handle.index = some (.table copy) := by
    cases h.recorded handle.index (Option.isSome_of_mem hpin) with
    | table _ hcopy => exact ⟨_, hcopy⟩
    | function hfunction =>
      obtain ⟨closure, hclosure⟩ := hclosed.names _ hfunction
      cases hobject.symm.trans hclosure
  obtain ⟨found, hfound, hpinned⟩ := Option.bind_eq_some_iff.1 hcopy
  cases hpin.symm.trans hfound
  let start : Transfer :=
    { t with dest := { t.dest with stack := t.dest.stack.push (.table copy) } }
  have hstart : Progress source settings among t start := h.progress_push hcopy
  let rounds : List (Key × Value) → Transfer → Prop := fun done t₁ =>
    Progress source settings among start t₁ ∧
      t₁.dest.stack = t.dest.stack.push (.table copy) ∧
      ∀ entry ∈ done, Carried source settings t₁ entry.1.toValue ∧
        Carried source settings t₁ entry.2
  have hnone : rounds [] start :=
    ⟨.refl hstart.traversing, rfl, fun _ hnil => (List.not_mem_nil hnil).elim⟩
  simp only [fillBindings]
  rw [Context.tableOf_eq_ok_iff.2 hobject]
  refine ends_bind.2 (ends_onDest_of_eq (Context.pushPinned_eq hpinned) ?_)
  rw [ends_bind, ends_get]
  refine Ends.bind (ends_forM hnone (fun done entry rest t₁ hentries h₁ => ?_)
    (List.nil_append _).symm) fun _ t₂ h₂ => ?_
  · obtain ⟨key, value⟩ := entry
    obtain ⟨hprogress, hstack, hcarried⟩ := h₁
    have hentry : (key, value) ∈ table.entries :=
      hentries ▸ List.mem_append_right done List.mem_cons_self
    have hcanonical := ((hsource.objects _ _ hobject) key value hentry).1
    dsimp only [Context.height]
    rw [Array.size_push]
    refine (hprogress.traversing.ends_round hsource hclosed hstack hcanonical
      (hclosed.next _ _ htable (.key hobject hentry))
      (hclosed.next _ _ htable (.value hobject hentry))).mono
      (fun _ t₂ hround => ?_) fun e t₂ hstops =>
        (hstart.trans hprogress).stops hstops
    obtain ⟨hprogress₂, hstack₂, hkey, hvalue⟩ := hround
    refine ⟨hprogress.trans hprogress₂, hstack₂, fun other hother => ?_⟩
    rcases List.mem_append.1 hother with hother | hother
    · exact (hcarried other hother).imp (·.mono hprogress₂.walked.toOnward)
        (·.mono hprogress₂.walked.toOnward)
    · cases List.mem_singleton.1 hother
      exact ⟨hkey, hvalue⟩
  · refine h₂.1.ends_pop.mono (fun _ t₃ hpopped => ⟨hpopped.1, ?_⟩)
      fun _ _ he => he
    rintro value (⟨hfound, hentry⟩ | ⟨hfound, hentry⟩)
    · cases hobject.symm.trans hfound
      exact (h₂.2.2 _ hentry).1.mono hpopped.2
    · cases hobject.symm.trans hfound
      exact (h₂.2.2 _ hentry).2.mono hpopped.2

/-- What is on the stack becomes the value of an upvalue, or stays if there
is no such upvalue. -/
theorem Progress.ends_setUpvalue {n : Nat} {found image : Value}
    (h : Progress source settings among t t')
    (hslot : t.dest.stack[n]? = some found)
    (hstack : t'.dest.stack = t.dest.stack.push image) (number : Nat)
    {onError : TransferError → Transfer → Prop} :
    Ends (onDest (Context.setUpvalue (n + 1 : Nat) number) t')
      (fun _ t'' =>
        Progress source settings among t t'' ∧ Onward t' t'') onError := by
  have hfound := Context.valueAt_of_getElem? (getElem?_of_below h.stack hslot)
  have hset := (h.traversing.dest.ends_setUpvalue_of_valueAt hfound number).and
    (Context.elements_confined.setUpvalue (n + 1 : Nat) number t'.dest)
  rw [ends_onDest]
  refine hset.mono (fun _ c ⟨⟨hc, hpopped⟩, hsame⟩ => ?_)
    fun _ _ he => he.1.elim
  refine ⟨⟨h.traversing.withDest hc hsame,
    h.walked.trans (.withDest hsame), ?_⟩,
    (Walked.withDest hsame).toOnward⟩
  change t.dest.stack.toList <+: c.stack.toList
  rcases hpopped with heq | heq
  · rw [heq]
    exact h.stack
  · have hsame : c.stack = t.dest.stack := by rw [heq, hstack, Array.pop_push]
    exact hsame ▸ List.prefix_refl _

/-- The captured variables from one on are copied. -/
theorem Traversing.ends_fillCapturedFrom
    (h : Traversing source settings among t)
    (hsource : source.Intact) (hclosed : source.Closed among) {n number : Nat}
    {found : Value} {rest : List (String × Value)}
    (hslot : t.dest.stack[n]? = some found)
    (hrest : ∀ i name value, rest[i]? = some (name, value) →
      ¬(number + i = 1 ∧ source.bindsGlobals name value = true) → among value) :
    Ends (fillCapturedFrom source settings (n + 1) number rest t)
      (fun _ t' => Progress source settings among t t' ∧
        ∀ i name value, rest[i]? = some (name, value) →
          ¬(number + i = 1 ∧ source.bindsGlobals name value = true) →
            Carried source settings t' value)
      fun e t' => Stops source settings among t e t' := by
  induction rest generalizing number t with
  | nil => exact ⟨.refl h, nofun⟩
  | cons upvalue rest ih =>
    obtain ⟨name, value⟩ := upvalue
    -- What both ways of placing the first variable leave is continued in one
    -- way.
    have hothers : ∀ t₁ image, Progress source settings among t t₁ →
        t₁.dest.stack = t.dest.stack.push image →
        (¬(number = 1 ∧ source.bindsGlobals name value = true) →
          Carried source settings t₁ value) →
        Ends ((do
            let _ ← onDest (Context.setUpvalue (n + 1 : Nat) number)
            fillCapturedFrom source settings (n + 1) (number + 1) rest :
            Copying Unit) t₁)
          (fun _ t' => Progress source settings among t t' ∧
            ∀ i other value',
              ((name, value) :: rest)[i]? = some (other, value') →
              ¬(number + i = 1 ∧ source.bindsGlobals other value' = true) →
                Carried source settings t' value')
          fun e t' => Stops source settings among t e t' := by
      intro t₁ image hprogress hstack hcarried
      refine (hprogress.ends_setUpvalue hslot hstack number).bind
        fun _ t₂ ⟨hprogress₂, honward⟩ => ?_
      refine (ih hprogress₂.traversing
        (getElem?_of_below hprogress₂.stack hslot)
        fun i other value' hother hplace => ?_).mono
        (fun _ t₃ ⟨hprogress₃, hrestCarried⟩ =>
            ⟨hprogress₂.trans hprogress₃,
              fun i other value' hother hplace => ?_⟩)
          fun e t₃ hstops => hprogress₂.stops hstops
      · refine hrest (i + 1) other value' hother fun hglobals => hplace ?_
        exact ⟨(Nat.succ_add_eq_add_succ number i).trans hglobals.1, hglobals.2⟩
      · cases i with
        | zero =>
          cases hother
          exact ((hcarried hplace).mono honward).mono hprogress₃.walked.toOnward
        | succ i =>
          refine hrestCarried i other value' hother fun hglobals => hplace ?_
          exact ⟨(Nat.succ_add_eq_add_succ number i).symm.trans hglobals.1,
            hglobals.2⟩
    rw [fillCapturedFrom]
    dsimp only
    split
    · next hglobals =>
      have hsame : t.dest.SameRoots { t.dest with
          stack := t.dest.stack.push t.dest.globalsValue } := ⟨rfl, rfl, rfl⟩
      refine ends_bind.2
        (ends_onDest_of_eq rfl (hothers _ t.dest.globalsValue ?_
          rfl fun hplace => ?_))
      · exact ⟨h.withDest (h.dest.push h.dest.globals) hsame, .withDest hsame,
          Context.toList_prefix_push _ _⟩
      · simp only [Bool.and_eq_true, decide_eq_true_eq] at hglobals
        exact absurd hglobals hplace
    · next hglobals =>
      simp only [Bool.and_eq_true, decide_eq_true_eq] at hglobals
      have hvalue := hrest 0 name value rfl hglobals
      refine ((Progress.refl h).ends_pushImage hsource hclosed hvalue).bind
        fun _ t₁ h₁ => ?_
      obtain ⟨image, -, hstack⟩ := h₁.image
      exact hothers t₁ image h₁.progress hstack fun _ => h₁.carried

theorem Traversing.ends_fillCaptured (h : Traversing source settings among t)
    (hsource : source.Intact) (hclosed : source.Closed among)
    {handle : Handle} {pin : Pin} (hfunction : among (.function handle))
    (hpin : t.copies.find? handle.index = some pin) :
    Ends (fillCaptured source settings (.function handle) pin t)
      (fun _ t' => Progress source settings among t t' ∧
        ∀ value, source.Leads (.function handle) value →
          Carried source settings t' value)
      fun e t' => Stops source settings among t e t' := by
  obtain ⟨copy, hcopy⟩ : ∃ copy, t.copyOf? handle.index = some copy := by
    cases h.recorded handle.index (Option.isSome_of_mem hpin) with
    | table _ hcopy => exact ⟨_, hcopy⟩
    | function _ _ hcopy => exact ⟨_, hcopy⟩
  obtain ⟨found, hfound, hpinned⟩ := Option.bind_eq_some_iff.1 hcopy
  cases hpin.symm.trans hfound
  have hstart := h.progress_push hcopy
  simp only [fillCaptured]
  refine ends_bind.2 (ends_onDest_of_eq (Context.pushPinned_eq hpinned) ?_)
  rw [ends_bind, ends_get]
  dsimp only [Context.height]
  rw [Array.size_push]
  refine (hstart.traversing.ends_fillCapturedFrom hsource hclosed
    Array.getElem?_push_size fun i name value hupvalue hplace => ?_).mono
    (fun _ _ hok => hok)
      (fun e t' hstops => hstart.stops hstops) |>.bind fun _ t₂ hfilled => ?_
  · refine hclosed.next _ _ hfunction
      (.captured hupvalue fun hglobals => hplace ?_)
    exact ⟨by rw [hglobals.1], hglobals.2⟩
  · obtain ⟨hprogress, hcarried⟩ := hfilled
    refine hprogress.ends_pop.mono (fun _ t₃ hpopped => ⟨hpopped.1, ?_⟩)
      fun _ _ he => he
    intro value hleads
    cases hleads with
    | captured hupvalue hplace =>
      refine (hcarried _ _ value hupvalue fun hglobals => hplace ?_).mono
        hpopped.2
      exact ⟨by omega, hglobals.2⟩

/-- Filling what waits carries everything that its source leads to. -/
theorem Traversing.ends_fill (h : Traversing source settings among t)
    (hsource : source.Intact) (hclosed : source.Closed among)
    {filling : Filling} (hpending : Pending among t filling) :
    Ends (fill source settings filling t)
      (fun _ t' => Progress source settings among t t' ∧
        ∀ value, source.Leads filling.source value →
          Carried source settings t' value)
      fun e t' => Stops source settings among t e t' := by
  cases hpending with
  | table htable hpin => exact h.ends_fillBindings hsource hclosed htable hpin
  | captured hfunction hpin =>
    exact h.ends_fillCaptured hsource hclosed hfunction hpin

end Isolate.Transfer
