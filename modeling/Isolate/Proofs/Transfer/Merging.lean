import Isolate.Proofs.Transfer.Settling
import Isolate.Transfer.Merge

/-!
# Merging into a table

Between the requests to a transfer nothing waits, and every copy that is
complete stays complete.  A merge adds only keys that were not bound and removes
only keys that it added, so it takes nothing from a copy, even if it merges into
one.
-/

namespace Isolate

namespace Transfer

variable {source : Context} {settings : TransferSettings}
  {t t' t'' t₀ : Transfer} {identity : Nat}

/-! ## Between requests -/

/-- A sound transfer in which nothing waits. -/
structure Ready (source : Context) (settings : TransferSettings)
    (t : Transfer) : Prop where
  sound : Sound source settings t
  idle : t.fillings = []

/-- A transfer that has gone on: recorded copies stay recorded, and
complete ones complete. -/
structure Advanced (source : Context) (settings : TransferSettings)
    (t t' : Transfer) : Prop where
  ready : Ready source settings t'
  copies : t'.Remembers t
  complete : ∀ identity, Complete source settings t identity →
    Complete source settings t' identity

/-- Every copy made between two states of a transfer is complete. -/
def Completes (source : Context) (settings : TransferSettings)
    (t t' : Transfer) : Prop :=
  ∀ identity, ¬t.copies.contains identity = true →
    t'.copies.contains identity = true → Complete source settings t' identity

theorem Advanced.refl (h : Ready source settings t) :
    Advanced source settings t t :=
  ⟨h, fun _ _ hcopy => hcopy, fun _ hcomplete => hcomplete⟩

theorem Advanced.trans (h : Advanced source settings t t')
    (h' : Advanced source settings t' t'') :
    Advanced source settings t t'' where
  ready := h'.ready
  copies := fun identity copy hcopy =>
    h'.copies identity copy (h.copies identity copy hcopy)
  complete := fun identity hcomplete =>
    h'.complete identity (h.complete identity hcomplete)

theorem Advanced.contains (h : Advanced source settings t t')
    (hready : Ready source settings t)
    (hcontains : t.copies.contains identity = true) :
    t'.copies.contains identity = true := by
  obtain ⟨copy, hcopy⟩ := hready.sound.exists_copyOf? hcontains
  exact contains_of_copyOf? (h.copies identity copy hcopy)

theorem Completes.trans (h : Completes source settings t t')
    (hadvanced : Advanced source settings t' t'')
    (h' : Completes source settings t' t'') :
    Completes source settings t t'' := by
  intro identity hnot hcontains
  by_cases hbefore : t'.copies.contains identity = true
  · exact hadvanced.complete identity (h identity hnot hbefore)
  · exact h' identity hbefore hcontains

theorem Completes.mono (h : Completes source settings t t')
    (hcopies : t''.copies = t'.copies)
    (hcomplete : ∀ identity, Complete source settings t' identity →
      Complete source settings t'' identity) :
    Completes source settings t t'' := by
  intro identity hnot hcontains
  rw [hcopies] at hcontains
  exact hcomplete identity (h identity hnot hcontains)

theorem Complete.withStack (h : Complete source settings t identity)
    (stack : Array Value) :
    Complete source settings
      { t with dest := { t.dest with stack } } identity :=
  h.transport (fun _ _ hcopy => hcopy) rfl fun _ _ => rfl

theorem Ready.advanced_of_grown (h : Ready source settings t)
    (hgrown : Grown source settings t t') (hidle : t'.fillings = []) :
    Advanced source settings t t' where
  ready := ⟨hgrown.sound, hidle⟩
  copies := hgrown.copies
  complete := fun _ hcomplete =>
    hcomplete.transport hgrown.copies hgrown.keeps.globals
      fun _ => hgrown.get?_of_mem_parts h.sound

/-- A copy between other requests. -/
theorem Ready.ends_copy (h : Ready source settings t)
    (hsource : source.WellFormed)
    (hchunks : Chunk.Cache.Distinguished (source.Travelling settings))
    {value : Value} (hvalue : source.Names value) :
    Ends (copy source settings value t)
      (fun _ t' =>
        Advanced source settings t t' ∧ Completes source settings t t' ∧
          Grown source settings t t' ∧
          ∃ image,
            t'.Image value image ∧ t'.dest.stack = t.dest.stack.push image)
      fun _ t' => Advanced source settings t t' ∧ Grown source settings t t' ∧
        t'.dest.stack = t.dest.stack := by
  refine (Transfer.ends_copy h.sound h.idle hsource hchunks hvalue).mono
    (fun _ t' ⟨hsettled, image, himage, hstack⟩ => ?_)
    fun _ t' ⟨hgrown, hidle, hstack⟩ => ?_
  · exact ⟨h.advanced_of_grown hsettled.grown hsettled.idle,
      fun identity hnot hcontains =>
        (hsettled.filled identity hnot hcontains).complete,
      hsettled.grown, image, himage, hstack⟩
  · exact ⟨h.advanced_of_grown hgrown hidle, hgrown, hstack⟩

/-! ## Changes to one table -/

/-- A table changes and keeps the bindings that it had at first. -/
theorem Advanced.update_table (h : Advanced source settings t₀ t)
    {target : Handle} {first table table' : Table} {f : Object → Object}
    {stack : Array Value}
    (hfirst : t₀.dest.heap.get? target = some (.table first))
    (htable : t.dest.heap.get? target = some (.table table))
    (hf : f (.table table) = .table table')
    (hkept : ∀ entry ∈ first.entries, entry ∈ table'.entries)
    (hholds : t.dest.Holds (.table table'))
    (hnamed : ∀ value ∈ stack.toList, t.dest.Names value) :
    Advanced source settings t₀
      { t with
        dest := { t.dest with
          stack, heap := t.dest.heap.update target f } } := by
  have hchanged : (t.dest.heap.get? target).map f = some (.table table') := by
    rw [htable, Option.map_some, hf]
  have hkind : Object.SameKind (t.dest.heap.get? target)
      ((t.dest.heap.get? target).map f) := by
    rw [hchanged, htable]
    exact ⟨table', rfl⟩
  have hs := h.ready.sound
  refine ⟨⟨?_, h.ready.idle⟩, h.copies, fun identity hcomplete => ?_⟩
  · refine hs.transport ((hs.wellFormed.withStack hnamed).updated ?_
      fun object hobject => ?_)
      hs.trusted (fun _ _ hvalue => hvalue)
      fun _ handle _ => hkind.update handle
    · exact hkind
    · cases htable.symm.trans hobject
      rw [hf]
      exact hholds
  · by_cases hcopy : t.copyOf? identity = some (.table target)
    · have hold : t₀.copyOf? identity = some (.table target) := by
        obtain ⟨copy, hfound⟩ : ∃ copy, t₀.copyOf? identity = some copy := by
          cases hcomplete with
          | table _ hfound => exact ⟨_, hfound⟩
          | function _ hfound => exact ⟨_, hfound⟩
        rwa
          [← Option.some.inj ((h.copies identity copy hfound).symm.trans hcopy)]
      cases hcomplete with
      | table hsource hfound hobject hincludes =>
        cases hold.symm.trans hfound
        cases hfirst.symm.trans hobject
        refine .table hsource hcopy (Heap.get?_update_self.trans hchanged)
          fun key value hentry => ?_
        obtain ⟨key', value', hentry', himages⟩ :=
          hincludes.mono h.copies key value hentry
        exact ⟨key', value', hkept _ hentry',
          himages.imp (·.mono fun _ _ hcopy => hcopy)
            (·.mono fun _ _ hcopy => hcopy)⟩
      | function _ hfound => cases hold.symm.trans hfound
    · have hnow := h.complete identity hcomplete
      have hne : ∀ handle ∈ t.parts identity, handle ≠ target := by
        rintro handle hmem rfl
        exact hnow.not_mem_parts htable hcopy hmem
      exact hnow.transport (fun _ _ hcopy => hcopy) rfl fun handle hmem =>
        Heap.get?_update_of_ne (hne handle hmem)

/-! ## Merging -/

section Merging

variable {target : Handle} {first : Table} {i : Nat} {added : List Value}
  {news : List (Key × Value)}

/-- Bindings are being merged into a table in a slot; `first` is what
it was, `added` are the keys that it was given, and `news` are the
bindings that it has got. -/
structure Merging (source : Context) (settings : TransferSettings)
    (t₀ : Transfer) (target : Handle) (first : Table) (i : Nat)
    (added : List Value) (news : List (Key × Value)) (t : Transfer) : Prop where
  gains : t₀.dest.Gains t.dest target first news
  advanced : Advanced source settings t₀ t
  stack : t.dest.stack = t₀.dest.stack
  slot : t₀.dest.stack[i]? = some (.table target)
  unbound : ∀ value ∈ added,
    ∃ key, value.key? = some key ∧ first.find? key = none
  listed : ∀ entry ∈ news, ∃ value ∈ added, value.key? = some entry.1

theorem Merging.live
    (h : Merging source settings t₀ target first i added news t) :
    t.dest.Live target := by
  obtain ⟨table, htable, -⟩ := h.gains.table
  have hmem : Value.table target ∈ t.dest.stack.toList := by
    rw [h.stack]
    exact Array.mem_toList_iff.2 (Array.mem_of_getElem? h.slot)
  exact ⟨Context.reaches_of_mem_stack hmem rfl, Option.isSome_of_mem htable⟩

/-- The table is left alone while its transfer goes on. -/
theorem Merging.keeps
    (h : Merging source settings t₀ target first i added news t)
    (hadvanced : Advanced source settings t t') (hkeeps : t.dest.Keeps t'.dest)
    (hstack : t'.dest.stack = t.dest.stack) :
    Merging source settings t₀ target first i added news t' :=
  ⟨h.gains.trans_keeps hkeeps h.live, h.advanced.trans hadvanced,
    hstack.trans h.stack, h.slot, h.unbound, h.listed⟩

/-- An assignment of a key that was not bound at first. -/
theorem Merging.assign
    (h : Merging source settings t₀ target first i added news t)
    {stack : Array Value} {value : Value} {key : Key}
    (hnone : first.find? key = none)
    (hkey : value ≠ .nil → key.Canonical ∧ t.dest.Names key.toValue)
    (hvalue : t.dest.Names value) (hstack : stack = t₀.dest.stack)
    {added' : List Value}
    (hadded : ∀ found ∈ added', found ∈ added ∨ found.key? = some key)
    (hlisted : ∀ found ∈ added, found ∈ added')
    (hnew : value ≠ .nil → ∃ found ∈ added', found.key? = some key) :
    Merging source settings t₀ target first i added'
      (Table.reassigned news key value) { t with dest := { t.dest with
          stack
          heap := t.dest.heap.update target fun
            | .table table => .table (table.set key value)
            | object => object } } := by
  obtain ⟨table, htable, hentries⟩ := h.gains.table
  have hset : (table.set key value).entries =
      Table.reassigned news key value ++ first.entries :=
    Table.entries_set_append hentries hnone
  have hkept : ∀ entry ∈ first.entries, entry ∈ (table.set key value).entries :=
    fun entry hentry => hset ▸ List.mem_append_right _ hentry
  have hwell := h.advanced.ready.sound.wellFormed
  have hholds : t.dest.Holds (.table table) := hwell.objects _ _ htable
  refine ⟨⟨h.gains.globals, h.gains.frames, hstack ▸ List.prefix_refl _,
    h.gains.pinned, h.gains.before,
    ⟨_, Context.get?_storeKey htable key value, hset⟩, fun handle hlive hne =>
        (Heap.get?_update_of_ne hne).trans (h.gains.others handle hlive hne)⟩,
    h.advanced.update_table h.gains.before htable rfl hkept
      (hholds.set hkey hvalue) fun found hfound => ?_, hstack, h.slot,
    fun found hfound => ?_, fun entry hentry => ?_⟩
  · rw [hstack, ← h.stack] at hfound
    exact hwell.stack found hfound
  · rcases hadded found hfound with hbefore | hsame
    · exact h.unbound found hbefore
    · exact ⟨key, hsame, hnone⟩
  · rcases Table.mem_of_mem_reassigned hentry with ⟨hbefore, -⟩ | ⟨rfl, hbound⟩
    · obtain ⟨found, hfound, hsame⟩ := h.listed entry hbefore
      exact ⟨found, hlisted found hfound, hsame⟩
    · exact hnew hbound

/-- When all keys that were added are removed, nothing is left of what was
gained. -/
theorem Merging.ends_removeKeys
    (h : Merging source settings t₀ target first i added news t) :
    Ends (removeKeys target added t)
      (fun _ t' => Merging source settings t₀ target first i added [] t')
      fun _ _ => False := by
  let removed : List Value → Transfer → Prop := fun done t' =>
    ∃ news, Merging source settings t₀ target first i added news t' ∧
      ∀ entry ∈ news, ∀ value ∈ done, value.key? ≠ some entry.1
  have hstart : removed [] t :=
    ⟨news, h, fun _ _ _ hnil => (List.not_mem_nil hnil).elim⟩
  simp only [removeKeys]
  refine (ends_forM hstart (fun done value rest t₁ hvalues h₁ => ?_)
    (List.nil_append _).symm).mono
    (fun _ t' ⟨news, h', hgone⟩ => ?_) fun _ _ => False.elim
  · obtain ⟨news, h₁, hgone⟩ := h₁
    have hmem : value ∈ added := by
      apply List.mem_reverse.1
      rw [hvalues]
      exact List.mem_append_right done List.mem_cons_self
    obtain ⟨key, hkey, hnone⟩ := h₁.unbound value hmem
    obtain ⟨table, htable, -⟩ := h₁.gains.table
    have hremoved := h₁.assign hnone (fun hnil => absurd rfl hnil)
      trivial h₁.stack (fun _ hfound => Or.inl hfound) (fun _ hfound => hfound)
      fun hnil => absurd rfl hnil
    refine ends_onDest_of_eq (Context.bindKey_eq htable hkey) ⟨_, hremoved, ?_⟩
    intro entry hentry found hfound
    obtain ⟨hbefore, hne⟩ | ⟨-, hbound⟩ := Table.mem_of_mem_reassigned hentry
    · rcases List.mem_append.1 hfound with hfound | hfound
      · exact hgone entry hbefore found hfound
      · cases List.mem_singleton.1 hfound
        rw [hkey]
        exact fun heq => hne (Option.some.inj heq).symm
    · exact absurd rfl hbound
  · obtain rfl : news = [] := by
      refine List.eq_nil_iff_forall_not_mem.2 fun entry hentry => ?_
      obtain ⟨value, hvalue, hkey⟩ := h'.listed entry hentry
      exact hgone entry hentry value (List.mem_reverse.2 hvalue) hkey
    exact h'

/-- The stack is cut back to what it was. -/
theorem Merging.popped
    (h : Merging source settings t₀ target first i added news t)
    (hadvanced : Advanced source settings t t')
    (hkeeps : t.dest.Keeps t'.dest) :
    Merging source settings t₀ target first i added news
      { t' with dest := { t'.dest with stack := t.dest.stack } } := by
  refine h.keeps ⟨⟨?_, hadvanced.ready.idle⟩, hadvanced.copies,
    fun identity hcomplete => ?_⟩ ?_ rfl
  · have hs := hadvanced.ready.sound
    exact hs.withStack fun _ => hs.wellFormed.names_of_below hkeeps.stack
  · exact (hadvanced.complete identity hcomplete).withStack t.dest.stack
  · exact ⟨hkeeps.globals, hkeeps.frames, List.prefix_refl _, hkeeps.pinned,
      hkeeps.objects⟩

/-- A key that was not bound gets the value that is on the stack with it. -/
theorem Merging.ends_rawSet
    (h : Merging source settings t₀ target first i added news t)
    (hadvanced : Advanced source settings t t') (hkeeps : t.dest.Keeps t'.dest)
    (hcompletes : Completes source settings t₀ t') {table : Table}
    (htable : t'.dest.heap.get? target = some (.table table))
    (hkept : ∀ entry ∈ first.entries, entry ∈ table.entries) {key : Key}
    {value : Value} (hkey : key.toValue.key? = some key)
    (hnone : table.find? key = none)
    (hstack : t'.dest.stack = (t.dest.stack.push key.toValue).push value)
    {onError : TransferError → Transfer → Prop} :
    Ends (onDest (Context.rawSet (i + 1 : Nat)) t')
      (fun _ t'' => Completes source settings t₀ t'' ∧
        ∃ news', Merging source settings t₀ target first i
          (key.toValue :: added) news' t'')
      onError := by
  have hslot : t'.dest.stack[i]? = some (.table target) := by
    rw [hstack, h.stack]
    exact getElem?_push_of_some (getElem?_push_of_some h.slot)
  have hnone' : first.find? key = none :=
    Table.find?_eq_none_of_subset hkept hnone
  have hwell := hadvanced.ready.sound.wellFormed
  have hkeyNames : t'.dest.Names key.toValue := by
    refine hwell.stack _ ?_
    rw [hstack, Array.toList_push, Array.toList_push]
    exact List.mem_append_left _ (List.mem_append_right _ List.mem_cons_self)
  have hvalueNames : t'.dest.Names value := by
    refine hwell.stack _ ?_
    rw [hstack, Array.toList_push]
    exact List.mem_append_right _ List.mem_cons_self
  have hholds : t'.dest.Holds (.table table) := hwell.objects _ _ htable
  refine ends_onDest_of_eq (Context.rawSet_eq hslot hstack htable hkey) ⟨?_, ?_⟩
  · refine hcompletes.mono
      rfl ((Advanced.refl hadvanced.ready).update_table htable htable rfl
        (fun entry hentry => ?_)
        (hholds.set (fun _ => ⟨hkey, hkeyNames⟩) hvalueNames)
        fun _ => hwell.names_of_below hkeeps.stack).complete
    exact Table.mem_entries_set_of_ne hentry
      (Table.key_ne_of_find?_eq_none hnone hentry)
  · refine ⟨_, (h.popped hadvanced hkeeps).assign hnone'
      (fun _ => ⟨hkey, hkeyNames⟩) hvalueNames h.stack (fun found hfound => ?_)
      (fun _ => List.mem_cons_of_mem _) fun _ => ⟨_, List.mem_cons_self, hkey⟩⟩
    rcases List.mem_cons.1 hfound with rfl | hfound
    · exact Or.inr hkey
    · exact Or.inl hfound

/-- One binding is merged. -/
theorem Merging.ends_binding
    (h : Merging source settings t₀ target first i added news t)
    (hcompletes : Completes source settings t₀ t) (hsource : source.WellFormed)
    (hchunks : Chunk.Cache.Distinguished (source.Travelling settings))
    {key : Key} {value : Value} (hcanonical : key.Canonical)
    (hkey : source.Names key.toValue) (hvalue : source.Names value) :
    Ends (mergeBinding source settings target (i + 1 : Nat) key.toValue value t)
      (fun result t' => Completes source settings t₀ t' ∧
        ∃ news', Merging source settings t₀ target first i
          (result.toList ++ added) news' t')
      fun _ t' => Merging source settings t₀ target first i added news t' := by
  have hcopyKey := h.advanced.ready.ends_copy hsource hchunks hkey
  simp only [mergeBinding]
  refine (hcopyKey.mono (fun _ _ hok => hok)
    fun _ t₁ ⟨hadvanced, hgrown, hstack⟩ =>
      h.keeps hadvanced hgrown.keeps hstack).bind fun _ t₁ ht₁ => ?_
  obtain ⟨hadvanced₁, hcompletes₁, ⟨-, hkeeps₁, -, -⟩, keyImage, hkeyImage,
      hstack₁⟩ := ht₁
  obtain ⟨key', hkey', rfl⟩ := hkeyImage.key? hcanonical
  obtain ⟨table, htable, hentries⟩ := h.gains.table
  have hkept : ∀ entry ∈ first.entries, entry ∈ table.entries :=
    fun entry hentry => hentries ▸ List.mem_append_right news hentry
  have htable₁ : t₁.dest.heap.get? target = some (.table table) := by
    calc
      t₁.dest.heap.get? target = t.dest.heap.get? target :=
        hkeeps₁.objects target h.live
      _ = some (.table table) := htable
  have hboth := hcompletes.trans hadvanced₁ hcompletes₁
  refine ends_bind.2
    (ends_onDest_of_eq (Context.query_eq (Context.valueAt_top hstack₁)) ?_)
  refine ends_bind.2 (ends_onDest_of_eq
    (Context.query_eq (Context.lookupKey_eq htable₁ hkey')) ?_)
  dsimp only
  split
  · next hnil =>
    have hnone : table.find? key' = none :=
      Table.get_eq_nil_iff.1 (Value.isNil_iff.1 hnil)
    have hcopyValue := hadvanced₁.ready.ends_copy hsource hchunks hvalue
    refine Ends.bind (hcopyValue.tryCatch
      fun error t₂ ⟨hadvanced₂, ⟨_, hkeeps₂, _, _⟩, hstack₂⟩ =>
        ?_) fun _ t₂ ⟨hadvanced₂, hcompletes₂, ⟨_, hkeeps₂, _, _⟩, valueImage,
          _, hstack₂⟩ => ?_
    · refine ends_bind.2
        (ends_onDest_of_eq (Context.pop_one_eq (hstack₂.trans hstack₁)) ?_)
      exact h.popped (hadvanced₁.trans hadvanced₂) (hkeeps₁.trans hkeeps₂)
    · have hkeeps := hkeeps₁.trans hkeeps₂
      have htable₂ : t₂.dest.heap.get? target = some (.table table) := by
        calc
          t₂.dest.heap.get? target = t.dest.heap.get? target :=
            hkeeps.objects target h.live
          _ = some (.table table) := htable
      have hstack :
          t₂.dest.stack = (t.dest.stack.push key'.toValue).push valueImage := by
        calc
          t₂.dest.stack = t₁.dest.stack.push valueImage := hstack₂
          _ = (t.dest.stack.push key'.toValue).push valueImage := by
            rw [hstack₁]
      exact (h.ends_rawSet (hadvanced₁.trans hadvanced₂) hkeeps
        (hboth.trans hadvanced₂ hcompletes₂) htable₂ hkept hkey' hnone
        hstack).bind
          fun _ _ hset => hset
  · refine ends_bind.2 (ends_onDest_of_eq (Context.pop_one_eq hstack₁) ?_)
    exact ⟨hboth.mono rfl fun _ hcomplete => hcomplete.withStack _, news,
      h.popped hadvanced₁ hkeeps₁⟩

/-- All bindings are merged, or none stays. -/
theorem Merging.ends_bindings {entries : List (Key × Value)}
    (h : Merging source settings t₀ target first i added news t)
    (hcompletes : Completes source settings t₀ t) (hsource : source.WellFormed)
    (hchunks : Chunk.Cache.Distinguished (source.Travelling settings))
    (hentries : ∀ key value, (key, value) ∈ entries →
      key.Canonical ∧ source.Names key.toValue ∧ source.Names value) :
    Ends (mergeBindings source settings target (i + 1 : Nat) added entries t)
      (fun _ t' => Completes source settings t₀ t' ∧
        ∃ added news, Merging source settings t₀ target first i added news t')
      fun _ t' =>
        ∃ added, Merging source settings t₀ target first i added [] t' := by
  induction entries generalizing added news t with
  | nil => exact ⟨hcompletes, added, news, h⟩
  | cons entry rest ih =>
    obtain ⟨key, value⟩ := entry
    obtain ⟨hcanonical, hkey, hvalue⟩ := hentries key value List.mem_cons_self
    have hbinding :=
      h.ends_binding hcompletes hsource hchunks hcanonical hkey hvalue
    have hrest := fun other bound hother =>
      hentries other bound (List.mem_cons_of_mem _ hother)
    simp only [mergeBindings]
    rw [ends_bind]
    refine Ends.tryCatch
      (hbinding.bind fun result t' ⟨hcompletes', news', h'⟩ => ?_)
      fun error t' h' => ?_
    · cases result with
      | none => exact ih h' hcompletes' hrest
      | some key' => exact ih h' hcompletes' hrest
    · refine (h'.ends_removeKeys.mono (fun _ _ hok => hok)
        fun _ _ => False.elim).bind fun _ t'' h'' => ?_
      exact ⟨added, h''⟩

end Merging

/-- A merge adds complete copies and gives new bindings to one table, or takes
back what it added. -/
theorem Ready.ends_mergeTable (h : Ready source settings t)
    (hsource : source.WellFormed)
    (hchunks : Chunk.Cache.Distinguished (source.Travelling settings))
    (handle : Handle) (index : Int) :
    Ends (mergeTable source settings handle index t)
      (fun _ t' =>
        Completes source settings t t' ∧ Advanced source settings t t' ∧
          t'.dest.stack = t.dest.stack ∧ ∃ target first news,
            t.dest.valueAt index = .ok (.table target) ∧
              t.dest.Gains t'.dest target first news)
      fun _ t' => Advanced source settings t t' ∧ t'.dest.stack = t.dest.stack ∧
        t.dest.Keeps t'.dest := by
  have hrefl : Advanced source settings t t ∧ t.dest.stack = t.dest.stack ∧
      t.dest.Keeps t.dest := ⟨.refl h, rfl, .refl _⟩
  simp only [mergeTable]
  rw [ends_bind, ends_onDest, Context.ends_query]
  refine ⟨fun value hvalue => ?_, fun error _ => hrefl⟩
  cases value with
  | table target =>
    obtain ⟨i, hslot, habsolute⟩ :=
      Context.absoluteIndex_of_valueAt hvalue nofun
    obtain ⟨first, hfirst⟩ := h.sound.wellFormed.stack _
      (Array.mem_toList_iff.2 (Array.mem_of_getElem? hslot))
    dsimp only
    refine ends_bind.2 (ends_onDest_of_eq (Context.query_eq habsolute) ?_)
    cases htable : source.tableOf handle with
    | error error => exact hrefl
    | ok table =>
      have hstart : Merging source settings t target first i [] [] t :=
        ⟨.refl hfirst, .refl h, rfl, hslot, nofun, nofun⟩
      have hentries := hsource.objects _ _ (Context.tableOf_eq_ok_iff.1 htable)
      refine (hstart.ends_bindings (fun _ hnot
        hcontains => absurd hcontains hnot) hsource hchunks
        hentries).mono (fun _ t' ⟨hcompletes, added, news, hmerging⟩ => ?_)
        fun _ t' ⟨added, hmerging⟩ => ?_
      · exact ⟨hcompletes, hmerging.advanced, hmerging.stack, target, first,
          news, hvalue, hmerging.gains⟩
      · exact ⟨hmerging.advanced, hmerging.stack, hmerging.gains.keeps⟩
  | _ => exact hrefl

end Transfer

end Isolate
