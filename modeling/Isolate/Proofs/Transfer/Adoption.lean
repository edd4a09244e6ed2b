import Isolate.Proofs.Accord
import Isolate.Proofs.Transfer.Fidelity
import Isolate.Proofs.Transfer.Merging

/-!
# What a merge adds

A merge by a transfer that has copied nothing yet adds to a table exactly the
bindings that it lacked, under their copied keys and with copies of their
values, or nothing.  The copied keys are found in the table only where they
stand for themselves, because a copied reference is a new object.
-/

namespace Isolate

/-- The copy of a key is not bound in a table: a copied reference is bound
nowhere, and any other key stands for itself. -/
def Table.lacks (table : Table) (key : Key) : Bool :=
  key.handle?.isSome || !table.contains key

/-- The bindings whose copied keys are not bound in a table. -/
def Table.lacking (table : Table) (entries : List (Key × Value)) :
    List (Key × Value) :=
  entries.filter fun entry => table.lacks entry.1

namespace Context

/-- What travels with the bindings of a source table that another table
lacks. -/
def Joins (source : Context) (table first : Table) (value : Value) : Prop :=
  ∃ key bound, (key, bound) ∈ table.entries ∧ first.lacks key = true ∧
    (source.Travels key.toValue value ∨ source.Travels bound value)

/-- A table of the destination, which was `first` and is `merged`, has got
copies of the bindings of a source table that it lacked. -/
structure Adopts (source dest c : Context) (settings : TransferSettings)
    (table : Table) (target : Handle) (first merged : Table) (count : Nat)
    (rename : Handle → Handle) : Prop where
  before : dest.heap.get? target = some (.table first)
  after : c.heap.get? target = some (.table merged)
  kept : ∀ key value, first.find? key = some value →
    merged.find? key = some value
  /-- A binding is lacking exactly if its copied key was not bound. -/
  lacking : ∀ key value, (key, value) ∈ table.entries → ∃ copied : Key,
    copied.toValue = key.toValue.rename rename ∧
      (first.lacks key = true ↔ first.find? copied = none)
  /-- The copies of the bindings that were lacking are added, and nothing
  else. -/
  entries : ∀ key value,
    (key, value) ∈ merged.entries ↔ (key, value) ∈ first.entries ∨
      ∃ key' value', (key', value') ∈ table.entries ∧ first.lacks key' = true ∧
        key.toValue = key'.toValue.rename rename ∧ value = value'.rename rename
  counted : count = (first.lacking table.entries).length
  size : merged.size = first.size + count
  /-- All copies are faithful, and what is reached in several ways is copied
  once. -/
  copies : source.Replicated dest c settings (source.Joins table first) rename
  others : ∀ handle, dest.Live handle → handle ≠ target →
    c.heap.get? handle = dest.heap.get? handle

/-- A source table was merged into the table at an index. -/
def Merged (source dest c : Context) (settings : TransferSettings)
    (handle : Handle) (index : Int) (count : Nat) : Prop :=
  ∃ table target first merged rename,
    source.heap.get? handle = some (.table table) ∧
      dest.valueAt index = .ok (.table target) ∧
      source.Adopts dest c settings table target first merged count rename

/-- The table at an index has the bindings that it had. -/
def Unmerged (dest c : Context) (index : Int) : Prop :=
  ∀ target first, dest.valueAt index = .ok (.table target) →
    dest.heap.get? target = some (.table first) →
    c.heap.get? target = some (.table first)

end Context

namespace Table

variable {table : Table} {key : Key} {value : Value}
  {entries : List (Key × Value)}

/-- A key that is no reference stands for itself. -/
theorem lacks_iff_of_handle? (h : key.handle? = none) :
    table.lacks key = true ↔ table.find? key = none := by
  simp only [lacks, contains]
  rw [h]
  cases table.find? key <;> simp

theorem lacks_of_handle? {handle : Handle} (h : key.handle? = some handle) :
    table.lacks key = true := by
  simp only [lacks]
  rw [h]
  rfl

theorem lacking_cons_of_pos (h : table.lacks key = true) :
    table.lacking ((key, value) :: entries) =
      (key, value) :: table.lacking entries :=
  List.filter_cons_of_pos h

theorem lacking_cons_of_neg (h : ¬table.lacks key = true) :
    table.lacking ((key, value) :: entries) = table.lacking entries :=
  List.filter_cons_of_neg h

theorem mem_lacking_iff : (key, value) ∈ table.lacking entries ↔
    (key, value) ∈ entries ∧ table.lacks key = true :=
  List.mem_filter

end Table

theorem Context.WellFormed.names_of_joins {source : Context}
    (hsource : source.WellFormed) {handle : Handle} {table first : Table}
    (htable : source.heap.get? handle = some (.table table)) {value : Value}
    (h : source.Joins table first value) : source.Names value := by
  obtain ⟨key, bound, hentry, -, htravels⟩ := h
  obtain ⟨-, hkey, hbound⟩ := hsource.objects _ _ htable key bound hentry
  exact htravels.elim (hsource.names_of_travels hkey)
    (hsource.names_of_travels hbound)

namespace Transfer

variable {source : Context} {settings : TransferSettings} {t t' t₀ : Transfer}
  {target : Handle} {first table : Table} {done news : List (Key × Value)}
  {key key' : Key} {value image : Value}

theorem Image.eq_of_handle? (h : t.Image value image)
    (hhandle : value.handle? = none) : image = value := by
  cases h with
  | plain => rfl
  | table => cases hhandle
  | function => cases hhandle

theorem Image.handle? (h : t.Image value image) :
    image.handle? = value.handle?.map t.newHandle := by
  cases h with
  | plain hhandle => rw [hhandle, Option.map_none]
  | table hcopy => exact congrArg some (newHandle_of_copyOf? hcopy rfl).symm
  | function hcopy => exact congrArg some (newHandle_of_copyOf? hcopy rfl).symm

/-- The key and the value of a binding are the images of those of another. -/
def Twins (t : Transfer) (entry new : Key × Value) : Prop :=
  t.Image entry.1.toValue new.1.toValue ∧ t.Image entry.2 new.2

/-- Bindings are being merged by a transfer that had copied nothing: `done` are
those that it has come to, the latest in front, and `news` are the copies of
those among them that the table, which was `first`, had lacked. -/
structure Gathering (source : Context) (settings : TransferSettings)
    (t₀ : Transfer) (target : Handle) (first : Table)
    (done news : List (Key × Value)) (t : Transfer) : Prop where
  sound : Sound source settings t
  idle : t.fillings = []
  started : t₀.dest.WellFormed
  held : Value.table target ∈ t₀.dest.stack.toList
  gains : t₀.dest.Gains t.dest target first news
  filled : ∀ identity, t.copies.contains identity = true →
    Filled source settings t identity
  fresh : ∀ identity, ∀ handle ∈ t.parts identity, ¬t₀.dest.Live handle
  twins : List.Forall₂ t.Twins (first.lacking done) news

namespace Gathering

theorem start {dest : Context} (hsound : Sound source settings (start dest))
    (hheld : Value.table target ∈ dest.stack.toList)
    (hfirst : dest.heap.get? target = some (.table first)) :
    Gathering source settings (.start dest) target first [] []
      (.start dest) where
  sound := hsound
  idle := rfl
  started := hsound.wellFormed
  held := hheld
  gains := .refl hfirst
  filled := nofun
  fresh := fun _ _ hmem => by cases contains_of_mem_parts hmem
  twins := .nil

variable (h : Gathering source settings t₀ target first done news t)

include h

theorem live_before : t₀.dest.Live target :=
  ⟨Context.reaches_of_mem_stack h.held rfl, Option.isSome_of_mem h.gains.before⟩

theorem live : t.dest.Live target := h.gains.live h.live_before

/-- The table is part of no copy. -/
theorem ne_target {identity : Nat} {handle : Handle}
    (hmem : handle ∈ t.parts identity) : handle ≠ target := by
  rintro rfl
  exact h.fresh identity handle hmem h.live_before

/-- One value more is copied. -/
theorem settled (hsettled : Settled source settings t t') :
    Gathering source settings t₀ target first done news t' where
  sound := hsettled.grown.sound
  idle := hsettled.idle
  started := h.started
  held := h.held
  gains := h.gains.trans_keeps hsettled.grown.keeps h.live
  filled := by
    intro identity hcontains
    by_cases hbefore : t.copies.contains identity = true
    · exact (h.filled identity hbefore).transport hsettled.grown.copies
        hsettled.grown.keeps.globals fun _ =>
          hsettled.grown.get?_of_mem_parts h.sound
    · exact hsettled.filled identity hbefore hcontains
  fresh := by
    intro identity handle hmem hlive
    by_cases hbefore : t.copies.contains identity = true
    · rw [hsettled.grown.parts h.sound hbefore] at hmem
      exact h.fresh identity handle hmem hlive
    · exact hsettled.grown.fresh identity hbefore handle hmem
        (h.gains.live hlive)
  twins := h.twins.imp fun _ _ htwins =>
    htwins.imp (·.mono hsettled.grown.copies) (·.mono hsettled.grown.copies)

theorem withStack {stack : Array Value}
    (hnamed : ∀ value ∈ stack.toList, t.dest.Names value)
    (hbase : t₀.dest.stack.toList <+: stack.toList) :
    Gathering source settings t₀ target first done news
      { t with dest := { t.dest with stack } } where
  sound := h.sound.withStack hnamed
  idle := h.idle
  started := h.started
  held := h.held
  gains := ⟨h.gains.globals, h.gains.frames, hbase, h.gains.pinned,
    h.gains.before, h.gains.table, h.gains.others⟩
  filled := fun identity hcontains =>
    (h.filled identity hcontains).transport (fun _ _ hcopy => hcopy)
      rfl fun _ _ => rfl
  fresh := h.fresh
  twins := h.twins.imp fun _ _ htwins =>
    htwins.imp (·.mono fun _ _ hcopy => hcopy) (·.mono fun _ _ hcopy => hcopy)

/-- The copy of a key that was not come to before is unbound exactly if the
table lacked the key at first. -/
theorem find?_eq_none_iff
    (htable : t.dest.heap.get? target = some (.table table))
    (hnew : key ∉ done.map Prod.fst)
    (himage : t.Image key.toValue key'.toValue) :
    table.find? key' = none ↔ first.find? key' = none := by
  obtain ⟨found, hfound, hentries⟩ := h.gains.table
  cases htable.symm.trans hfound
  have hnews : key' ∉ news.map Prod.fst := by
    intro hmem
    obtain ⟨new, hnewMem, rfl⟩ := List.mem_map.1 hmem
    obtain ⟨entry, hentry, htwins, -⟩ := exists_of_forall₂_flip h.twins hnewMem
    have hsame := Key.toValue_injective (h.sound.image_injective htwins himage)
    exact hnew (List.mem_map.2 ⟨entry, (List.mem_filter.1 hentry).1, hsame⟩)
  rw [Table.find?_eq_none_iff, Table.find?_eq_none_iff, hentries,
    List.map_append, List.mem_append, not_or]
  exact and_iff_right hnews

/-- The copy of a key was unbound at first exactly if the table lacked the
key. -/
theorem lacks_iff (himage : t.Image key.toValue key'.toValue) :
    first.lacks key = true ↔ first.find? key' = none := by
  cases hhandle : key.toValue.handle? with
  | none =>
    rw [Key.toValue_injective (himage.eq_of_handle? hhandle)]
    exact Table.lacks_iff_of_handle? hhandle
  | some handle =>
    refine iff_of_true (Table.lacks_of_handle? hhandle)
      (Option.eq_none_iff_forall_ne_some.2 fun bound hbound => ?_)
    have hcopy : key'.toValue.handle? = some (t.newHandle handle) := by
      rw [himage.handle?, hhandle, Option.map_some]
    refine h.fresh handle.index _ (himage.newHandle_mem_parts hhandle) ?_
    exact h.started.live_of_child h.live_before h.gains.before
      (Object.mem_children_of_entry (Table.find?_eq_some_iff.1 hbound)
        (Or.inl hcopy))

/-- A key that was not bound gets a value. -/
theorem assign (htable : t.dest.heap.get? target = some (.table table))
    (hnone : table.find? key' = none) (hlacks : first.lacks key = true)
    (hkey : t.Image key.toValue key'.toValue) (hcanonical : key'.Canonical)
    (hvalue : t.Image value image) (hbound : value ≠ .nil) {stack : Array Value}
    (hnamed : ∀ value ∈ stack.toList, t.dest.Names value)
    (hbase : t₀.dest.stack.toList <+: stack.toList) :
    Gathering source settings t₀ target first ((key, value) :: done)
      ((key', image) :: news) { t with dest := { t.dest with
          stack
          heap := t.dest.heap.update target fun
            | .table table => .table (table.set key' image)
            | object => object } } := by
  obtain ⟨found, hfound, hentries⟩ := h.gains.table
  cases htable.symm.trans hfound
  have hset := Table.entries_set_of_find?_eq_none (hvalue.ne_nil hbound) hnone
  have hholds : t.dest.Holds (.table table) :=
    h.sound.wellFormed.objects _ _ htable
  have hready : Ready source settings t := ⟨h.sound, h.idle⟩
  let assign : Object → Object
    | .table table => .table (table.set key' image)
    | object => object
  have hassign : assign (.table table) = .table (table.set key' image) := rfl
  have hadvanced := (Advanced.refl hready).update_table htable htable hassign
    (fun entry hentry => hset ▸ List.mem_cons_of_mem _ hentry)
    (hholds.set (fun _ => ⟨hcanonical, h.sound.names_of_image hkey⟩)
      (h.sound.names_of_image hvalue)) hnamed
  refine ⟨hadvanced.ready.sound, h.idle, h.started, h.held,
    ⟨h.gains.globals, h.gains.frames,
      hbase, h.gains.pinned, h.gains.before,
      ⟨_, Context.get?_storeKey htable key' image, ?_⟩, fun handle hlive hne =>
        (Heap.get?_update_of_ne hne).trans (h.gains.others handle hlive hne)⟩,
    fun identity hcontains => ?_, fun identity handle hmem => ?_, ?_⟩
  · rw [hset, hentries]
    rfl
  · exact (h.filled identity hcontains).transport (fun _ _ hcopy => hcopy) rfl
      fun handle hmem => Heap.get?_update_of_ne (h.ne_target hmem)
  · let changed : Transfer :=
      { t with
        dest := { t.dest with
          stack, heap := t.dest.heap.update target assign } }
    have hsame : Shaped source settings changed identity ∧
        changed.parts identity = t.parts identity :=
      (h.sound.shaped identity (contains_of_mem_parts_dest hmem)).transport
        (fun _ hcopy => hcopy) fun part hpart =>
          .of_eq (Heap.get?_update_of_ne (h.ne_target hpart))
    exact h.fresh identity handle (hsame.2 ▸ hmem)
  · rw [Table.lacking_cons_of_pos hlacks]
    refine .cons ⟨hkey.mono fun _ _ hcopy => hcopy,
      hvalue.mono fun _ _ hcopy => hcopy⟩ ?_
    exact h.twins.imp fun _ _ htwins =>
      htwins.imp (·.mono fun _ _ hcopy => hcopy) (·.mono fun _ _ hcopy => hcopy)

/-- A key that was bound is passed by. -/
theorem skip (hlacks : ¬first.lacks key = true) (value : Value) :
    Gathering source settings t₀ target first ((key, value) :: done) news t :=
  { h with twins := (Table.lacking_cons_of_neg hlacks).symm ▸ h.twins }

section Merge

variable {i : Nat} (hslot : t₀.dest.stack[i]? = some (.table target))
  (hstack : t.dest.stack = t₀.dest.stack) (hsource : source.WellFormed)
  (hchunks : Chunk.Cache.Distinguished (source.Travelling settings))

include hslot hstack hsource hchunks

/-- The value of a key that was not bound is copied and bound to the copied key,
which is on top of the stack. -/
theorem ends_add (hsettled : Settled source settings t t')
    (hcanonical : key'.Canonical) (hkey : t'.Image key.toValue key'.toValue)
    (htop : t'.dest.stack = t.dest.stack.push key'.toValue)
    (htable : t'.dest.heap.get? target = some (.table table))
    (hnone : table.find? key' = none) (hlacks : first.lacks key = true)
    (hvalue : source.Names value) (hbound : value ≠ .nil) :
    Ends ((do
        tryCatch (copy source settings value) fun error => do
          onDest (Context.pop 1)
          throw error
        onDest (Context.rawSet (i + 1 : Nat))
        pure (some key'.toValue) : Copying (Option Value)) t')
      (fun result t'' =>
        result.toList.length = 1 ∧ t''.dest.stack = t₀.dest.stack ∧
          ∃ new, Gathering source settings t₀ target
            first ((key, value) :: done) (new :: news) t'')
      fun _ _ => True := by
  have hgathering := h.settled hsettled
  refine Ends.bind
    ((Transfer.ends_copy hgathering.sound hgathering.idle hsource hchunks
      hvalue).tryCatch fun _ _ _ => ends_bind_throw)
      fun _ t₂ ⟨hsettled₂, image, himage, hstack₂⟩ => ?_
  have hkeeps := hsettled.grown.keeps.trans hsettled₂.grown.keeps
  have htable₂ : t₂.dest.heap.get? target = some (.table table) := by
    calc
      t₂.dest.heap.get? target = t'.dest.heap.get? target :=
        hsettled₂.grown.keeps.objects target hgathering.live
      _ = some (.table table) := htable
  have hfull :
      t₂.dest.stack = (t₀.dest.stack.push key'.toValue).push image := by
    rw [hstack₂, htop, hstack]
  have hslot₂ : t₂.dest.stack[i]? = some (.table target) := by
    rw [hfull]
    exact getElem?_push_of_some (getElem?_push_of_some hslot)
  have hgathering₂ := hgathering.settled hsettled₂
  have hnamed : ∀ value ∈ t₀.dest.stack.toList, t₂.dest.Names value :=
    fun _ => hgathering₂.sound.wellFormed.names_of_below (hstack ▸ hkeeps.stack)
  refine ends_bind.2
    (ends_onDest_of_eq (Context.rawSet_eq hslot₂ hfull htable₂ hcanonical)
      ⟨rfl, rfl, (key', image), ?_⟩)
  exact hgathering₂.assign htable₂ hnone hlacks
    (hkey.mono hsettled₂.grown.copies) hcanonical himage hbound hnamed
    (List.prefix_refl _)

/-- One binding is merged. -/
theorem ends_binding (hcanonical : key.Canonical)
    (hkey : source.Names key.toValue) (hvalue : source.Names value)
    (hbound : value ≠ .nil) (hnew : key ∉ done.map Prod.fst) :
    Ends (mergeBinding source settings target (i + 1 : Nat) key.toValue value t)
      (fun result t' => t'.dest.stack = t₀.dest.stack ∧ ∃ news',
        Gathering source settings t₀ target
          first ((key, value) :: done) news' t' ∧
          news'.length = result.toList.length + news.length)
      fun _ _ => True := by
  simp only [mergeBinding]
  refine ((Transfer.ends_copy h.sound h.idle hsource hchunks hkey).mono
    (fun _ _ hok => hok) fun _ _ _ => trivial).bind fun _ t₁ hcopied => ?_
  obtain ⟨hsettled, keyImage, himage, htop⟩ := hcopied
  obtain ⟨key', hcanonical', rfl⟩ := himage.key? hcanonical
  have hgathering := h.settled hsettled
  obtain ⟨table, htable, -⟩ := hgathering.gains.table
  have hlacks : table.find? key' = none ↔ first.lacks key = true :=
    (hgathering.find?_eq_none_iff htable hnew himage).trans
      (hgathering.lacks_iff himage).symm
  refine ends_bind.2
    (ends_onDest_of_eq (Context.query_eq (Context.valueAt_top htop)) ?_)
  refine ends_bind.2
    (ends_onDest_of_eq
      (Context.query_eq (Context.lookupKey_eq htable hcanonical')) ?_)
  dsimp only
  split
  · next hnil =>
    have hnone : table.find? key' = none :=
      Table.get_eq_nil_iff.1 (Value.isNil_iff.1 hnil)
    refine (h.ends_add hslot hstack hsource hchunks hsettled hcanonical' himage
      htop htable hnone (hlacks.1 hnone) hvalue hbound).mono
      (fun result t₂ hadded => ?_) fun _ _ htrue => htrue
    obtain ⟨hone, hstack₂, new, hgathering₂⟩ := hadded
    exact ⟨hstack₂, _,
      hgathering₂, by rw [hone, List.length_cons, Nat.add_comm]⟩
  · next hnil =>
    have hsome : ¬first.lacks key = true := fun hlack =>
      hnil (Value.isNil_iff.2 (Table.get_eq_nil_iff.2 (hlacks.2 hlack)))
    have hnamed : ∀ value ∈ t.dest.stack.toList, t₁.dest.Names value :=
      fun _ =>
        hgathering.sound.wellFormed.names_of_below hsettled.grown.keeps.stack
    refine ends_bind.2 (ends_onDest_of_eq (Context.pop_one_eq htop)
      ⟨hstack, news, ?_, ?_⟩)
    · exact (hgathering.withStack hnamed (hstack ▸ List.prefix_refl _)).skip
        hsome value
    · exact (Nat.zero_add _).symm

omit hslot hstack hsource hchunks in
/-- All bindings are merged. -/
theorem ends_bindings (hslot : t₀.dest.stack[i]? = some (.table target))
    (hstack : t.dest.stack = t₀.dest.stack) (hsource : source.WellFormed)
    (hchunks : Chunk.Cache.Distinguished (source.Travelling settings))
    {entries : List (Key × Value)} {added : List Value}
    (hentries : ∀ key value, (key, value) ∈ entries →
      key.Canonical ∧ source.Names key.toValue ∧ source.Names value ∧
        value ≠ .nil)
    (hdistinct : ((entries ++ done).map Prod.fst).Nodup)
    (hadded : added.length = news.length) :
    Ends (mergeBindings source settings target (i + 1 : Nat) added entries t)
      (fun count t' => ∃ news', count = news'.length ∧
        Gathering source settings t₀ target
          first (entries.reverse ++ done) news' t')
      fun _ _ => True := by
  induction entries generalizing done news added t with
  | nil => exact ⟨news, hadded, h⟩
  | cons entry rest ih =>
    obtain ⟨key, value⟩ := entry
    obtain ⟨hcanonical, hkey, hvalue, hbound⟩ :=
      hentries key value List.mem_cons_self
    have hdistinct' : ((rest ++ (key, value) :: done).map Prod.fst).Nodup :=
      (List.perm_middle.map Prod.fst).nodup_iff.2 hdistinct
    have hnew : key ∉ done.map Prod.fst := by
      rw [List.map_append, List.nodup_append] at hdistinct'
      exact (List.nodup_cons.1 hdistinct'.2.1).1
    have hbinding := h.ends_binding hslot hstack hsource hchunks hcanonical hkey
      hvalue hbound hnew
    have hrest := fun other bound hother =>
      hentries other bound (List.mem_cons_of_mem _ hother)
    simp only [mergeBindings]
    rw [ends_bind, List.reverse_cons, List.append_assoc]
    refine Ends.tryCatch (hbinding.bind fun result t' hbound => ?_)
      fun _ _ _ => ends_bind_throw
    obtain ⟨hstack', news', h', hlength⟩ := hbound
    cases result with
    | none =>
      exact ih h' hstack' hrest hdistinct'
        (by simpa [hadded] using hlength.symm)
    | some key' =>
      refine ih h' hstack' hrest hdistinct' ?_
      rw [hlength, List.length_cons, hadded, Nat.add_comm]
      rfl

end Merge

/-- What travels with the bindings that the table lacked has landed. -/
theorem landed (hsource : source.WellFormed) {handle : Handle}
    (htable : source.heap.get? handle = some (.table table))
    (hdone : ∀ entry ∈ table.entries, entry ∈ done) :
    Landed source settings t₀.dest (source.Joins table first) t := by
  refine ⟨h.sound, h.gains.globals, h.filled, h.fresh, ?_⟩
  rintro value ⟨key, bound, hentry, hlacks, htravels⟩
  obtain ⟨-, hkey, hbound⟩ := hsource.objects _ _ htable key bound hentry
  obtain ⟨new, -, hkeyImage, hboundImage⟩ :=
    exists_of_forall₂ h.twins (Table.mem_lacking_iff.2 ⟨hdone _ hentry, hlacks⟩)
  have hall : ∀ {root image : Value}, source.Names root → t.Image root image →
      source.Travels root value → ∃ image,
      t.Image value image := fun hnames himage =>
    image_of_travels hsource hnames (fun _ _ handle _ hcontains =>
      (h.filled handle.index hcontains).complete) ⟨_, himage⟩
  exact htravels.elim (hall hkey hkeyImage) (hall hbound hboundImage)

end Gathering

/-- A merge of all bindings of a table by a transfer that had copied nothing. -/
theorem Gathering.adopts {dest : Context}
    (h : Gathering source settings (.start dest) target
      first table.entries.reverse news t)
    (hsource : source.WellFormed) {handle : Handle}
    (htable : source.heap.get? handle = some (.table table)) :
    ∃ merged, source.Adopts dest t.dest settings table target
      first merged news.length t.newHandle := by
  obtain ⟨merged, hmerged, hentries⟩ := h.gains.table
  have hnew : ∀ {key : Key} {value : Value}, (key, value) ∈ table.entries →
      first.lacks key = true → ∃ new ∈ news, t.Twins (key, value) new :=
    fun hentry hlacks =>
    exists_of_forall₂ h.twins
      (Table.mem_lacking_iff.2 ⟨List.mem_reverse.2 hentry, hlacks⟩)
  have hlanded := h.landed hsource htable fun _ => List.mem_reverse.2
  refine ⟨merged, h.gains.before, hmerged, fun key value hfound => ?_,
    fun key value hentry => ?_, fun key value => ?_, ?_, ?_,
    hlanded.replicated hsource fun _ => hsource.names_of_joins htable,
    h.gains.others⟩
  · rw [Table.find?_eq_some_iff] at hfound ⊢
    rw [hentries]
    exact List.mem_append_right news hfound
  · cases hhandle : key.handle? with
    | none =>
      exact ⟨key, (Value.rename_of_handle? hhandle _).symm,
        Table.lacks_iff_of_handle? hhandle⟩
    | some handle =>
      have hlacks : first.lacks key = true := Table.lacks_of_handle? hhandle
      obtain ⟨new, -, htwins⟩ := hnew hentry hlacks
      exact ⟨new.1, htwins.1.eq_rename, h.lacks_iff htwins.1⟩
  · rw [hentries, List.mem_append, or_comm]
    refine or_congr_right ⟨fun hmem => ?_, ?_⟩
    · obtain ⟨entry, hentry, htwins⟩ := exists_of_forall₂_flip h.twins hmem
      obtain ⟨hmem, hlacks⟩ := Table.mem_lacking_iff.1 hentry
      exact ⟨entry.1, entry.2, List.mem_reverse.1 hmem, hlacks,
        htwins.1.eq_rename, htwins.2.eq_rename⟩
    · rintro ⟨key', value', hentry, hlacks, hkey, rfl⟩
      obtain ⟨new, hmem, htwins⟩ := hnew hentry hlacks
      rwa [← htwins.2.eq_rename,
        Key.toValue_injective (hkey.trans htwins.1.eq_rename.symm)]
  · rw [← h.twins.length_eq, Table.lacking, Table.lacking, List.filter_reverse,
      List.length_reverse]
  · simp only [Table.size]
    rw [hentries, List.length_append, Nat.add_comm]

/-- A merge by a transfer that has copied nothing adds what was
lacking or nothing. -/
theorem ends_mergeTable_start {dest : Context}
    (hsound : Sound source settings (start dest)) (hsource : source.WellFormed)
    (hchunks : Chunk.Cache.Distinguished (source.Travelling settings))
    (handle : Handle) (index : Int) :
    Ends (mergeTable source settings handle index (start dest))
      (fun count t => source.Merged dest t.dest settings handle index count)
      fun _ t => dest.Unmerged t.dest index := by
  have hready : Ready source settings (start dest) := ⟨hsound, rfl⟩
  have hadds : Ends (mergeTable source settings handle index (start dest))
      (fun count t => source.Merged dest t.dest settings handle index count)
      fun _ _ => True := by
    simp only [mergeTable]
    rw [ends_bind, ends_onDest, Context.ends_query]
    refine ⟨fun value hvalue => ?_, fun _ _ => trivial⟩
    cases value with
    | table target =>
      obtain ⟨i, hslot, habsolute⟩ :=
        Context.absoluteIndex_of_valueAt hvalue (by simp)
      have hheld := Array.mem_toList_iff.2 (Array.mem_of_getElem? hslot)
      obtain ⟨first, hfirst⟩ := hsound.wellFormed.stack _ hheld
      dsimp only
      refine ends_bind.2 (ends_onDest_of_eq (Context.query_eq habsolute) ?_)
      cases hfound : source.tableOf handle with
      | error error => trivial
      | ok table =>
        have htable := Context.tableOf_eq_ok_iff.1 hfound
        have hentries : ∀ key value, (key, value) ∈ table.entries →
            key.Canonical ∧ source.Names key.toValue ∧ source.Names value ∧
              value ≠ .nil := by
          intro key value hentry
          obtain ⟨hcanonical, hkey, hbound⟩ :=
            hsource.objects _ _ htable key value hentry
          exact ⟨hcanonical, hkey, hbound, table.bound _ hentry⟩
        have hdistinct : ((table.entries ++ []).map Prod.fst).Nodup := by
          rw [List.append_nil]
          exact table.distinct
        refine ((Gathering.start hsound hheld hfirst).ends_bindings hslot
          rfl hsource hchunks hentries hdistinct rfl).mono
          (fun count t hmerged => ?_) fun _ _ htrue => htrue
        obtain ⟨news, hcount, h⟩ := hmerged
        rw [List.append_nil] at h
        obtain ⟨merged, hadopts⟩ := h.adopts hsource htable
        exact ⟨table, target, first, merged, t.newHandle, htable, hvalue,
          hcount ▸ hadopts⟩
    | _ => trivial
  refine (hadds.and (hready.ends_mergeTable hsource hchunks handle index)).mono
    (fun _ _ h => h.1) fun _ t h target first hvalue hfirst => ?_
  obtain ⟨_, _, _, hkeeps⟩ := h
  obtain ⟨i, hslot, -⟩ := Context.absoluteIndex_of_valueAt hvalue (by simp)
  have hreached : dest.Reaches target :=
    Context.reaches_of_mem_stack
      (Array.mem_toList_iff.2 (Array.mem_of_getElem? hslot)) rfl
  exact (hkeeps.objects target
    ⟨hreached, Option.isSome_of_mem hfirst⟩).trans hfirst

end Transfer

namespace Context

variable {source dest : Context} {settings : TransferSettings}

/-- What is reported makes no difference, and only the heap does in the end. -/
theorem Merged.congr {c c' : Context} {notice : Notice} {handle : Handle}
    {index : Int} {count : Nat}
    (h : source.Merged (dest.note notice) c settings handle index count)
    (hheap : c'.heap = c.heap) :
    source.Merged dest c' settings handle index count := by
  obtain ⟨table, target, first, merged, rename, htable, hvalue, hadopts⟩ := h
  refine ⟨table, target, first, merged, rename, htable, hvalue,
    ⟨hadopts.before, ?_, hadopts.kept,
      hadopts.lacking, hadopts.entries, hadopts.counted, hadopts.size, ?_, ?_⟩⟩
  · exact hheap ▸ hadopts.after
  · obtain ⟨hportable, hinjective, hfresh, htables, hfunctions, hcells⟩ :=
      hadopts.copies
    exact ⟨hportable, hinjective, hfresh, hheap ▸ htables, hheap ▸ hfunctions,
      hheap ▸ hcells⟩
  · exact hheap ▸ hadopts.others

/-- A merge adds to the table at an index of the stack, or on top of it,
copies of exactly the bindings that it lacked, or it leaves the table with the
bindings that it had. -/
theorem merge_adopts {chunks : List UInt8 → String → Prop}
    (hsource : source.WellFormed) (hdest : dest.WellFormed)
    (hchunks : Chunk.Cache.Distinguished chunks)
    (hcache : dest.cache.Genuine chunks)
    (htravelling : ∀ bytes name, source.Travelling settings bytes name →
      chunks bytes name) :
    (∀ handle index,
      Ends (Transfer.mergeTable source settings handle index (.start dest))
        (fun count t => source.Merged dest t.dest settings handle index count)
        fun _ t => dest.Unmerged t.dest index) ∧
    ∀ index, Ends (source.receiveBindings index settings dest)
      (fun count c => ∃ handle, source.tableRefAt index = .ok handle ∧
        source.Merged dest c settings handle dest.stack.size count)
      fun _ c => dest.Unmerged c dest.stack.size := by
  have htrusted := hcache.trusted hchunks htravelling
  have hdistinguished := hchunks.mono htravelling
  refine ⟨Transfer.ends_mergeTable_start
    (Transfer.sound_start hdest htrusted) hsource
    hdistinguished, fun index => ?_⟩
  simp only [receiveBindings]
  cases hhandle : source.tableRefAt index with
  | error error => exact fun _ _ _ hfirst => hfirst
  | ok handle =>
    have hsound : Transfer.Sound source settings
        (.start (dest.note (.mergeStarted dest.stack.size))) :=
      Transfer.sound_start (hdest.note _) htrusted
    have hmerge := Transfer.ends_mergeTable_start hsound hsource
      hdistinguished handle dest.stack.size
    dsimp only
    cases hresult : Transfer.mergeTable source settings handle dest.stack.size
        (.start (dest.note (.mergeStarted dest.stack.size))) with
    | ok count t =>
      exact ⟨handle, rfl, Merged.congr (hmerge.ok hresult) t.finish_dest.2⟩
    | error error t =>
      intro target first hvalue hfirst
      change t.finish.2.heap.get? target = _
      rw [t.finish_dest.2]
      exact hmerge.error hresult target first hvalue hfirst

/-- What is already bound in this table is kept when the table of
`knotted` is merged. -/
def greeted : Context :=
  holding [.table .empty,
    .table (Table.empty.set (.string "self") (.integer 7))] #[.table ⟨1⟩]

theorem wellFormed_greeted : greeted.WellFormed := by
  refine wellFormed_holding (fun object hobject => ?_)
    (fun value hvalue => ?_) ⟨_, rfl⟩
  · simp only [List.mem_cons, List.not_mem_nil, or_false] at hobject
    rcases hobject with rfl | rfl
    · exact holds_empty
    · intro key value hentry
      cases List.mem_singleton.1 hentry
      exact ⟨rfl, trivial, trivial⟩
  · cases List.mem_singleton.1 hvalue
    exact ⟨_, rfl⟩

theorem isOk_merge_greeted :
    (failureOf (knotted.receiveBindings 1 {} greeted)).isNone = true ∧
      (failureOf (Transfer.mergeTable knotted {} ⟨1⟩ 1
        (.start greeted))).isNone = true := by
  decide +kernel

/-- One of the two bindings was lacking. -/
theorem merge_adopts_greeted :
    (∃ count t,
      Transfer.mergeTable knotted {} ⟨1⟩ 1 (.start greeted) = .ok count t ∧
        knotted.Merged greeted t.dest {} ⟨1⟩ 1 count) ∧
    ∃ count c handle, knotted.receiveBindings 1 {} greeted = .ok count c ∧
      knotted.tableRefAt 1 = .ok handle ∧
      knotted.Merged greeted c {} handle greeted.stack.size count := by
  obtain ⟨hmerge, hreceive⟩ := merge_adopts wellFormed_knotted
    wellFormed_greeted distinguished_knotted nofun fun _ _ h => h
  obtain ⟨hreceived, hmerged⟩ := isOk_merge_greeted
  refine ⟨?_, ?_⟩
  · cases hresult : Transfer.mergeTable knotted {} ⟨1⟩ 1 (.start greeted) with
    | ok count t => exact ⟨count, t, rfl, (hmerge ⟨1⟩ 1).ok hresult⟩
    | error error t =>
      rw [hresult] at hmerged
      cases hmerged
  · cases hresult : knotted.receiveBindings 1 {} greeted with
    | ok count c =>
      obtain ⟨handle, hhandle, h⟩ := (hreceive 1).ok hresult
      exact ⟨count, c, handle, rfl, hhandle, h⟩
    | error error c =>
      rw [hresult] at hreceived
      cases hreceived

end Context

end Isolate
