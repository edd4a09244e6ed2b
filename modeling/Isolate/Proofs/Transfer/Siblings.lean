import Isolate.Proofs.Context.Isomorphism
import Isolate.Proofs.Transfer.Fidelity

/-!
# Copies of one value

Copies of one value in two contexts that have kept the same base are isomorphic,
whatever else was copied into them before.  What the base had is paired with
itself, each copy with the other copy of the same object, and each captured
variable with the one in the same place of the other copy.
-/

namespace Isolate

/-- The key with its table or function renamed. -/
def Key.rename (rename : Handle → Handle) : Key → Key
  | .table handle => .table (rename handle)
  | .function handle => .function (rename handle)
  | plain => plain

theorem Key.toValue_rename (key : Key) (rename : Handle → Handle) :
    (key.rename rename).toValue = key.toValue.rename rename := by
  cases key <;> rfl

namespace Context

variable {source base dest dest' c d : Context} {settings : TransferSettings}
  {root value : Value} {rename rename' : Handle → Handle} {handle cell : Handle}

/-! ## One copy -/

section Faithful

variable (h : source.Faithful dest c settings root rename)
include h

theorem Faithful.handle?_rename (hvalue : source.Travels root value)
    (hhandle : value.handle? = some handle) :
    (value.rename rename).handle? = some (rename handle) := by
  cases value with
  | table =>
    cases hhandle
    rfl
  | function =>
    cases hhandle
    rfl
  | userdata found => exact ((h.portable _ hvalue).2 found rfl).elim
  | _ => cases hhandle

variable (hsource : source.WellFormed) (hroot : source.Names root)
include hsource hroot

/-- A copy is no captured variable. -/
theorem Faithful.ne_cell (hvalue : source.Travels root value)
    (hhandle : value.handle? = some handle) (held : Value) :
    c.heap.get? (rename handle) ≠ some (.cell held) := by
  intro hheld
  have hnames := hsource.names_of_travels hroot hvalue
  cases value with
  | table =>
    cases hhandle
    obtain ⟨table, htable⟩ := hnames
    obtain ⟨copied, hcopied, -⟩ := h.tables _ table hvalue htable
    cases hheld.symm.trans hcopied
  | function =>
    cases hhandle
    obtain ⟨closure, hclosure⟩ := hnames
    obtain ⟨copied, hcopied, -⟩ := h.functions _ closure hvalue hclosure
    cases hheld.symm.trans hcopied
  | userdata found => exact (h.portable _ hvalue).2 found rfl
  | _ => cases hhandle

/-- What a cell of a copied function holds. -/
theorem Faithful.of_cell (hfunction : source.Travels root (.function handle))
    {copied : Closure} {i : Nat}
    (hcopied : c.heap.get? (rename handle) = some (.closure copied))
    (hcell : copied.cells[i]? = some cell) :
    ∃ name value,
      (source.upvalues (.function handle))[i]? = some (name, value) ∧
        ¬dest.Live cell ∧ c.heap.get? cell = some (.cell
          (if i = 0 ∧ source.bindsGlobals name value = true then
            dest.globalsValue else value.rename rename)) := by
  obtain ⟨closure, hclosure⟩ := hsource.names_of_travels hroot hfunction
  obtain ⟨found, hfound, -, hsize, hupvalues⟩ :=
    h.functions handle closure hfunction hclosure
  cases hcopied.symm.trans hfound
  have hi : i < (source.upvalues (.function handle)).length := by
    rw [hsource.length_upvalues hclosure, ← hsize]
    exact (Array.getElem?_eq_some_iff.1 hcell).1
  have hupvalue := List.getElem?_eq_getElem hi
  obtain ⟨cell', hcell', hfresh, hheld⟩ := hupvalues i _ _ hupvalue
  cases hcell.symm.trans hcell'
  exact ⟨_, _, hupvalue, hfresh, hheld⟩

/-- Every copy is live in the end. -/
theorem Faithful.live (hc : c.WellFormed) (hvalue : source.Travels root value)
    (hhandle : value.handle? = some handle) : c.Live (rename handle) := by
  induction hvalue generalizing handle with
  | root =>
    have htop : root.rename rename ∈ c.stack.toList := by
      rw [h.pushed, Array.toList_push]
      exact List.mem_append_right _ List.mem_cons_self
    have hrenamed := h.handle?_rename .root hhandle
    exact ⟨reaches_of_mem_stack htop hrenamed,
      (hc.stack _ htop).isSome hrenamed⟩
  | @key parent table key _ hparent htable hentry ih =>
    obtain ⟨copied, hcopied, hentries⟩ := h.tables parent table hparent htable
    refine hc.live_of_child (ih rfl) hcopied (Object.mem_children_of_entry
      ((hentries (key.rename rename) _).2
        ⟨key, _, hentry, key.toValue_rename rename, rfl⟩) (Or.inl ?_))
    rw [key.toValue_rename]
    exact h.handle?_rename (.key hparent htable hentry) hhandle
  | @value parent table key value hparent htable hentry ih =>
    obtain ⟨copied, hcopied, hentries⟩ := h.tables parent table hparent htable
    exact hc.live_of_child (ih rfl) hcopied (Object.mem_children_of_entry
      ((hentries (key.rename rename) _).2
        ⟨key, value, hentry, key.toValue_rename rename, rfl⟩)
        (Or.inr (h.handle?_rename (.value hparent htable hentry) hhandle)))
  | @captured parent i name value hparent hupvalue hplace ih =>
    obtain ⟨closure, hclosure⟩ := hsource.names_of_travels hroot hparent
    obtain ⟨copied, hcopied, -, -, hcells⟩ :=
      h.functions parent closure hparent hclosure
    obtain ⟨cell, hcell, -, hheld⟩ := hcells i name value hupvalue
    rw [if_neg hplace] at hheld
    have hchild := Array.mem_toList_iff.2 (Array.mem_of_getElem? hcell)
    refine hc.live_of_child (hc.live_of_child (ih rfl) hcopied hchild) hheld ?_
    exact Option.mem_toList.2
      (h.handle?_rename (.captured hparent hupvalue hplace) hhandle)

end Faithful

/-! ## Two copies -/

/-- What two copies of a value, made by two renamings, have in common: what
was there before, the copies of the same object, and their captured variables
in the same place. -/
inductive Paired (source base c d : Context) (root : Value)
    (rename rename' : Handle → Handle) :
    Handle → Handle → Prop
  | kept {handle : Handle} (h : base.Live handle) :
      Paired source base c d root rename rename' handle handle
  | copy {value : Value} {handle : Handle} (hvalue : source.Travels root value)
      (hhandle : value.handle? = some handle) :
      Paired source base c d root rename rename' (rename handle)
        (rename' handle)
  | cell {handle cell cell' : Handle} {copied copied' : Closure} {i : Nat}
      (hfunction : source.Travels root (.function handle))
      (hcopied : c.heap.get? (rename handle) = some (.closure copied))
      (hcopied' : d.heap.get? (rename' handle) = some (.closure copied'))
      (hcell : copied.cells[i]? = some cell)
      (hcell' : copied'.cells[i]? = some cell') :
      Paired source base c d root rename rename' cell cell'

theorem Paired.symm {left right : Handle}
    (h : Paired source base c d root rename rename' left right) :
    Paired source base d c root rename' rename right left := by
  cases h with
  | kept h => exact .kept h
  | copy hvalue hhandle => exact .copy hvalue hhandle
  | cell hfunction hcopied hcopied' hcell hcell' =>
    exact .cell hfunction hcopied' hcopied hcell' hcell

/-- A context that has kept a base has got a copy of a value. -/
structure Received (source base dest c : Context) (settings : TransferSettings)
    (root : Value) (rename : Handle → Handle) : Prop
    extends source.Faithful dest c settings root rename where
  before : base.Keeps dest
  keeps : dest.Keeps c
  wellFormed : c.WellFormed

section Siblings

variable (hsource : source.WellFormed) (hroot : source.Names root)
  (h : Received source base dest c settings root rename)

section

include hsource hroot h

theorem Paired.functional {left right right' : Handle}
    (hpair : Paired source base c d root rename rename' left right)
    (hpair' : Paired source base c d root rename rename' left right') :
    right = right' := by
  have hfresh : ∀ {handle cell : Handle} {copied : Closure} {i : Nat},
      source.Travels root (.function handle) →
      c.heap.get? (rename handle) = some (.closure copied) →
      copied.cells[i]? = some cell →
      (∃ held, c.heap.get? cell = some (.cell held)) ∧ ¬base.Live cell := by
    intro handle cell copied i hfunction hcopied hcell
    obtain ⟨_, _, -, hfresh, hheld⟩ :=
      h.of_cell hsource hroot hfunction hcopied hcell
    exact ⟨⟨_, hheld⟩, fun hlive => hfresh (h.before.live hlive)⟩
  cases hpair with
  | kept hlive =>
    cases hpair' with
    | kept => rfl
    | copy hvalue hhandle =>
      exact (h.fresh _ _ hvalue hhandle (h.before.live hlive)).elim
    | cell hfunction hcopied _ hcell _ =>
      exact ((hfresh hfunction hcopied hcell).2 hlive).elim
  | @copy value handle hvalue hhandle =>
    generalize hleft : rename handle = left at hpair'
    cases hpair' with
    | kept hlive =>
      exact (h.fresh _ _ hvalue hhandle (h.before.live (hleft ▸ hlive))).elim
    | copy hvalue' hhandle' =>
      rw [h.injective _ _ _ _ hvalue hvalue' hhandle hhandle' hleft]
    | cell hfunction hcopied _ hcell _ =>
      obtain ⟨⟨held, hheld⟩, -⟩ := hfresh hfunction hcopied hcell
      exact (h.ne_cell hsource hroot hvalue hhandle held (hleft ▸ hheld)).elim
  | cell hfunction hcopied hcopied' hcell hcell' =>
    obtain ⟨⟨held, hheld⟩, hnew⟩ := hfresh hfunction hcopied hcell
    cases hpair' with
    | kept hlive => exact (hnew hlive).elim
    | copy hvalue hhandle =>
      exact (h.ne_cell hsource hroot hvalue hhandle held hheld).elim
    | cell hfunction₂ hcopied₂ hcopied₂' hcell₂ hcell₂' =>
      obtain ⟨rfl, rfl⟩ :=
        h.cells _ _ _ _ _ _ _ hfunction hfunction₂ hcopied hcopied₂ hcell hcell₂
      cases hcopied'.symm.trans hcopied₂'
      exact Option.some.inj (hcell'.symm.trans hcell₂')

/-- What is paired is live. -/
theorem Paired.live {left right : Handle}
    (hpair : Paired source base c d root rename rename' left right) :
    c.Live left := by
  cases hpair with
  | kept hlive => exact (h.before.trans h.keeps).live hlive
  | copy hvalue hhandle =>
    exact h.live hsource hroot h.wellFormed hvalue hhandle
  | cell hfunction hcopied _ hcell _ =>
    exact h.wellFormed.live_of_child
      (h.live hsource hroot h.wellFormed hfunction rfl) hcopied
      (Array.mem_toList_iff.2 (Array.mem_of_getElem? hcell))

end

variable {pairs : Handle → Handle → Prop}

/-- Copies of a value are alike. -/
theorem Faithful.alike_rename (h : source.Faithful dest c settings root rename)
    (hvalue : source.Travels root value)
    (hpairs : ∀ handle, value.handle? = some handle →
      pairs (rename handle) (rename' handle)) :
    (value.rename rename).Alike pairs (value.rename rename') := by
  cases value with
  | table handle => exact .table (hpairs handle rfl)
  | function handle => exact .function (hpairs handle rfl)
  | userdata found => exact ((h.portable _ hvalue).2 found rfl).elim
  | _ => exact .plain rfl

/-- Copies of a table have entries that are alike. -/
theorem Faithful.alike_entries (h : source.Faithful dest c settings root rename)
    (h' : source.Faithful dest' d settings root rename')
    {table copied copied' : Table}
    (htable : source.Travels root (.table handle))
    (hobject : source.heap.get? handle = some (.table table))
    (hcopied : c.heap.get? (rename handle) = some (.table copied))
    (hcopied' : d.heap.get? (rename' handle) = some (.table copied'))
    (hpairs : ∀ value handle, source.Travels root value →
      value.handle? = some handle → pairs (rename handle) (rename' handle)) :
    Entries.Alike pairs copied.entries copied'.entries := by
  intro key value hentry
  obtain ⟨found, hfound, hentries⟩ := h.tables handle table htable hobject
  obtain ⟨found', hfound', hentries'⟩ := h'.tables handle table htable hobject
  cases hcopied.symm.trans hfound
  cases hcopied'.symm.trans hfound'
  obtain ⟨key₀, value₀, hentry₀, hkey, rfl⟩ := (hentries key value).1 hentry
  refine ⟨key₀.rename rename', value₀.rename rename', (hentries' _ _).2
    ⟨key₀, value₀, hentry₀, key₀.toValue_rename rename', rfl⟩, ?_, ?_⟩
  · rw [hkey, key₀.toValue_rename]
    exact h.alike_rename (.key htable hobject hentry₀) fun handle =>
      hpairs _ handle (.key htable hobject hentry₀)
  · exact h.alike_rename (.value htable hobject hentry₀) fun handle =>
      hpairs _ handle (.value htable hobject hentry₀)

variable (h' : Received source base dest' d settings root rename')
  (hbase : base.WellFormed)
include hsource hroot h h' hbase

/-- What is paired is alike. -/
theorem Paired.alike {left right : Handle} {object object' : Object}
    (hpair : Paired source base c d root rename rename' left right)
    (hobject : c.heap.get? left = some object)
    (hobject' : d.heap.get? right = some object') :
    object.Alike (Paired source base c d root rename rename') object' := by
  cases hpair with
  | kept hlive =>
    have hsame := (h.before.trans h.keeps).objects left hlive
    have hsame' := (h'.before.trans h'.keeps).objects left hlive
    cases (hobject.symm.trans hsame).trans (hsame'.symm.trans hobject')
    exact .self fun child hchild =>
      .kept (hbase.live_of_child hlive (hsame.symm.trans hobject) hchild)
  | @copy value handle hvalue hhandle =>
    have hnames := hsource.names_of_travels hroot hvalue
    cases value with
    | table =>
      cases hhandle
      obtain ⟨table, htable⟩ := hnames
      obtain ⟨copied, hcopied, -⟩ := h.tables handle table hvalue htable
      obtain ⟨copied', hcopied', -⟩ := h'.tables handle table hvalue htable
      cases hobject.symm.trans hcopied
      cases hobject'.symm.trans hcopied'
      exact .table
        (h.alike_entries h'.toFaithful hvalue htable hcopied hcopied'
          fun _ _ => .copy)
        (h'.alike_entries h.toFaithful hvalue htable hcopied' hcopied
          fun _ _ => .copy)
    | function =>
      cases hhandle
      obtain ⟨closure, hclosure⟩ := hnames
      obtain ⟨copied, hcopied, hproto, hsize, -⟩ :=
        h.functions handle closure hvalue hclosure
      obtain ⟨copied', hcopied', hproto', hsize', -⟩ :=
        h'.functions handle closure hvalue hclosure
      cases hobject.symm.trans hcopied
      cases hobject'.symm.trans hcopied'
      exact .closure (hproto.trans hproto'.symm) (hsize.trans hsize'.symm)
        fun i cell cell' => .cell hvalue hcopied hcopied'
    | userdata found => exact ((h.portable _ hvalue).2 found rfl).elim
    | _ => cases hhandle
  | @cell handle _ _ copied copied' i hfunction hcopied hcopied' hcell hcell' =>
    obtain ⟨name, value, hupvalue, -, hheld⟩ :=
      h.of_cell hsource hroot hfunction hcopied hcell
    obtain ⟨_, _, hupvalue', -, hheld'⟩ :=
      h'.of_cell hsource hroot hfunction hcopied' hcell'
    cases hupvalue.symm.trans hupvalue'
    cases hobject.symm.trans hheld
    cases hobject'.symm.trans hheld'
    refine .cell ?_
    split
    · rw [globalsValue, globalsValue, h.before.globals, h'.before.globals]
      exact .table (.kept (live_globals hbase))
    · next hplace =>
      have hvalue : source.Travels root value :=
        .captured hfunction hupvalue hplace
      exact h.alike_rename hvalue fun _ => .copy hvalue

/-- Copies of one value are isomorphic. -/
theorem Received.isomorphic :
    c.Isomorphic d (root.rename rename) (root.rename rename') := by
  refine ⟨Paired source base c d root rename rename', ⟨?_, ?_, ?_, ?_, ?_⟩, ?_⟩
  · exact fun _ _ _ => Paired.functional hsource hroot h
  · exact fun _ _ _ hpair hpair' =>
      Paired.functional hsource hroot h' hpair.symm hpair'.symm
  · exact fun _ _ hpair =>
      ⟨Paired.live hsource hroot h hpair,
        Paired.live hsource hroot h' hpair.symm⟩
  · exact fun _ _ _ _ => Paired.alike hsource hroot h h' hbase
  · rw [(h.before.trans h.keeps).globals, (h'.before.trans h'.keeps).globals]
    exact .kept (live_globals hbase)
  · exact h.alike_rename .root fun _ => .copy .root

end Siblings

end Context

end Isolate
