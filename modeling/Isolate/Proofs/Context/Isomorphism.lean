import Isolate.Proofs.Context.Keeping

/-!
# Isomorphic values

Two values, each in its own context, are isomorphic if everything that they lead
to is the same but for the slots that it lies in.  A matching pairs the slots
one to one, and what lies in them holds the same plain data and paired handles.
-/

namespace Isolate

variable {pairs : Handle → Handle → Prop}

/-- The same plain data, or handles of a pair. -/
inductive Value.Alike (pairs : Handle → Handle → Prop) : Value → Value → Prop
  | plain {value : Value} (h : value.handle? = none) : Alike pairs value value
  | table {left right : Handle} (h : pairs left right) :
      Alike pairs (.table left) (.table right)
  | function {left right : Handle} (h : pairs left right) :
      Alike pairs (.function left) (.function right)
  | userdata {left right : Handle} (h : pairs left right) :
      Alike pairs (.userdata left) (.userdata right)

theorem Value.Alike.self {value : Value}
    (h : ∀ handle, value.handle? = some handle → pairs handle handle) :
    value.Alike pairs value := by
  cases value with
  | table handle => exact .table (h handle rfl)
  | function handle => exact .function (h handle rfl)
  | userdata handle => exact .userdata (h handle rfl)
  | _ => exact .plain rfl

theorem Value.Alike.symm {value other : Value} (h : value.Alike pairs other) :
    other.Alike (fun right left => pairs left right) value := by
  cases h with
  | plain h => exact .plain h
  | table h => exact .table h
  | function h => exact .function h
  | userdata h => exact .userdata h

/-- Every entry of one list is like an entry of the other. -/
def Entries.Alike (pairs : Handle → Handle → Prop)
    (entries others : List (Key × Value)) : Prop :=
  ∀ key value, (key, value) ∈ entries → ∃ key' value', (key', value') ∈ others ∧
    key.toValue.Alike pairs key'.toValue ∧ value.Alike pairs value'

/-- Objects of one kind that hold like values; the order of bindings does not
matter. -/
inductive Object.Alike (pairs : Handle → Handle → Prop) : Object → Object → Prop
  | table {left right : Table}
      (forth : Entries.Alike pairs left.entries right.entries)
      (back : Entries.Alike (fun y x => pairs x y) right.entries left.entries) :
      Alike pairs (.table left) (.table right)
  | closure {left right : Closure} (hproto : left.proto = right.proto)
      (hsize : left.cells.size = right.cells.size)
      (hcells : ∀ (i : Nat) (cell cell' : Handle), left.cells[i]? = some cell →
        right.cells[i]? = some cell' → pairs cell cell') :
      Alike pairs (.closure left) (.closure right)
  | cell {left right : Value} (h : left.Alike pairs right) :
      Alike pairs (.cell left) (.cell right)
  | userdata (block : Userdata) :
      Alike pairs (.userdata block) (.userdata block)

theorem Object.Alike.self {object : Object}
    (h : ∀ handle ∈ object.children, pairs handle handle) :
    object.Alike pairs object := by
  cases object with
  | table table =>
    have hentries : ∀ key value, (key, value) ∈ table.entries →
        ∀ handle, key.toValue.handle? = some handle ∨
          value.handle? = some handle →
          pairs handle handle := fun _ _ hentry handle hhandle =>
      h handle (mem_children_of_entry hentry hhandle)
    refine .table (fun key value hentry => ⟨key, value, hentry, ?_⟩)
      fun key value hentry => ⟨key, value, hentry, ?_⟩
    · exact ⟨.self fun handle hhandle =>
        hentries key value hentry handle (Or.inl hhandle),
        .self fun handle hhandle =>
          hentries key value hentry handle (Or.inr hhandle)⟩
    · exact ⟨.self fun handle hhandle =>
        hentries key value hentry handle (Or.inl hhandle),
        .self fun handle hhandle =>
          hentries key value hentry handle (Or.inr hhandle)⟩
  | closure closure =>
    refine .closure rfl rfl fun i cell cell' hcell hcell' => ?_
    cases hcell.symm.trans hcell'
    exact h cell (Array.mem_toList_iff.2 (Array.mem_of_getElem? hcell))
  | cell value =>
    exact .cell (.self fun handle hhandle =>
      h handle (Option.mem_toList.2 hhandle))
  | userdata block => exact .userdata block

theorem Object.Alike.symm {left right : Object} (h : left.Alike pairs right) :
    right.Alike (fun y x => pairs x y) left := by
  cases h with
  | table forth back => exact .table back forth
  | closure hproto hsize hcells =>
    exact .closure hproto.symm hsize.symm fun i cell cell' hcell hcell' =>
      hcells i cell' cell hcell' hcell
  | cell h => exact .cell h.symm
  | userdata block => exact .userdata block

namespace Context

variable {c c' d : Context} {value other : Value}

/-- Live objects of two contexts are paired one to one with objects that are
alike, and the globals with the globals. -/
structure Matching (c d : Context) (pairs : Handle → Handle → Prop) : Prop where
  functional : ∀ left right right', pairs left right → pairs left right' →
    right = right'
  injective : ∀ left left' right, pairs left right → pairs left' right →
    left = left'
  live : ∀ left right, pairs left right → c.Live left ∧ d.Live right
  alike : ∀ left right object object', pairs left right →
    c.heap.get? left = some object →
    d.heap.get? right = some object' → object.Alike pairs object'
  globals : pairs c.globals d.globals

/-- A value of one context and a value of another one lead to the same. -/
def Isomorphic (c d : Context) (value other : Value) : Prop :=
  ∃ pairs, c.Matching d pairs ∧ value.Alike pairs other

theorem Matching.symm (h : c.Matching d pairs) :
    d.Matching c fun right left => pairs left right where
  functional := fun _ _ _ hpair hpair' => h.injective _ _ _ hpair hpair'
  injective := fun _ _ _ hpair hpair' => h.functional _ _ _ hpair hpair'
  live := fun _ _ hpair => (h.live _ _ hpair).symm
  alike := fun _ _ _ _ hpair hobject hobject' =>
    (h.alike _ _ _ _ hpair hobject' hobject).symm
  globals := h.globals

theorem Isomorphic.symm (h : c.Isomorphic d value other) :
    d.Isomorphic c other value := by
  obtain ⟨pairs, hmatching, halike⟩ := h
  exact ⟨_, hmatching.symm, halike.symm⟩

/-- What is kept stays matched. -/
theorem Matching.of_keeps (h : c.Matching d pairs) (hkeeps : c.Keeps c') :
    c'.Matching d pairs where
  functional := h.functional
  injective := h.injective
  live := fun left right hpair =>
    ⟨hkeeps.live (h.live left right hpair).1, (h.live left right hpair).2⟩
  alike := fun left right object object' hpair hobject hobject' =>
    h.alike left right object object' hpair
      ((hkeeps.objects left (h.live left right hpair).1).symm.trans hobject)
      hobject'
  globals := hkeeps.globals ▸ h.globals

theorem Isomorphic.of_keeps (h : c.Isomorphic d value other)
    (hkeeps : c.Keeps c') : c'.Isomorphic d value other := by
  obtain ⟨pairs, hmatching, halike⟩ := h
  exact ⟨pairs, hmatching.of_keeps hkeeps, halike⟩

end Context

end Isolate
