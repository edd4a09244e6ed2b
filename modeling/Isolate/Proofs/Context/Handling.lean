import Isolate.Proofs.Chunk.RoundTrip
import Isolate.Proofs.Context.Chunks
import Isolate.Proofs.Context.Intact

/-!
# Operations on an intact context

What the operations of a context do to an intact one.  A value that is taken off
the stack, found in a table or read from a cell names something, and goes on
naming it until the next collection, because assignments change no object's
kind.
-/

namespace Isolate.Context

variable {ctx c : Context} {handle : Handle} {value key : Value}
  {index : Int} {α : Type}

/-! ## Queries -/

theorem Intact.ends_query (h : ctx.Intact) {f : Context → Except RuntimeError α}
    (hf : ∀ e, f ctx = .error e → ¬e.Dangles) :
    Ends (query f ctx) (fun a c => c = ctx ∧ f ctx = .ok a) FailsIntact :=
  Context.ends_query.2 ⟨fun _ ha => ⟨rfl, ha⟩, fun e he => h.fails (hf e he)⟩

theorem tableRefAt_eq_ok_iff : ctx.tableRefAt index = .ok handle ↔
    ctx.valueAt index = .ok (.table handle) := by
  simp only [tableRefAt]
  cases hvalue : ctx.valueAt index with
  | error e => constructor <;> rintro ⟨⟩
  | ok value =>
    cases value with
    | table found =>
      constructor
      · rintro ⟨⟩
        rfl
      · rintro ⟨⟩
        rfl
    | _ => constructor <;> rintro ⟨⟩

/-- The handle of a table that a value names is the handle of a table. -/
theorem Names.tableOf (h : ctx.Names (.table handle)) :
    ∃ table, ctx.tableOf handle = .ok table := by
  obtain ⟨table, htable⟩ := h
  exact ⟨table, tableOf_eq_ok_iff.2 htable⟩

theorem Names.not_dangles_of_tableOf (h : ctx.Names (.table handle))
    {e : RuntimeError} (herror : ctx.tableOf handle = .error e) :
    ¬e.Dangles := by
  obtain ⟨table, htable⟩ := h.tableOf
  cases herror.symm.trans htable

theorem Intact.not_dangles_of_tableAt (h : ctx.Intact) {e : RuntimeError}
    (herror : ctx.tableAt index = .error e) : ¬e.Dangles := by
  obtain hhandle | ⟨handle, hhandle, htable⟩ := eq_error_of_bind herror
  · exact (misplaced_of_tableRefAt hhandle).not_dangles
  · exact (h.names_of_valueAt
      (tableRefAt_eq_ok_iff.1 hhandle)).not_dangles_of_tableOf htable

theorem Intact.names_of_tableAt (h : ctx.Intact) {table : Table}
    (htable : ctx.tableAt index = .ok table) : ctx.Holds (.table table) := by
  simp only [tableAt] at htable
  cases hhandle : ctx.tableRefAt index with
  | error e =>
    rw [hhandle] at htable
    cases htable
  | ok handle =>
    rw [hhandle] at htable
    exact h.objects handle _ (tableOf_eq_ok_iff.1 htable)

/-- Looking a key up in a table finds a value that names something. -/
theorem Intact.lookupKey (h : ctx.Intact) (hhandle : ctx.Names (.table handle))
    (key : Value) :
    ∃ value, ctx.lookupKey handle key = .ok value ∧ ctx.Names value := by
  obtain ⟨table, htable⟩ := hhandle
  cases hkey : key.key? with
  | some found =>
    exact ⟨_, lookupKey_eq htable hkey, (h.objects handle _ htable).get found⟩
  | none =>
    refine ⟨.nil, ?_, trivial⟩
    simp only [Context.lookupKey]
    rw [tableOf_eq_ok_iff.2 htable, hkey]
    rfl

theorem Names.not_dangles_of_lengthOf (h : ctx.Names value) {e : RuntimeError}
    (herror : ctx.lengthOf value = .error e) : ¬e.Dangles := by
  cases value with
  | table handle => exact h.not_dangles_of_tableOf (eq_error_of_map herror)
  | string s => cases herror
  | _ =>
    cases herror
    exact id

theorem Intact.not_dangles_of_rawLength (h : ctx.Intact) {e : RuntimeError}
    (herror : ctx.rawLength index = .error e) : ¬e.Dangles := by
  obtain hvalue | ⟨value, hvalue, hlength⟩ := eq_error_of_bind herror
  · exact (misplaced_of_valueAt hvalue).not_dangles
  · exact (h.names_of_valueAt hvalue).not_dangles_of_lengthOf hlength

theorem Intact.not_dangles_of_tablePairs (h : ctx.Intact) {e : RuntimeError}
    (herror : ctx.tablePairs index = .error e) : ¬e.Dangles := by
  obtain htable | ⟨table, -, hpairs⟩ := eq_error_of_bind herror
  · exact h.not_dangles_of_tableAt htable
  · cases hpairs

theorem Intact.ends_valueAt (h : ctx.Intact) (index : Int) :
    Ends (query (·.valueAt index) ctx)
      (fun value c => c = ctx ∧ ctx.Names value) FailsIntact :=
  (h.ends_query fun _ he => (misplaced_of_valueAt he).not_dangles).mono
    (fun _ _ hc => ⟨hc.1, h.names_of_valueAt hc.2⟩) fun _ _ he => he

theorem Intact.ends_tableRefAt (h : ctx.Intact) (index : Int) :
    Ends (query (·.tableRefAt index) ctx) (fun handle c =>
      c = ctx ∧ ctx.Names (.table handle)) FailsIntact :=
  (h.ends_query fun _ he => (misplaced_of_tableRefAt he).not_dangles).mono
    (fun _ _ hc => ⟨hc.1, h.names_of_valueAt (tableRefAt_eq_ok_iff.1 hc.2)⟩)
    fun _ _ he => he

/-! ## The stack -/

theorem Intact.ends_push (h : ctx.Intact) (hvalue : ctx.Names value) :
    Ends (Context.push value ctx) (fun _ c => c.Intact) FailsIntact :=
  h.push hvalue

theorem Intact.ends_popTop (h : ctx.Intact) :
    Ends (popTop ctx)
      (fun value c =>
        c.Intact ∧ c.heap = ctx.heap ∧ ctx.Names value ∧
            c.stack = ctx.stack.pop)
      FailsIntact := by
  simp only [popTop]
  cases hback : ctx.stack.back? with
  | none => exact h.fails id
  | some value =>
    refine ⟨h.withStack fun found hfound => h.stack found ?_, rfl,
      h.stack value ?_, rfl⟩
    · rw [Array.toList_pop] at hfound
      exact (List.dropLast_sublist _).subset hfound
    · exact Array.mem_toList_iff.2 (Array.mem_of_back? hback)

theorem Intact.ends_pop (h : ctx.Intact) (count : Nat) :
    Ends (pop count ctx) (fun _ c => c.Intact) FailsIntact := by
  simp only [pop]
  split
  · exact h.truncateStack _
  · exact h.fails id

theorem Intact.ends_setHeight (h : ctx.Intact) (index : Int) :
    Ends (setHeight index ctx) (fun _ c => c.Intact) FailsIntact := by
  simp only [setHeight]
  split
  · exact h.fails id
  · split
    · exact h.fails id
    · exact h.resizeStack _

theorem Intact.ends_duplicate (h : ctx.Intact) (index : Int) :
    Ends (duplicate index ctx) (fun _ c => c.Intact) FailsIntact := by
  refine (h.ends_valueAt index).look fun value hvalue => ?_
  exact h.push hvalue

theorem Intact.ends_remove (h : ctx.Intact) (index : Int) :
    Ends (remove index ctx) (fun _ c => c.Intact) FailsIntact := by
  refine (h.ends_query fun e he => (misplaced_of_slotOf he).not_dangles).look
    fun slot hslot => ?_
  refine (h.ends_valueAt index).look fun value hvalue => ?_
  refine h.withStack fun found hfound => h.stack found ?_
  rw [Array.mem_toList_iff] at hfound ⊢
  simp only [Array.eraseIdxIfInBounds] at hfound
  split at hfound
  · exact Array.mem_of_mem_eraseIdx hfound
  · exact hfound

theorem Intact.ends_newTable (h : ctx.Intact) :
    Ends (newTable ctx) (fun _ c => c.Intact) FailsIntact := by
  refine h.ends_collectIfDue.bind fun _ c hc => ?_
  refine (hc.1.ends_allocate holds_empty nofun).bind fun new c' hc' => ?_
  exact hc'.1.push ⟨_, hc'.2.2.1⟩

theorem Intact.ends_newUserdata (h : ctx.Intact) (typeName : String)
    (bytes : List UInt8) :
    Ends (newUserdata typeName bytes ctx)
      (fun _ c => c.Intact) FailsIntact := by
  have hblock : ∀ c : Context, c.Holds (.userdata { typeName, bytes }) :=
    fun _ => trivial
  refine h.ends_collectIfDue.bind fun _ c hc => ?_
  refine (hc.1.ends_allocate (hblock c) nofun).bind fun new c' hc' => ?_
  exact hc'.1.push ⟨_, hc'.2.2.1⟩

/-! ## Pins -/

theorem Intact.ends_pin (h : ctx.Intact) (index : Int) :
    Ends (pin index ctx) (fun _ c => c.Intact) FailsIntact := by
  refine (h.ends_valueAt index).look fun value hvalue => ?_
  exact h.withPin hvalue

theorem Intact.ends_pushPinned (h : ctx.Intact) (pin : Pin) :
    Ends (pushPinned pin ctx) (fun _ c => c.Intact) FailsIntact := by
  simp only [pushPinned]
  rw [ends_bind, ends_get]
  cases hpinned : ctx.pinned? pin with
  | none => exact h.fails id
  | some value => exact h.push (h.pinned pin value hpinned)

/-! ## Assignments -/

/-- An assignment keeps every object's kind. -/
theorem Intact.ends_storeKey (h : ctx.Intact)
    (hhandle : ctx.Names (.table handle)) {key : Key}
    (hkey : value ≠ .nil → key.Canonical ∧ ctx.Names key.toValue)
    (hvalue : ctx.Names value) :
    Ends (storeKey handle key value ctx)
      (fun _ c => c.Intact ∧ c.stack = ctx.stack) FailsIntact := by
  obtain ⟨table, htable⟩ := hhandle
  rw [storeKey_eq htable]
  refine ⟨h.updated ?_ fun object hobject => ?_, rfl⟩
  · rw [htable]
    exact ⟨_, rfl⟩
  · cases htable.symm.trans hobject
    exact (h.objects handle _ htable).set hkey hvalue

theorem Intact.ends_bindKey (h : ctx.Intact)
    (hhandle : ctx.Names (.table handle)) (hkey : value ≠ .nil → ctx.Names key)
    (hvalue : ctx.Names value) :
    Ends (bindKey handle key value ctx)
      (fun _ c => c.Intact ∧ c.stack = ctx.stack) FailsIntact := by
  simp only [bindKey]
  cases hfound : key.key? with
  | none => exact h.fails id
  | some found =>
    exact h.ends_storeKey hhandle
      (fun hbound =>
        ⟨Value.canonical_of_key? hfound, (hkey hbound).key hfound⟩) hvalue

theorem Intact.ends_storeCell (h : ctx.Intact) {old : Value}
    (hcell : ctx.heap.get? handle = some (.cell old))
    (hvalue : ctx.Names value) :
    Ends (storeCell handle value ctx) (fun _ c => c.Intact) FailsIntact := by
  rw [storeCell_eq hcell]
  refine h.updated ?_ fun _ _ => hvalue
  rw [hcell]
  exact ⟨_, rfl⟩

/-! ## Tables -/

theorem Intact.ends_rawGet (h : ctx.Intact) (index : Int) :
    Ends (rawGet index ctx) (fun _ c => c.Intact) FailsIntact := by
  refine (h.ends_tableRefAt index).look fun handle hhandle => ?_
  refine h.ends_popTop.bind fun key c ⟨hc, hheap, _, _⟩ => ?_
  obtain ⟨value, hvalue, hnames⟩ := hc.lookupKey (hhandle.of_heap hheap) key
  rw [bind_of_ok (query_eq hvalue)]
  exact hc.push hnames

/-- An assignment takes the key and the value off the stack. -/
theorem Intact.ends_rawSet (h : ctx.Intact) (index : Int) :
    Ends (rawSet index ctx) (fun _ c =>
      c.Intact ∧ c.stack = ctx.stack.pop.pop) FailsIntact := by
  refine (h.ends_tableRefAt index).look fun handle hhandle => ?_
  rw [ends_bind, ends_get]
  split
  · exact h.fails id
  · refine h.ends_popTop.bind fun value c ⟨hc, hheap, hvalue, hstack⟩ => ?_
    refine hc.ends_popTop.bind fun key c' ⟨hc', hheap', hkey, hstack'⟩ => ?_
    have hboth : c'.heap = ctx.heap := hheap'.trans hheap
    refine (hc'.ends_bindKey (hhandle.of_heap hboth)
      (fun _ => hkey.of_heap hheap') (hvalue.of_heap hboth)).mono
      (fun _ d hd => ⟨hd.1, ?_⟩) fun _ _ he => he
    rw [hd.2, hstack', hstack]

theorem Intact.ends_rawGetKey (h : ctx.Intact) (index : Int) (key : Key) :
    Ends (rawGetKey index key ctx) (fun _ c => c.Intact) FailsIntact := by
  refine (h.ends_query fun e he => h.not_dangles_of_tableAt he).look
    fun table htable => ?_
  exact h.push ((h.names_of_tableAt htable).get key)

theorem Intact.ends_rawSetKey (h : ctx.Intact) (index : Int) {key : Key}
    (hcanonical : key.Canonical)
    (hkey : key.handle? = none) :
    Ends (rawSetKey index key ctx) (fun _ c => c.Intact) FailsIntact := by
  refine (h.ends_tableRefAt index).look fun handle hhandle => ?_
  refine h.ends_popTop.bind fun value c ⟨hc, hheap, hvalue, _⟩ => ?_
  exact (hc.ends_storeKey (hhandle.of_heap hheap)
    (fun _ => ⟨hcanonical, names_of_plain hkey⟩) (hvalue.of_heap hheap)).mono
    (fun _ _ hd => hd.1) fun _ _ he => he

theorem Intact.ends_getGlobal (h : ctx.Intact) (name : String) :
    Ends (getGlobal name ctx) (fun _ c => c.Intact) FailsIntact := by
  obtain ⟨table, htable⟩ := h.globals
  simp only [getGlobal]
  rw [ends_bind, ends_get, tableOf_eq_ok_iff.2 htable]
  exact h.push ((h.objects _ _ htable).get _)

theorem Intact.ends_setGlobal (h : ctx.Intact) (name : String) :
    Ends (setGlobal name ctx) (fun _ c => c.Intact) FailsIntact := by
  refine h.ends_popTop.bind fun value c ⟨hc, hheap, hvalue, _⟩ => ?_
  have hkey : (Key.string name).Canonical := rfl
  rw [ends_bind, ends_get]
  exact (hc.ends_storeKey hc.globals (fun _ => ⟨hkey, trivial⟩)
    (hvalue.of_heap hheap)).mono (fun _ _ hd => hd.1) fun _ _ he => he

/-! ## Functions -/

theorem Intact.names_of_upvalue? (h : ctx.Intact) {function : Value}
    {number : Nat} {name : String}
    (hupvalue : ctx.upvalue? function number = some (name, value)) :
    ctx.Names value := by
  simp only [upvalue?] at hupvalue
  split at hupvalue
  · next handle slot =>
    obtain ⟨closure, -, hupvalue⟩ := Option.bind_eq_some_iff.1 hupvalue
    obtain ⟨cell, -, hupvalue⟩ := Option.bind_eq_some_iff.1 hupvalue
    obtain ⟨found, hfound, hupvalue⟩ := Option.bind_eq_some_iff.1 hupvalue
    cases hupvalue
    cases hcell : ctx.cellOf cell with
    | error e => simp [hcell, Except.toOption] at hfound
    | ok value =>
      rw [hcell] at hfound
      cases hfound
      exact h.names_of_cell (cellOf_eq_ok_iff.1 hcell)
  · cases hupvalue

theorem Intact.ends_getUpvalue (h : ctx.Intact) (index : Int) (number : Nat) :
    Ends (getUpvalue index number ctx) (fun _ c => c.Intact) FailsIntact := by
  refine (h.ends_valueAt index).look fun function hfunction => ?_
  rw [ends_bind, ends_get]
  cases hupvalue : ctx.upvalue? function number with
  | none => exact h
  | some upvalue => exact h.push (h.names_of_upvalue? hupvalue)

theorem exists_top_of_valueAt (h : ctx.valueAt index = .ok value) :
    ∃ (rest : Array Value) (top : Value), ctx.stack = rest.push top := by
  refine Array.eq_push_of_size_ne_zero fun hsize => ?_
  have hslot : ctx.slot? index = none := by
    simp only [slot?, hsize]
    rw [if_neg (by omega), if_neg (by omega)]
  simp only [valueAt, value?] at h
  rw [hslot] at h
  cases h

/-- Where the index names a value nothing fails, and at most the value on top is
taken off the stack. -/
theorem Intact.ends_setUpvalue_of_valueAt (h : ctx.Intact)
    (hfound : ctx.valueAt index = .ok value) (number : Nat) :
    Ends (setUpvalue index number ctx)
      (fun _ c => c.Intact ∧ (c.stack = ctx.stack ∨ c.stack = ctx.stack.pop))
      fun _ _ => False := by
  have hkept : ctx.Intact ∧
      (ctx.stack = ctx.stack ∨ ctx.stack = ctx.stack.pop) := ⟨h, Or.inl rfl⟩
  simp only [setUpvalue]
  rw [bind_of_ok (query_eq hfound)]
  cases value with
  | function handle =>
    obtain ⟨closure, hclosure⟩ := h.names_of_valueAt hfound
    have hcells := (h.objects handle _ hclosure).2
    have hclosureOf : query (·.closureOf handle) ctx = .ok closure ctx :=
      query_eq (closureOf_eq_ok_iff.2 hclosure)
    dsimp only
    rw [bind_of_ok hclosureOf]
    cases number with
    | zero => exact hkept
    | succ slot =>
      dsimp only
      cases hcell : closure.cells[slot]? with
      | none => exact hkept
      | some cell =>
        obtain ⟨old, hold⟩ :=
          hcells cell (Array.mem_toList_iff.2 (Array.mem_of_getElem? hcell))
        obtain ⟨rest, top, hstack⟩ := exists_top_of_valueAt hfound
        have hpopped := popTop_eq hstack
        obtain ⟨hpop, hheap, htop, -⟩ := h.ends_popTop.ok hpopped
        have hcell' : ({ ctx with stack := rest } : Context).heap.get? cell =
            some (.cell old) := hold
        dsimp only
        rw [bind_of_ok hpopped, bind_of_ok (storeCell_eq hcell' top)]
        refine ⟨(hpop.ends_storeCell hcell' (htop.of_heap hheap)).ok
          (storeCell_eq hcell' top),
          Or.inr ?_⟩
        rw [hstack, Array.pop_push]
  | _ => exact hkept

theorem Intact.ends_setUpvalue (h : ctx.Intact) (index : Int) (number : Nat) :
    Ends (setUpvalue index number ctx) (fun _ c => c.Intact) FailsIntact := by
  cases hfound : ctx.valueAt index with
  | error e =>
    simp only [setUpvalue]
    refine (h.ends_query fun e he => (misplaced_of_valueAt he).not_dangles).look
      fun value hvalue => ?_
    cases hfound.symm.trans hvalue
  | ok value =>
    exact (h.ends_setUpvalue_of_valueAt hfound number).mono (fun _ _ hc => hc.1)
      fun _ _ => False.elim

theorem Intact.ends_newCells (h : ctx.Intact) (count : Nat)
    (hvalue : ctx.Names value) :
    Ends (newCells count value ctx)
      (fun cells c => c.Intact ∧ cells.length = count ∧
        (∀ cell ∈ cells, ∃ value, c.heap.get? cell = some (.cell value)) ∧
        ∀ handle found, ctx.heap.get? handle = some found →
          c.heap.get? handle = some found)
      FailsIntact := by
  induction count generalizing value ctx with
  | zero => exact ⟨h, rfl, nofun, fun _ _ hfound => hfound⟩
  | succ count ih =>
    have hcell : ctx.Holds (.cell value) := hvalue
    refine (h.ends_allocate hcell nofun).bind
      fun first c ⟨hc, _, hfirst, hkept⟩ => ?_
    have hnil : c.Names .nil := trivial
    refine (ih hc hnil).bind fun rest c' ⟨hc', hlength, hcells, hkept'⟩ => ?_
    refine ⟨hc', congrArg Nat.succ hlength, fun cell hmem => ?_,
      fun handle found hfound =>
        hkept' handle found (hkept handle found hfound)⟩
    rcases List.mem_cons.1 hmem with rfl | hmem
    · exact ⟨_, hkept' _ _ hfirst⟩
    · exact hcells cell hmem

/-- A function made from accepted code. -/
theorem Intact.ends_pushMain (h : ctx.Intact) {proto : Prototype}
    (hproto : proto.Accepted) :
    Ends (pushMain proto ctx) (fun _ c => c.Intact) FailsIntact := by
  refine h.ends_collectIfDue.bind fun _ c ⟨hc, _⟩ => ?_
  rw [ends_bind, ends_get]
  refine (hc.ends_newCells _ hc.globals).bind
    fun cells c' ⟨hc', hlength, hcells, _⟩ => ?_
  have hclosure : c'.Holds (.closure ⟨proto, cells.toArray⟩) :=
    ⟨hlength, hcells⟩
  refine (hc'.ends_allocate hclosure fun closure heq => ?_).bind
    fun function d hd => ?_
  · cases heq
    exact hproto
  · exact hd.1.push ⟨_, hd.2.2.1⟩

theorem Intact.ends_loadPrototype (h : ctx.Intact) (proto : Prototype)
    (chunkName : String) :
    Ends (loadPrototype proto chunkName ctx)
      (fun _ c => c.Intact) FailsIntact := by
  simp only [loadPrototype]
  cases hverify : proto.verify with
  | error error => exact h.fails id
  | ok _ =>
    exact h.ends_pushMain
      ((Prototype.verify_attributedTo chunkName proto).trans hverify)

theorem SameButCache.intact (hsame : ctx.SameButCache c) (h : ctx.Intact)
    (hcached : ∀ entry ∈ c.cache.entries, entry.2.Accepted) : c.Intact :=
  h.change hsame.heap hsame.globals (hsame.registry ▸ h.registry) hcached
    (hsame.stack ▸ h.stack) (hsame.registry ▸ h.pinned)
    (hsame.frames ▸ h.running)

/-- A chunk is loaded through the cache or past it. -/
theorem Intact.ends_loadChunk (h : ctx.Intact) (bytes : List UInt8)
    (chunkName : String) :
    Ends (loadChunk bytes chunkName ctx) (fun _ c => c.Intact) FailsIntact := by
  apply ends_loadChunk_accepted h.cached
  · exact fun error c hsame hcached => ⟨id, hsame.intact h hcached⟩
  · exact fun proto c hproto hsame hcached =>
      (hsame.intact h hcached).ends_pushMain hproto

/-! ## The fresh context -/

theorem holds_natives (names : List String) {table : Table}
    (h : ctx.Holds (.table table)) :
    ctx.Holds (.table (names.foldl (fun table name =>
      table.set (.string name) (.native name)) table)) := by
  induction names generalizing table with
  | nil => exact h
  | cons name rest ih => exact ih (h.set (fun _ => ⟨rfl, trivial⟩) trivial)

/-- The globals of a fresh context. -/
theorem get?_heap_create {settings : ContextSettings} {bindings : Bindings}
    {object : Object}
    (h : (create settings bindings).heap.get? handle = some object) :
    object = .table (standardNatives.foldl
      (fun table name => table.set (.string name) (.native name)) .empty) := by
  let fresh : Heap :=
    { threshold := settings.gcThreshold, enabled := settings.gcEnabled }
  change (fresh.allocate _).2.get? handle = some object at h
  refine (Heap.get?_allocate_eq_some h).resolve_right fun hold => ?_
  cases hold

/-- A fresh context is intact: it holds its globals and nothing else. -/
theorem intact_create (settings : ContextSettings) (bindings : Bindings) :
    (create settings bindings).Intact := by
  have hfresh :
      ({ threshold := settings.gcThreshold, enabled := settings.gcEnabled } :
        Heap).WellFormed := ⟨nofun, List.nodup_nil, nofun⟩
  refine {
    heap := hfresh.allocate
    registry := ⟨nofun, List.nodup_nil⟩
    stack := nofun
    pinned := nofun
    frames := nofun
    cached := nofun
    running := nofun
    globals := ⟨_, hfresh.get?_allocate_self⟩
    objects := ?_
    code := ?_ }
  · intro handle object hobject
    rw [get?_heap_create hobject]
    exact holds_natives standardNatives holds_empty
  · intro handle closure hclosure
    cases get?_heap_create hclosure

end Isolate.Context
