import Isolate.Native.Standard
import Isolate.Proofs.Context.Handling
import Isolate.Proofs.Machine.Safety

/-!
# Scripts keep a context intact

Whatever accepted code does, the context in which it runs stays intact from turn
to turn.  Operands are taken off the stack and used before the next collection,
and an instruction that may collect does so before it holds any.
-/

namespace Isolate

/-- The result of an operator: no reference, and no failure for a dangling
handle. -/
def Yields : Except RuntimeError Value → Prop
  | .ok value => value.handle? = none
  | .error e => ¬e.Dangles

theorem Operates.yields {result : Except RuntimeError Value}
    (h : Operates result) : Yields result := by
  cases result with
  | ok value => exact h
  | error e =>
    cases e with
    | danglingHandle => exact h.elim
    | _ => exact id

/-- A native function that only looks at the context, and gives back nothing but
what it was given or plain data. -/
def Native.Quiet (native : Native) : Prop :=
  ∀ (callBack : CallBack) (ctx : Context) (arguments : List Value),
    Ends (native callBack arguments ctx)
      (fun result c => c = ctx ∧ ∀ value, result = .ok value →
        value ∈ arguments ∨ value.handle? = none)
      fun _ _ => False

def Natives.Quiet (natives : Natives) : Prop :=
  ∀ name native, natives name = some native → Native.Quiet native

namespace Native

theorem quiet_ofQuery {f : Context → List Value → Except String Value}
    (hf : ∀ ctx arguments value, f ctx arguments = .ok value →
      value ∈ arguments ∨ value.handle? = none) : Quiet (ofQuery f) :=
  fun _ ctx arguments =>
    ⟨rfl, fun value hvalue => hf ctx arguments value hvalue⟩

theorem quiet_ofOne {name : String} {f : Context → Value → Except String Value}
    (hf : ∀ ctx argument value, f ctx argument = .ok value →
      value.handle? = none) :
    Quiet (ofOne name f) := by
  refine quiet_ofQuery fun ctx arguments value hvalue => ?_
  split at hvalue
  · exact Or.inr (hf ctx _ value hvalue)
  · cases hvalue

theorem quiet_assert : Quiet assert := by
  refine quiet_ofQuery fun ctx arguments value hvalue => Or.inl ?_
  split at hvalue
  · split at hvalue <;> cases hvalue
    exact List.mem_cons_self
  · split at hvalue <;> cases hvalue
    exact List.mem_cons_self
  · cases hvalue

/-- The standard natives only look at the context. -/
theorem quiet_standard : Natives.Quiet standard := by
  intro name native hnative
  simp only [standard] at hnative
  split at hnative <;> cases hnative
  · refine quiet_ofOne fun ctx argument value hvalue => ?_
    cases hvalue
    rfl
  · refine quiet_ofOne fun ctx argument value hvalue => ?_
    split at hvalue
    · split at hvalue <;> cases hvalue
      rfl
    · split at hvalue <;> cases hvalue
      rfl
    · cases hvalue
  · refine quiet_ofQuery fun ctx arguments value hvalue => ?_
    split at hvalue <;> cases hvalue
    exact Or.inr rfl
  · refine quiet_ofOne fun ctx argument value hvalue => ?_
    cases hvalue
    rfl
  · exact quiet_assert
  · refine quiet_ofOne fun ctx argument value hvalue => ?_
    split at hvalue
    · split at hvalue <;> cases hvalue
      rfl
    · cases hvalue

end Native

namespace Context

open Machine

variable {ctx c : Context} {handle : Handle} {value target key : Value}
  {proto : Prototype} {natives : Natives} {callBack : CallBack} {frame : Frame}

/-! ## The innermost frame -/

theorem Intact.ends_innermost (h : ctx.Intact) :
    Ends (innermost ctx) (fun frame c =>
      c = ctx ∧ frame ∈ ctx.frames.toList) FailsIntact := by
  simp only [innermost]
  rw [ends_bind, ends_get]
  cases hback : ctx.frames.back? with
  | none => exact h.fails id
  | some frame => exact ⟨rfl, Array.mem_toList_iff.2 (Array.mem_of_back? hback)⟩

theorem Intact.accepted_of_frame (h : ctx.Intact)
    (hframe : frame ∈ ctx.frames.toList) : frame.proto.Accepted :=
  h.code _ _ (h.running frame hframe)

theorem Intact.ends_moveTo (h : ctx.Intact) (offset : Nat) :
    Ends (moveTo offset ctx) (fun _ c => c.Intact) FailsIntact := by
  refine h.change rfl rfl h.registry h.cached h.stack h.pinned
    fun frame hframe => ?_
  obtain ⟨i, hi⟩ := Array.mem_iff_getElem?.1 (Array.mem_toList_iff.1 hframe)
  rw [Array.getElem?_modify] at hi
  have hmem : ∀ {found : Frame}, ctx.frames[i]? = some found →
      found ∈ ctx.frames.toList :=
    fun hfound => Array.mem_toList_iff.2 (Array.mem_of_getElem? hfound)
  split at hi
  · obtain ⟨before, hbefore, rfl⟩ := Option.map_eq_some_iff.1 hi
    exact h.running before (hmem hbefore)
  · exact h.running frame (hmem hi)

theorem Intact.ends_putOperand (h : ctx.Intact) (hvalue : ctx.Names value) :
    Ends (putOperand value ctx) (fun _ c => c.Intact) FailsIntact := by
  simp only [putOperand]
  rw [ends_bind, ends_get]
  split
  · exact h.fails id
  · exact h.push hvalue

theorem Intact.ends_takeOperand (h : ctx.Intact) :
    Ends (takeOperand ctx) (fun value c =>
      c.Intact ∧ c.heap = ctx.heap ∧ ctx.Names value) FailsIntact := by
  refine h.ends_innermost.look fun frame hframe => ?_
  rw [ends_bind, ends_get]
  split
  · exact h.fails id
  · exact h.ends_popTop.mono (fun _ _ hc => ⟨hc.1, hc.2.1, hc.2.2.1⟩)
      fun _ _ he => he

theorem Intact.ends_slotOfLocal (h : ctx.Intact) (index : Nat) :
    Ends (slotOfLocal index ctx) (fun _ c => c = ctx) FailsIntact := by
  refine h.ends_innermost.look fun frame hframe => ?_
  rw [ends_bind, ends_get]
  split
  · exact h.fails id
  · rfl

/-- The cell of an upvalue is there. -/
theorem Intact.ends_cellOfUpvalue (h : ctx.Intact) (index : Nat) :
    Ends (cellOfUpvalue index ctx)
      (fun cell c => c = ctx ∧ ∃ value, ctx.heap.get? cell = some (.cell value))
      FailsIntact := by
  refine h.ends_innermost.look fun frame hframe => ?_
  cases hcell : frame.cells[index]? with
  | none => exact h.fails id
  | some cell =>
    have hmem : cell ∈ frame.cells.toList :=
      Array.mem_toList_iff.2 (Array.mem_of_getElem? hcell)
    exact ⟨rfl, h.cells_of_frame hframe hmem⟩

/-! ## Reading the code -/

theorem Intact.ends_byteOperand (h : ctx.Intact) (proto : Prototype)
    (offset : Nat) :
    Ends (byteOperand proto offset ctx) (fun _ c => c = ctx) FailsIntact := by
  simp only [byteOperand]
  cases proto.code.byteAt? offset with
  | some operand => rfl
  | none => exact h.fails id

theorem Intact.ends_pairOperand (h : ctx.Intact) (proto : Prototype)
    (offset : Nat) :
    Ends (pairOperand proto offset ctx) (fun _ c => c = ctx) FailsIntact := by
  simp only [pairOperand]
  cases proto.code.pairAt? offset with
  | some operand => rfl
  | none => exact h.fails id

theorem Intact.ends_literal (h : ctx.Intact) (proto : Prototype)
    (index offset : Nat) :
    Ends (literal proto index offset ctx)
      (fun value c => c = ctx ∧ value.handle? = none) FailsIntact := by
  simp only [literal]
  cases proto.constants[index]? with
  | some constant =>
    refine ⟨rfl, ?_⟩
    cases constant <;> rfl
  | none => exact h.fails id

/-! ## Tables, cells and operators -/

theorem Intact.ends_indexed (h : ctx.Intact) (htarget : ctx.Names target)
    (key : Value) :
    Ends (indexed target key ctx)
      (fun value c => c = ctx ∧ ctx.Names value) FailsIntact := by
  cases target with
  | table handle =>
    obtain ⟨value, hvalue, hnames⟩ := h.lookupKey htarget key
    have hquery : query (·.lookupKey handle key) ctx = .ok value ctx :=
      query_eq hvalue
    simp only [indexed]
    rw [hquery]
    exact ⟨rfl, hnames⟩
  | _ => exact h.fails id

theorem Intact.ends_assign (h : ctx.Intact) (htarget : ctx.Names target)
    (hkey : ctx.Names key) (hvalue : ctx.Names value) :
    Ends (assign target key value ctx) (fun _ c => c.Intact) FailsIntact := by
  cases target with
  | table handle =>
    exact (h.ends_bindKey htarget (fun _ => hkey) hvalue).mono
      (fun _ _ hc => hc.1) fun _ _ he => he
  | _ => exact h.fails id

theorem Intact.ends_cellOf (h : ctx.Intact)
    (hcell : ∃ value, ctx.heap.get? handle = some (.cell value)) :
    Ends (query (·.cellOf handle) ctx)
      (fun value c => c = ctx ∧ ctx.Names value) FailsIntact := by
  obtain ⟨value, hvalue⟩ := hcell
  have hquery : query (·.cellOf handle) ctx = .ok value ctx :=
    query_eq (cellOf_eq_ok_iff.2 hvalue)
  rw [hquery]
  exact ⟨rfl, h.names_of_cell hvalue⟩

/-- The result of an operator is put on the stack. -/
theorem Intact.ends_yield (h : ctx.Intact)
    {f : Context → Except RuntimeError Value} (hf : Yields (f ctx)) :
    Ends ((query f >>= putOperand) ctx) (fun _ c => c.Intact) FailsIntact := by
  refine (h.ends_query fun e he => ?_).look fun result hresult => ?_
  · rw [he] at hf
    exact hf
  · rw [hresult] at hf
    exact h.ends_putOperand (names_of_plain hf)

theorem Intact.ends_unary (h : ctx.Intact)
    {f : Value → Except RuntimeError Value}
    (hf : ∀ operand, Operates (f operand)) :
    Ends (unary f ctx) (fun _ c => c.Intact) FailsIntact :=
  h.ends_takeOperand.bind fun operand _ hc =>
    hc.1.ends_yield (hf operand).yields

theorem Intact.ends_binary (h : ctx.Intact)
    {f : Value → Value → Except RuntimeError Value}
    (hf : ∀ left right, Operates (f left right)) :
    Ends (binary f ctx) (fun _ c => c.Intact) FailsIntact :=
  h.ends_takeOperand.bind fun right _ hc =>
    hc.1.ends_takeOperand.bind fun left _ hc' =>
      hc'.1.ends_yield (hf left right).yields

/-! ## Calls -/

/-- A function that is entered becomes the innermost frame. -/
theorem Intact.ends_enterClosure (h : ctx.Intact)
    (hfunction : ctx.Names (.function handle))
    (calleeSlot argumentCount : Nat) :
    Ends (enterClosure handle calleeSlot argumentCount ctx)
      (fun _ c => c.Intact) FailsIntact := by
  obtain ⟨closure, hclosure⟩ := hfunction
  have hfound : query (·.closureOf handle) ctx = .ok closure ctx :=
    query_eq (closureOf_eq_ok_iff.2 hclosure)
  simp only [enterClosure]
  rw [ends_bind, ends_get]
  split
  · exact h.fails id
  · rw [bind_of_ok hfound]
    split
    · exact h.fails id
    · rw [ends_modify]
      have hcut := ((h.truncateStack (calleeSlot + 1 +
        min argumentCount closure.proto.numParams.toNat)).resizeStack
          (calleeSlot + 1 + closure.proto.numLocals.toNat))
      refine hcut.change rfl rfl hcut.registry hcut.cached
        hcut.stack hcut.pinned fun frame hframe => ?_
      rw [Array.toList_push] at hframe
      rcases List.mem_append.1 hframe with hframe | hframe
      · exact h.running frame hframe
      · cases List.mem_singleton.1 hframe
        exact hclosure

theorem Intact.ends_runNative (h : ctx.Intact) (hnatives : natives.Quiet)
    (name : String) (calleeSlot : Nat) :
    Ends (runNative natives callBack name calleeSlot ctx)
      (fun _ c => c.Intact) FailsIntact := by
  simp only [runNative]
  cases hnative : natives name with
  | none => exact h.fails id
  | some native =>
    rw [ends_bind, ends_get]
    have hargs : ∀ value ∈ (ctx.stack.extract (calleeSlot + 1)).toList,
        ctx.Names value := by
      intro value hvalue
      rw [Array.toList_extract] at hvalue
      exact h.stack value (List.mem_of_mem_drop (List.mem_of_mem_take hvalue))
    refine ((hnatives name native hnative callBack ctx _).mono
      (fun _ _ hc => hc) fun _ _ he => he.elim).look fun result hresult => ?_
    cases result with
    | error message => exact h.fails id
    | ok value =>
      have hvalue : ctx.Names value :=
        (hresult value rfl).elim (hargs value) names_of_plain
      dsimp only
      rw [ends_bind, ends_modify]
      exact (h.truncateStack calleeSlot).ends_putOperand (hvalue.of_heap rfl)

theorem Intact.ends_startCall (h : ctx.Intact) (hnatives : natives.Quiet)
    (calleeSlot argumentCount : Nat) :
    Ends (startCall natives callBack calleeSlot argumentCount ctx)
      (fun _ c => c.Intact) FailsIntact := by
  have hcallee : ctx.Names (ctx.stack.getD calleeSlot .nil) :=
    names_getD h.stack
  simp only [startCall]
  rw [ends_bind, ends_get]
  cases hvalue : ctx.stack.getD calleeSlot .nil with
  | function handle =>
    rw [hvalue] at hcallee
    exact h.ends_enterClosure hcallee calleeSlot argumentCount
  | native name => exact h.ends_runNative hnatives name calleeSlot
  | _ => exact h.fails id

theorem Intact.ends_returnValue (h : ctx.Intact) (hvalue : ctx.Names value) :
    Ends (returnValue value ctx) (fun _ c => c.Intact) FailsIntact := by
  refine h.ends_innermost.look fun frame hframe => ?_
  rw [ends_bind, ends_modify, ends_bind, ends_modify]
  have hpopped : ({ ctx with frames := ctx.frames.pop } : Context).Intact :=
    h.withFrames fun other hother =>
      (List.dropLast_sublist _).subset (Array.toList_pop ▸ hother)
  exact (hpopped.truncateStack _).ends_push (hvalue.of_heap rfl)

/-! ## Closures -/

theorem Intact.ends_captureCells (h : ctx.Intact)
    (hcells : ∀ cell ∈ frame.cells.toList,
      ∃ value, ctx.heap.get? cell = some (.cell value))
    (upvalues : List Upvalue) :
    Ends (captureCells frame upvalues ctx)
      (fun cells c => c.Intact ∧ cells.length = upvalues.length ∧
        (∀ cell ∈ cells, ∃ value, c.heap.get? cell = some (.cell value)) ∧
        ∀ handle found, ctx.heap.get? handle = some found →
          c.heap.get? handle = some found)
      FailsIntact := by
  induction upvalues generalizing ctx with
  | nil => exact ⟨h, rfl, nofun, fun _ _ hfound => hfound⟩
  | cons upvalue rest ih =>
    obtain ⟨name, capture⟩ := upvalue
    have hrest : ∀ (cell : Handle) (c : Context), c.Intact →
        (∃ value, c.heap.get? cell = some (.cell value)) →
        (∀ handle found, ctx.heap.get? handle = some found →
          c.heap.get? handle = some found) →
        Ends
          ((captureCells frame rest >>= fun others => pure (cell :: others)) c)
          (fun cells d => d.Intact ∧
            cells.length = (⟨name, capture⟩ :: rest : List Upvalue).length ∧
            (∀ cell ∈ cells, ∃ value, d.heap.get? cell = some (.cell value)) ∧
            ∀ handle found, ctx.heap.get? handle = some found →
              d.heap.get? handle = some found) FailsIntact := by
      intro cell c hc hcell hkept
      have hcells' : ∀ cell ∈ frame.cells.toList,
          ∃ value, c.heap.get? cell = some (.cell value) := fun cell hmem =>
        (hcells cell hmem).imp fun value hvalue => hkept _ _ hvalue
      refine (ih hc hcells').bind fun others d
        ⟨hd, hlength, hothers, hkept'⟩ => ?_
      refine ⟨hd, congrArg Nat.succ hlength, fun other hmem => ?_,
        fun handle found hfound =>
          hkept' handle found (hkept handle found hfound)⟩
      rcases List.mem_cons.1 hmem with rfl | hmem
      · exact hcell.imp fun value hvalue => hkept' _ _ hvalue
      · exact hothers other hmem
    cases capture with
    | ofLocal slot =>
      have hlocal :
          ctx.Holds (.cell (ctx.stack.getD (frame.base + slot.toNat) .nil)) :=
        names_getD h.stack
      exact (h.ends_allocate hlocal nofun).bind
        fun cell c ⟨hc, _, hcell, hkept⟩ =>
          hrest cell c hc ⟨_, hcell⟩ hkept
    | ofEnclosing slot =>
      rw [captureCells]
      dsimp only
      cases hcell : frame.cells[slot.toNat]? with
      | none => exact h.fails id
      | some cell =>
        have hmem : cell ∈ frame.cells.toList :=
          Array.mem_toList_iff.2 (Array.mem_of_getElem? hcell)
        exact hrest cell ctx h (hcells cell hmem) fun _ _ hfound => hfound

theorem Intact.ends_instantiate (h : ctx.Intact) (hproto : proto.Accepted)
    (index : Nat) :
    Ends (instantiate proto index ctx) (fun _ c => c.Intact) FailsIntact := by
  simp only [instantiate]
  cases hchild : proto.protos[index]? with
  | none => exact h.fails id
  | some child =>
    have haccepted : child.Accepted :=
      Prototype.verify_of_mem_protos hproto (List.mem_of_getElem? hchild)
    refine h.ends_collectIfDue.bind fun _ c hcollected => ?_
    have hc := hcollected.1
    refine hc.ends_innermost.look fun frame hframe => ?_
    refine (hc.ends_captureCells (fun cell
      hcell => hc.cells_of_frame hframe hcell) _).bind
      fun cells d hcaptured => ?_
    obtain ⟨hd, hlength, hcells, -⟩ := hcaptured
    have hclosure : d.Holds (.closure ⟨child, cells.toArray⟩) :=
      ⟨hlength.trans Array.length_toList, hcells⟩
    refine (hd.ends_allocate hclosure fun closure heq => ?_).bind
      fun function e hallocated =>
        hallocated.1.ends_putOperand ⟨_, hallocated.2.2.1⟩
    cases heq
    exact haccepted

/-! ## Instructions -/

/-- The new table of an instruction is dropped again where there is no room for
it. -/
theorem Intact.ends_execute_newTable (h : ctx.Intact) (offset : Nat) :
    Ends (execute natives callBack proto offset .newTable ctx)
      (fun _ c => c.Intact) FailsIntact := by
  refine h.ends_newTable.bind fun _ c hc => ?_
  rw [ends_bind, ends_get]
  split
  · refine (hc.withStack fun value hvalue => hc.stack value ?_).fails id
    rw [Array.toList_pop] at hvalue
    exact (List.dropLast_sublist _).subset hvalue
  · exact hc

theorem Intact.ends_execute (h : ctx.Intact) (hnatives : natives.Quiet)
    (hproto : proto.Accepted) (offset : Nat) (op : Opcode) :
    Ends (execute natives callBack proto offset op ctx)
      (fun _ c => c.Intact) FailsIntact := by
  cases op with
  | constant =>
    refine (h.ends_pairOperand proto _).same fun index => ?_
    refine (h.ends_literal proto index offset).look fun value hplain => ?_
    exact h.ends_putOperand (names_of_plain hplain)
  | loadNil => exact h.ends_putOperand trivial
  | loadTrue => exact h.ends_putOperand trivial
  | loadFalse => exact h.ends_putOperand trivial
  | pop => exact h.ends_takeOperand.bind fun _ c hc => hc.1
  | getLocal =>
    refine (h.ends_byteOperand proto _).same fun index => ?_
    refine (h.ends_slotOfLocal index).same fun slot => ?_
    rw [ends_bind, ends_get]
    exact h.ends_putOperand (names_getD h.stack)
  | setLocal =>
    refine (h.ends_byteOperand proto _).same fun index => ?_
    refine (h.ends_slotOfLocal index).same fun slot => ?_
    refine h.ends_takeOperand.bind fun value c ⟨hc, hheap, hvalue⟩ => ?_
    refine hc.withStack fun found hfound => ?_
    rcases Array.mem_or_eq_of_mem_setIfInBounds
      (Array.mem_toList_iff.1 hfound) with hold | rfl
    · exact hc.stack found (Array.mem_toList_iff.2 hold)
    · exact hvalue.of_heap hheap
  | getUpvalue =>
    refine (h.ends_byteOperand proto _).same fun index => ?_
    refine (h.ends_cellOfUpvalue index).look fun cell hcell => ?_
    refine (h.ends_cellOf hcell).look fun value hvalue => ?_
    exact h.ends_putOperand hvalue
  | setUpvalue =>
    refine (h.ends_byteOperand proto _).same fun index => ?_
    refine (h.ends_cellOfUpvalue index).look fun cell hcell => ?_
    obtain ⟨old, hold⟩ := hcell
    refine h.ends_takeOperand.bind fun value c ⟨hc, hheap, hvalue⟩ => ?_
    exact hc.ends_storeCell (hheap ▸ hold) (hvalue.of_heap hheap)
  | getTabUp =>
    refine (h.ends_byteOperand proto _).same fun index => ?_
    refine (h.ends_pairOperand proto _).same fun field => ?_
    refine (h.ends_literal proto field field).look fun key hkey => ?_
    refine (h.ends_cellOfUpvalue index).look fun cell hcell => ?_
    refine (h.ends_cellOf hcell).look fun target htarget => ?_
    refine (h.ends_indexed htarget key).look fun value hvalue => ?_
    exact h.ends_putOperand hvalue
  | setTabUp =>
    refine (h.ends_byteOperand proto _).same fun index => ?_
    refine (h.ends_pairOperand proto _).same fun field => ?_
    refine (h.ends_literal proto field field).look fun key hkey => ?_
    refine (h.ends_cellOfUpvalue index).look fun cell hcell => ?_
    refine h.ends_takeOperand.bind fun value c ⟨hc, hheap, hvalue⟩ => ?_
    refine (hc.ends_cellOf (hheap ▸ hcell)).look fun target htarget => ?_
    exact hc.ends_assign htarget (names_of_plain hkey) (hvalue.of_heap hheap)
  | newTable => exact h.ends_execute_newTable offset
  | getIndex =>
    refine h.ends_takeOperand.bind fun key c ⟨hc, _⟩ => ?_
    refine hc.ends_takeOperand.bind fun target c' ⟨hc', hheap, htarget⟩ => ?_
    refine (hc'.ends_indexed (htarget.of_heap hheap) key).look
      fun value hvalue => ?_
    exact hc'.ends_putOperand hvalue
  | setIndex =>
    refine h.ends_takeOperand.bind fun value c ⟨hc, hheap, hvalue⟩ => ?_
    refine hc.ends_takeOperand.bind fun key c' ⟨hc', hheap', hkey⟩ => ?_
    refine hc'.ends_takeOperand.bind fun target d ⟨hd, hheap'', htarget⟩ => ?_
    have hkeyHeap : d.heap = c.heap := hheap''.trans hheap'
    exact hd.ends_assign (htarget.of_heap hheap'') (hkey.of_heap hkeyHeap)
      (hvalue.of_heap (hkeyHeap.trans hheap))
  | add => exact h.ends_binary (operates_arithmetic _ _ _)
  | sub => exact h.ends_binary (operates_arithmetic _ _ _)
  | mul => exact h.ends_binary (operates_arithmetic _ _ _)
  | div => exact h.ends_binary (operates_arithmetic _ _ _)
  | concat => exact h.ends_binary operates_concat
  | minus => exact h.ends_unary operates_negate
  | not => exact h.ends_unary fun _ => rfl
  | equal => exact h.ends_binary fun _ _ => rfl
  | lessThan => exact h.ends_binary operates_lessThan
  | len =>
    refine h.ends_takeOperand.bind fun operand c ⟨hc, hheap, hoperand⟩ => ?_
    refine (hc.ends_query fun e he =>
      (hoperand.of_heap hheap).not_dangles_of_lengthOf he).look
      fun length _ => ?_
    exact hc.ends_putOperand trivial
  | jump =>
    refine (h.ends_pairOperand proto _).same fun offset => ?_
    exact h.ends_moveTo offset
  | jumpIfFalse =>
    refine h.ends_takeOperand.bind fun condition c ⟨hc, _⟩ => ?_
    split
    · exact hc
    · refine (hc.ends_pairOperand proto _).same fun offset => ?_
      exact hc.ends_moveTo offset
  | call =>
    refine (h.ends_byteOperand proto _).same fun argumentCount => ?_
    refine h.ends_innermost.look fun frame hframe => ?_
    rw [ends_bind, ends_get]
    split
    · exact h.ends_startCall hnatives _ _
    · exact h.fails id
  | ret =>
    refine h.ends_innermost.look fun frame hframe => ?_
    rw [ends_bind, ends_get]
    split
    · refine h.ends_popTop.bind fun value c ⟨hc, hheap, hvalue, _⟩ => ?_
      exact hc.ends_returnValue (hvalue.of_heap hheap)
    · exact h.ends_returnValue trivial
  | closure =>
    refine (h.ends_pairOperand proto _).same fun index => ?_
    exact h.ends_instantiate hproto index

/-! ## Turns and calls -/

theorem Intact.ends_report (h : ctx.Intact) (proto : Prototype) (offset : Nat)
    (op : Opcode) :
    Ends (report proto offset op ctx) (fun _ c => c.Intact) FailsIntact := by
  simp only [report]
  rw [ends_bind, ends_get]
  split
  · cases proto.code.operandsAt? (offset + 1) op.widths with
    | none => exact h.fails id
    | some operands => exact h.note _
  · exact h

theorem Intact.ends_fetch (h : ctx.Intact) (proto : Prototype) (offset : Nat)
    (op : Opcode) :
    Ends (fetch proto offset op ctx) (fun _ c => c.Intact) FailsIntact :=
  (h.ends_report proto offset op).bind fun _ _ hc => hc.ends_moveTo _

theorem Intact.ends_turn (h : ctx.Intact) (hnatives : natives.Quiet)
    (hproto : proto.Accepted) :
    Ends (turn natives callBack proto ctx)
      (fun _ c => c.Intact) FailsIntact := by
  refine h.ends_innermost.look fun frame hframe => ?_
  cases proto.code[frame.ip]? with
  | none => exact h.ends_returnValue trivial
  | some byte =>
    dsimp only
    cases Opcode.ofByte? byte with
    | none => exact h.fails id
    | some op =>
      refine (h.ends_report proto frame.ip op).bind fun _ c hc => ?_
      exact (hc.ends_moveTo _).bind fun _ c' hc' =>
        hc'.ends_execute hnatives hproto _ op

/-- The loop finds an intact context in every turn. -/
theorem Intact.accepted_atHand (h : ctx.Intact) (hproto : proto.Accepted)
    (depth : Nat) : (atHand ctx depth proto).Accepted := by
  rw [atHand]
  split
  · exact hproto
  · cases hback : ctx.frames.back? with
    | none => exact hproto
    | some frame =>
      exact h.accepted_of_frame
        (Array.mem_toList_iff.2 (Array.mem_of_back? hback))

theorem Intact.ends_loop (h : ctx.Intact) (hnatives : natives.Quiet)
    (hproto : proto.Accepted) (budget entry depth : Nat) :
    Ends (loop natives budget entry depth proto ctx)
      (fun _ c => c.Intact) FailsIntact := by
  induction budget generalizing depth proto ctx with
  | zero => exact h.fails id
  | succ budget ih =>
    by_cases hentry : ctx.frames.size ≤ entry
    · rw [loop_of_le hentry]
      exact h
    · have hfound := h.accepted_atHand hproto depth
      rw [loop_round hentry]
      exact (h.ends_turn hnatives hfound).bind fun _ c hc => ih hc hfound _

theorem Intact.ends_enter (h : ctx.Intact) (hnatives : natives.Quiet)
    (budget calleeSlot argumentCount : Nat) :
    Ends (enter natives budget calleeSlot argumentCount ctx)
      (fun _ c => c.Intact) FailsIntact :=
  h.ends_collectIfDue.bind fun _ _ hc =>
    hc.1.ends_startCall hnatives calleeSlot argumentCount

theorem Intact.ends_finish (h : ctx.Intact) (hnatives : natives.Quiet)
    (budget entry : Nat) :
    Ends (finish natives budget entry ctx)
      (fun _ c => c.Intact) FailsIntact := by
  simp only [finish]
  rw [ends_bind, ends_get]
  cases hback : ctx.frames.back? with
  | none => exact h
  | some frame =>
    have hframe : frame ∈ ctx.frames.toList :=
      Array.mem_toList_iff.2 (Array.mem_of_back? hback)
    exact h.ends_loop hnatives (h.accepted_of_frame hframe) budget entry _

/-- A call keeps the context intact, whether it succeeds, fails or runs out of
budget. -/
theorem Intact.ends_call (h : ctx.Intact) (hnatives : natives.Quiet)
    (budget argumentCount : Nat) :
    Ends (call natives budget argumentCount ctx)
      (fun _ c => c.Intact) FailsIntact := by
  cases budget with
  | zero => exact h.fails id
  | succ budget =>
    by_cases hroom : argumentCount < ctx.stack.size
    · have hrun :=
        (h.ends_enter hnatives budget (ctx.stack.size - argumentCount - 1)
          argumentCount).bind fun _ c hc =>
            hc.ends_finish hnatives budget ctx.frames.size
      rw [call_eq hroom]
      refine ends_unwinding (hrun.mono (fun _ _ hc => hc) fun e c he => ?_)
      have hcut :
          ({ c with frames := c.frames.shrink ctx.frames.size } :
            Context).Intact := by
        refine he.intact.withFrames fun frame hframe => ?_
        rw [Array.toList_shrink] at hframe
        exact List.mem_of_mem_take hframe
      exact ((hcut.note _).truncateStack _).fails he.named
    · rw [call, ends_bind, ends_get]
      rw [if_pos (Nat.le_of_not_lt hroom)]
      exact h.fails id

/-- Every turn of the loop begins in an intact context, with accepted code at
hand. -/
theorem Intact.turnsFrom (h : ctx.Intact) (hnatives : natives.Quiet)
    (hproto : proto.Accepted) (budget entry depth : Nat) :
    ∀ turn ∈ turnsFrom natives budget entry depth proto ctx,
      turn.ctx.Intact ∧ turn.proto.Accepted := by
  induction budget generalizing depth proto ctx with
  | zero => exact nofun
  | succ budget ih =>
    intro t ht
    by_cases hentry : ctx.frames.size ≤ entry
    · rw [Machine.turnsFrom, if_pos hentry] at ht
      cases ht
    · have hfound := h.accepted_atHand hproto depth
      rw [turnsFrom_round hentry] at ht
      rcases List.mem_cons.1 ht with rfl | ht
      · exact ⟨h, hfound⟩
      · split at ht
        · next next hnext =>
            exact ih ((h.ends_turn hnatives hfound).ok hnext) hfound _ t ht
        · cases ht

theorem Intact.turnsOf (h : ctx.Intact) (hnatives : natives.Quiet)
    (budget argumentCount : Nat) :
    ∀ turn ∈ turnsOf natives budget argumentCount ctx,
      turn.ctx.Intact ∧ turn.proto.Accepted := by
  cases budget with
  | zero => exact nofun
  | succ budget =>
    intro t ht
    rw [Machine.turnsOf] at ht
    split at ht
    · next next hnext =>
      have hc := (h.ends_enter hnatives budget _ argumentCount).ok hnext
      split at ht
      · next frame hback =>
        have hframe := Array.mem_toList_iff.2 (Array.mem_of_back? hback)
        exact hc.turnsFrom hnatives (hc.accepted_of_frame hframe)
          budget _ _ t ht
      · cases ht
    · cases ht

end Context

end Isolate
