import Isolate.Proofs.Context.Keeping
import Isolate.Proofs.Table

/-!
# Assignments to tables and captured variables

Where the slots of the stack hold what they should, an assignment takes its
operands off the stack and changes one object of the heap.
-/

namespace Isolate.Context

variable {ctx c : Context} {handle : Handle}

theorem query_eq {α : Type} {f : Context → Except RuntimeError α} {a : α}
    (h : f ctx = .ok a) : query f ctx = .ok a ctx := by
  simp only [query]
  rw [h]

theorem storeKey_eq {table : Table}
    (htable : ctx.heap.get? handle = some (.table table)) (key : Key)
    (value : Value) :
    storeKey handle key value ctx = .ok () { ctx with
      heap := ctx.heap.update handle fun
        | .table t => .table (t.set key value)
        | object => object } :=
  bind_of_ok (query_eq (tableOf_eq_ok_iff.2 htable))

theorem bindKey_eq {table : Table}
    (htable : ctx.heap.get? handle = some (.table table)) {key value : Value}
    {k : Key} (hkey : key.key? = some k) :
    bindKey handle key value ctx = .ok () { ctx with
      heap := ctx.heap.update handle fun
        | .table t => .table (t.set k value)
        | object => object } := by
  simp only [bindKey]
  rw [hkey]
  exact storeKey_eq htable k value

theorem get?_storeKey {table : Table}
    (htable : ctx.heap.get? handle = some (.table table)) (key : Key)
    (value : Value) :
    (ctx.heap.update handle fun
      | .table t => .table (t.set key value)
      | object => object).get? handle =
        some (.table (table.set key value)) := by
  rw [Heap.get?_update_self, htable]
  rfl

theorem storeCell_eq {old : Value}
    (hcell : ctx.heap.get? handle = some (.cell old)) (value : Value) :
    storeCell handle value ctx =
      .ok () { ctx with heap := ctx.heap.update handle fun _ => .cell value } :=
  bind_of_ok (query_eq (cellOf_eq_ok_iff.2 hcell))

/-- An assignment takes the value and the key off the stack. -/
theorem rawSet_of_tableRefAt {index : Int} {rest : Array Value}
    {key value : Value} {k : Key} {table : Table}
    (hat : ctx.tableRefAt index = .ok handle)
    (hstack : ctx.stack = (rest.push key).push value)
    (htable : ctx.heap.get? handle = some (.table table))
    (hkey : key.key? = some k) :
    rawSet index ctx = .ok () { ctx with
      stack := rest
      heap := ctx.heap.update handle fun
        | .table t => .table (t.set k value)
        | object => object } := by
  have hheight : ¬ctx.stack.size < 2 := by
    rw [hstack, Array.size_push, Array.size_push]
    omega
  simp only [rawSet]
  rw [bind_of_ok (query_eq hat)]
  change (if ctx.stack.size < 2 then _ else _ : Action Unit) ctx = _
  rw [if_neg hheight, bind_of_ok (popTop_eq hstack), bind_of_ok (popTop_eq rfl)]
  have hrest : ({ ctx with stack := rest } : Context).heap.get? handle =
      some (.table table) :=
    htable
  exact bindKey_eq hrest hkey

/-- An assignment under a key that the host names takes the value off the
stack. -/
theorem rawSetKey_of_tableRefAt {index : Int} {rest : Array Value}
    {value : Value} {table : Table} (hat : ctx.tableRefAt index = .ok handle)
    (hstack : ctx.stack = rest.push value)
    (htable : ctx.heap.get? handle = some (.table table)) (key : Key) :
    rawSetKey index key ctx = .ok () { ctx with
      stack := rest
      heap := ctx.heap.update handle fun
        | .table t => .table (t.set key value)
        | object => object } := by
  have hrest : ({ ctx with stack := rest } : Context).heap.get? handle =
      some (.table table) :=
    htable
  rw [rawSetKey, bind_of_ok (query_eq hat), bind_of_ok (popTop_eq hstack)]
  exact storeKey_eq hrest key value

theorem tableRefAt_of_getElem? {i : Nat}
    (hslot : ctx.stack[i]? = some (.table handle)) :
    ctx.tableRefAt (i + 1 : Nat) = .ok handle := by
  simp only [tableRefAt]
  rw [valueAt_of_getElem? hslot]
  rfl

/-- An assignment to the table in a slot takes the value and the key off the
stack. -/
theorem rawSet_eq {i : Nat} {rest : Array Value} {key value : Value} {k : Key}
    {table : Table} (hslot : ctx.stack[i]? = some (.table handle))
    (hstack : ctx.stack = (rest.push key).push value)
    (htable : ctx.heap.get? handle = some (.table table))
    (hkey : key.key? = some k) :
    rawSet (i + 1 : Nat) ctx = .ok () { ctx with
      stack := rest
      heap := ctx.heap.update handle fun
        | .table t => .table (t.set k value)
        | object => object } :=
  rawSet_of_tableRefAt (tableRefAt_of_getElem? hslot) hstack htable hkey

/-- An assignment to an upvalue of the function in a slot takes the
value off the stack. -/
theorem setUpvalue_eq {i n : Nat} {rest : Array Value} {value old : Value}
    {closure : Closure} {cell : Handle}
    (hslot : ctx.stack[i]? = some (.function handle))
    (hstack : ctx.stack = rest.push value)
    (hclosure : ctx.heap.get? handle = some (.closure closure))
    (hcell : closure.cells[n]? = some cell)
    (hold : ctx.heap.get? cell = some (.cell old)) :
    ∃ name, setUpvalue (i + 1 : Nat) (n + 1) ctx = .ok (some name) { ctx with
      stack := rest
      heap := ctx.heap.update cell fun _ => .cell value } := by
  have hfound : query (·.closureOf handle) ctx = .ok closure ctx :=
    query_eq (closureOf_eq_ok_iff.2 hclosure)
  refine ⟨(closure.proto.upvalueName n).getD "", ?_⟩
  simp only [setUpvalue]
  rw [bind_of_ok (query_eq (valueAt_of_getElem? hslot))]
  apply (bind_of_ok hfound).trans
  dsimp only
  rw [hcell]
  dsimp only
  rw [bind_of_ok (popTop_eq hstack)]
  have hcellOf : ({ ctx with stack := rest } : Context).heap.get? cell =
      some (.cell old) := hold
  rw [bind_of_ok (storeCell_eq hcellOf value)]
  rfl

theorem lookupKey_eq {table : Table}
    (htable : ctx.heap.get? handle = some (.table table)) {key : Value}
    {k : Key} (hkey : key.key? = some k) :
    ctx.lookupKey handle key = .ok (table.get k) := by
  simp only [lookupKey]
  rw [tableOf_eq_ok_iff.2 htable, hkey]
  rfl

theorem pushPinned_eq {pin : Pin} {value : Value}
    (h : ctx.registry.get? pin = some value) :
    pushPinned pin ctx = .ok () { ctx with stack := ctx.stack.push value } := by
  have hget : (get : Action Context) ctx = .ok ctx ctx := rfl
  rw [pushPinned, bind_of_ok hget, pinned?, h]
  rfl

theorem pin_top_eq {rest : Array Value} {value : Value}
    (h : ctx.stack = rest.push value) :
    pin (-1) ctx =
      .ok (ctx.registry.pin value).1
        { ctx with registry := (ctx.registry.pin value).2 } :=
  bind_of_ok (query_eq (valueAt_top h))

end Isolate.Context
