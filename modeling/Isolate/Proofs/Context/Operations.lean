import Isolate.Proofs.Accord
import Isolate.Proofs.Context.Elements
import Isolate.Proofs.Context.Usage

/-!
# What operations are made of

What a host asks of a context is made of the elements of transfers, of loads,
calls and collections, and of changes to the stack and the pins.
-/

namespace Isolate.Context

variable {ctx : Context} {index : Int} {e : RuntimeError}

theorem setHeight_eq (index : Int) : setHeight index = get >>= fun ctx =>
    match if 0 ≤ index then some index.toNat
      else if index.natAbs - 1 ≤ ctx.stack.size then
        some (ctx.stack.size - (index.natAbs - 1)) else none with
    | none => throw (.invalidIndex index)
    | some height =>
      if ctx.settings.maxStack < height then
        throw (.stackOverflow ctx.settings.maxStack)
      else modify fun ctx =>
        { ctx with stack := (ctx.resizeStack height).stack } := by
  funext ctx
  rw [setHeight, get_bind]
  generalize (if 0 ≤ index then some index.toNat
    else if index.natAbs - 1 ≤ ctx.stack.size then
      some (ctx.stack.size - (index.natAbs - 1)) else none) = height?
  cases height? with
  | none => rfl
  | some height =>
    by_cases hroom : ctx.settings.maxStack < height
    · simp only [if_pos hroom]
      rfl
    · simp only [if_neg hroom]
      rfl

/-- What has to be shown of a property so that every operation has
it, but for loads. -/
structure Operations (holds : ∀ α : Type, Action α → Prop) : Prop
    extends Elements holds where
  setTracing : ∀ enabled,
    holds Unit (modify fun ctx => { ctx with tracing := enabled })
  setStack : ∀ f : Context → Array Value, Aside f →
    holds Unit (modify fun ctx => { ctx with stack := f ctx })
  pinValue : ∀ value, holds Pin (pinValue value)
  unpin : ∀ pin, holds Unit (unpin pin)
  call : ∀ budget argumentCount,
    holds Unit (Machine.call Native.standard budget argumentCount)
  collect : holds Nat collect

namespace Operations

variable {holds : ∀ α : Type, Action α → Prop} (h : Operations holds)
include h

theorem discard {α : Type} {action : Action α} (haction : holds α action) :
    holds Unit (discard action) := by
  rw [discard_eq_bind]
  exact h.bind haction fun _ => h.pure _

theorem pushKind (value : Value) : holds Kind (pushKind value) :=
  h.bind (h.push value) fun _ => h.pure _

theorem rawGetKey (index : Int) (key : Key) :
    holds Kind (rawGetKey index key) :=
  h.bind (h.query _ (fun _ _ _ _ => rfl)
    fun _ _ he => (missed_of_tableAt he).not_dumps) fun _ =>
      h.pushKind _

theorem rawSetKey (index : Int) (key : Key) :
    holds Unit (rawSetKey index key) :=
  h.bind (h.toElements.tableRefAt index) fun _ =>
    h.bind h.popTop fun _ => h.toElements.storeKey _ _ _

theorem setHeight (index : Int) : holds Unit (setHeight index) := by
  rw [setHeight_eq]
  refine h.look (fun _ _ _ _ => rfl) fun ctx => ?_
  split
  · exact h.throw _ id
  · split
    · exact h.throw _ id
    · exact h.setStack _ fun _ _ _ _ => rfl

theorem remove (index : Int) : holds Value (remove index) :=
  h.bind (h.query _ (fun _ _ _ _ => rfl) fun _ _ he =>
    (misplaced_of_slotOf he).not_dumps) fun _ =>
      h.bind (h.toElements.valueAt index) fun _ =>
        h.bind (h.setStack _ fun _ _ _ _ => rfl) fun _ => h.pure _

theorem getUpvalue (index : Int) (number : Nat) :
    holds (Option String) (getUpvalue index number) := by
  refine h.bind (h.toElements.valueAt index) fun function =>
    h.look (fun _ _ _ _ => rfl) fun ctx => ?_
  cases ctx.upvalue? function number with
  | none => exact h.pure _
  | some upvalue => exact h.bind (h.push _) fun _ => h.pure _

theorem loadPrototype (proto : Prototype) (chunkName : String) :
    holds Unit (loadPrototype proto chunkName) := by
  simp only [Context.loadPrototype]
  cases proto.verify with
  | error error => exact h.throw _ id
  | ok _ => exact h.toElements.pushMain _

theorem rawGet (index : Int) : holds Kind (rawGet index) :=
  h.bind (h.toElements.tableRefAt index) fun _ =>
    h.bind h.popTop fun _ =>
      h.bind (h.query _ (fun _ _ _ _ => rfl) fun _ _ he =>
        (missed_of_lookupKey he).not_dumps) fun _ => h.pushKind _

theorem getGlobal (name : String) : holds Kind (getGlobal name) := by
  refine h.look (fun _ _ _ _ => rfl) fun ctx => ?_
  cases ctx.tableOf ctx.globals with
  | ok table => exact h.pushKind _
  | error error => exact h.pushKind _

/-- Every operation has the property if its load has it. -/
theorem run (operation : Operation)
    (hload : ∀ bytes name, operation = .loadChunk bytes name →
      holds Unit (loadChunk bytes name)) : holds Unit operation.run := by
  cases operation with
  | trace enabled => exact h.setTracing enabled
  | setHeight index => exact h.setHeight index
  | pop count => exact h.pop count
  | push value => exact h.push value
  | pushGlobals => exact h.toElements.pushGlobals
  | newTable => exact h.toElements.newTable
  | newUserdata typeName bytes =>
    exact h.bind h.collectIfDue fun _ => h.bind (h.allocate _) fun _ => h.push _
  | absoluteIndex index =>
    exact h.discard (h.query _ (fun _ _ _ _ => rfl) fun _ _ he =>
      (misplaced_of_absoluteIndex he).not_dumps)
  | valueAt index =>
    exact h.discard (h.toElements.valueAt index)
  | kindAt index =>
    exact h.discard (h.query _ (fun _ _ _ _ => rfl) fun _ _ he =>
      (misplaced_of_kindAt he).not_dumps)
  | duplicate index =>
    exact h.bind (h.toElements.valueAt index) fun _ => h.push _
  | remove index => exact h.discard (h.remove index)
  | rawGet index => exact h.discard (h.rawGet index)
  | rawSet index => exact h.toElements.rawSet index
  | rawGetField index name => exact h.discard (h.rawGetKey index _)
  | rawSetField index name => exact h.rawSetKey index _
  | rawGetIndex index n => exact h.discard (h.rawGetKey index _)
  | rawSetIndex index n => exact h.rawSetKey index _
  | rawLength index =>
    exact h.discard (h.query _ (fun _ _ _ _ => rfl) fun _ _ he =>
      (missed_of_rawLength he).not_dumps)
  | tablePairs index =>
    exact h.discard (h.query _ (fun _ _ _ _ => rfl) fun _ _ he =>
      (missed_of_tablePairs he).not_dumps)
  | getGlobal name => exact h.discard (h.getGlobal name)
  | setGlobal name =>
    exact h.bind h.popTop fun _ => h.look (fun _ _ _ _ => rfl) fun _ =>
      h.toElements.storeKey _ _ _
  | pin index => exact h.discard (h.toElements.pin h.pinValue index)
  | pinValue value => exact h.discard (h.pinValue value)
  | pushPinned held => exact h.toElements.pushPinned held
  | unpin held => exact h.unpin held
  | getUpvalue index number => exact h.discard (h.getUpvalue index number)
  | setUpvalue index number =>
    exact h.discard (h.toElements.setUpvalue index number)
  | loadPrototype proto chunkName => exact h.loadPrototype proto chunkName
  | loadChunk bytes chunkName => exact hload bytes chunkName rfl
  | call budget argumentCount => exact h.call budget argumentCount
  | collect => exact h.discard h.collect

end Operations

end Isolate.Context
