import Isolate.Proofs.Context.Queries

/-!
# What transfers do to a context

What a transfer does to its destination is made of a few elements: it looks
things up, moves values on and off the stack, allocates and changes objects, and
pins.  A property that these have, and that sequences have if their members do,
is one of everything that a transfer does there but for loading a chunk.  None
of the elements fails to write a function, which is a matter of the source, and
none looks at the cache or the journal.
-/

namespace Isolate

/-- The failure to write a function. -/
def RuntimeError.Dumps : RuntimeError → Prop
  | .dump _ => True
  | _ => False

theorem RuntimeError.Missed.not_dumps {e : RuntimeError}
    (h : e.Missed) : ¬e.Dumps := by
  cases e with
  | dump => exact h.elim
  | _ => exact id

theorem RuntimeError.Misplaced.not_dumps {e : RuntimeError}
    (h : e.Misplaced) : ¬e.Dumps :=
  h.missed.not_dumps

namespace Context

variable {ctx : Context} {index : Int} {handle : Handle}
  {e : RuntimeError} {α : Type}

/-! ## Elements -/

/-- The context with another cache, of another size, and another journal. -/
def withCache (ctx : Context) (cache : Chunk.Cache) (capacity : Nat)
    (journal : Array Notice) : Context :=
  { ctx with
    cache, journal, settings := { ctx.settings with
      chunkCacheCapacity := capacity } }

/-- What can be told of a context without looking at its cache and its
journal. -/
def Aside {β : Type} (f : Context → β) : Prop :=
  ∀ ctx cache capacity journal, f (ctx.withCache cache capacity journal) = f ctx

/-- What has to be shown of a property so that everything made of
the elements has it. -/
structure Elements (holds : ∀ α : Type, Action α → Prop) : Prop where
  pure : ∀ {α : Type} (a : α), holds α (Pure.pure a)
  throw : ∀ {α : Type} (e : RuntimeError), ¬e.Dumps →
    holds α (MonadExcept.throw e)
  look : ∀ {α : Type} {f : Context → Action α}, Aside f →
    (∀ ctx, holds α (f ctx)) → holds α (get >>= f)
  query : ∀ {α : Type} (f : Context → Except RuntimeError α), Aside f →
    (∀ ctx e, f ctx = .error e → ¬e.Dumps) → holds α (Context.query f)
  bind : ∀ {α β : Type} {x : Action α} {f : α → Action β}, holds α x →
    (∀ a, holds β (f a)) → holds β (x >>= f)
  push : ∀ value, holds Unit (push value)
  popTop : holds Value popTop
  pop : ∀ count, holds Unit (pop count)
  allocate : ∀ object, holds Handle (allocate object)
  change : ∀ f : Context → Heap, Aside f →
    holds Unit (modify fun ctx => { ctx with heap := f ctx })
  collectIfDue : holds Unit collectIfDue

namespace Elements

variable {holds : ∀ α : Type, Action α → Prop} (h : Elements holds)
include h

theorem valueAt (index : Int) : holds Value (Context.query (·.valueAt index)) :=
  h.query _ (fun _ _ _ _ => rfl) fun _ _ he =>
    (misplaced_of_valueAt he).not_dumps

theorem tableRefAt (index : Int) :
    holds Handle (Context.query (·.tableRefAt index)) :=
  h.query _ (fun _ _ _ _ => rfl) fun _ _ he =>
    (misplaced_of_tableRefAt he).not_dumps

theorem newTable : holds Unit newTable :=
  h.bind h.collectIfDue fun _ => h.bind (h.allocate _) fun _ => h.push _

theorem pushGlobals : holds Unit pushGlobals :=
  h.look (fun _ _ _ _ => rfl) fun _ => h.push _

theorem storeKey (handle : Handle) (key : Key) (value : Value) :
    holds Unit (storeKey handle key value) :=
  h.bind (h.query _ (fun _ _ _ _ => rfl)
    fun _ _ he => (missed_of_objectAs he).not_dumps) fun _ =>
      h.change _ fun _ _ _ _ => rfl

theorem storeCell (handle : Handle) (value : Value) :
    holds Unit (storeCell handle value) :=
  h.bind (h.query _ (fun _ _ _ _ => rfl)
    fun _ _ he => (missed_of_cellOf he).not_dumps) fun _ =>
      h.change _ fun _ _ _ _ => rfl

theorem bindKey (handle : Handle) (key value : Value) :
    holds Unit (bindKey handle key value) := by
  simp only [Context.bindKey]
  cases key.key? with
  | none => exact h.throw _ id
  | some key => exact h.storeKey handle key value

theorem rawSet (index : Int) : holds Unit (rawSet index) := by
  refine h.bind (h.tableRefAt index) fun handle =>
    h.look (fun _ _ _ _ => rfl) fun ctx => ?_
  split
  · exact h.throw _ id
  · exact h.bind h.popTop fun value =>
      h.bind h.popTop fun key => h.bindKey handle key value

theorem setUpvalue (index : Int) (number : Nat) :
    holds (Option String) (setUpvalue index number) := by
  refine h.bind (h.valueAt index) fun value => ?_
  cases value with
  | function handle =>
    refine h.bind (h.query _ (fun _ _ _ _ => rfl)
      fun _ _ he => (missed_of_objectAs he).not_dumps) fun closure => ?_
    cases number with
    | zero => exact h.pure _
    | succ slot =>
      dsimp only
      cases closure.cells[slot]? with
      | none => exact h.pure _
      | some cell =>
        exact h.bind h.popTop fun value =>
          h.bind (h.storeCell cell value) fun _ => h.pure _
  | _ => exact h.pure _

theorem pin (hpin : ∀ value, holds Pin (pinValue value)) (index : Int) :
    holds Pin (pin index) :=
  h.bind (h.valueAt index) hpin

theorem pushPinned (pin : Pin) : holds Unit (pushPinned pin) := by
  refine h.look (fun _ _ _ _ => rfl) fun ctx => ?_
  cases ctx.pinned? pin with
  | none => exact h.throw _ id
  | some value => exact h.push value

theorem newCells (count : Nat) (value : Value) :
    holds (List Handle) (newCells count value) := by
  induction count generalizing value with
  | zero => exact h.pure _
  | succ count ih =>
    exact h.bind (h.allocate _) fun _ => h.bind (ih .nil) fun _ => h.pure _

theorem pushMain (proto : Prototype) : holds Unit (pushMain proto) :=
  h.bind h.collectIfDue fun _ => h.look (fun _ _ _ _ => rfl) fun _ =>
    h.bind (h.newCells _ _) fun _ => h.bind (h.allocate _) fun _ => h.push _

end Elements

end Context

end Isolate
