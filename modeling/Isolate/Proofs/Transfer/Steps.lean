import Isolate.Proofs.Context.Elements
import Isolate.Proofs.Transfer.Pushing
import Isolate.Transfer.Merge

/-!
# What transfers are made of

A transfer acts on its destination, looks at what it has recorded, records more,
and goes on with what is queued.  A property that these steps have, and that
sequences and their handlers have if their members do, is one of every copy and
merge.
-/

namespace Isolate

namespace Transfer

open Context (Elements)

variable {source : Context} {settings : TransferSettings} {α β : Type}

/-- What can be told of a transfer without looking at the cache and the journal
of its destination. -/
def Aside (f : Transfer → β) : Prop :=
  ∀ t cache capacity journal,
    f { t with dest := t.dest.withCache cache capacity journal } = f t

/-- Records a pin as the copy of an identity, and queues the filling of it. -/
def record (identity : Nat) (pin : Pin) (filling : Filling) : Copying Unit :=
  modify fun
    | ⟨dest, copies, fillings, copied⟩ =>
      ⟨dest, copies.insert identity pin, filling :: fillings, copied + 1⟩

/-- What has to be shown of a property of actions and one of steps so that every
transfer has it, but for what it loads. -/
structure Steps (acts : ∀ α : Type, Action α → Prop)
    (holds : ∀ α : Type, Copying α → Prop) : Prop extends Elements acts where
  pinValue : ∀ value, acts Pin (Context.pinValue value)
  unpin : ∀ pin, acts Unit (Context.unpin pin)
  done : ∀ {α : Type} (a : α), holds α (Pure.pure a)
  fail : ∀ {α : Type} (e : TransferError), holds α (MonadExcept.throw e)
  andThen : ∀ {α β : Type} {x : Copying α} {f : α → Copying β}, holds α x →
    (∀ a, holds β (f a)) → holds β (x >>= f)
  handle : ∀ {α : Type} {x : Copying α}
    {handle : TransferError → Copying α}, holds α x →
      (∀ e, holds α (handle e)) → holds α (tryCatch x handle)
  onDest : ∀ {α : Type} {action : Action α}, acts α action →
    holds α (onDest action)
  inspect : ∀ {α : Type} {f : Transfer → Copying α}, Aside f →
    (∀ t, holds α (f t)) → holds α (get >>= f)
  record : ∀ identity pin filling, holds Unit (record identity pin filling)
  next : holds (Option Filling) nextFilling
  restoring : ∀ {request : Copying Unit}, holds Unit request →
    holds Unit (restoring request)

namespace Steps

variable {acts : ∀ α : Type, Action α → Prop}
  {holds : ∀ α : Type, Copying α → Prop} (h : Steps acts holds)
  (hload : ∀ function bytes,
    source.chunkOf function settings.stripDebug = .ok bytes →
    acts Unit (Context.loadChunk bytes settings.chunkName))

include h

theorem forM {xs : List β} {f : β → Copying PUnit}
    (hf : ∀ x, holds PUnit (f x)) : holds PUnit (xs.forM f) := by
  induction xs with
  | nil => exact h.done _
  | cons x xs ih => exact h.andThen (hf x) fun _ => ih

theorem inquire (f : Context → Except RuntimeError α) (haside : Context.Aside f)
    (hf : ∀ ctx e, f ctx = .error e → ¬e.Dumps) :
    holds α (Transfer.onDest (Context.query f)) :=
  h.onDest (h.query f haside hf)

theorem recordTop (identity : Nat) (fill : Pin → Filling) :
    holds Unit (recordTop identity fill) := by
  refine h.andThen (h.onDest (h.toElements.pin h.pinValue _)) fun pin =>
    h.inspect (fun _ _ _ _ => rfl) fun t => ?_
  cases t.copies.find? identity with
  | none => exact h.record _ _ _
  | some previous =>
    exact h.andThen (h.onDest (h.unpin previous)) fun _ => h.record _ _ _

theorem pushShared (identity : Nat) {create : Copying Unit}
    (hcreate : holds Unit create) :
    holds Unit (pushSharedImage identity create) := by
  refine h.inspect (fun _ _ _ _ => rfl) fun t => ?_
  cases t.copies.find? identity with
  | none => exact hcreate
  | some pin => exact h.onDest (h.toElements.pushPinned pin)

/-- The pins of a transfer are released at its end. -/
theorem release (copies : Copies) : acts Unit copies.release := by
  simp only [Copies.release]
  induction copies.entries with
  | nil => exact h.pure _
  | cons entry rest ih => exact h.bind (h.unpin entry.2) fun _ => ih

include hload

theorem pushImage (value : Value) :
    holds Unit (pushImage source settings value) := by
  cases value with
  | table handle =>
    exact h.pushShared _
      (h.andThen (h.onDest h.toElements.newTable) fun _ => h.recordTop _ _)
  | function handle =>
    refine h.pushShared _ ?_
    simp only [pushFunctionImage]
    cases hbytes : source.chunkOf (.function handle) settings.stripDebug with
    | error error => exact h.fail _
    | ok bytes =>
      exact h.andThen (h.onDest (hload _ _ hbytes)) fun _ => h.recordTop _ _
  | native name => exact h.fail _
  | userdata handle => exact h.fail _
  | _ => exact h.onDest (h.push _)

theorem fillBindings (handle : Handle) (copy : Pin) :
    holds Unit (fillBindings source settings handle copy) := by
  simp only [Transfer.fillBindings]
  cases source.tableOf handle with
  | error error => exact h.fail _
  | ok table =>
    exact h.andThen (h.onDest (h.toElements.pushPinned copy)) fun _ =>
      h.inspect (fun _ _ _ _ => rfl) fun t =>
        h.andThen (h.forM fun entry =>
          h.andThen (h.pushImage hload entry.1.toValue) fun _ =>
            h.andThen (h.pushImage hload entry.2)
              fun _ => h.onDest (h.toElements.rawSet _))
            fun _ => h.onDest (h.pop 1)

theorem fillCapturedFrom (slot number : Nat)
    (upvalues : List (String × Value)) :
    holds Unit (fillCapturedFrom source settings slot number upvalues) := by
  induction upvalues generalizing number with
  | nil => exact h.done _
  | cons upvalue rest ih =>
    obtain ⟨name, value⟩ := upvalue
    rw [Transfer.fillCapturedFrom]
    dsimp only
    have hstore : holds Unit (do
        let _ ← Transfer.onDest (Context.setUpvalue slot number)
        Transfer.fillCapturedFrom source settings slot (number + 1) rest) :=
      h.andThen (h.onDest (h.toElements.setUpvalue _ _))
        fun _ => ih (number + 1)
    split
    · exact h.andThen (h.onDest h.toElements.pushGlobals) fun _ => hstore
    · exact h.andThen (h.pushImage hload value) fun _ => hstore

theorem fill (filling : Filling) :
    holds Unit (fill source settings filling) := by
  cases filling with
  | table handle copy => exact h.fillBindings hload handle copy
  | captured function copy =>
    exact h.andThen (h.onDest (h.toElements.pushPinned copy)) fun _ =>
      h.inspect (fun _ _ _ _ => rfl) fun t =>
        h.andThen (h.fillCapturedFrom hload _ _ _) fun _ => h.onDest (h.pop 1)

theorem settleWithin (steps : Nat) :
    holds Unit (settleWithin source settings steps) := by
  induction steps with
  | zero => exact h.done _
  | succ steps ih =>
    refine h.andThen h.next fun filling? => ?_
    cases filling? with
    | none => exact h.done _
    | some filling => exact h.andThen (h.fill hload filling) fun _ => ih

theorem copy (value : Value) : holds Unit (copy source settings value) := by
  rw [copy_eq_restoring]
  exact h.restoring (h.andThen (h.pushImage hload value)
    fun _ => h.settleWithin hload _)

theorem mergeBinding (target : Handle) (slot : Int) (key value : Value) :
    holds (Option Value)
      (mergeBinding source settings target slot key value) := by
  refine h.andThen (h.copy hload key) fun _ =>
    h.andThen (h.onDest (h.toElements.valueAt _)) fun key' =>
      h.andThen (h.inquire _ (fun _ _ _ _ => rfl)
        fun _ _ he => (Context.missed_of_lookupKey he).not_dumps)
        fun present => ?_
  split
  · refine h.andThen (h.handle (h.copy hload value) fun e => ?_) fun _ => ?_
    · exact h.andThen (h.onDest (h.pop 1)) fun _ => h.fail e
    · exact h.andThen (h.onDest (h.toElements.rawSet slot)) fun _ => h.done _
  · exact h.andThen (h.onDest (h.pop 1)) fun _ => h.done _

theorem mergeBindings (target : Handle) (slot : Int) (added : List Value)
    (entries : List (Key × Value)) :
    holds Nat (mergeBindings source settings target slot added entries) := by
  induction entries generalizing added with
  | nil => exact h.done _
  | cons entry rest ih =>
    obtain ⟨key, value⟩ := entry
    rw [Transfer.mergeBindings]
    refine h.andThen (h.handle ?_ fun e => ?_) fun added' => ih added'
    · refine h.andThen (h.mergeBinding hload target slot key.toValue value)
        fun result => ?_
      cases result <;> exact h.done _
    · exact h.andThen (h.forM fun key =>
        h.onDest (h.toElements.bindKey target key .nil)) fun _ => h.fail e

theorem mergeTable (handle : Handle) (index : Int) :
    holds Nat (mergeTable source settings handle index) := by
  refine h.andThen (h.onDest (h.toElements.valueAt index)) fun value => ?_
  cases value with
  | table target =>
    refine h.andThen (h.inquire _ (fun _ _ _ _ => rfl)
      fun _ _ he => (Context.misplaced_of_absoluteIndex he).not_dumps)
      fun slot => ?_
    cases source.tableOf handle with
    | error error => exact h.fail _
    | ok table => exact h.mergeBindings hload target slot [] table.entries
  | _ => exact h.fail _

end Steps

end Transfer

end Isolate
