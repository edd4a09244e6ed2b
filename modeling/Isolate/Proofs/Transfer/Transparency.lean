import Isolate.Proofs.Context.Transparency
import Isolate.Proofs.Transfer.Delivery
import Isolate.Proofs.Transfer.Requests

/-!
# Transfers that do not show the cache

Every function that a transfer copies is one load in the destination.  Nothing
else in a transfer has to do with the cache, so it goes the same way whether
there is one or not.
-/

namespace Isolate

open HasContext

instance : HasContext Transfer where
  context t := t.dest
  withContext t ctx := { t with dest := ctx }

namespace Transfer

variable {source : Context} {settings : TransferSettings}
  {allowed : List UInt8 → String → Prop} {α : Type} {reports : List Notice}
  {t shadow : Transfer}

theorem transparent_onDest {action : Action α}
    (h : Transparent allowed action) : Transparent allowed (onDest action) := by
  have hdetour : Detour Transfer.dest
      fun (t : Transfer) (answer : Except RuntimeError α) ctx =>
        (answer.mapError TransferError.ofRuntime, { t with dest := ctx }) := by
    refine ⟨fun _ => rfl, ?_, fun _ _ _ => rfl, ?_⟩
    · rintro reports t _ ⟨journal, hjournal, rfl⟩
      exact ⟨journal, hjournal, rfl⟩
    · rintro reports _ t _ ctx _ answer ⟨_, -, rfl⟩ ⟨journal, hjournal, rfl⟩
      exact ⟨rfl, journal, hjournal, rfl⟩
  refine hdetour.transparent h fun t => ?_
  obtain ⟨dest, copies, fillings, copied⟩ := t
  simp only [onDest]
  cases action dest <;> rfl

theorem transparent_record (identity : Nat) (pin : Pin) (filling : Filling) :
    Transparent allowed (record identity pin filling) := by
  refine .of_quiet (fun _ => rfl) ?_
  rintro reports t _ ⟨journal, hjournal, rfl⟩
  exact ⟨rfl, journal, hjournal, rfl⟩

theorem transparent_nextFilling : Transparent allowed nextFilling := by
  refine .of_quiet ?_ ?_
  · rintro ⟨dest, copies, fillings, copied⟩
    cases fillings <;> rfl
  · rintro reports ⟨dest, copies, fillings, copied⟩ _ ⟨journal, hjournal, rfl⟩
    cases fillings <;> exact ⟨rfl, journal, hjournal, rfl⟩

theorem transparent_restoring {request : Copying Unit}
    (h : Transparent allowed request) :
    Transparent allowed (restoring request) := by
  have hdetour :
      Detour id fun (t : Transfer) (answer : Except TransferError Unit) t' =>
        (answer, match answer with
          | .ok _ => t'
          | .error _ =>
            truncateDest t.dest.stack.size { t' with fillings := [] }) := by
    refine ⟨fun _ => rfl, fun hshadow => hshadow, ?_, ?_⟩
    · rintro t (error | _) t' <;> rfl
    · rintro reports _ t _ t' _ (error | _) ⟨_, -, rfl⟩ ⟨journal, hjournal, rfl⟩
      · exact ⟨rfl, journal, hjournal, rfl⟩
      · exact ⟨rfl, journal, hjournal, rfl⟩
  refine hdetour.transparent h fun t => ?_
  change _ = Prod.mk (answerOf (request t)) _
  simp only [restoring, id]
  cases request t <;> rfl

/-- A transfer shows nothing of the cache but through its loads. -/
theorem steps_transparent (allowed : List UInt8 → String → Prop) :
    Steps (fun _ action => Transparent allowed action)
      fun _ x => Transparent allowed x where
  toElements := Context.elements_transparent allowed
  pinValue := Context.transparent_pinValue
  unpin := Context.transparent_unpin
  done := .pure
  fail := .throw
  andThen := .bind
  handle := .tryCatch
  onDest := transparent_onDest
  inspect := fun haside hf => .look (fun t journal => haside t _ _ journal) hf
  record := transparent_record
  next := transparent_nextFilling
  restoring := transparent_restoring

theorem finish_cache (t : Transfer) : t.finish.2.cache = t.dest.cache := by
  rw [finish_dest_eq]
  exact (((steps_transparent fun _ _ => False).release t.copies).of_none
    t.dest).1

/-- The pins of a transfer are released in the same way. -/
theorem Shadows.finish (h : Shadows reports t shadow) :
    shadow.finish.1 = t.finish.1 ∧
      Shadows reports t.finish.2 shadow.finish.2 := by
  obtain ⟨journal, hjournal, rfl⟩ := h
  rw [finish_eq, finish_eq, finish_dest_eq, finish_dest_eq]
  exact ⟨rfl,
    ((((steps_transparent fun _ _ => False).release t.copies).of_none t.dest).2
      reports _ ⟨journal, hjournal, rfl⟩).2⟩

end Transfer

/-! ## Transfers of their own -/

namespace Context

variable {source : Context} {settings : TransferSettings}
  {allowed : List UInt8 → String → Prop} {α : Type} {height : Nat}
  {reports : List Notice}

/-- One request to a transfer that is begun and ended for it, over a
stack of this height. -/
def hosting (height : Nat) (begun : Notice) (request : Copying α)
    (done : α → Nat → Nat → Notice) (failed : TransferError → Nat → Notice) :
    Receiving α := fun dest =>
  match request (.start (dest.note begun)) with
  | .ok a t => .ok a (t.finish.2.note (done a t.copied t.finish.1))
  | .error e t =>
    .error e ((t.finish.2.truncateStack height).note (failed e t.finish.1))

/-- A transfer reports more than its loads, but no other loads. -/
theorem transparent_hosting {begun : Notice} {request : Copying α}
    {done : α → Nat → Nat → Notice} {failed : TransferError → Nat → Notice}
    (h : Transparent allowed request) (hbegun : begun.isLoad = false)
    (hdone : ∀ a copied released, (done a copied released).isLoad = false)
    (hfailed : ∀ e released, (failed e released).isLoad = false) :
    Transparent allowed (hosting height begun request done failed) := by
  have hdetour : Detour (fun ctx : Context => Transfer.start (ctx.note begun))
      fun (_ : Context) (answer : Except TransferError α) t =>
        (answer, match answer with
          | .ok a => t.finish.2.note (done a t.copied t.finish.1)
          | .error e =>
            (t.finish.2.truncateStack height).note (failed e t.finish.1)) := by
    refine ⟨fun _ => rfl, fun hshadow => ?_, ?_, ?_⟩
    · obtain ⟨journal, hjournal, hnoted⟩ := hshadow.note_of_not hbegun
      exact ⟨journal, hjournal, congrArg Transfer.start hnoted⟩
    · rintro ctx (e | a) t
      · exact t.finish_cache
      · exact t.finish_cache
    · intro reports _ _ _ t shadow answer _ hshadow
      obtain ⟨hreleased, hfinished⟩ := Transfer.Shadows.finish hshadow
      have hcopied : shadow.copied = t.copied := by
        obtain ⟨_, -, rfl⟩ := hshadow
        rfl
      cases answer with
      | ok a =>
        dsimp only
        rw [hreleased, hcopied]
        exact ⟨rfl, hfinished.note_of_not (hdone _ _ _)⟩
      | error e =>
        dsimp only
        rw [hreleased]
        obtain ⟨journal, hjournal, heq⟩ := hfinished
        rw [heq]
        have hcut : Shadows reports (t.finish.2.truncateStack height)
            ((t.finish.2.uncached journal).truncateStack height) :=
          ⟨journal, hjournal, rfl⟩
        exact ⟨rfl, hcut.note_of_not (hfailed _ _)⟩
  refine hdetour.transparent h fun ctx => ?_
  simp only [hosting]
  cases request (.start (ctx.note begun)) <;> rfl

theorem receive_eq_hosting {index : Int} {root : Value}
    (hroot : source.valueAt index = .ok root) :
    source.receive index settings = get >>= fun dest =>
      hosting dest.stack.size (.transferStarted root.kindName)
          (Transfer.copy source settings root) (fun _ => .transferDone)
          .transferFailed := by
  funext dest
  rw [receive_eq hroot, get_bind]
  simp only [hosting, opening]
  cases Transfer.copy source settings root
    (.start (dest.note (.transferStarted root.kindName))) <;> rfl

theorem receiveBindings_eq_hosting {index : Int} {handle : Handle}
    (hhandle : source.tableRefAt index = .ok handle) :
    source.receiveBindings index settings = get >>= fun dest =>
      hosting dest.stack.size (.mergeStarted dest.stack.size)
        (Transfer.mergeTable source settings handle dest.stack.size)
        (fun added _ => .mergeDone added) .mergeFailed := by
  funext dest
  rw [get_bind]
  simp only [receiveBindings, hosting]
  rw [hhandle]
  dsimp only
  cases Transfer.mergeTable source settings handle dest.stack.size
    (.start (dest.note (.mergeStarted dest.stack.size))) <;> rfl

theorem transparent_chunk {function : Value} {bytes : List UInt8}
    (h : source.chunkOf function settings.stripDebug = .ok bytes) :
    Transparent (source.Travelling settings)
      (loadChunk bytes settings.chunkName) :=
  transparent_loadChunk ⟨rfl, function, h⟩

theorem transparent_receive (source : Context) (index : Int)
    (settings : TransferSettings) :
    Transparent (source.Travelling settings)
      (source.receive index settings) := by
  cases hroot : source.valueAt index with
  | error error =>
    have hfails : source.receive index settings = throw (.ofRuntime error) := by
      funext dest
      simp only [receive]
      rw [hroot]
      rfl
    exact hfails ▸ .throw _
  | ok root =>
    rw [receive_eq_hosting hroot]
    refine .look (fun _ _ => rfl) fun dest =>
      transparent_hosting ?_ rfl (fun _ _ _ => rfl) fun _ _ => rfl
    exact (Transfer.steps_transparent _).copy
      (fun _ _ => transparent_chunk) root

theorem transparent_receiveBindings (source : Context) (index : Int)
    (settings : TransferSettings) :
    Transparent (source.Travelling settings)
      (source.receiveBindings index settings) := by
  cases hhandle : source.tableRefAt index with
  | error error =>
    have hfails :
        source.receiveBindings index settings = throw (.ofRuntime error) := by
      funext dest
      simp only [receiveBindings]
      rw [hhandle]
      rfl
    exact hfails ▸ .throw _
  | ok handle =>
    rw [receiveBindings_eq_hosting hhandle]
    refine .look (fun _ _ => rfl) fun dest =>
      transparent_hosting ?_ rfl (fun _ _ _ => rfl) fun _ _ => rfl
    exact (Transfer.steps_transparent _).mergeTable
      (fun _ _ => transparent_chunk) handle _

end Context

end Isolate
