import Isolate.Proofs.Session.FanOut

/-!
# Rejected calls

An operation in which a session would take part twice is rejected, wherever in
the list of workers the repetition is, and so is a call of a function that the
stack does not have.  Both leave every session as it was.  The slots that a call
needs are one more than its arguments, counted in 64 bits, so for the largest
argument count they come out as none and the call is let through.
-/

namespace Isolate

namespace Context

variable {source dest : Context} {index : Int} {settings : TransferSettings}

theorem valueAt_above (ctx : Context) :
    ctx.valueAt (ctx.stack.size + 1) =
      .error (.invalidIndex (ctx.stack.size + 1)) := by
  have hslot : ctx.slot? (ctx.stack.size + 1) = none := by
    simp only [slot?]
    rw [if_neg (by omega), if_neg (by omega)]
  rw [valueAt, value?, hslot]
  rfl

/-- Nothing is received from outside the stack. -/
theorem receive_of_error {error : RuntimeError}
    (h : source.valueAt index = .error error) :
    source.receive index settings dest = .error (.ofRuntime error) dest := by
  simp only [receive]
  rw [h]

theorem truncateStack_size (ctx : Context) :
    ctx.truncateStack ctx.stack.size = ctx := by
  rw [truncateStack, Machine.shrink_eq_of_below (List.prefix_refl _) rfl]

end Context

namespace Session

open Context

variable {source dest : Session} {workers : List Session} {natives : Natives}
  {budget : Nat} {argumentCount : UInt64}

/-! ## The slots that a call needs -/

theorem functionSlot?_of_fits {ctx : Context}
    (hfits : argumentCount.toNat + 1 < UInt64.size)
    (hcount : ctx.stack.size ≤ argumentCount.toNat) :
    functionSlot? ctx argumentCount = none := by
  simp only [functionSlot?]
  rw [toNat_needed hfits, if_neg (by omega)]

/-- One more than the largest argument count is none. -/
theorem functionSlot?_of_wraps (ctx : Context)
    (hwraps : ¬argumentCount.toNat + 1 < UInt64.size) :
    functionSlot? ctx argumentCount = some ctx.stack.size := by
  have hlargest : argumentCount.toNat + 1 = UInt64.size :=
    Nat.le_antisymm argumentCount.toNat_lt (Nat.le_of_not_lt hwraps)
  have hneeded : (argumentCount + 1).toNat = 0 := by
    rw [UInt64.toNat_add]
    exact Nat.mod_eq_zero_of_dvd ⟨1, hlargest⟩
  simp only [functionSlot?]
  rw [hneeded, if_pos (Nat.zero_le _)]
  rfl

/-- The error of a call whose function would lie above the stack. -/
def outside (source : Session) : SessionError :=
  .transfer (.ofRuntime (.invalidIndex (source.context.stack.size + 1)))

/-- Nothing runs in a target. -/
theorem runIn_above (target : Context) :
    runIn natives budget source.context source.context.stack.size argumentCount
      source.transfer target = (.error source.outside, target) := by
  simp only [runIn]
  rw [receive_of_error source.context.valueAt_above]
  rfl

/-- The source of a call in which all workers failed gains nothing but nil. -/
def pushNils (count : Nat) (ctx : Context) : Context :=
  { ctx with stack := ctx.stack ++ Array.replicate count .nil }

theorem pushNils_push (count : Nat) (ctx : Context) :
    pushNils count { ctx with stack := ctx.stack.push .nil } =
      pushNils (count + 1) ctx := by
  simp only [pushNils]
  rw [Array.replicate_succ', ← Array.append_assoc, Array.push_eq_append]

/-- Workers in which nothing ran are as before. -/
theorem collectResults_of_error (settings : TransferSettings)
    (error : SessionError) (source : Context) (workers : List Session) :
    collectResults settings source
        (workers.map fun worker => (worker, .error error, worker.context)) =
      (workers.map fun _ => .error error,
        pushNils workers.length source, workers) := by
  induction workers generalizing source with
  | nil => simp [collectResults, pushNils]
  | cons worker rest ih =>
    rw [List.map_cons, collectResults_cons, answered]
    dsimp only [fetchResult]
    rw [ih, pushNils_push, truncateStack_size]
    rfl

/-! ## Sessions that come twice -/

theorem send_of_same (index : Int) (hids : source.id = dest.id) :
    source.send index dest = (.error .sameSession, dest) := by
  simp only [send]
  rw [hids, SessionId.pairOrder?_self]

theorem callIn_of_same (hids : source.id = dest.id) :
    callIn natives budget source argumentCount dest =
      (.error .sameSession, source, dest) := by
  simp only [callIn]
  rw [hids, SessionId.pairOrder?_self]

theorem callInEach_of_repeated
    (hids : ¬(source.id :: workers.map (·.id)).Nodup) :
    callInEach natives budget source argumentCount workers =
      (.error .sameSession, source, workers) := by
  simp only [callInEach]
  rw [SessionId.lockOrder?_eq_none_iff.2 hids]

/-! ## Functions that the stack does not have -/

theorem callIn_of_no_slot (hids : source.id ≠ dest.id)
    (hslot : functionSlot? source.context argumentCount = none) :
    callIn natives budget source argumentCount dest =
      (.error (.runtime .stackUnderflow), source, dest) := by
  obtain ⟨order, horder⟩ := SessionId.exists_pairOrder? hids
  simp only [callIn]
  rw [horder, hslot]

theorem callInEach_of_no_slot (hids : (source.id :: workers.map (·.id)).Nodup)
    (hslot : functionSlot? source.context argumentCount = none) :
    callInEach natives budget source argumentCount workers =
      (.error (.runtime .stackUnderflow), source, workers) := by
  simp only [callInEach]
  rw [SessionId.lockOrder?_of_nodup hids, hslot]

theorem callIn_of_wraps (hids : source.id ≠ dest.id)
    (hwraps : ¬argumentCount.toNat + 1 < UInt64.size) :
    callIn natives budget source argumentCount dest =
      (.error source.outside, source, dest) := by
  rw [callIn_eq budget hids (functionSlot?_of_wraps source.context hwraps)]
  simp only [runIn_above, fetchResult, truncateStack_size]

theorem callInEach_of_wraps (hids : (source.id :: workers.map (·.id)).Nodup)
    (hwraps : ¬argumentCount.toNat + 1 < UInt64.size) :
    callInEach natives budget source argumentCount workers =
      (.ok (workers.map fun _ => .error source.outside),
        { source with context := pushNils workers.length source.context },
        workers) := by
  simp only [callInEach]
  rw [SessionId.lockOrder?_of_nodup hids,
    functionSlot?_of_wraps source.context hwraps]
  simp only [runIn_above, truncateStack_size, collectResults_of_error]

/-- An operation on sessions one of which comes twice is rejected, and otherwise
a call with at least as many arguments as the stack has values is rejected
unless the slots that it needs are counted past 64 bits.  What is rejected
leaves every session as it was. -/
theorem rejected_iff (natives : Natives) (budget : Nat) (source dest : Session)
    (workers : List Session) (index : Int) (argumentCount : UInt64) :
    (source.id = dest.id →
      source.send index dest = (.error .sameSession, dest) ∧
      callIn natives budget source argumentCount dest =
        (.error .sameSession, source, dest)) ∧
    (¬(source.id :: workers.map (·.id)).Nodup →
      callInEach natives budget source argumentCount workers =
        (.error .sameSession, source, workers)) ∧
    (source.context.stack.size ≤ argumentCount.toNat →
      (source.id ≠ dest.id →
        (callIn natives budget source argumentCount dest =
          (.error (.runtime .stackUnderflow), source, dest) ↔
            argumentCount.toNat + 1 < UInt64.size)) ∧
      ((source.id :: workers.map (·.id)).Nodup →
        (callInEach natives budget source argumentCount workers =
          (.error (.runtime .stackUnderflow), source, workers) ↔
            argumentCount.toNat + 1 < UInt64.size))) := by
  refine ⟨fun hids => ⟨send_of_same index hids, callIn_of_same hids⟩,
    callInEach_of_repeated, fun hcount =>
      ⟨fun hids => ⟨fun hrejected => ?_, fun hfits => ?_⟩,
        fun hids => ⟨fun hrejected => ?_, fun hfits => ?_⟩⟩⟩
  · refine Decidable.byContradiction fun hwraps => ?_
    cases hrejected.symm.trans (callIn_of_wraps hids hwraps)
  · exact callIn_of_no_slot hids (functionSlot?_of_fits hfits hcount)
  · refine Decidable.byContradiction fun hwraps => ?_
    cases hrejected.symm.trans (callInEach_of_wraps hids hwraps)
  · exact callInEach_of_no_slot hids (functionSlot?_of_fits hfits hcount)

/-- A function with one argument too many, and a worker that comes twice. -/
theorem rejected_iff_caller :
    ¬(caller.id :: [callee, refusing, callee].map (·.id)).Nodup ∧
      caller.id ≠ callee.id ∧
      (caller.id :: [callee, refusing].map (·.id)).Nodup ∧
      caller.context.stack.size ≤ UInt64.toNat 1 ∧
      UInt64.toNat 1 + 1 < UInt64.size ∧
      caller.send 1 caller = (.error .sameSession, caller) ∧
      callIn Native.standard 9 caller 1 caller =
        (.error .sameSession, caller, caller) ∧
      callInEach Native.standard 9 caller 1 [callee, refusing, callee] =
        (.error .sameSession, caller, [callee, refusing, callee]) ∧
      callIn Native.standard 9 caller 1 callee =
        (.error (.runtime .stackUnderflow), caller, callee) ∧
      callInEach Native.standard 9 caller 1 [callee, refusing] =
        (.error (.runtime .stackUnderflow), caller, [callee, refusing]) := by
  have hrepeated :
      ¬(caller.id :: [callee, refusing, callee].map (·.id)).Nodup := by decide
  have hids : caller.id ≠ callee.id := by decide
  have hnodup : (caller.id :: [callee, refusing].map (·.id)).Nodup := by decide
  have hcount : caller.context.stack.size ≤ UInt64.toNat 1 := by decide
  have hfits : UInt64.toNat 1 + 1 < UInt64.size := by decide
  obtain ⟨hsame, -, -⟩ := rejected_iff Native.standard 9 caller caller [] 1 1
  obtain ⟨-, htwice, -⟩ :=
    rejected_iff Native.standard 9 caller callee [callee, refusing, callee] 1 1
  obtain ⟨-, -, hunderflow⟩ :=
    rejected_iff Native.standard 9 caller callee [callee, refusing] 1 1
  obtain ⟨hcallIn, hcallInEach⟩ := hunderflow hcount
  exact ⟨hrepeated, hids, hnodup, hcount, hfits, (hsame rfl).1, (hsame rfl).2,
    htwice hrepeated, (hcallIn hids).2 hfits, (hcallInEach hnodup).2 hfits⟩

/-- The largest argument count is above the height of an empty stack, but a call
with it is let through, and pushes nil if it is a call in every worker. -/
theorem largest_count_accepted :
    let source := create 1 {} {}
    let worker := create 2 {} {}
    source.id ≠ worker.id ∧ (source.id :: [worker].map (·.id)).Nodup ∧
    source.context.stack.size ≤ UInt64.toNat 18446744073709551615 ∧
    (callIn Native.standard 9 source 18446744073709551615 worker).1 ≠
      .error (.runtime .stackUnderflow) ∧
    (callInEach Native.standard 9 source 18446744073709551615
      [worker]).1.toOption =
      some [.error (.transfer (.runtime (.invalidIndex 1)))] ∧
    (callInEach Native.standard 9 source 18446744073709551615
      [worker]).2.1.context.stack =
      #[.nil] := by
  intro source worker
  have hids : source.id ≠ worker.id := by decide
  have hnodup : (source.id :: [worker].map (·.id)).Nodup := by decide
  have hwraps : ¬UInt64.toNat 18446744073709551615 + 1 < UInt64.size := by
    decide
  rw [callIn_of_wraps hids hwraps, callInEach_of_wraps hnodup hwraps]
  exact ⟨hids, hnodup, Nat.zero_le _, nofun, rfl, rfl⟩

end Session

end Isolate
