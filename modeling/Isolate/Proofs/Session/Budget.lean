import Isolate.Proofs.Machine.Budget
import Isolate.Proofs.Session.Rejection

/-!
# Remote calls and budgets

A remote call that does not run out of steps does the same with every larger
budget, in the source and in every worker.
-/

namespace Isolate.Session

open Context

variable {natives : Natives} {budget larger slot : Nat} {argumentCount : UInt64}
  {settings : TransferSettings} {source dest : Session} {workers : List Session}

/-- That a call ran out of steps. -/
def spent : SessionError := .runtime .budgetSpent

/-- That one of many calls ran out of steps. -/
def SomeSpent
    (outcome : Except SessionError (List (Except SessionError Unit))) : Prop :=
  ∃ results, outcome = .ok results ∧ .error spent ∈ results

theorem runIn_of_le (hnatives : natives.Enduring) (hle : budget ≤ larger)
    {source target : Context}
    (hsettled :
      (runIn natives budget source slot argumentCount settings target).1 ≠
        .error spent) :
    runIn natives larger source slot argumentCount settings target =
      runIn natives budget source slot argumentCount settings target := by
  simp only [runIn] at hsettled ⊢
  cases hreceived : source.receive (slot + 1) settings target with
  | error error => rfl
  | ok _ received =>
    rw [hreceived] at hsettled
    dsimp only at hsettled ⊢
    cases hfunction : source.valueAt (slot + 1) with
    | error error => rfl
    | ok function =>
      rw [hfunction] at hsettled
      dsimp only at hsettled ⊢
      generalize copyArguments source settings _ 1 argumentCount.toNat
        _ = prepared
        at hsettled ⊢
      obtain ⟨c, hspent⟩ | hsame :=
        (Machine.outlasts_call hnatives hle argumentCount.toNat).cases prepared
      · rw [hspent] at hsettled
        exact (hsettled rfl).elim
      · rw [hsame]

theorem callIn_of_le (hnatives : natives.Enduring) (hle : budget ≤ larger)
    (hsettled : (callIn natives budget source argumentCount dest).1 ≠
      .error spent) :
    callIn natives larger source argumentCount dest =
      callIn natives budget source argumentCount dest := by
  by_cases hids : source.id = dest.id
  · rw [callIn_of_same hids, callIn_of_same hids]
  · cases hslot : functionSlot? source.context argumentCount with
    | none => rw [callIn_of_no_slot hids hslot, callIn_of_no_slot hids hslot]
    | some slot =>
      rw [callIn_eq budget hids hslot] at hsettled
      dsimp only at hsettled
      have hrun :
          (runIn natives budget source.context slot argumentCount
            source.transfer dest.context).1 ≠ .error spent := by
        intro hspent
        rw [hspent] at hsettled
        exact hsettled rfl
      rw [callIn_eq larger hids hslot, callIn_eq budget hids hslot,
        runIn_of_le hnatives hle hrun]

/-- The error of a worker is among the results. -/
theorem mem_collectResults {error : SessionError} {source : Context}
    {worker : Session} {run : Except SessionError Unit × Context}
    {runs : List (Session × Except SessionError Unit × Context)}
    (hrun : (worker, run) ∈ runs) (herror : run.1 = .error error) :
    .error error ∈ (collectResults settings source runs).1 := by
  induction runs generalizing source with
  | nil => cases hrun
  | cons first rest ih =>
    obtain ⟨other, result⟩ := first
    rw [collectResults_cons]
    rcases List.mem_cons.1 hrun with hfirst | hrest
    · cases hfirst
      rw [herror]
      exact List.mem_cons_self
    · exact List.mem_cons_of_mem _ (ih hrest)

theorem callInEach_of_le (hnatives : natives.Enduring) (hle : budget ≤ larger)
    (hsettled :
      ¬SomeSpent (callInEach natives budget source argumentCount workers).1) :
    callInEach natives larger source argumentCount workers =
      callInEach natives budget source argumentCount workers := by
  by_cases hids : (source.id :: workers.map (·.id)).Nodup
  · cases hslot : functionSlot? source.context argumentCount with
    | none =>
      rw [callInEach_of_no_slot hids hslot, callInEach_of_no_slot hids hslot]
    | some slot =>
      simp only [callInEach] at hsettled ⊢
      rw [SessionId.lockOrder?_of_nodup hids, hslot] at hsettled ⊢
      dsimp only at hsettled ⊢
      have hruns :
          workers.map (fun worker =>
            (worker, runIn natives larger source.context slot
              argumentCount source.transfer worker.context)) =
            workers.map fun worker =>
              (worker, runIn natives budget source.context slot
                argumentCount source.transfer worker.context) := by
        apply List.map_congr_left
        intro worker hworker
        rw [runIn_of_le hnatives hle]
        intro hspent
        exact hsettled
          ⟨_, rfl, mem_collectResults (List.mem_map_of_mem hworker) hspent⟩
      rw [hruns]
  · rw [callInEach_of_repeated hids, callInEach_of_repeated hids]

/-- A remote call spends every budget, or there is a least one from which on it
does one and the same. -/
theorem callIn_spends_or_settles (hnatives : natives.Enduring)
    (source dest : Session) (argumentCount : UInt64) :
    Machine.SpendsOrSettles (fun budget =>
      callIn natives budget source argumentCount dest)
      fun outcome => outcome.1 = .error spent :=
  Machine.spendsOrSettles fun _ _ => callIn_of_le hnatives

theorem callInEach_spends_or_settles (hnatives : natives.Enduring)
    (source : Session) (workers : List Session) (argumentCount : UInt64) :
    Machine.SpendsOrSettles
      (fun budget => callInEach natives budget source argumentCount workers)
      fun outcome => SomeSpent outcome.1 :=
  Machine.spendsOrSettles fun _ _ => callInEach_of_le hnatives

end Isolate.Session
