import Isolate.Native.Probe
import Isolate.Native.Standard
import Isolate.Proofs.Machine.Safety
import Mathlib.Data.Nat.Find

/-!
# Budgets bound nothing but steps

A call that does not spend its budget does the same with every larger one, turn
by turn.  So each call either spends every budget, or comes to one result: below
a least budget it runs out of steps, and from there on it ends in the same way.
-/

namespace Isolate

variable {α β : Type}

/-- An action that goes on where another one runs out of steps, and does the
same as that one everywhere else. -/
def Outlasts (longer shorter : Action α) : Prop :=
  ∀ ctx, failureOf (shorter ctx) ≠ some .budgetSpent → longer ctx = shorter ctx

/-- A native function that runs out of steps only where a call that it makes
does. -/
def Native.Enduring (native : Native) : Prop :=
  ∀ {longer shorter : CallBack},
    (∀ count, Outlasts (longer count) (shorter count)) →
    ∀ arguments, Outlasts (native longer arguments) (native shorter arguments)

def Natives.Enduring (natives : Natives) : Prop :=
  ∀ name native, natives name = some native → Native.Enduring native

/-- To clean up after a failure is to fail all the same. -/
theorem Machine.failureOf_unwinding {frameCount calleeSlot : Nat}
    {action : Action Unit} {ctx : Context} :
    failureOf (unwinding frameCount calleeSlot action ctx) =
      failureOf (action ctx) := by
  simp only [unwinding]
  cases action ctx <;> rfl

namespace Outlasts

variable {longer shorter : Action α}

theorem refl (action : Action α) : Outlasts action action := fun _ _ => rfl

/-- What runs out of steps at once is outlasted by everything. -/
theorem spent (longer : Action α) : Outlasts longer (throw .budgetSpent) :=
  fun _ hsettled => (hsettled rfl).elim

theorem cases (h : Outlasts longer shorter) (ctx : Context) :
    (∃ c, shorter ctx = .error .budgetSpent c) ∨ longer ctx = shorter ctx := by
  by_cases hspent : failureOf (shorter ctx) = some .budgetSpent
  · exact .inl (failureOf_eq_some_iff.1 hspent)
  · exact .inr (h ctx hspent)

theorem bind {f g : α → Action β} (h : Outlasts longer shorter)
    (hrest : ∀ a, Outlasts (f a) (g a)) :
    Outlasts (longer >>= f) (shorter >>= g) := by
  intro ctx hsettled
  obtain ⟨c, hspent⟩ | hsame := h.cases ctx
  · rw [bind_of_error hspent] at hsettled
    exact (hsettled rfl).elim
  · cases hresult : shorter ctx with
    | error e c =>
      rw [bind_of_error hresult, bind_of_error (hsame.trans hresult)]
    | ok a c =>
      rw [bind_of_ok hresult] at hsettled ⊢
      rw [bind_of_ok (hsame.trans hresult)]
      exact hrest a c hsettled

/-- The first part is the same. -/
theorem after (first : Action β) {f g : β → Action α}
    (hrest : ∀ b, Outlasts (f b) (g b)) :
    Outlasts (first >>= f) (first >>= g) :=
  Outlasts.bind (.refl first) hrest

/-- Running out of steps is reported like every failure, and stays one. -/
theorem unwinding {longer shorter : Action Unit} (h : Outlasts longer shorter)
    (frameCount calleeSlot : Nat) :
    Outlasts (Machine.unwinding frameCount calleeSlot longer)
      (Machine.unwinding frameCount calleeSlot shorter) := by
  intro ctx hsettled
  rw [Machine.failureOf_unwinding] at hsettled
  simp only [Machine.unwinding]
  rw [h ctx hsettled]

/-- A protected call does not catch that steps run out. -/
theorem protect {longer shorter : Action Value} (h : Outlasts longer shorter) :
    Outlasts (Native.protect longer) (Native.protect shorter) := by
  intro ctx hsettled
  simp only [Native.protect] at hsettled ⊢
  obtain ⟨c, hspent⟩ | hsame := h.cases ctx
  · rw [hspent] at hsettled
    exact (hsettled rfl).elim
  · rw [hsame]

end Outlasts

/-! ## Native functions -/

namespace Native

/-- A native function that makes no calls has none that could run out of
steps. -/
theorem enduring_of_eq {native : Native}
    (h : ∀ callBack callBack' : CallBack, native callBack = native callBack') :
    native.Enduring := by
  intro longer shorter _ arguments
  rw [h longer shorter]
  exact .refl _

theorem enduring_standard : Natives.Enduring standard := by
  intro name native hnative
  simp only [standard] at hnative
  split at hnative <;> cases hnative <;> exact enduring_of_eq fun _ _ => rfl

theorem enduring_pcall : Enduring pcall := by
  intro longer shorter hcallBack arguments
  cases arguments with
  | nil => exact .refl _
  | cons function others =>
    apply Outlasts.after
    intro _
    apply Outlasts.protect
    exact (hcallBack others.length).bind fun _ => .refl _

theorem enduring_probe : Natives.Enduring probe := by
  intro name native hnative
  simp only [probe] at hnative
  split at hnative <;> cases hnative
  · exact enduring_of_eq fun _ _ => rfl
  · exact enduring_of_eq fun _ _ => rfl
  · exact enduring_of_eq fun _ _ => rfl
  · exact enduring_of_eq fun _ _ => rfl
  · exact enduring_of_eq fun _ _ => rfl
  · exact enduring_pcall

end Native

namespace Machine

open Context

variable {natives : Natives} {longer shorter : CallBack} {budget larger : Nat}

/-! ## One turn -/

section Turns

variable (hnatives : natives.Enduring)
  (hcallBack : ∀ count, Outlasts (longer count) (shorter count))
include hnatives hcallBack

theorem outlasts_runNative (name : String) (calleeSlot : Nat) :
    Outlasts (runNative natives longer name calleeSlot)
      (runNative natives shorter name calleeSlot) := by
  simp only [runNative]
  cases hnative : natives name with
  | none => exact .refl _
  | some native =>
    apply Outlasts.after
    intro ctx
    exact (hnatives name native hnative hcallBack _).bind fun _ => .refl _

theorem outlasts_startCall (calleeSlot argumentCount : Nat) :
    Outlasts (startCall natives longer calleeSlot argumentCount)
      (startCall natives shorter calleeSlot argumentCount) := by
  apply Outlasts.after
  intro ctx
  cases ctx.stack.getD calleeSlot .nil with
  | native name => exact outlasts_runNative hnatives hcallBack name calleeSlot
  | _ => exact .refl _

/-- Of the instructions, only a call reaches what may run out of steps. -/
theorem outlasts_execute (proto : Prototype) (offset : Nat) (op : Opcode) :
    Outlasts (execute natives longer proto offset op)
      (execute natives shorter proto offset op) := by
  cases op with
  | call =>
    apply Outlasts.after
    intro argumentCount
    apply Outlasts.after
    intro frame
    apply Outlasts.after
    intro ctx
    dsimp only
    split
    · exact outlasts_startCall hnatives hcallBack _ _
    · exact .refl _
  | _ => exact .refl _

theorem outlasts_turn (proto : Prototype) :
    Outlasts (turn natives longer proto) (turn natives shorter proto) := by
  apply Outlasts.after
  intro frame
  dsimp only
  cases proto.code[frame.ip]? with
  | none => exact .refl _
  | some byte =>
    dsimp only
    cases Opcode.ofByte? byte with
    | none => exact .refl _
    | some op =>
      apply Outlasts.after
      intro _
      apply Outlasts.after
      intro _
      exact outlasts_execute hnatives hcallBack proto frame.ip op

end Turns

/-! ## Whole calls -/

/-- The loop outlasts one with a smaller budget, given that the
calls in its turns do. -/
theorem outlasts_loop_of_calls (hnatives : natives.Enduring)
    (hcall : ∀ less < budget, ∀ more, less ≤ more → ∀ count,
      Outlasts (call natives more count) (call natives less count))
    (hle : budget ≤ larger) (entry depth : Nat) (proto : Prototype) :
    Outlasts (loop natives larger entry depth proto)
      (loop natives budget entry depth proto) := by
  induction budget generalizing larger depth proto with
  | zero => exact .spent _
  | succ budget ih =>
    obtain ⟨larger, rfl⟩ := Nat.exists_eq_add_of_lt hle
    intro ctx
    by_cases hentry : ctx.frames.size ≤ entry
    · rw [loop_of_le hentry, loop_of_le hentry]
      exact fun _ => rfl
    · rw [loop_round hentry, loop_round hentry]
      refine Outlasts.bind ?_ (fun _ => ?_) ctx
      · exact outlasts_turn hnatives
          (hcall budget (Nat.lt_succ_self budget) _ (by omega)) _
      · exact ih (fun less hless => hcall less (Nat.lt_succ_of_lt hless))
          (by omega) _ _

theorem outlasts_enter (hnatives : natives.Enduring)
    (hcall : ∀ count,
      Outlasts (call natives larger count) (call natives budget count))
    (calleeSlot argumentCount : Nat) :
    Outlasts (enter natives larger calleeSlot argumentCount)
      (enter natives budget calleeSlot argumentCount) :=
  Outlasts.after _ fun _ =>
    outlasts_startCall hnatives hcall calleeSlot argumentCount

theorem outlasts_finish_of_calls (hnatives : natives.Enduring)
    (hcall : ∀ less < budget, ∀ more, less ≤ more → ∀ count,
      Outlasts (call natives more count) (call natives less count))
    (hle : budget ≤ larger) (entry : Nat) :
    Outlasts (finish natives larger entry) (finish natives budget entry) := by
  apply Outlasts.after
  intro ctx
  cases ctx.frames.back? with
  | none => exact .refl _
  | some frame =>
    apply Outlasts.after
    intro ctx
    exact outlasts_loop_of_calls hnatives hcall hle entry
      ctx.frames.size frame.proto

/-- A call does the same with a larger budget, unless it spends the smaller one.
The calls that natives make in its turns have smaller budgets still. -/
theorem outlasts_call (hnatives : natives.Enduring) (hle : budget ≤ larger)
    (argumentCount : Nat) :
    Outlasts (call natives larger argumentCount)
      (call natives budget argumentCount) := by
  induction budget using Nat.strongRecOn generalizing larger argumentCount with
  | ind budget ih =>
    cases budget with
    | zero => exact .spent _
    | succ budget =>
      obtain ⟨larger, rfl⟩ := Nat.exists_eq_add_of_lt hle
      intro ctx
      by_cases hroom : argumentCount < ctx.stack.size
      · rw [call_eq hroom, call_eq hroom]
        apply Outlasts.unwinding
        apply Outlasts.bind
        · exact outlasts_enter hnatives
            (ih budget (Nat.lt_succ_self budget) (by omega)) _ _
        · intro _
          exact outlasts_finish_of_calls hnatives
            (fun less hless more hmore =>
              ih less (Nat.lt_succ_of_lt hless) hmore) (by omega) _
      · have hunderflow := Nat.le_of_not_lt hroom
        rw [call, call, get_bind, get_bind, if_pos hunderflow,
          if_pos hunderflow]
        exact fun _ => rfl

/-- Two budgets that are both enough make no difference. -/
theorem call_congr_of_settled (hnatives : natives.Enduring)
    {other argumentCount : Nat} {ctx : Context}
    (hbudget : failureOf (call natives budget argumentCount ctx) ≠
      some .budgetSpent)
    (hother : failureOf (call natives other argumentCount ctx) ≠
      some .budgetSpent) :
    call natives budget argumentCount ctx =
      call natives other argumentCount ctx :=
  calc call natives budget argumentCount ctx
    _ = call natives (max budget other) argumentCount ctx :=
      (outlasts_call hnatives (Nat.le_max_left budget other) argumentCount ctx
        hbudget).symm
    _ = call natives other argumentCount ctx :=
      outlasts_call hnatives (Nat.le_max_right budget other)
        argumentCount ctx hother

/-- What is run with a budget spends every one, or there is a least budget from
which on it does one and the same, while it spends those below. -/
def SpendsOrSettles {ρ : Type} (run : Nat → ρ) (spends : ρ → Prop) : Prop :=
  (∀ budget, spends (run budget)) ∨
    ∃ least, ¬spends (run least) ∧ (∀ budget < least, spends (run budget)) ∧
      ∀ budget, least ≤ budget → run budget = run least

theorem spendsOrSettles {ρ : Type} {run : Nat → ρ} {spends : ρ → Prop}
    (hrun : ∀ budget larger, budget ≤ larger → ¬spends (run budget) →
      run larger = run budget) : SpendsOrSettles run spends := by
  classical
  by_cases hsettles : ∃ budget, ¬spends (run budget)
  · have hleast := Nat.find_spec hsettles
    exact .inr ⟨Nat.find hsettles, hleast,
      fun budget hless => not_not.1 (Nat.find_min hsettles hless),
      fun budget hle => hrun _ budget hle hleast⟩
  · exact .inl fun budget =>
      not_not.1 fun hsettled => hsettles ⟨budget, hsettled⟩

/-- A call spends every budget, or there is a least one from which on it
ends in the same way. -/
theorem call_spends_or_settles (hnatives : natives.Enduring)
    (argumentCount : Nat) (ctx : Context) :
    SpendsOrSettles (fun budget => call natives budget argumentCount ctx)
      fun result => failureOf result = some .budgetSpent :=
  spendsOrSettles fun _ _ hle => outlasts_call hnatives hle argumentCount ctx

/-! ## The turns of a call -/

/-- What a turn finds: the prototype at hand and the context. -/
def Turn.found (t : Turn) : Prototype × Context := (t.proto, t.ctx)

/-- With a larger budget a loop takes the same turns first, and others only if
it spent the smaller one. -/
theorem found_turnsFrom (hnatives : natives.Enduring) (hle : budget ≤ larger)
    (entry depth : Nat) (proto : Prototype) (ctx : Context) :
    ∃ later, (turnsFrom natives larger entry depth proto ctx).map Turn.found =
        (turnsFrom natives budget entry depth proto ctx).map
          Turn.found ++ later ∧
      (failureOf (loop natives budget entry depth proto ctx) ≠
        some .budgetSpent →
        later = []) := by
  induction budget generalizing larger depth proto ctx with
  | zero => exact ⟨_, rfl, fun hsettled => (hsettled rfl).elim⟩
  | succ budget ih =>
    obtain ⟨larger, rfl⟩ := Nat.exists_eq_add_of_lt hle
    by_cases hentry : ctx.frames.size ≤ entry
    · rw [turnsFrom, turnsFrom, if_pos hentry, if_pos hentry]
      exact ⟨[], rfl, fun _ => rfl⟩
    · rw [turnsFrom_round hentry, turnsFrom_round hentry, loop_round hentry]
      have hcall := outlasts_call hnatives (Nat.le_add_right budget larger)
      obtain ⟨c, hspent⟩ | hsame :=
        (outlasts_turn hnatives hcall (atHand ctx depth proto)).cases ctx
      · rw [hspent, bind_of_error hspent]
        exact ⟨_, rfl, fun hsettled => (hsettled rfl).elim⟩
      · rw [hsame]
        cases hturn : turn natives (call natives budget)
            (atHand ctx depth proto) ctx with
        | error e c => exact ⟨[], rfl, fun _ => rfl⟩
        | ok _ next =>
          rw [bind_of_ok hturn]
          obtain ⟨later, hlater, hnone⟩ :=
            ih (Nat.le_add_right budget larger) ctx.frames.size
              (atHand ctx depth proto) next
          exact ⟨later, congrArg _ hlater, hnone⟩

/-- A call takes the same turns with a larger budget, and others only if it
spent the smaller one. -/
theorem found_turnsOf (hnatives : natives.Enduring) (hle : budget ≤ larger)
    {argumentCount : Nat} {ctx : Context}
    (hroom : argumentCount < ctx.stack.size) :
    ∃ later, (turnsOf natives larger argumentCount ctx).map Turn.found =
        (turnsOf natives budget argumentCount ctx).map Turn.found ++ later ∧
      (failureOf (call natives budget argumentCount ctx) ≠ some .budgetSpent →
        later = []) := by
  cases budget with
  | zero => exact ⟨_, rfl, fun hsettled => (hsettled rfl).elim⟩
  | succ budget =>
    obtain ⟨larger, rfl⟩ := Nat.exists_eq_add_of_lt hle
    rw [turnsOf, turnsOf, call_eq hroom, failureOf_unwinding]
    have hcall := outlasts_call hnatives (Nat.le_add_right budget larger)
    obtain ⟨c, hspent⟩ | hsame := (outlasts_enter hnatives hcall
      (ctx.stack.size - argumentCount - 1) argumentCount).cases ctx
    · rw [hspent, bind_of_error hspent]
      exact ⟨_, rfl, fun hsettled => (hsettled rfl).elim⟩
    · rw [hsame]
      cases henter :
        enter natives budget (ctx.stack.size - argumentCount - 1)
          argumentCount ctx with
      | error e c => exact ⟨[], rfl, fun _ => rfl⟩
      | ok _ next =>
        rw [bind_of_ok henter, finish, get_bind]
        dsimp only
        cases next.frames.back? with
        | none => exact ⟨[], rfl, fun _ => rfl⟩
        | some frame =>
          exact found_turnsFrom hnatives (Nat.le_add_right budget larger)
            ctx.frames.size next.frames.size frame.proto next

end Machine

end Isolate
