import Isolate.Native.Probe
import Isolate.Native.Standard
import Isolate.Proofs.Machine.Turn

/-!
# Native functions leave the frames alone

The standard native functions only look at the context.  Of those that probe a
context, one collects and one makes a protected call.
-/

namespace Isolate.Native

open Context

variable {good : Prototype → Prop} {frames : List Frame} {ctx : Context}

theorem proper_ofQuery (f : Context → List Value → Except String Value) :
    Proper (ofQuery f) :=
  fun _ _ _ _ _ _ _ h => ⟨h, Nat.le_refl _⟩

theorem proper_ofOne (name : String)
    (f : Context → Value → Except String Value) : Proper (ofOne name f) :=
  proper_ofQuery _

theorem proper_standard : Natives.Proper standard := by
  intro name native hnative
  simp only [standard] at hnative
  split at hnative <;> cases hnative
  · exact proper_ofOne _ _
  · exact proper_ofOne _ _
  · exact proper_ofQuery _
  · exact proper_ofOne _ _
  · exact proper_ofQuery _
  · exact proper_ofOne _ _

theorem proper_collect : Proper collect := by
  intro good _ callBack _ frames ctx arguments h
  exact ⟨(h.withHeap h.closures.collect).note _, Nat.le_refl _⟩

/-- Pushing values keeps the frames. -/
theorem ends_forM_push (h : ctx.Runs good frames) (values : List Value)
    {onError : RuntimeError → Context → Prop} :
    Ends (values.forM push ctx)
      (fun _ c =>
        c.Runs good frames ∧ c.stack.size = ctx.stack.size + values.length)
      onError := by
  induction values generalizing ctx with
  | nil => exact ⟨h, rfl⟩
  | cons value rest ih =>
    rw [List.forM]
    refine (Machine.ends_push h value).bind fun _ c hc => ?_
    refine (ih hc.1).mono (fun _ c' hc' => ⟨hc'.1, ?_⟩) fun _ _ he => he
    rw [hc'.2, hc.2, List.length_cons]
    omega

/-- A protected call leaves what was on the stack before it, whether the call
succeeds or fails. -/
theorem proper_pcall : Proper pcall := by
  intro good hgood callBack hcallBack frames ctx arguments h
  cases arguments with
  | nil => exact ⟨h, Nat.le_refl _⟩
  | cons function others =>
    simp only [pcall]
    refine (ends_forM_push h (function :: others)).bind fun _ c hc => ?_
    have hheight : c.stack.size = ctx.stack.size + (others.length + 1) := hc.2
    have hfloor := h.floor_le
    have hcall := hcallBack frames c others.length hc.1 (by omega)
    have hprotected :
        Ends ((do callBack others.length; popTop : Action Value) c)
          (fun _ c' => c'.Runs good frames ∧ ctx.stack.size ≤ c'.stack.size)
          (fun _ c' =>
            c'.Runs good frames ∧ ctx.stack.size ≤ c'.stack.size) := by
      rw [ends_bind]
      refine hcall.mono (fun _ c' hc' => ?_) fun e c' hc' => ⟨hc'.1, by omega⟩
      have hsize : c'.stack.size = ctx.stack.size + 1 := by omega
      simp only [popTop]
      cases c'.stack.back? with
      | none => exact ⟨hc'.1, by omega⟩
      | some value =>
        have hpopped : ctx.stack.size ≤ c'.stack.pop.size := by
          rw [Array.size_pop]
          omega
        exact ⟨hc'.1.withStack (Nat.le_trans hfloor hpopped), hpopped⟩
    simp only [protect]
    cases hresult : (do callBack others.length; popTop : Action Value) c with
    | ok value c' => exact hprotected.ok hresult
    | error e c' =>
      have hc' := hprotected.error hresult
      cases e <;> first | exact hc' | exact ⟨rfl, hc'⟩

theorem proper_probe : Natives.Proper probe := by
  intro name native hnative
  simp only [probe] at hnative
  split at hnative <;> cases hnative
  · exact fun _ _ _ _ _ _ _ h => ⟨h, Nat.le_refl _⟩
  · exact proper_collect
  · exact fun _ _ _ _ _ _ _ h => ⟨h, Nat.le_refl _⟩
  · exact fun _ _ _ _ _ _ _ h => ⟨h, Nat.le_refl _⟩
  · exact fun _ _ _ _ _ _ _ h => ⟨h, Nat.le_refl _⟩
  · exact proper_pcall

end Isolate.Native
