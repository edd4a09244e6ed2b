import Isolate.Context.Functions
import Isolate.Context.Tables
import Isolate.Proofs.Outcome

/-!
# What queries fail with

A query that looks no further than the stack fails because an index names no
slot, or because a value is not of the kind that was asked for.  One that reads
an object can fail besides because a handle names nothing.  No query fails in
any other way.
-/

namespace Isolate

/-- The failures to find a value of the right kind on the stack. -/
def RuntimeError.Misplaced : RuntimeError → Prop
  | .invalidIndex _ | .typeMismatch .. => True
  | _ => False

/-- The failures to look something up. -/
def RuntimeError.Missed : RuntimeError → Prop
  | .danglingHandle _ => True
  | e => e.Misplaced

theorem RuntimeError.Misplaced.missed {e : RuntimeError}
    (h : e.Misplaced) : e.Missed := by
  cases e with
  | invalidIndex => trivial
  | typeMismatch => trivial
  | _ => exact h.elim

namespace Context

variable {ctx : Context} {index : Int} {handle : Handle}
  {e : RuntimeError} {α : Type}

/-! ## Queries of the stack -/

theorem misplaced_of_slotOf (h : ctx.slotOf index = .error e) :
    e.Misplaced := by
  simp only [slotOf] at h
  split at h <;> cases h
  trivial

theorem misplaced_of_absoluteIndex
    (h : ctx.absoluteIndex index = .error e) : e.Misplaced := by
  obtain hslot | ⟨slot, -, hslot⟩ := eq_error_of_bind (eq_error_of_map h)
  · exact misplaced_of_slotOf hslot
  · cases hslot

theorem misplaced_of_valueAt
    (h : ctx.valueAt index = .error e) : e.Misplaced := by
  simp only [valueAt] at h
  split at h <;> cases h
  trivial

theorem misplaced_of_kindAt (h : ctx.kindAt index = .error e) : e.Misplaced :=
  misplaced_of_valueAt (eq_error_of_map h)

theorem misplaced_of_tableRefAt
    (h : ctx.tableRefAt index = .error e) : e.Misplaced := by
  obtain hvalue | ⟨value, -, hvalue⟩ := eq_error_of_bind h
  · exact misplaced_of_valueAt hvalue
  · cases value <;> cases hvalue <;> trivial

/-! ## Queries of objects -/

theorem missed_of_objectAs {expected : String} {select : Object → Option α}
    (h : ctx.objectAs expected select handle = .error e) : e.Missed := by
  simp only [objectAs] at h
  split at h
  · split at h <;> cases h
    trivial
  · cases h
    trivial

theorem missed_of_cellOf (h : ctx.cellOf handle = .error e) : e.Missed := by
  simp only [cellOf] at h
  split at h <;> cases h
  trivial

theorem missed_of_lookupKey {key : Value}
    (h : ctx.lookupKey handle key = .error e) : e.Missed := by
  obtain htable | ⟨table, -, hkey⟩ := eq_error_of_bind h
  · exact missed_of_objectAs htable
  · split at hkey <;> cases hkey

theorem missed_of_lengthOf {value : Value}
    (h : ctx.lengthOf value = .error e) : e.Missed := by
  cases value with
  | string => cases h
  | table handle => exact missed_of_objectAs (eq_error_of_map h)
  | _ =>
    cases h
    trivial

theorem missed_of_tableAt (h : ctx.tableAt index = .error e) : e.Missed := by
  obtain hhandle | ⟨handle, -, htable⟩ := eq_error_of_bind h
  · exact (misplaced_of_tableRefAt hhandle).missed
  · exact missed_of_objectAs htable

theorem missed_of_rawLength
    (h : ctx.rawLength index = .error e) : e.Missed := by
  obtain hvalue | ⟨value, -, hlength⟩ := eq_error_of_bind h
  · exact (misplaced_of_valueAt hvalue).missed
  · exact missed_of_lengthOf hlength

theorem missed_of_tablePairs
    (h : ctx.tablePairs index = .error e) : e.Missed := by
  obtain htable | ⟨table, -, hpairs⟩ := eq_error_of_bind h
  · exact missed_of_tableAt htable
  · cases hpairs

end Context

end Isolate
