import Isolate.Value.Key

/-!
# Keys and their values

A key is canonical when it is the key of its own value, as every key that was
made from a value is.
-/

namespace Isolate

/-- The key is the one that its value makes; a float that is an
integer or NaN is none. -/
def Key.Canonical (key : Key) : Prop := key.toValue.key? = some key

instance (key : Key) : Decidable key.Canonical :=
  inferInstanceAs (Decidable (_ = _))

theorem Value.isNil_iff {value : Value} :
    value.isNil = true ↔ value = .nil := by
  cases value <;> simp [isNil]

/-- Every key that was made from a value is canonical. -/
theorem Value.canonical_of_key? {value : Value} {key : Key}
    (h : value.key? = some key) : key.Canonical := by
  cases value with
  | float x =>
    simp only [key?] at h
    split at h
    · cases h
    · next hnan =>
      split at h
      · cases h
        rfl
      · next hint =>
        cases h
        change (if x.isNaN = true then none else _) = _
        rw [if_neg hnan, hint]
  | nil => cases h
  | _ =>
    cases h
    rfl

namespace Key

theorem toValue_injective {key other : Key}
    (h : key.toValue = other.toValue) : key = other := by
  cases key <;> cases other <;> simp_all [toValue]

end Key

end Isolate
