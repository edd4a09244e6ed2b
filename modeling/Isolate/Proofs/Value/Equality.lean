import Isolate.Proofs.Numeric.Exact
import Isolate.Proofs.Value.Key

/-!
# Equality of values and equality of keys

Two values other than nil and NaN are equal exactly when their keys are the
same.  So equality is an equivalence on them, and a key can be turned into a
value and back.
-/

namespace Isolate

open Binary64

namespace Value

def isNaN : Value → Bool
  | float x => x.isNaN
  | _ => false

/-- Only nil and NaN are not. -/
def IsKey (value : Value) : Prop := value ≠ nil ∧ value.isNaN = false

variable {left right value : Value} {key : Key} {x y : Binary64} {i : Int64}

/-! ## Keys -/

theorem key?_float_of_some (h : x.toInt64? = some i) :
    (float x).key? = some (.integer i) := by
  rw [key?, if_neg (by simp [isNaN_eq_false_of_toInt64? h]), h]

theorem key?_float_of_none (hx : x.isNaN = false) (h : x.toInt64? = none) :
    (float x).key? = some (.float x) := by
  rw [key?, if_neg (by simp [hx]), h]

theorem exists_key?_float (hx : x.isNaN = false) :
    ∃ key, (float x).key? = some key := by
  cases h : x.toInt64? with
  | some i => exact ⟨_, key?_float_of_some h⟩
  | none => exact ⟨_, key?_float_of_none hx h⟩

theorem key?_eq_none_iff :
    value.key? = none ↔ value = nil ∨ value.isNaN = true := by
  cases value with
  | float x =>
    cases hx : x.isNaN with
    | false =>
      obtain ⟨key, hkey⟩ := exists_key?_float hx
      simp [hkey, isNaN, hx]
    | true => simp [key?, isNaN, hx]
  | _ => simp [key?, isNaN]

theorem isKey_iff : value.IsKey ↔ ∃ key, value.key? = some key := by
  rw [← Option.ne_none_iff_exists', ne_eq, key?_eq_none_iff, not_or,
    Bool.not_eq_true, IsKey]

/-- The value of a key is of the kind that the key was made from. -/
theorem kind_toValue_of_key? (h : value.key? = some key) :
    key.toValue.kind = value.kind := by
  cases value with
  | float x =>
    have hx : x.isNaN = false := (isKey_iff.2 ⟨key, h⟩).2
    cases hint : x.toInt64? with
    | some i =>
      rw [key?_float_of_some hint] at h
      cases h
      rfl
    | none =>
      rw [key?_float_of_none hx hint] at h
      cases h
      rfl
  | nil => cases h
  | _ =>
    cases h
    rfl

/-- Only numbers are changed by being used as keys. -/
theorem toValue_of_key? (hkind : value.kind ≠ .number)
    (h : value.key? = some key) : key.toValue = value := by
  cases value with
  | integer => exact absurd rfl hkind
  | float => exact absurd rfl hkind
  | nil => cases h
  | _ =>
    cases h
    rfl

/-! ## Equality -/

theorem rawEqual_of_kind (h : left.kind ≠ .number ∨ right.kind ≠ .number) :
    left.rawEqual right = decide (left = right) := by
  cases left with
  | integer | float =>
    cases right with
    | integer | float => simp [kind] at h
    | _ => rfl
  | _ => rfl

theorem rawEqual_float_iff_key? (hx : x.isNaN = false) (hy : y.isNaN = false) :
    (float x).rawEqual (float y) = true ↔ (float x).key? = (float y).key? := by
  change x.equal y = true ↔ _
  rw [equal_eq_true_iff hx hy]
  cases hi : x.toInt64? with
  | some i =>
    have hvalue := toInt64?_eq_some_iff.1 hi
    cases hj : y.toInt64? with
    | some j =>
      have hvalue' := toInt64?_eq_some_iff.1 hj
      rw [key?_float_of_some hi, key?_float_of_some hj, hvalue, hvalue',
        EReal.coe_eq_coe_iff, Int.cast_inj, Int64.toInt_inj, Option.some_inj,
        Key.integer.injEq]
    | none =>
      rw [key?_float_of_some hi, key?_float_of_none hy hj]
      refine ⟨fun heq => ?_, fun heq => by cases heq⟩
      rw [toInt64?_eq_some_iff.2 (heq.symm.trans hvalue)] at hj
      cases hj
  | none =>
    cases hj : y.toInt64? with
    | some j =>
      rw [key?_float_of_none hx hi, key?_float_of_some hj]
      refine ⟨fun heq => ?_, fun heq => by cases heq⟩
      rw [toInt64?_eq_some_iff.2 (heq.trans (toInt64?_eq_some_iff.1 hj))] at hi
      cases hi
    | none =>
      rw [key?_float_of_none hx hi, key?_float_of_none hy hj, Option.some_inj,
        Key.float.injEq]
      refine ⟨fun heq => ?_, fun heq => heq ▸ rfl⟩
      -- The two zeros are integers, and other bits of one rank are the same.
      apply eq_of_rank_eq ((value_eq_value_iff hx hy).1 heq)
      intro hzero
      rw [toInt64?_of_rank_eq_zero hzero] at hi
      cases hi

theorem rawEqual_integer_float_iff_key? (hx : x.isNaN = false) :
    (integer i).rawEqual (float x) = true ↔
      (integer i).key? = (float x).key? := by
  rw [rawEqual, decide_eq_true_iff]
  cases hint : x.toInt64? with
  | some j =>
    rw [key?_float_of_some hint, key?, Option.some_inj, Option.some_inj,
      Key.integer.injEq, eq_comm]
  | none =>
    rw [key?_float_of_none hx hint, key?]
    simp

/-- Values are equal exactly when their keys are. -/
theorem rawEqual_iff_key? (hleft : left.IsKey) (hright : right.IsKey) :
    left.rawEqual right = true ↔ left.key? = right.key? := by
  by_cases hkind : left.kind ≠ .number ∨ right.kind ≠ .number
  · rw [rawEqual_of_kind hkind, decide_eq_true_iff]
    refine ⟨fun h => h ▸ rfl, fun h => ?_⟩
    obtain ⟨key, hkey⟩ := isKey_iff.1 hleft
    have hkey' : right.key? = some key := h ▸ hkey
    have hsame : left.kind = right.kind :=
      (kind_toValue_of_key? hkey).symm.trans (kind_toValue_of_key? hkey')
    have hleftKind : left.kind ≠ .number := by
      rcases hkind with hkind | hkind
      · exact hkind
      · rwa [hsame]
    exact (toValue_of_key? hleftKind hkey).symm.trans
      (toValue_of_key? (hsame ▸ hleftKind) hkey')
  · cases left with
    | integer i =>
      cases right with
      | integer j => simp [rawEqual, key?]
      | float y => exact rawEqual_integer_float_iff_key? hright.2
      | _ => simp [kind] at hkind
    | float x =>
      cases right with
      | integer j =>
        exact (rawEqual_integer_float_iff_key? hleft.2).trans eq_comm
      | float y => exact rawEqual_float_iff_key? hleft.2 hright.2
      | _ => simp [kind] at hkind
    | _ => simp [kind] at hkind

theorem rawEqual_of_isNaN (h : left.isNaN = true) (right : Value) :
    left.rawEqual right = false ∧ right.rawEqual left = false := by
  cases left with
  | float x =>
    have hx : x.isNaN = true := h
    have hnone : ∀ i, x.toInt64? ≠ some i := fun i hi => by
      rw [isNaN_eq_false_of_toInt64? hi] at hx
      cases hx
    cases right with
    | integer i => exact ⟨decide_eq_false (hnone i), decide_eq_false (hnone i)⟩
    | float y => simp [rawEqual, equal, hx]
    | _ => exact ⟨rfl, rfl⟩
  | _ => cases h

/-- On values that can be keys, equality is having the same key, and so it is an
equivalence.  All but nil and NaN are such values, NaN equals nothing, and the
value of a key equals what the key was made from. -/
theorem rawEqual_is_key_equality :
    (∀ left right : Value, left.IsKey → right.IsKey →
      (left.rawEqual right = true ↔ left.key? = right.key?)) ∧
    Equivalence (fun left right : {value : Value // value.IsKey} =>
      left.1.rawEqual right.1 = true) ∧
    (∀ value : Value, value.key? = none ↔ value = nil ∨ value.isNaN = true) ∧
    (∀ left right : Value, left.isNaN = true →
      left.rawEqual right = false ∧ right.rawEqual left = false) ∧
    (∀ (value : Value) (key : Key), value.key? = some key →
      key.toValue.rawEqual value = true ∧ key.toValue.key? = some key) := by
  refine ⟨fun left right => rawEqual_iff_key?, ⟨?_, ?_, ?_⟩,
    fun value => key?_eq_none_iff,
    fun left right h => rawEqual_of_isNaN h right, ?_⟩
  · rintro ⟨value, hvalue⟩
    exact (rawEqual_iff_key? hvalue hvalue).2 rfl
  · rintro ⟨left, hleft⟩ ⟨right, hright⟩ h
    exact (rawEqual_iff_key? hright hleft).2
      ((rawEqual_iff_key? hleft hright).1 h).symm
  · rintro ⟨left, hleft⟩ ⟨middle, hmiddle⟩ ⟨right, hright⟩ h h'
    apply (rawEqual_iff_key? hleft hright).2
    calc left.key? = middle.key? := (rawEqual_iff_key? hleft hmiddle).1 h
      _ = right.key? := (rawEqual_iff_key? hmiddle hright).1 h'
  · intro value key h
    have hcanonical : key.toValue.key? = some key := canonical_of_key? h
    refine ⟨?_, hcanonical⟩
    apply (rawEqual_iff_key? (isKey_iff.2 ⟨key, hcanonical⟩)
      (isKey_iff.2 ⟨key, h⟩)).2
    rw [hcanonical, h]

/-- The negative zero and the integer zero. -/
theorem rawEqual_is_key_equality_zero :
    (float ⟨0x8000000000000000⟩).IsKey ∧ (integer 0).IsKey ∧
      (float ⟨0x8000000000000000⟩).rawEqual (integer 0) = true := by
  have hfloat : (float ⟨0x8000000000000000⟩).IsKey := ⟨by simp, by decide⟩
  have hinteger : (integer 0).IsKey := ⟨by simp, rfl⟩
  exact ⟨hfloat, hinteger,
    (rawEqual_is_key_equality.1 _ _ hfloat hinteger).2 (by decide)⟩

end Value

end Isolate
