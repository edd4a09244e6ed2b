import Isolate.Machine.Operators
import Isolate.Proofs.Numeric.Exact

/-!
# The order of numbers

Equality of numbers is equality of their exact values.  The order compares an
integer with a float after rounding the integer, so it agrees with the exact
order up to the pairs in which the float is the one nearest to the integer and
yet another number.
-/

namespace Isolate

open Binary64

namespace Value

/-- The number a value is, without any rounding.  NaN is none. -/
noncomputable def denoted? : Value → Option EReal
  | integer i => some ((i.toInt : ℝ) : EReal)
  | float x => if x.isNaN then none else some x.value
  | _ => none

/-- The comparison says that the first value is below the second. -/
def Below (left right : Value) : Prop := left.lessThan right = .ok true

/-- Exactly one of "below", "equal" and "above" is said of two values. -/
def Trichotomous (left right : Value) : Prop :=
  (left.Below right ∧ left.rawEqual right = false ∧ ¬right.Below left) ∨
  (¬left.Below right ∧ left.rawEqual right = true ∧ ¬right.Below left) ∨
  (¬left.Below right ∧ left.rawEqual right = false ∧ right.Below left)

/-- An integer and a float that is another number, though none is nearer to the
integer. -/
def Blurred : Value → Value → Prop
  | integer i, float x | float x, integer i =>
    (ofInt i.toInt).value = x.value ∧ x.value ≠ ((i.toInt : ℝ) : EReal)
  | _, _ => False

section

variable {left right third : Value} {p q r : EReal}

/-- Integers and floats other than NaN have exact values. -/
theorem denoted?_cases (h : left.denoted? = some p) :
    (∃ i, left = integer i ∧ p = ((i.toInt : ℝ) : EReal)) ∨
      ∃ x, left = float x ∧ x.isNaN = false ∧ p = x.value := by
  cases left with
  | integer i => exact .inl ⟨i, rfl, (Option.some.inj h).symm⟩
  | float x =>
    rw [denoted?] at h
    split at h
    · cases h
    · next hx =>
        exact .inr ⟨x, rfl, eq_false_of_ne_true hx, (Option.some.inj h).symm⟩
  | _ => cases h

theorem natAbs_toInt_lt (i : Int64) : i.toInt.natAbs < 2 ^ 64 := by
  have hlow := i.le_toInt
  have hhigh := i.toInt_lt
  omega

/-! ## Equality -/

theorem rawEqual_integer_integer {i j : Int64} :
    (integer i).rawEqual (integer j) = true ↔
      ((i.toInt : ℝ) : EReal) = ((j.toInt : ℝ) : EReal) := by
  rw [rawEqual, decide_eq_true_iff, EReal.coe_eq_coe_iff, Int.cast_inj,
    Int64.toInt_inj, integer.injEq]
  all_goals simp

/-- Equality is equality of the exact values. -/
theorem rawEqual_iff_exact (hleft : left.denoted? = some p)
    (hright : right.denoted? = some q) :
    left.rawEqual right = true ↔ p = q := by
  rcases denoted?_cases hleft with ⟨i, rfl, rfl⟩ | ⟨x, rfl, hx, rfl⟩ <;>
    rcases denoted?_cases hright with ⟨j, rfl, rfl⟩ | ⟨y, rfl, hy, rfl⟩
  · exact rawEqual_integer_integer
  · rw [rawEqual, decide_eq_true_iff, toInt64?_eq_some_iff, eq_comm]
  · rw [rawEqual, decide_eq_true_iff, toInt64?_eq_some_iff]
  · exact equal_eq_true_iff hx hy

/-! ## Order -/

def isInteger : Value → Bool
  | integer _ => true
  | _ => false

/-- The value of the float that a number is taken for next to a float. -/
noncomputable def nearest : Value → EReal
  | integer i => (ofInt i.toInt).value
  | float x => x.value
  | _ => 0

/-- Two numbers are compared exactly if both are integers, and as floats
otherwise. -/
theorem lessThan_eq_ok (hleft : left.denoted? = some p)
    (hright : right.denoted? = some q) :
    ∃ below, left.lessThan right = .ok below ∧
      (below = true ↔ if left.isInteger && right.isInteger then p < q
        else left.nearest < right.nearest) := by
  rcases denoted?_cases hleft with ⟨i, rfl, rfl⟩ | ⟨x, rfl, hx, rfl⟩ <;>
    rcases denoted?_cases hright with ⟨j, rfl, rfl⟩ | ⟨y, rfl, hy, rfl⟩
  · refine ⟨_, rfl, ?_⟩
    simp [isInteger, Int64.lt_iff_toInt_lt]
  · exact ⟨_, rfl, less_eq_true_iff (isNaN_ofInt _) hy⟩
  · exact ⟨_, rfl, less_eq_true_iff hx (isNaN_ofInt _)⟩
  · exact ⟨_, rfl, less_eq_true_iff hx hy⟩

theorem below_iff_nearest (hleft : left.denoted? = some p)
    (hright : right.denoted? = some q) :
    left.Below right ↔ if left.isInteger && right.isInteger then p < q
      else left.nearest < right.nearest := by
  obtain ⟨below, heq, hiff⟩ := lessThan_eq_ok hleft hright
  rw [Below, heq, ← hiff]
  exact ⟨fun h => Except.ok.inj h, fun h => congrArg Except.ok h⟩

/-- Rounding keeps numbers in order. -/
theorem nearest_mono (hleft : left.denoted? = some p)
    (hright : right.denoted? = some q) (h : p ≤ q) :
    left.nearest ≤ right.nearest := by
  rcases denoted?_cases hleft with ⟨i, rfl, rfl⟩ | ⟨x, rfl, hx, rfl⟩ <;>
    rcases denoted?_cases hright with ⟨j, rfl, rfl⟩ | ⟨y, rfl, hy, rfl⟩
  · rw [EReal.coe_le_coe_iff, Int.cast_le] at h
    exact ofInt_mono h
  · exact ofInt_le (natAbs_toInt_lt i) hy h
  · exact le_ofInt (natAbs_toInt_lt j) hx h
  · exact h

theorem blurred_iff (hleft : left.denoted? = some p)
    (hright : right.denoted? = some q) :
    left.Blurred right ↔
      (left.isInteger && right.isInteger) = false ∧
        left.nearest = right.nearest ∧ p ≠ q := by
  rcases denoted?_cases hleft with ⟨i, rfl, rfl⟩ | ⟨x, rfl, hx, rfl⟩ <;>
    rcases denoted?_cases hright with ⟨j, rfl, rfl⟩ | ⟨y, rfl, hy, rfl⟩ <;>
    simp [Blurred, isInteger, nearest, eq_comm]

/-- The order is the exact one but for the pairs that rounding makes equal. -/
theorem below_iff_exact (hleft : left.denoted? = some p)
    (hright : right.denoted? = some q) :
    left.Below right ↔ p < q ∧ ¬left.Blurred right := by
  rw [below_iff_nearest hleft hright, blurred_iff hleft hright]
  cases hinteger : left.isInteger && right.isInteger with
  | true => simp
  | false =>
    have hup := nearest_mono hleft hright
    have hdown := nearest_mono hright hleft
    simp only [Bool.false_eq_true, if_false, true_and, not_and, not_not]
    constructor
    · intro hlt
      exact ⟨lt_of_not_ge fun hle => not_lt_of_ge (hdown hle) hlt,
        fun heq => absurd heq (ne_of_lt hlt)⟩
    · rintro ⟨hlt, hne⟩
      exact lt_of_le_of_ne (hup (le_of_lt hlt))
        fun heq => ne_of_lt hlt (hne heq)

theorem Blurred.symm (h : left.Blurred right) : right.Blurred left := by
  cases left <;> cases right <;> exact h

theorem blurred_comm : left.Blurred right ↔ right.Blurred left :=
  ⟨Blurred.symm, Blurred.symm⟩

/-- The order of numbers is transitive, whatever is rounded on the way. -/
theorem Below.trans (hleft : left.denoted? = some p)
    (hright : right.denoted? = some q) (hthird : third.denoted? = some r)
    (h : left.Below right) (h' : right.Below third) : left.Below third := by
  have hpq := ((below_iff_exact hleft hright).1 h).1
  have hqr := ((below_iff_exact hright hthird).1 h').1
  have hup := nearest_mono hleft hright (le_of_lt hpq)
  have hup' := nearest_mono hright hthird (le_of_lt hqr)
  rw [below_iff_nearest hleft hright] at h
  rw [below_iff_nearest hright hthird] at h'
  rw [below_iff_nearest hleft hthird]
  split
  · exact lt_trans hpq hqr
  · next hne =>
    split at h
    · next hfirst =>
      split at h'
      · next hsecond =>
        simp only [Bool.and_eq_true] at hfirst hsecond hne
        exact absurd ⟨hfirst.1, hsecond.2⟩ hne
      · exact lt_of_le_of_lt hup h'
    · exact lt_of_lt_of_le h hup'

/-- Only integers beyond 53 bits are ever rounded to another number. -/
theorem Blurred.exists_large (h : left.Blurred right) :
    ∃ i x, 2 ^ 53 < i.toInt.natAbs ∧
      (left = integer i ∧ right = float x ∨
        left = float x ∧ right = integer i) := by
  have hlarge : ∀ (i : Int64) (x : Binary64), (ofInt i.toInt).value = x.value →
      x.value ≠ ((i.toInt : ℝ) : EReal) → 2 ^ 53 < i.toInt.natAbs := by
    intro i x hnearest hne
    by_contra hle
    exact hne (hnearest.symm.trans (value_ofInt (Nat.le_of_not_lt hle)))
  cases left with
  | integer i =>
    cases right with
    | float x => exact ⟨i, x, hlarge i x h.1 h.2, .inl ⟨rfl, rfl⟩⟩
    | _ => exact h.elim
  | float x =>
    cases right with
    | integer i => exact ⟨i, x, hlarge i x h.1 h.2, .inr ⟨rfl, rfl⟩⟩
    | _ => exact h.elim
  | _ => exact h.elim

/-- The three comparisons exclude each other, and one of them holds unless the
pair is blurred. -/
theorem trichotomous_iff_not_blurred (hleft : left.denoted? = some p)
    (hright : right.denoted? = some q) :
    left.Trichotomous right ↔ ¬left.Blurred right := by
  have hequal := rawEqual_iff_exact hleft hright
  rw [Trichotomous, below_iff_exact hleft hright, below_iff_exact hright hleft,
    ← Bool.not_eq_true, hequal, @blurred_comm right left]
  rcases lt_trichotomy p q with h | rfl | h
  · simp [h, not_lt_of_gt h, ne_of_lt h]
  · have hnot : ¬left.Blurred right := fun hblurred =>
      ((blurred_iff hleft hright).1 hblurred).2.2 rfl
    simp [hnot]
  · simp [h, not_lt_of_gt h, ne_of_gt h]

/-- Equality of numbers is exact.  The order is defined and transitive, and it
is the exact order of all pairs but the blurred ones, of which no comparison
holds; they need an integer beyond 53 bits. -/
theorem comparisons_exact_unless_blurred (hleft : left.denoted? = some p)
    (hright : right.denoted? = some q) :
    (left.rawEqual right = true ↔ p = q) ∧
    (∃ below, left.lessThan right = .ok below ∧
      (below = true ↔ p < q ∧ ¬left.Blurred right)) ∧
    (left.Trichotomous right ↔ ¬left.Blurred right) ∧
    (left.Blurred right → ∃ i x, 2 ^ 53 < i.toInt.natAbs ∧
      (left = integer i ∧ right = float x ∨
        left = float x ∧ right = integer i)) ∧
    (∀ third r, third.denoted? = some r →
      left.Below right → right.Below third → left.Below third) := by
  obtain ⟨below, heq, -⟩ := lessThan_eq_ok hleft hright
  have hbelow : below = true ↔ left.Below right := by
    rw [Below, heq]
    exact ⟨fun h => congrArg Except.ok h, fun h => Except.ok.inj h⟩
  exact ⟨rawEqual_iff_exact hleft hright,
    ⟨below, heq, hbelow.trans (below_iff_exact hleft hright)⟩,
    trichotomous_iff_not_blurred hleft hright, Blurred.exists_large,
    fun third r hthird h h' => h.trans hleft hright hthird h'⟩

end

/-! ## Neighbours beyond 53 bits -/

/-- The least positive integer that no float equals. -/
def unrepresented : Value := integer 9007199254740993

/-- The float nearest to it, which is one less. -/
def floatBelow : Value := float ⟨0x4340000000000000⟩

/-- The next float, which is one more. -/
def floatAbove : Value := float ⟨0x4340000000000001⟩

/-- An integer is not comparable with the float nearest to it. -/
theorem not_trichotomous_floatBelow :
    floatBelow.denoted?.isSome = true ∧ unrepresented.denoted?.isSome = true ∧
      ¬floatBelow.Trichotomous unrepresented := by
  have hbelow : floatBelow.lessThan unrepresented = .ok false :=
    congrArg Except.ok (by decide +kernel)
  have habove : unrepresented.lessThan floatBelow = .ok false :=
    congrArg Except.ok (by decide +kernel)
  have hequal : floatBelow.rawEqual unrepresented = false := by decide +kernel
  refine ⟨?_, rfl, ?_⟩
  · rw [floatBelow, denoted?, if_neg (by decide)]
    rfl
  · simp [Trichotomous, Below, hbelow, habove, hequal]

theorem comparisons_exact_floatAbove :
    ∃ p q, unrepresented.denoted? = some p ∧ floatAbove.denoted? = some q ∧
      unrepresented.Trichotomous floatAbove := by
  have habove :
      floatAbove.denoted? = some (Binary64.value ⟨0x4340000000000001⟩) := by
    rw [floatAbove, denoted?, if_neg (by decide)]
  have hclear : ¬unrepresented.Blurred floatAbove := fun h => by
    have hequal := (equal_eq_true_iff (isNaN_ofInt _) (by decide)).2 h.1
    exact absurd hequal (by decide +kernel)
  exact ⟨_, _, rfl, habove,
    (comparisons_exact_unless_blurred rfl habove).2.2.1.2 hclear⟩

end Value

end Isolate
