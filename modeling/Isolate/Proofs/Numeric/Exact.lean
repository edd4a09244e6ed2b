import Isolate.Proofs.Numeric.Rounding
import Mathlib.Data.EReal.Basic
import Mathlib.Data.Int.ConditionallyCompleteOrder
import Mathlib.Data.Int.Order.Lemmas

/-!
# Exact values of binary64 numbers

A number other than NaN stands for an extended real.  The order and the equality
of numbers are those of what they stand for, a conversion to an integer is
exact, and no number lies between an integer and the number nearest to it.
-/

namespace Isolate.Binary64

/-! ## Values -/

/-- The odd extension of a function of absolute values. -/
def withSign (f : Nat → Nat) (i : Int) : Int := i.sign * f i.natAbs

theorem withSign_natCast {f : Nat → Nat} (hf : f 0 = 0) (n : Nat) :
    withSign f n = f n := by
  rcases Nat.eq_zero_or_pos n with rfl | hn
  · simp [withSign, hf]
  · rw [withSign, Int.sign_eq_one_of_pos (by omega),
      Int.natAbs_natCast, one_mul]

theorem withSign_neg (f : Nat → Nat) (i : Int) :
    withSign f (-i) = -withSign f i := by
  rw [withSign, withSign, Int.sign_neg, Int.natAbs_neg, neg_mul]

/-- The units of a rank, with its sign. -/
def unitCount (rank : Int) : Int := withSign units rank

@[simp]
theorem unitCount_natCast (n : Nat) : unitCount n = units n :=
  withSign_natCast units_zero n

@[simp]
theorem unitCount_neg (rank : Int) : unitCount (-rank) = -unitCount rank :=
  withSign_neg units rank

theorem strictMono_unitCount : StrictMono unitCount := by
  intro rank rank' h
  have hunits : ∀ n m : Nat, n < m ↔ units n < units m := fun n m =>
    strictMono_units.lt_iff_lt.symm
  obtain ⟨n, rfl | rfl⟩ := Int.eq_nat_or_neg rank <;>
    obtain ⟨m, rfl | rfl⟩ := Int.eq_nat_or_neg rank'
  · have := (hunits n m).1 (by omega)
    simpa using this
  · omega
  · have hzero := units_zero
    have hn := hunits 0 n
    have hm := hunits 0 m
    rw [unitCount_neg, unitCount_natCast, unitCount_natCast]
    omega
  · have := (hunits m n).1 (by omega)
    simpa using this

/-- The number that the bits stand for.  NaN has no value of its own. -/
noncomputable def value (x : Binary64) : EReal :=
  if x.isFinite then
    (((if x.negative then -1 else 1) * (x.mantissa : ℝ) *
      2 ^ x.exponent : ℝ) : EReal)
  else if x.negative then ⊥ else ⊤

theorem units_magnitude (x : Binary64) :
    units x.magnitude = x.mantissa * 2 ^ (max x.biasedExponent 1 - 1) := by
  have hpos : 0 < leadingWeight := by decide
  by_cases h : x.magnitude < leadingWeight
  · have hexponent : x.biasedExponent = 0 := Nat.div_eq_of_lt h
    rw [units, if_pos h, mantissa, if_pos hexponent, hexponent, fraction,
      Nat.mod_eq_of_lt h, Nat.max_eq_right (Nat.zero_le 1), Nat.sub_self,
      Nat.pow_zero, Nat.mul_one]
  · have hexponent : 0 < x.biasedExponent :=
      Nat.div_pos (Nat.le_of_not_lt h) hpos
    rw [units, if_neg h, mantissa, if_neg (Nat.ne_of_gt hexponent), fraction,
      Nat.max_eq_left hexponent, biasedExponent]

theorem unitCount_rank (x : Binary64) :
    unitCount x.rank =
      (if x.negative then -1 else 1) * (units x.magnitude : Int) := by
  rw [rank]
  split
  · rw [unitCount_neg, unitCount_natCast, neg_one_mul]
  · rw [unitCount_natCast, one_mul]

/-- The exponent counts from that of the least positive number. -/
theorem exponent_eq (x : Binary64) :
    x.exponent =
      ((max x.biasedExponent 1 - 1 : Nat) : Int) - (unitExponent : Int) := by
  have hone : 1 ≤ max x.biasedExponent 1 := Nat.le_max_right _ _
  rw [exponent, unitExponent]
  omega

theorem value_of_isFinite {x : Binary64} (h : x.isFinite = true) :
    x.value = (((unitCount x.rank : ℝ) / (unitsOfOne : ℝ) : ℝ) : EReal) := by
  have hpow : (2 : ℝ) ^ x.exponent =
      2 ^ (max x.biasedExponent 1 - 1) / (unitsOfOne : ℝ) := by
    rw [exponent_eq, zpow_sub₀ two_ne_zero, zpow_natCast,
      zpow_natCast, unitsOfOne, Nat.cast_pow, Nat.cast_ofNat]
  rw [value, if_pos h, hpow, unitCount_rank, units_magnitude]
  congr 1
  push_cast
  ring

/-- A number is finite or one of the infinities, and its rank tells which. -/
theorem value_cases {x : Binary64} (h : x.isNaN = false) :
    (-(infinityBits : Int) < x.rank ∧ x.rank < infinityBits ∧
      x.value = (((unitCount x.rank : ℝ) / (unitsOfOne : ℝ) : ℝ) : EReal)) ∨
    (x.rank = infinityBits ∧ x.value = ⊤) ∨
    (x.rank = -(infinityBits : Int) ∧ x.value = ⊥) := by
  have hmagnitude : x.magnitude ≤ infinityBits := by simpa [isNaN] using h
  by_cases hfinite : x.isFinite = true
  · have hlt : x.magnitude < infinityBits := by simpa [isFinite] using hfinite
    refine .inl ⟨?_, ?_, value_of_isFinite hfinite⟩ <;>
    · rw [rank]
      split <;> omega
  · have hge : infinityBits ≤ x.magnitude := by simpa [isFinite] using hfinite
    have heq : x.magnitude = infinityBits := Nat.le_antisymm hmagnitude hge
    rw [value, if_neg hfinite, rank, heq]
    cases x.negative with
    | false => exact .inr (.inl ⟨rfl, rfl⟩)
    | true => exact .inr (.inr ⟨rfl, rfl⟩)

theorem unitCount_div_lt_iff {rank rank' : Int} :
    (unitCount rank : ℝ) / (unitsOfOne : ℝ) <
      (unitCount rank' : ℝ) / (unitsOfOne : ℝ) ↔
      rank < rank' := by
  have hpos : (0 : ℝ) < unitsOfOne := Nat.cast_pos.2 unitsOfOne_pos
  rw [div_lt_div_iff_of_pos_right hpos, Int.cast_lt]
  exact strictMono_unitCount.lt_iff_lt

/-- The order of the exact values is the order of the ranks. -/
theorem value_lt_value_iff {x y : Binary64} (hx : x.isNaN = false)
    (hy : y.isNaN = false) : x.value < y.value ↔ x.rank < y.rank := by
  have hinfinity : (0 : Int) < infinityBits := by decide
  rcases value_cases hx with
    ⟨hlow, hhigh, hxvalue⟩ | ⟨hxrank, hxvalue⟩ | ⟨hxrank, hxvalue⟩ <;>
    rcases value_cases hy with
      ⟨hlow', hhigh', hyvalue⟩ | ⟨hyrank, hyvalue⟩ | ⟨hyrank, hyvalue⟩ <;>
    rw [hxvalue, hyvalue]
  · rw [EReal.coe_lt_coe_iff]
    exact unitCount_div_lt_iff
  · simp only [EReal.coe_lt_top, true_iff]
    omega
  · simp only [not_lt_bot, false_iff]
    omega
  · simp only [not_top_lt, false_iff]
    omega
  · simp only [lt_self_iff_false, false_iff]
    omega
  · simp only [not_top_lt, false_iff]
    omega
  · simp only [EReal.bot_lt_coe, true_iff]
    omega
  · simp only [bot_lt_top, true_iff]
    omega
  · simp only [lt_self_iff_false, false_iff]
    omega

theorem value_le_value_iff {x y : Binary64} (hx : x.isNaN = false)
    (hy : y.isNaN = false) : x.value ≤ y.value ↔ x.rank ≤ y.rank := by
  rw [← not_lt, ← not_lt, value_lt_value_iff hy hx]

theorem value_eq_value_iff {x y : Binary64} (hx : x.isNaN = false)
    (hy : y.isNaN = false) : x.value = y.value ↔ x.rank = y.rank := by
  rw [le_antisymm_iff, le_antisymm_iff, value_le_value_iff hx hy,
    value_le_value_iff hy hx]

theorem less_eq_true_iff {x y : Binary64} (hx : x.isNaN = false)
    (hy : y.isNaN = false) : x.less y = true ↔ x.value < y.value := by
  rw [value_lt_value_iff hx hy, less, hx, hy]
  simp

theorem equal_eq_true_iff {x y : Binary64} (hx : x.isNaN = false)
    (hy : y.isNaN = false) : x.equal y = true ↔ x.value = y.value := by
  rw [value_eq_value_iff hx hy, equal, hx, hy]
  simp

theorem toNat_bits (x : Binary64) :
    x.bits.toNat = (if x.negative then signWeight else 0) + x.magnitude := by
  have hlt := x.bits.toNat_lt
  have hweight : signWeight + signWeight = 2 ^ 64 := by norm_num [signWeight]
  rw [magnitude]
  by_cases h : signWeight ≤ x.bits.toNat
  · have hnegative : x.negative = true := decide_eq_true h
    rw [if_pos hnegative, Nat.mod_eq_sub_mod h, Nat.mod_eq_of_lt (by omega)]
    omega
  · have hnegative : x.negative = false := decide_eq_false h
    rw [if_neg (by simp [hnegative]), Nat.mod_eq_of_lt (Nat.lt_of_not_le h),
      Nat.zero_add]

/-- Numbers of one rank have the same bits, unless they are zeros. -/
theorem eq_of_rank_eq {x y : Binary64} (h : x.rank = y.rank)
    (hx : x.rank ≠ 0) : x = y := by
  have hbits : x.bits.toNat = y.bits.toNat := by
    rw [toNat_bits, toNat_bits]
    rw [rank] at hx
    rw [rank, rank] at h
    cases hneg : x.negative <;> cases hneg' : y.negative <;>
      simp only [hneg, hneg', Bool.false_eq_true, if_true,
        if_false] at h hx ⊢ <;>
      omega
  cases x
  cases y
  exact congrArg Binary64.mk (UInt64.toNat_inj.1 hbits)

/-! ## Integers -/

section Scaling

variable {mantissa exponent gap n : Nat}

/-- From the exponent of one on, a significand is shifted to the left. -/
theorem shiftLeft_eq_iff (h : exponent = unitExponent + gap) :
    mantissa <<< gap = n ↔ mantissa * 2 ^ exponent = n * unitsOfOne := by
  have hpow : mantissa * 2 ^ exponent = mantissa * 2 ^ gap * unitsOfOne := by
    rw [h, unitsOfOne, Nat.pow_add]
    ring
  rw [hpow, Nat.mul_left_inj (Nat.ne_of_gt unitsOfOne_pos), Nat.shiftLeft_eq]

/-- Below it, a significand is a multiple of what one is in its last place. -/
theorem quotient_eq_iff (h : unitExponent = exponent + gap) :
    (if mantissa % 2 ^ gap = 0 then some (mantissa / 2 ^ gap)
      else none) = some n ↔
      mantissa * 2 ^ exponent = n * unitsOfOne := by
  have hpow : unitsOfOne = 2 ^ gap * 2 ^ exponent := by
    rw [unitsOfOne, h, Nat.pow_add, Nat.mul_comm]
  rw [hpow, ← Nat.mul_assoc,
    Nat.mul_left_inj (Nat.ne_of_gt (Nat.two_pow_pos exponent)),
    Option.ite_none_right_eq_some, Option.some_inj]
  constructor
  · rintro ⟨hmod, rfl⟩
    exact (Nat.div_mul_cancel (Nat.dvd_of_mod_eq_zero hmod)).symm
  · rintro rfl
    exact ⟨Nat.mul_mod_left n _, Nat.mul_div_cancel n (Nat.two_pow_pos gap)⟩

end Scaling

theorem integralMagnitude?_eq_some_iff {x : Binary64} {n : Nat} :
    x.integralMagnitude? = some n ↔
      x.isFinite = true ∧ units x.magnitude = n * unitsOfOne := by
  rw [units_magnitude, integralMagnitude?, exponent_eq]
  generalize max x.biasedExponent 1 - 1 = exponent
  by_cases hfinite : x.isFinite = true
  · simp only [hfinite, if_true, true_and]
    rcases Nat.lt_or_ge exponent unitExponent with hsmall | hlarge
    · obtain ⟨gap, hgap⟩ := Nat.exists_eq_add_of_le (Nat.le_of_lt hsmall)
      have hshift : (-((exponent : Int) - unitExponent)).toNat = gap := by omega
      rw [if_neg (by omega), hshift, Nat.one_shiftLeft]
      exact quotient_eq_iff hgap
    · obtain ⟨gap, hgap⟩ := Nat.exists_eq_add_of_le hlarge
      have hshift : ((exponent : Int) - unitExponent).toNat = gap := by omega
      rw [if_pos (by omega), hshift, Option.some_inj]
      exact shiftLeft_eq_iff hgap
  · simp [hfinite]

theorem toInt?_eq_map (x : Binary64) :
    x.toInt? = x.integralMagnitude?.map fun n : Nat =>
      if x.negative then -(n : Int) else (n : Int) := by
  rw [toInt?]
  cases x.integralMagnitude? <;> rfl

theorem toInt?_eq_some_iff_unitCount {x : Binary64} {i : Int} :
    x.toInt? = some i ↔
      x.isFinite = true ∧ unitCount x.rank = i * unitsOfOne := by
  have hpos := unitsOfOne_pos
  rw [toInt?_eq_map, Option.map_eq_some_iff, unitCount_rank]
  constructor
  · rintro ⟨n, hn, rfl⟩
    obtain ⟨hfinite, hunits⟩ := integralMagnitude?_eq_some_iff.1 hn
    refine ⟨hfinite, ?_⟩
    rw [hunits]
    split
    · push_cast
      ring
    · push_cast
      ring
  · rintro ⟨hfinite, hcount⟩
    have hunits : units x.magnitude = i.natAbs * unitsOfOne := by
      have habs := congrArg Int.natAbs hcount
      rw [Int.natAbs_mul, Int.natAbs_mul, Int.natAbs_natCast,
        Int.natAbs_natCast] at habs
      rw [← habs]
      split <;> simp
    refine ⟨i.natAbs, integralMagnitude?_eq_some_iff.2 ⟨hfinite, hunits⟩, ?_⟩
    have hnonneg : (0 : Int) ≤ (units x.magnitude : Int) := Int.natCast_nonneg _
    have hone : (0 : Int) < unitsOfOne := Int.natCast_pos.2 hpos
    split at hcount
    · have hsign : i ≤ 0 := by
        by_contra hi
        have := Int.mul_pos (by omega : 0 < i) hone
        omega
      rw [if_pos ‹_›]
      omega
    · have hsign : 0 ≤ i := by
        by_contra hi
        have := Int.mul_neg_of_neg_of_pos (by omega : i < 0) hone
        omega
      rw [if_neg ‹_›]
      omega

/-- A number is converted to the integer that is its value, if one is. -/
theorem toInt?_eq_some_iff {x : Binary64} {i : Int} :
    x.toInt? = some i ↔ x.value = ((i : ℝ) : EReal) := by
  rw [toInt?_eq_some_iff_unitCount]
  by_cases hfinite : x.isFinite = true
  · have hne : (unitsOfOne : ℝ) ≠ 0 :=
      Nat.cast_ne_zero.2 (Nat.ne_of_gt unitsOfOne_pos)
    rw [value_of_isFinite hfinite, EReal.coe_eq_coe_iff, div_eq_iff hne]
    simp only [hfinite, true_and]
    norm_cast
  · rw [value, if_neg hfinite]
    simp only [hfinite, Bool.false_eq_true, false_and, false_iff]
    cases x.negative <;> simp

theorem toInt64?_eq_some_iff {x : Binary64} {i : Int64} :
    x.toInt64? = some i ↔ x.value = ((i.toInt : ℝ) : EReal) := by
  have hlow := i.le_toInt
  have hhigh := i.toInt_lt
  rw [← toInt?_eq_some_iff, toInt64?, Option.bind_eq_some_iff]
  constructor
  · rintro ⟨j, hj, h⟩
    split at h
    · next hrange =>
      rw [← Option.some.inj h, Int64.toInt_ofInt_of_le hrange.1 hrange.2]
      exact hj
    · cases h
  · intro h
    refine ⟨i.toInt, h, ?_⟩
    rw [if_pos ⟨hlow, hhigh⟩, Int64.ofInt_toInt]

theorem isNaN_eq_false_of_toInt64? {x : Binary64} {i : Int64}
    (h : x.toInt64? = some i) : x.isNaN = false := by
  obtain ⟨j, hj, -⟩ := Option.bind_eq_some_iff.1 h
  have hfinite := (toInt?_eq_some_iff_unitCount.1 hj).1
  simp only [isFinite, decide_eq_true_eq] at hfinite
  simp only [isNaN, decide_eq_false_iff_not]
  omega

/-- Zeros are the integer zero, whatever their sign. -/
theorem toInt64?_of_rank_eq_zero {x : Binary64} (h : x.rank = 0) :
    x.toInt64? = some 0 := by
  have hmagnitude : x.magnitude = 0 := by
    rw [rank] at h
    split at h <;> omega
  have hfinite : x.isFinite = true := by
    rw [isFinite, hmagnitude]
    rfl
  have hcount : unitCount 0 = 0 := by
    rw [← Int.natCast_zero, unitCount_natCast, units_zero]
  rw [toInt64?_eq_some_iff, value_of_isFinite hfinite, h, hcount,
    Int.cast_zero, zero_div, Int64.toInt_zero, Int.cast_zero]

/-! ## Numbers nearest to integers -/

/-- The rank of the number nearest to an integer. -/
def nearestRank (i : Int) : Int := withSign nearestMagnitude i

@[simp]
theorem nearestRank_natCast (n : Nat) : nearestRank n = nearestMagnitude n :=
  withSign_natCast rfl n

@[simp]
theorem nearestRank_neg (i : Int) : nearestRank (-i) = -nearestRank i :=
  withSign_neg nearestMagnitude i

theorem le_nearestRank {rank i : Int} (hrank : rank ≤ infinityBits)
    (h : unitCount rank ≤ i * unitsOfOne) : rank ≤ nearestRank i := by
  obtain ⟨m, rfl | rfl⟩ := Int.eq_nat_or_neg rank <;>
    obtain ⟨n, rfl | rfl⟩ := Int.eq_nat_or_neg i
  · rw [unitCount_natCast] at h
    rw [nearestRank_natCast]
    exact_mod_cast le_nearestMagnitude (by omega) (by exact_mod_cast h)
  · -- A rank that is not negative is below the units of no negative integer.
    have hunits : (0 : Int) ≤ units m := Int.natCast_nonneg _
    rw [unitCount_natCast, neg_mul] at h
    have hcount : (n : Int) * unitsOfOne = 0 := by
      have hproduct :=
        Int.mul_nonneg (Int.natCast_nonneg n) (Int.natCast_nonneg unitsOfOne)
      omega
    have hone := unitsOfOne_pos
    have hn : n = 0 := by
      rcases mul_eq_zero.1 hcount with hzero | hzero <;> omega
    have hm : m = 0 := by
      apply strictMono_units.injective
      rw [units_zero]
      omega
    rw [hn, hm]
    exact Int.le_refl 0
  · rw [nearestRank_natCast]
    omega
  · rw [unitCount_neg, unitCount_natCast, neg_mul, neg_le_neg_iff] at h
    rw [nearestRank_neg, nearestRank_natCast, neg_le_neg_iff]
    exact_mod_cast nearestMagnitude_le (by exact_mod_cast h)

theorem nearestRank_le {rank i : Int} (hrank : -(infinityBits : Int) ≤ rank)
    (h : i * unitsOfOne ≤ unitCount rank) : nearestRank i ≤ rank := by
  have hneg : -rank ≤ nearestRank (-i) := by
    apply le_nearestRank (by omega)
    rw [unitCount_neg, neg_mul]
    omega
  rw [nearestRank_neg] at hneg
  omega

theorem nearestRank_mono {i j : Int} (h : i ≤ j) :
    nearestRank i ≤ nearestRank j := by
  obtain ⟨n, rfl | rfl⟩ := Int.eq_nat_or_neg i <;>
    obtain ⟨m, rfl | rfl⟩ := Int.eq_nat_or_neg j <;>
    simp only [nearestRank_neg, nearestRank_natCast]
  · exact_mod_cast nearestMagnitude_mono (by omega)
  · obtain ⟨rfl, rfl⟩ : n = 0 ∧ m = 0 := by omega
    rfl
  · omega
  · rw [neg_le_neg_iff]
    exact_mod_cast nearestMagnitude_mono (by omega)

theorem nearestRank_bounds {i : Int} (h : i.natAbs < 2 ^ 64) :
    -(infinityBits : Int) < nearestRank i ∧ nearestRank i < infinityBits := by
  obtain ⟨n, rfl | rfl⟩ := Int.eq_nat_or_neg i
  · have := nearestMagnitude_lt_infinityBits (n := n) (by omega)
    rw [nearestRank_natCast]
    omega
  · have := nearestMagnitude_lt_infinityBits (n := n) (by omega)
    rw [nearestRank_neg, nearestRank_natCast]
    omega

section OfInt

variable {i j : Int} {x : Binary64}

theorem toNat_bits_ofInt (i : Int) :
    (ofInt i).bits.toNat =
      if i < 0 then signWeight + nearestMagnitude i.natAbs
      else nearestMagnitude i.natAbs := by
  have hle := nearestMagnitude_le_infinityBits i.natAbs
  have hinfinity : infinityBits < signWeight := by decide
  have hweight : signWeight + signWeight = 2 ^ 64 := by norm_num [signWeight]
  rw [ofInt]
  dsimp only
  rw [UInt64.toNat_ofNat']
  apply Nat.mod_eq_of_lt
  split <;> omega

theorem magnitude_ofInt (i : Int) :
    (ofInt i).magnitude = nearestMagnitude i.natAbs := by
  have hle := nearestMagnitude_le_infinityBits i.natAbs
  have hinfinity : infinityBits < signWeight := by decide
  rw [magnitude, toNat_bits_ofInt]
  split
  · rw [Nat.add_mod_left, Nat.mod_eq_of_lt (by omega)]
  · exact Nat.mod_eq_of_lt (by omega)

theorem rank_ofInt (i : Int) : (ofInt i).rank = nearestRank i := by
  have hle := nearestMagnitude_le_infinityBits i.natAbs
  have hinfinity : infinityBits < signWeight := by decide
  have hnegative : (ofInt i).negative = decide (i < 0) := by
    rw [negative, toNat_bits_ofInt]
    split <;> simp <;> omega
  rw [rank, hnegative, magnitude_ofInt]
  obtain ⟨n, rfl | rfl⟩ := Int.eq_nat_or_neg i
  · simp
  · rcases Nat.eq_zero_or_pos n with rfl | hn
    · rfl
    · simp [hn]

theorem isNaN_ofInt (i : Int) : (ofInt i).isNaN = false := by
  have := nearestMagnitude_le_infinityBits i.natAbs
  rw [isNaN, magnitude_ofInt]
  simpa using this

/-- Nothing lies between an integer and the number nearest to it. -/
theorem ofInt_le (hi : i.natAbs < 2 ^ 64) (hx : x.isNaN = false)
    (h : ((i : ℝ) : EReal) ≤ x.value) : (ofInt i).value ≤ x.value := by
  have hbounds := nearestRank_bounds hi
  rw [value_le_value_iff (isNaN_ofInt i) hx, rank_ofInt]
  rcases value_cases hx with ⟨hlow, -, hvalue⟩ | ⟨hrank, -⟩ | ⟨-, hvalue⟩
  · have hpos : (0 : ℝ) < unitsOfOne := Nat.cast_pos.2 unitsOfOne_pos
    rw [hvalue, EReal.coe_le_coe_iff, le_div_iff₀ hpos] at h
    exact nearestRank_le (by omega) (by exact_mod_cast h)
  · omega
  · rw [hvalue] at h
    exact absurd h (by simp)

@[inherit_doc ofInt_le]
theorem le_ofInt (hi : i.natAbs < 2 ^ 64) (hx : x.isNaN = false)
    (h : x.value ≤ ((i : ℝ) : EReal)) : x.value ≤ (ofInt i).value := by
  have hbounds := nearestRank_bounds hi
  rw [value_le_value_iff hx (isNaN_ofInt i), rank_ofInt]
  rcases value_cases hx with ⟨-, hhigh, hvalue⟩ | ⟨-, hvalue⟩ | ⟨hrank, -⟩
  · have hpos : (0 : ℝ) < unitsOfOne := Nat.cast_pos.2 unitsOfOne_pos
    rw [hvalue, EReal.coe_le_coe_iff, div_le_iff₀ hpos] at h
    exact le_nearestRank (by omega) (by exact_mod_cast h)
  · rw [hvalue] at h
    exact absurd h (by simp)
  · omega

theorem ofInt_mono (h : i ≤ j) : (ofInt i).value ≤ (ofInt j).value := by
  rw [value_le_value_iff (isNaN_ofInt i) (isNaN_ofInt j),
    rank_ofInt, rank_ofInt]
  exact nearestRank_mono h

/-- Integers of at most 53 bits, and the next one, are numbers themselves. -/
theorem value_ofInt (hi : i.natAbs ≤ 2 ^ 53) :
    (ofInt i).value = ((i : ℝ) : EReal) := by
  have hfinite : (ofInt i).isFinite = true := by
    have := nearestMagnitude_lt_infinityBits (n := i.natAbs) (by omega)
    simpa [isFinite, magnitude_ofInt] using this
  have hcount : unitCount (nearestRank i) = i * unitsOfOne := by
    obtain ⟨n, rfl | rfl⟩ := Int.eq_nat_or_neg i
    · have hunits := units_nearestMagnitude (n := n) (by omega)
      rw [nearestRank_natCast, unitCount_natCast, hunits, Nat.cast_mul]
    · have hunits := units_nearestMagnitude (n := n) (by omega)
      rw [nearestRank_neg, nearestRank_natCast, unitCount_neg,
        unitCount_natCast, hunits, Nat.cast_mul, neg_mul]
  have hne : (unitsOfOne : ℝ) ≠ 0 :=
    Nat.cast_ne_zero.2 (Nat.ne_of_gt unitsOfOne_pos)
  rw [value_of_isFinite hfinite, rank_ofInt, hcount, EReal.coe_eq_coe_iff,
    div_eq_iff hne]
  push_cast
  rfl

end OfInt

end Isolate.Binary64
