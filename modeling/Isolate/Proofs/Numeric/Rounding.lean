import Isolate.Numeric.Binary64
import Mathlib.Order.Monotone.Basic
import Mathlib.Tactic.Ring
import Mathlib.Tactic.NormNum

/-!
# Rounding of integers to magnitudes

Every finite binary64 number is a whole multiple of `2 ^ -1074`, the least
positive one, and the multiple grows strictly with the magnitude bits.  An
integer is rounded to the nearer of the two magnitudes around it, so rounding is
monotone and passes no magnitude.
-/

namespace Isolate.Binary64

/-! ## Units -/

/-- How many times the least positive number goes into the numbers of a
magnitude. -/
def units (magnitude : Nat) : Nat :=
  if magnitude < leadingWeight then magnitude
  else (leadingWeight + magnitude % leadingWeight) *
    2 ^ (magnitude / leadingWeight - 1)

theorem leadingWeight_eq : leadingWeight = 2 ^ 52 := by
  norm_num [leadingWeight]

@[simp]
theorem units_zero : units 0 = 0 := rfl

/-- A significand may be one past its range: it then is the first of the next
exponent. -/
theorem units_significand (exponent : Nat) {significand : Nat}
    (hlow : leadingWeight ≤ significand)
    (hhigh : significand ≤ 2 * leadingWeight) :
    units (exponent * leadingWeight + significand) =
      significand * 2 ^ exponent := by
  have hpos : 0 < leadingWeight := by decide
  have hlarge : ¬exponent * leadingWeight + significand < leadingWeight := by
    omega
  rw [units, if_neg hlarge]
  rcases Nat.lt_or_eq_of_le hhigh with hlt | rfl
  · obtain ⟨fraction, rfl⟩ := Nat.exists_eq_add_of_le hlow
    have hfraction : fraction < leadingWeight := by omega
    have hsplit : exponent * leadingWeight + (leadingWeight + fraction) =
        fraction + leadingWeight * (exponent + 1) := by ring
    rw [hsplit, Nat.add_mul_mod_self_left, Nat.mod_eq_of_lt hfraction,
      Nat.add_mul_div_left _ _ hpos, Nat.div_eq_of_lt hfraction, Nat.zero_add,
      Nat.add_sub_cancel]
  · have hsplit : exponent * leadingWeight + 2 * leadingWeight =
        leadingWeight * (exponent + 2) := by ring
    rw [hsplit, Nat.mul_mod_right, Nat.mul_div_right _ hpos, Nat.add_zero]
    change leadingWeight * 2 ^ (exponent + 1) = _
    ring

/-- A magnitude is below the leading weight, or it is an exponent and a
significand. -/
theorem exists_significand {magnitude : Nat} (h : leadingWeight ≤ magnitude) :
    ∃ exponent significand, magnitude = exponent * leadingWeight + significand ∧
      leadingWeight ≤ significand ∧ significand < 2 * leadingWeight := by
  have hpos : 0 < leadingWeight := by decide
  have hdiv : 0 < magnitude / leadingWeight := Nat.div_pos h hpos
  have hmod := Nat.mod_lt magnitude hpos
  obtain ⟨exponent, hexponent⟩ :=
    Nat.exists_eq_succ_of_ne_zero (Nat.ne_of_gt hdiv)
  refine ⟨exponent, leadingWeight + magnitude % leadingWeight,
    ?_, by omega, by omega⟩
  calc magnitude =
      magnitude / leadingWeight * leadingWeight + magnitude % leadingWeight :=
        (Nat.div_add_mod' _ _).symm
    _ = (exponent + 1) * leadingWeight + magnitude % leadingWeight := by
      rw [hexponent]
    _ = _ := by ring

theorem units_lt_units_succ (magnitude : Nat) :
    units magnitude < units (magnitude + 1) := by
  by_cases h : leadingWeight ≤ magnitude
  · obtain ⟨exponent, significand, rfl, hlow, hhigh⟩ := exists_significand h
    rw [Nat.add_assoc, units_significand exponent hlow (by omega),
      units_significand exponent (by omega) (by omega)]
    exact Nat.mul_lt_mul_of_pos_right (Nat.lt_succ_self _) (Nat.two_pow_pos _)
  · rw [units, if_pos (by omega)]
    by_cases hsucc : magnitude + 1 < leadingWeight
    · rw [units, if_pos hsucc]
      exact Nat.lt_succ_self _
    · have hend : magnitude + 1 = leadingWeight := by omega
      have hleading :=
        units_significand 0 (Nat.le_refl leadingWeight) (by omega)
      rw [Nat.zero_mul, Nat.zero_add, Nat.pow_zero, Nat.mul_one] at hleading
      rw [hend, hleading]
      omega

theorem strictMono_units : StrictMono units :=
  strictMono_nat_of_lt_succ units_lt_units_succ

/-! ## Rounding of integers -/

/-- The least positive number is two to the negated power of this. -/
def unitExponent : Nat := 1074

/-- One is so many times the least positive number. -/
def unitsOfOne : Nat := 2 ^ unitExponent

theorem unitsOfOne_pos : 0 < unitsOfOne := Nat.two_pow_pos unitExponent

/-- A number of units lies between the numbers of a magnitude and the next
one. -/
structure Brackets (total lower : Nat) : Prop where
  le : units lower ≤ total
  lt : total < units (lower + 1)

/-- The nearer of two neighbours, and the even one if both are as near. -/
def nearer (total lower : Nat) : Nat :=
  if units lower + units (lower + 1) < 2 * total ∨
      units lower + units (lower + 1) = 2 * total ∧ lower % 2 = 1 then lower + 1
  else lower

theorem le_nearer_lower (total lower : Nat) : lower ≤ nearer total lower := by
  rw [nearer]
  split <;> omega

namespace Brackets

variable {total total' lower lower' magnitude : Nat}

theorem le_nearer (h : Brackets total lower) (hle : units magnitude ≤ total) :
    magnitude ≤ nearer total lower := by
  have hlower : magnitude < lower + 1 :=
    strictMono_units.lt_iff_lt.1 (Nat.lt_of_le_of_lt hle h.lt)
  exact Nat.le_trans (Nat.le_of_lt_succ hlower) (le_nearer_lower total lower)

theorem nearer_le (h : Brackets total lower) (hle : total ≤ units magnitude) :
    nearer total lower ≤ magnitude := by
  have hlower : lower ≤ magnitude :=
    strictMono_units.le_iff_le.1 (Nat.le_trans h.le hle)
  rw [nearer]
  split
  · next hup =>
    -- The upper neighbour is taken only by what is above the lower one.
    have hstep := units_lt_units_succ lower
    have habove : units lower < units magnitude := by omega
    exact strictMono_units.lt_iff_lt.1 habove
  · exact hlower

/-- Rounding is monotone: between the same neighbours because the midpoint is
passed once, and otherwise because the neighbours are in order. -/
theorem nearer_mono (h : Brackets total lower) (h' : Brackets total' lower')
    (hle : total ≤ total') : nearer total lower ≤ nearer total' lower' := by
  have hlower : lower < lower' + 1 :=
    strictMono_units.lt_iff_lt.1
      (Nat.lt_of_le_of_lt (Nat.le_trans h.le hle) h'.lt)
  rcases Nat.lt_or_eq_of_le (Nat.le_of_lt_succ hlower) with hlt | rfl
  · have hfirst : nearer total lower ≤ lower + 1 := by
      rw [nearer]
      split <;> omega
    exact Nat.le_trans hfirst (Nat.le_trans hlt (le_nearer_lower total' lower'))
  · rw [nearer, nearer]
    split <;> split <;> omega

end Brackets

/-- An integer of at most 53 bits has a magnitude of its own. -/
theorem units_of_log2_le {n : Nat} (hn : n ≠ 0) (htop : n.log2 ≤ 52) :
    units ((n.log2 + 1022) * leadingWeight + n <<< (52 - n.log2)) =
      n * unitsOfOne := by
  obtain ⟨gap, hgap⟩ := Nat.exists_eq_add_of_le htop
  rw [Nat.shiftLeft_eq, Nat.sub_eq_of_eq_add (hgap.trans (Nat.add_comm _ _))]
  have hlow : leadingWeight ≤ n * 2 ^ gap := by
    rw [leadingWeight_eq, hgap, Nat.pow_add]
    exact Nat.mul_le_mul_right _ (Nat.log2_self_le hn)
  have hhigh : n * 2 ^ gap < 2 * leadingWeight := by
    have hpow : 2 * leadingWeight = 2 ^ (n.log2 + 1) * 2 ^ gap := by
      rw [leadingWeight_eq, hgap]
      ring
    rw [hpow]
    exact Nat.mul_lt_mul_of_pos_right Nat.lt_log2_self (Nat.two_pow_pos _)
  have hexponent : gap + (n.log2 + 1022) = unitExponent := by
    rw [unitExponent]
    omega
  rw [units_significand _ hlow (Nat.le_of_lt hhigh), Nat.mul_assoc,
    ← Nat.pow_add, hexponent, unitsOfOne]

theorem exists_brackets_of_exact {n : Nat} (hn : n ≠ 0) (htop : n.log2 ≤ 52) :
    ∃ lower, Brackets (n * unitsOfOne) lower ∧
      nearestMagnitude n =
        min infinityBits (nearer (n * unitsOfOne) lower) := by
  have hstep :=
    units_lt_units_succ ((n.log2 + 1022) * leadingWeight + n <<< (52 - n.log2))
  rw [← units_of_log2_le hn htop]
  refine ⟨_, ⟨Nat.le_refl _, hstep⟩, ?_⟩
  rw [nearestMagnitude, if_neg hn, nearer, if_neg (by omega)]
  dsimp only
  rw [if_pos htop]

section Inexact

variable {n gap : Nat}

/-- The magnitude just below an integer whose last bits, this many, have no room
in a significand. -/
def lowerNeighbour (n gap : Nat) : Nat :=
  (n.log2 + 1022) * leadingWeight + n / 2 ^ gap

theorem quotient_bounds (hn : n ≠ 0) (hgap : n.log2 = 52 + gap) :
    leadingWeight ≤ n / 2 ^ gap ∧ n / 2 ^ gap < 2 * leadingWeight := by
  constructor
  · rw [Nat.le_div_iff_mul_le (Nat.two_pow_pos gap), leadingWeight_eq,
      ← Nat.pow_add, ← hgap]
    exact Nat.log2_self_le hn
  · apply Nat.div_lt_of_lt_mul
    calc n < 2 ^ (n.log2 + 1) := Nat.lt_log2_self
      _ = 2 ^ gap * (2 * leadingWeight) := by
        rw [leadingWeight_eq, hgap]
        ring

/-- Both neighbours are significands of one exponent, the upper one possibly too
large. -/
theorem units_neighbour (hgap : n.log2 = 52 + gap) {significand : Nat}
    (hlow : leadingWeight ≤ significand)
    (hhigh : significand ≤ 2 * leadingWeight) :
    units ((n.log2 + 1022) * leadingWeight + significand) =
      significand * 2 ^ gap * unitsOfOne := by
  have hexponent : n.log2 + 1022 = gap + unitExponent := by
    rw [unitExponent]
    omega
  rw [units_significand _ hlow hhigh, hexponent, Nat.pow_add,
    Nat.mul_assoc, unitsOfOne]

theorem units_lowerNeighbour (hn : n ≠ 0) (hgap : n.log2 = 52 + gap) :
    units (lowerNeighbour n gap) = n / 2 ^ gap * 2 ^ gap * unitsOfOne := by
  obtain ⟨hlow, hhigh⟩ := quotient_bounds hn hgap
  exact units_neighbour hgap hlow (Nat.le_of_lt hhigh)

theorem units_lowerNeighbour_succ (hn : n ≠ 0) (hgap : n.log2 = 52 + gap) :
    units (lowerNeighbour n gap + 1) =
      (n / 2 ^ gap * 2 ^ gap + 2 ^ gap) * unitsOfOne := by
  obtain ⟨hlow, hhigh⟩ := quotient_bounds hn hgap
  rw [lowerNeighbour, Nat.add_assoc,
    units_neighbour hgap (Nat.le_succ_of_le hlow) hhigh, Nat.succ_mul]

theorem brackets_lowerNeighbour (hn : n ≠ 0) (hgap : n.log2 = 52 + gap) :
    Brackets (n * unitsOfOne) (lowerNeighbour n gap) := by
  have hdivision : n / 2 ^ gap * 2 ^ gap + n % 2 ^ gap = n :=
    Nat.div_add_mod' n (2 ^ gap)
  have hrest : n % 2 ^ gap < 2 ^ gap := Nat.mod_lt n (Nat.two_pow_pos gap)
  constructor
  · rw [units_lowerNeighbour hn hgap]
    exact Nat.mul_le_mul_right _ (by omega)
  · rw [units_lowerNeighbour_succ hn hgap]
    exact Nat.mul_lt_mul_of_pos_right (by omega) unitsOfOne_pos

theorem lowerNeighbour_mod_two (n gap : Nat) :
    lowerNeighbour n gap % 2 = n / 2 ^ gap % 2 := by
  have heven : leadingWeight % 2 = 0 := by decide
  rw [lowerNeighbour, Nat.add_mod, Nat.mul_mod, heven]
  omega

/-- The bits that have no room tell which neighbour is the nearer one. -/
theorem nearer_lowerNeighbour (hn : n ≠ 0) (hgap : n.log2 = 52 + gap) :
    nearer (n * unitsOfOne) (lowerNeighbour n gap) =
      if 2 ^ gap < 2 * (n % 2 ^ gap) ∨
        2 ^ gap = 2 * (n % 2 ^ gap) ∧ n / 2 ^ gap % 2 = 1 then
        lowerNeighbour n gap + 1
      else lowerNeighbour n gap := by
  have hmiddle :
      units (lowerNeighbour n gap) + units (lowerNeighbour n gap + 1) =
        (2 * (n / 2 ^ gap * 2 ^ gap) + 2 ^ gap) * unitsOfOne := by
    rw [units_lowerNeighbour hn hgap, units_lowerNeighbour_succ hn hgap]
    ring
  have htotal : 2 * (n * unitsOfOne) =
      (2 * (n / 2 ^ gap * 2 ^ gap) + 2 * (n % 2 ^ gap)) * unitsOfOne := by
    rw [← Nat.mul_add, Nat.div_add_mod']
    ring
  rw [nearer, hmiddle, htotal, lowerNeighbour_mod_two]
  simp only [Nat.mul_lt_mul_right unitsOfOne_pos, Nat.add_lt_add_iff_left,
    Nat.mul_left_inj (Nat.ne_of_gt unitsOfOne_pos), Nat.add_left_cancel_iff]

theorem exists_brackets_of_inexact (htop : 52 < n.log2) :
    ∃ lower, Brackets (n * unitsOfOne) lower ∧
      nearestMagnitude n =
        min infinityBits (nearer (n * unitsOfOne) lower) := by
  obtain ⟨gap, hgap⟩ := Nat.exists_eq_add_of_le (Nat.le_of_lt htop)
  have hn : n ≠ 0 := by
    rintro rfl
    simp at htop
  have hunit : 1 <<< (n.log2 - 52) = 2 ^ gap := by
    rw [Nat.one_shiftLeft, hgap, Nat.add_sub_cancel_left]
  refine ⟨lowerNeighbour n gap, brackets_lowerNeighbour hn hgap, ?_⟩
  rw [nearestMagnitude, if_neg hn, nearer_lowerNeighbour hn hgap]
  dsimp only
  rw [if_neg (Nat.not_le.2 htop), hunit, lowerNeighbour]
  split
  · rw [Nat.add_assoc]
  · rfl

end Inexact

/-- An integer is rounded to the nearer of its two neighbours, or to
infinity. -/
theorem exists_brackets (n : Nat) :
    ∃ lower, Brackets (n * unitsOfOne) lower ∧
      nearestMagnitude n =
        min infinityBits (nearer (n * unitsOfOne) lower) := by
  by_cases hn : n = 0
  · refine ⟨0, ⟨by simp [hn],
      ?_⟩, by simp [hn, nearestMagnitude, nearer, units, leadingWeight]⟩
    rw [hn, Nat.zero_mul]
    exact units_lt_units_succ 0
  · rcases Nat.lt_or_ge 52 n.log2 with htop | htop
    · exact exists_brackets_of_inexact htop
    · exact exists_brackets_of_exact hn htop

theorem nearestMagnitude_le_infinityBits (n : Nat) :
    nearestMagnitude n ≤ infinityBits := by
  obtain ⟨lower, -, heq⟩ := exists_brackets n
  rw [heq]
  exact Nat.min_le_left _ _

theorem le_nearestMagnitude {n magnitude : Nat}
    (hfinite : magnitude ≤ infinityBits)
    (h : units magnitude ≤ n * unitsOfOne) :
    magnitude ≤ nearestMagnitude n := by
  obtain ⟨lower, hbrackets, heq⟩ := exists_brackets n
  rw [heq]
  exact Nat.le_min.2 ⟨hfinite, hbrackets.le_nearer h⟩

theorem nearestMagnitude_le {n magnitude : Nat}
    (h : n * unitsOfOne ≤ units magnitude) :
    nearestMagnitude n ≤ magnitude := by
  obtain ⟨lower, hbrackets, heq⟩ := exists_brackets n
  rw [heq]
  exact Nat.le_trans (Nat.min_le_right _ _) (hbrackets.nearer_le h)

theorem nearestMagnitude_mono {n m : Nat} (h : n ≤ m) :
    nearestMagnitude n ≤ nearestMagnitude m := by
  obtain ⟨lower, hbrackets, heq⟩ := exists_brackets n
  obtain ⟨lower', hbrackets', heq'⟩ := exists_brackets m
  rw [heq, heq']
  exact min_le_min_left _
    (hbrackets.nearer_mono hbrackets' (Nat.mul_le_mul_right _ h))

theorem units_of_two_pow :
    units (1086 * leadingWeight + leadingWeight) = 2 ^ 64 * unitsOfOne := by
  have hexponent : 52 + 1086 = 64 + unitExponent := rfl
  rw [units_significand 1086 (Nat.le_refl _) (by omega),
    leadingWeight_eq, unitsOfOne, ← Nat.pow_add, ← Nat.pow_add, hexponent]

/-- Only integers far beyond 64 bits are rounded to infinity. -/
theorem nearestMagnitude_lt_infinityBits {n : Nat} (h : n < 2 ^ 64) :
    nearestMagnitude n < infinityBits := by
  have hle : nearestMagnitude n ≤ 1086 * leadingWeight + leadingWeight := by
    apply nearestMagnitude_le
    rw [units_of_two_pow]
    exact Nat.mul_le_mul_right _ (Nat.le_of_lt h)
  exact Nat.lt_of_le_of_lt hle (by decide)

/-- An integer of at most 53 bits, and the next one, is kept. -/
theorem units_nearestMagnitude {n : Nat} (h : n ≤ 2 ^ 53) :
    units (nearestMagnitude n) = n * unitsOfOne := by
  obtain ⟨magnitude, hunits⟩ : ∃ magnitude,
      units magnitude = n * unitsOfOne := by
    by_cases hn : n = 0
    · exact ⟨0, by simp [hn]⟩
    rcases Nat.lt_or_eq_of_le h with hlt | rfl
    · exact ⟨_,
        units_of_log2_le hn (Nat.le_of_lt_succ ((Nat.log2_lt hn).2 hlt))⟩
    · refine ⟨unitExponent * leadingWeight + 2 * leadingWeight, ?_⟩
      rw [units_significand unitExponent (by omega) (Nat.le_refl _),
        ← unitsOfOne, leadingWeight_eq]
      ring
  have hle : magnitude ≤ infinityBits := by
    have hlarge : magnitude ≤ 1086 * leadingWeight + leadingWeight := by
      apply strictMono_units.le_iff_le.1
      rw [hunits, units_of_two_pow]
      exact Nat.mul_le_mul_right _ (by omega)
    exact Nat.le_trans hlarge (by decide)
  have hnearest : nearestMagnitude n = magnitude :=
    Nat.le_antisymm (nearestMagnitude_le (Nat.le_of_eq hunits.symm))
      (le_nearestMagnitude hle (Nat.le_of_eq hunits))
  rw [hnearest, hunits]

end Isolate.Binary64
