import Isolate.Numeric.Binary64

/-!
# Shortest decimal text

The digits of a number are the fewest that read back as the same number.  The
reals that round to a finite number form an interval around it; for growing
digit counts the two neighbours of the number on the decimal grid are tested
against that interval in exact arithmetic, and the first grid with a hit wins.
-/

namespace Isolate.Binary64

/-- A positive real interval with a distinguished point, all three over one
denominator. -/
structure Neighbourhood where
  low : Nat
  point : Nat
  high : Nat
  denominator : Nat
  /-- Whether the two ends belong to the interval. -/
  closed : Bool

/-- The reals that round to the absolute value of a finite number.  Below a
power of two the spacing halves, and an even mantissa wins the ties at both
ends. -/
def neighbourhood (x : Binary64) : Neighbourhood :=
  let point := 4 * x.mantissa
  let step := if x.fraction = 0 ∧ 1 < x.biasedExponent then 1 else 2
  let shift := x.exponent - 2
  { low := (point - step) <<< shift.toNat
    point := point <<< shift.toNat
    high := (point + 2) <<< shift.toNat
    denominator := 1 <<< (-shift).toNat
    closed := x.mantissa % 2 = 0 }

namespace Neighbourhood

/-- The neighbourhood measured in units of `10 ^ k`. -/
def rescale (n : Neighbourhood) (k : Int) : Neighbourhood :=
  let up := Nat.pow 10 (-k).toNat
  { n with
    low := n.low * up
    point := n.point * up
    high := n.high * up
    denominator := n.denominator * Nat.pow 10 k.toNat }

def contains (n : Neighbourhood) (i : Nat) : Bool :=
  let scaled := i * n.denominator
  if n.closed then n.low ≤ scaled && scaled ≤ n.high
  else n.low < scaled && scaled < n.high

/-- The integer inside the neighbourhood that is nearest to its point, among
the two integers around the point; a tie goes up. -/
def nearest? (n : Neighbourhood) : Option Nat :=
  let below := n.point / n.denominator
  let above := below + 1
  match n.contains below, n.contains above with
  | true, true =>
    if 2 * (n.point % n.denominator) < n.denominator then some below
    else some above
  | true, false => some below
  | false, true => some above
  | false, false => none

/-- The number of digits before the decimal point: the least `e` with the point
below `10 ^ e`.  A point of at least `10 ^ (-340)` is assumed. -/
def magnitude10 (n : Neighbourhood) : Int :=
  (Nat.toDigits 10 (n.point * Nat.pow 10 340 / n.denominator)).length - 340

/-- The first hit on the grids of `digits`, `digits + 1`, … significant
digits, as an integer and the power of ten it counts. -/
def shortestFrom (n : Neighbourhood) (digits : Nat) : Nat → Nat × Int
  | 0 => (n.point / n.denominator, 0)
  | tries + 1 =>
    let k := n.magnitude10 - digits
    match (n.rescale k).nearest? with
    | some i => (i, k)
    | none => n.shortestFrom (digits + 1) tries

end Neighbourhood

/-- The fewest digits that read back as the absolute value of a finite nonzero
number: an integer and the power of ten it counts.  Seventeen digits always
suffice. -/
def shortest (x : Binary64) : Nat × Int := x.neighbourhood.shortestFrom 1 17

/-- Positional text of `digits * 10 ^ k`. -/
def positional (digits : Nat) (k : Int) : String :=
  if 0 ≤ k then toString (digits * Nat.pow 10 k.toNat)
  else
    let places := (-k).toNat
    let unit := Nat.pow 10 places
    let whole := digits / unit
    let rest := Nat.toDigits 10 (digits % unit)
    let padded := List.replicate (places - rest.length) '0' ++ rest
    let trimmed := (padded.reverse.dropWhile (· == '0')).reverse
    if trimmed.isEmpty then toString whole
    else toString whole ++ "." ++ String.ofList trimmed

/-- A number as scripts see it: never in scientific notation, whole numbers
with one decimal place and all their digits, other numbers with the fewest
digits that read back. -/
def text (x : Binary64) : String :=
  if x.isNaN then "NaN"
  else
    let sign := if x.negative then "-" else ""
    if x.isFinite then
      match x.integralMagnitude? with
      | some n => sign ++ toString n ++ ".0"
      | none => let (digits, k) := x.shortest; sign ++ positional digits k
    else sign ++ "inf"

end Isolate.Binary64
