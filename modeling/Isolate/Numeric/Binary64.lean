/-!
# Binary64 numbers

A fractional script number is kept as its 64 bits, so a NaN keeps its payload
and a zero its sign wherever the number is only stored or moved.  Class, order
and conversion are computed on the bits with exact integers; the four
arithmetic operations use machine arithmetic.
-/

namespace Isolate

/-- The bit pattern of a double precision number: one sign bit, eleven
exponent bits and fifty-two fraction bits. -/
structure Binary64 where
  bits : UInt64
  deriving DecidableEq, Inhabited

namespace Binary64

/-- The weight of the sign bit. -/
def signWeight : Nat := 0x8000000000000000

/-- The weight of the lowest exponent bit, which is also the value of the
leading bit that is not stored. -/
def leadingWeight : Nat := 0x10000000000000

/-- The bits below the sign bit. -/
def magnitude (x : Binary64) : Nat := x.bits.toNat % signWeight

def negative (x : Binary64) : Bool := decide (signWeight ≤ x.bits.toNat)

def biasedExponent (x : Binary64) : Nat := x.magnitude / leadingWeight

def fraction (x : Binary64) : Nat := x.magnitude % leadingWeight

/-- The magnitude of both infinities; larger magnitudes are NaN. -/
def infinityBits : Nat := 2047 * leadingWeight

def isNaN (x : Binary64) : Bool := decide (infinityBits < x.magnitude)

def isFinite (x : Binary64) : Bool := decide (x.magnitude < infinityBits)

/-- A finite number has absolute value `mantissa * 2 ^ exponent`. -/
def mantissa (x : Binary64) : Nat :=
  if x.biasedExponent = 0 then x.fraction else leadingWeight + x.fraction

@[inherit_doc mantissa]
def exponent (x : Binary64) : Int := (max x.biasedExponent 1 : Nat) - 1075

/-- Numbers other than NaN are ordered by their rank, and both zeros have
rank zero. -/
def rank (x : Binary64) : Int :=
  if x.negative then -(x.magnitude : Int) else x.magnitude

/-- Numeric equality: NaN differs from everything, and the zeros are equal. -/
def equal (x y : Binary64) : Bool :=
  !x.isNaN && !y.isNaN && decide (x.rank = y.rank)

/-- Numeric order: NaN is below and above nothing. -/
def less (x y : Binary64) : Bool :=
  !x.isNaN && !y.isNaN && decide (x.rank < y.rank)

/-- The absolute value of a finite number without a fraction. -/
def integralMagnitude? (x : Binary64) : Option Nat :=
  if x.isFinite then
    if 0 ≤ x.exponent then some (x.mantissa <<< x.exponent.toNat)
    else
      let scale := 1 <<< (-x.exponent).toNat
      if x.mantissa % scale = 0 then some (x.mantissa / scale) else none
  else none

/-- The integer that a number equals, if there is one. -/
def toInt? (x : Binary64) : Option Int :=
  x.integralMagnitude?.map fun n => if x.negative then -(n : Int) else n

/-- The 64-bit integer that a number equals, if there is one. -/
def toInt64? (x : Binary64) : Option Int64 :=
  x.toInt?.bind fun i =>
    if -(signWeight : Int) ≤ i ∧ i < signWeight then
      some (Int64.ofInt i) else none

/-- The magnitude nearest to a natural number, a tie going to the even
neighbour. -/
def nearestMagnitude (n : Nat) : Nat :=
  if n = 0 then 0
  else
    let top := n.log2
    let significand :=
      if top ≤ 52 then n <<< (52 - top)
      else
        let unit := 1 <<< (top - 52)
        let low := n / unit
        let rest := n % unit
        if unit < 2 * rest ∨ (unit = 2 * rest ∧ low % 2 = 1) then
          low + 1 else low
    min infinityBits ((top + 1022) * leadingWeight + significand)

/-- The number nearest to an integer, a tie going to the even neighbour. -/
def ofInt (i : Int) : Binary64 :=
  let magnitude := nearestMagnitude i.natAbs
  ⟨UInt64.ofNat (if i < 0 then signWeight + magnitude else magnitude)⟩

def toFloat (x : Binary64) : Float := Float.ofBits x.bits

def ofFloat (x : Float) : Binary64 := ⟨x.toBits⟩

def add (x y : Binary64) : Binary64 := ofFloat (x.toFloat + y.toFloat)

def sub (x y : Binary64) : Binary64 := ofFloat (x.toFloat - y.toFloat)

def mul (x y : Binary64) : Binary64 := ofFloat (x.toFloat * y.toFloat)

def div (x y : Binary64) : Binary64 := ofFloat (x.toFloat / y.toFloat)

/-- Negation flips the sign bit, that of a NaN included. -/
def neg (x : Binary64) : Binary64 := ⟨x.bits ^^^ 0x8000000000000000⟩

instance : Add Binary64 := ⟨add⟩
instance : Sub Binary64 := ⟨sub⟩
instance : Mul Binary64 := ⟨mul⟩
instance : Div Binary64 := ⟨div⟩
instance : Neg Binary64 := ⟨neg⟩

end Binary64

end Isolate
