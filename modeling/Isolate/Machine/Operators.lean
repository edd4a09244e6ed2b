import Isolate.Error
import Isolate.Value.Text

/-!
# Operators of scripts

Integer arithmetic wraps at 64 bits.  With a float on either side, and for every
division, the result is a float.  Integers and strings are ordered among
themselves, and other pairs of numbers as floats.
-/

namespace Isolate.Value

def mismatch (op : Arithmetic) (left right : Value) : RuntimeError :=
  .arithmetic op left.kindName right.kindName

/-- An operation on two numbers that is taken on floats unless both are
integers. -/
def arithmetic (op : Arithmetic) (onIntegers : Option (Int64 → Int64 → Int64))
    (onFloats : Binary64 → Binary64 → Binary64) (left right : Value) :
    Except RuntimeError Value :=
  match left, right, onIntegers with
  | .integer i, .integer j, some f => .ok (.integer (f i j))
  | left, right, _ =>
    match left.toNumber?, right.toNumber? with
    | some x, some y => .ok (.float (onFloats x y))
    | _, _ => .error (mismatch op left right)

def add : Value → Value → Except RuntimeError Value :=
  arithmetic .add (some (· + ·)) (· + ·)

def sub : Value → Value → Except RuntimeError Value :=
  arithmetic .sub (some (· - ·)) (· - ·)

def mul : Value → Value → Except RuntimeError Value :=
  arithmetic .mul (some (· * ·)) (· * ·)

def div : Value → Value → Except RuntimeError Value :=
  arithmetic .div none (· / ·)

/-- Joins strings and the texts of numbers. -/
def concat (left right : Value) : Except RuntimeError Value :=
  match left.stringOrNumberText?, right.stringOrNumberText? with
  | some s, some t => .ok (.string (s ++ t))
  | _, _ => .error (mismatch .concat left right)

def negate : Value → Except RuntimeError Value
  | .integer i => .ok (.integer (-i))
  | .float x => .ok (.float (-x))
  | other => .error (mismatch .negate other other)

/-- Strict order; NaN is below and above nothing. -/
def lessThan (left right : Value) : Except RuntimeError Bool :=
  match left, right with
  | .integer i, .integer j => .ok (decide (i < j))
  | .string s, .string t => .ok (decide (s < t))
  | left, right =>
    match left.toNumber?, right.toNumber? with
    | some x, some y => .ok (x.less y)
    | _, _ => .error (.compare left.kindName right.kindName)

end Isolate.Value
