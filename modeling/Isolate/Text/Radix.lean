/-!
# Fixed-width numerals

Hexadecimal text of numbers and bytes, and padding to a least width.
-/

namespace Isolate.Text

/-- Pads on the left up to a least width. -/
def padLeft (width : Nat) (fill : Char) (text : String) : String :=
  String.ofList (List.replicate (width - text.length) fill) ++ text

/-- Decimal digits, padded with zeros. -/
def decimal (width n : Nat) : String := padLeft width '0' (toString n)

/-- Lower-case hexadecimal digits without leading zeros. -/
def hex (n : Nat) : String := String.ofList (Nat.toDigits 16 n)

/-- Lower-case hexadecimal digits, padded with zeros. -/
def hexPadded (width n : Nat) : String := padLeft width '0' (hex n)

/-- Two hexadecimal digits for each byte. -/
def hexBytes (bytes : List UInt8) : String :=
  bytes.foldl
    (fun text byte =>
      (text.push (Nat.digitChar (byte.toNat / 16))).push
        (Nat.digitChar (byte.toNat % 16)))
    ""

end Isolate.Text
