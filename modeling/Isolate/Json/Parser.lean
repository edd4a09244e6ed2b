import Isolate.Json.Basic

/-!
# Reading JSON

A parser takes bytes from the front of a list and gives back the rest.  Only
success matters, so a parser says nothing about a failure.
-/

namespace Isolate.Json

/-- The ASCII code of a character, as a byte. -/
def ascii (c : Char) : UInt8 := UInt8.ofNat c.toNat

def isBlank (b : UInt8) : Bool := b = 32 || b = 9 || b = 10 || b = 13

def isDigit (b : UInt8) : Bool := 48 ≤ b && b ≤ 57

def skipBlanks (bytes : List UInt8) : List UInt8 := bytes.dropWhile isBlank

/-- The rest after the bytes of an ASCII word. -/
def expectWord (word : String) (bytes : List UInt8) : Option (List UInt8) :=
  let (front, rest) := bytes.splitAt word.length
  if front = word.toList.map ascii then some rest else none

/-- The rest after a byte, with blanks before it passed over. -/
def expect (c : Char) (bytes : List UInt8) : Option (List UInt8) :=
  match skipBlanks bytes with
  | b :: rest => if b = ascii c then some rest else none
  | [] => none

/-! ## Numbers -/

/-- At least one digit. -/
def digits (bytes : List UInt8) : Option (List UInt8 × List UInt8) :=
  match bytes.span isDigit with
  | ([], _) => none
  | result => some result

/-- An optional fraction: a point and digits. -/
def fraction (bytes : List UInt8) : Option (Bool × List UInt8) :=
  match bytes with
  | 46 :: rest => (digits rest).map fun result => (true, result.2)
  | _ => some (false, bytes)

/-- An optional exponent: a letter, an optional sign, and digits. -/
def exponent (bytes : List UInt8) : Option (Bool × List UInt8) :=
  match bytes with
  | b :: rest =>
    if b = ascii 'e' || b = ascii 'E' then
      let unsigned := match rest with
        | c :: more => if c = ascii '+' || c = ascii '-' then more else rest
        | [] => rest
      (digits unsigned).map fun result => (true, result.2)
    else some (false, bytes)
  | [] => some (false, bytes)

def naturalOf (digits : List UInt8) : Nat :=
  digits.foldl (fun n d => 10 * n + (d.toNat - 48)) 0

/-- A number.  A leading zero stands alone before the point. -/
def numeral (bytes : List UInt8) : Option (Json × List UInt8) := do
  let (negative, unsigned) := match bytes with
    | 45 :: rest => (true, rest)
    | _ => (false, bytes)
  let (whole, rest) ← digits unsigned
  if 1 < whole.length && whole.head? = some (ascii '0') then none
  else
    let (hasFraction, rest) ← fraction rest
    let (hasExponent, rest) ← exponent rest
    let natural := if negative || hasFraction || hasExponent then none
      else some (naturalOf whole)
    some (number natural, rest)

/-! ## Strings -/

/-- A part of a string: a byte that stands for itself, or an escaped UTF-16
unit. -/
inductive Piece
  | byte (value : UInt8)
  | unit (value : Nat)

def hexDigit? (b : UInt8) : Option Nat :=
  if isDigit b then some (b.toNat - 48)
  else if 97 ≤ b && b ≤ 102 then some (b.toNat - 87)
  else if 65 ≤ b && b ≤ 70 then some (b.toNat - 55)
  else none

/-- The byte that a one-letter escape stands for. -/
def simpleEscape? (b : UInt8) : Option UInt8 :=
  [('"', 34), ('\\', 92), ('/', 47), ('b', 8), ('f', 12), ('n', 10), ('r', 13),
   ('t', 9)].findSome? fun (c, value) =>
     if b = ascii c then some value else none

/-- The pieces up to the closing quote. -/
def pieces : List UInt8 → Option (List Piece × List UInt8)
  | [] => none
  | 34 :: rest => some ([], rest)
  | 92 :: 117 :: a :: b :: c :: d :: rest => do
    let unit := ((← hexDigit? a) * 16 + (← hexDigit? b)) * 256
      + ((← hexDigit? c) * 16 + (← hexDigit? d))
    let (more, rest) ← pieces rest
    some (.unit unit :: more, rest)
  | 92 :: b :: rest => do
    let value ← simpleEscape? b
    let (more, rest) ← pieces rest
    some (.byte value :: more, rest)
  | b :: rest =>
    if b < 32 || b = 92 then none
    else do
      let (more, rest) ← pieces rest
      some (.byte b :: more, rest)

/-- The UTF-8 bytes of a code point; a surrogate gets three bytes like its
neighbours. -/
def codePointBytes (n : Nat) : List UInt8 :=
  let tail := fun shift => UInt8.ofNat (128 + (n >>> shift) % 64)
  if n < 0x80 then [UInt8.ofNat n]
  else if n < 0x800 then [UInt8.ofNat (192 + n / 64), tail 0]
  else if n < 0x10000 then [UInt8.ofNat (224 + n / 4096), tail 6, tail 0]
  else [UInt8.ofNat (240 + n / 262144), tail 12, tail 6, tail 0]

/-- Joins the pieces; a high surrogate and the low one after it are one code
point. -/
def join : List Piece → List UInt8
  | [] => []
  | .byte b :: rest => b :: join rest
  | .unit high :: .unit low :: rest =>
    if 0xD800 ≤ high && high < 0xDC00 && 0xDC00 ≤ low && low < 0xE000 then
      codePointBytes (0x10000 + (high - 0xD800) * 1024 + (low - 0xDC00)) ++
        join rest
    else codePointBytes high ++ join (.unit low :: rest)
  | .unit u :: rest => codePointBytes u ++ join rest

/-- The bytes of a string whose opening quote has been read. -/
def stringBytes (bytes : List UInt8) : Option (List UInt8 × List UInt8) :=
  (pieces bytes).map fun (parts, rest) => (join parts, rest)

/-! ## Documents -/

mutual

/-- A value, nested at most `depth` deep. -/
def value : Nat → List UInt8 → Option (Json × List UInt8)
  | 0, _ => none
  | depth + 1, bytes =>
    match skipBlanks bytes with
    | [] => none
    | b :: rest =>
      if b = ascii 'n' then (expectWord "ull" rest).map ((null, ·))
      else if b = ascii 't' then (expectWord "rue" rest).map ((bool true, ·))
      else if b = ascii 'f' then (expectWord "alse" rest).map ((bool false, ·))
      else if b = ascii '"' then
        (stringBytes rest).map fun (text, rest) => (string text, rest)
      else if b = ascii '[' then
        match expect ']' rest with
        | some rest => some (array [], rest)
        | none =>
          (items depth rest).map fun (items, rest) => (array items, rest)
      else if b = ascii '\x7b' then
        match expect '\x7d' rest with
        | some rest => some (object [], rest)
        | none =>
          (members depth rest).map fun (members, rest) => (object members, rest)
      else numeral (b :: rest)

/-- The items of an array up to its end, at least one. -/
def items : Nat → List UInt8 → Option (List Json × List UInt8)
  | 0, _ => none
  | depth + 1, bytes => do
    let (first, rest) ← value depth bytes
    match expect ',' rest with
    | some rest =>
      let (others, rest) ← items depth rest
      some (first :: others, rest)
    | none =>
      let rest ← expect ']' rest
      some ([first], rest)

/-- The members of an object up to its end, at least one. -/
def members : Nat → List UInt8 → Option (List (List UInt8 × Json) × List UInt8)
  | 0, _ => none
  | depth + 1, bytes => do
    let rest ← expect '"' bytes
    let (name, rest) ← stringBytes rest
    let rest ← expect ':' rest
    let (first, rest) ← value depth rest
    match expect ',' rest with
    | some rest =>
      let (others, rest) ← members depth rest
      some ((name, first) :: others, rest)
    | none =>
      let rest ← expect '\x7d' rest
      some ([(name, first)], rest)

end

/-- A whole document.  Each level of the grammar takes a byte, so the length
bounds the depth. -/
def parse? (bytes : List UInt8) : Option Json := do
  let (document, rest) ← value (2 * bytes.length + 2) bytes
  if (skipBlanks rest).isEmpty then some document else none

end Isolate.Json
