/-!
# SHA-256

The digest of a byte list: padding to whole blocks, expansion of
a block into a schedule of 64 words, and 64 rounds for each block.
-/

namespace Isolate.Sha256

/-- The eight working words. -/
structure State where
  a : UInt32
  b : UInt32
  c : UInt32
  d : UInt32
  e : UInt32
  f : UInt32
  g : UInt32
  h : UInt32

/-- The first 32 bits of the fractional parts of the square roots of the first
eight primes. -/
def initial : State :=
  ⟨0x6a09e667, 0xbb67ae85, 0x3c6ef372, 0xa54ff53a,
   0x510e527f, 0x9b05688c, 0x1f83d9ab, 0x5be0cd19⟩

/-- The first 32 bits of the fractional parts of the cube roots of the first
64 primes. -/
def roundConstants : List UInt32 := [
  0x428a2f98, 0x71374491, 0xb5c0fbcf, 0xe9b5dba5,
  0x3956c25b, 0x59f111f1, 0x923f82a4, 0xab1c5ed5,
  0xd807aa98, 0x12835b01, 0x243185be, 0x550c7dc3,
  0x72be5d74, 0x80deb1fe, 0x9bdc06a7, 0xc19bf174,
  0xe49b69c1, 0xefbe4786, 0x0fc19dc6, 0x240ca1cc,
  0x2de92c6f, 0x4a7484aa, 0x5cb0a9dc, 0x76f988da,
  0x983e5152, 0xa831c66d, 0xb00327c8, 0xbf597fc7,
  0xc6e00bf3, 0xd5a79147, 0x06ca6351, 0x14292967,
  0x27b70a85, 0x2e1b2138, 0x4d2c6dfc, 0x53380d13,
  0x650a7354, 0x766a0abb, 0x81c2c92e, 0x92722c85,
  0xa2bfe8a1, 0xa81a664b, 0xc24b8b70, 0xc76c51a3,
  0xd192e819, 0xd6990624, 0xf40e3585, 0x106aa070,
  0x19a4c116, 0x1e376c08, 0x2748774c, 0x34b0bcb5,
  0x391c0cb3, 0x4ed8aa4a, 0x5b9cca4f, 0x682e6ff3,
  0x748f82ee, 0x78a5636f, 0x84c87814, 0x8cc70208,
  0x90befffa, 0xa4506ceb, 0xbef9a3f7, 0xc67178f2]

def rotateRight (x : UInt32) (count : UInt32) : UInt32 :=
  (x >>> count) ||| (x <<< (32 - count))

/-- The bytes of a number in a fixed count, most significant first. -/
def bigEndian (count n : Nat) : List UInt8 :=
  (List.range count).map fun i => UInt8.ofNat (n >>> (8 * (count - 1 - i)))

/-- A message is followed by a one bit, zeros, and its length in bits, to a
multiple of 64 bytes. -/
def pad (message : List UInt8) : Array UInt8 :=
  let length := message.length
  let zeros := (119 - length % 64) % 64
  (message ++ 0x80 :: List.replicate zeros 0 ++
    bigEndian 8 (8 * length)).toArray

def wordAt (bytes : Array UInt8) (i : Nat) : UInt32 :=
  (List.range 4).foldl (fun word j =>
    word <<< 8 ||| (bytes.getD (i + j) 0).toUInt32) 0

/-- The 64 schedule words of the block that starts at a byte offset. -/
def schedule (bytes : Array UInt8) (offset : Nat) : Array UInt32 :=
  let first :=
    ((List.range 16).map fun i => wordAt bytes (offset + 4 * i)).toArray
  (List.range 48).foldl
    (fun words i =>
      let back := fun k => words.getD (i + 16 - k) 0
      let x := back 15
      let y := back 2
      let s0 := rotateRight x 7 ^^^ rotateRight x 18 ^^^ x >>> 3
      let s1 := rotateRight y 17 ^^^ rotateRight y 19 ^^^ y >>> 10
      words.push (back 16 + s0 + back 7 + s1))
    first

def round (s : State) (constant word : UInt32) : State :=
  let s1 := rotateRight s.e 6 ^^^ rotateRight s.e 11 ^^^ rotateRight s.e 25
  let choice := s.e &&& s.f ^^^ (0xffffffff ^^^ s.e) &&& s.g
  let t1 := s.h + s1 + choice + constant + word
  let s0 := rotateRight s.a 2 ^^^ rotateRight s.a 13 ^^^ rotateRight s.a 22
  let majority := s.a &&& s.b ^^^ s.a &&& s.c ^^^ s.b &&& s.c
  ⟨t1 + (s0 + majority), s.a, s.b, s.c, s.d + t1, s.e, s.f, s.g⟩

def compress (s : State) (words : Array UInt32) : State :=
  let t :=
    (roundConstants.zip words.toList).foldl (fun t (k, w) => round t k w) s
  ⟨s.a + t.a, s.b + t.b, s.c + t.c, s.d + t.d,
   s.e + t.e, s.f + t.f, s.g + t.g, s.h + t.h⟩

end Isolate.Sha256

namespace Isolate

/-- The 32 digest bytes of a message. -/
def sha256 (message : List UInt8) : List UInt8 :=
  let bytes := Sha256.pad message
  let final := (List.range (bytes.size / 64)).foldl
    (fun s i => Sha256.compress s (Sha256.schedule bytes (64 * i)))
    Sha256.initial
  [final.a, final.b, final.c, final.d, final.e, final.f, final.g,
    final.h].flatMap fun word => Sha256.bigEndian 4 word.toNat

end Isolate
