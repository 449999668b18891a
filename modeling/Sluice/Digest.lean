/-! SHA-256 digests of texts. -/
namespace Sluice.Digest

/-- The first 32 bits of the fractional parts of the cube roots of the first 64 primes. -/
def roundWords : Array UInt32 := #[
  0x428a2f98, 0x71374491, 0xb5c0fbcf, 0xe9b5dba5, 0x3956c25b, 0x59f111f1, 0x923f82a4, 0xab1c5ed5,
  0xd807aa98, 0x12835b01, 0x243185be, 0x550c7dc3, 0x72be5d74, 0x80deb1fe, 0x9bdc06a7, 0xc19bf174,
  0xe49b69c1, 0xefbe4786, 0x0fc19dc6, 0x240ca1cc, 0x2de92c6f, 0x4a7484aa, 0x5cb0a9dc, 0x76f988da,
  0x983e5152, 0xa831c66d, 0xb00327c8, 0xbf597fc7, 0xc6e00bf3, 0xd5a79147, 0x06ca6351, 0x14292967,
  0x27b70a85, 0x2e1b2138, 0x4d2c6dfc, 0x53380d13, 0x650a7354, 0x766a0abb, 0x81c2c92e, 0x92722c85,
  0xa2bfe8a1, 0xa81a664b, 0xc24b8b70, 0xc76c51a3, 0xd192e819, 0xd6990624, 0xf40e3585, 0x106aa070,
  0x19a4c116, 0x1e376c08, 0x2748774c, 0x34b0bcb5, 0x391c0cb3, 0x4ed8aa4a, 0x5b9cca4f, 0x682e6ff3,
  0x748f82ee, 0x78a5636f, 0x84c87814, 0x8cc70208, 0x90befffa, 0xa4506ceb, 0xbef9a3f7, 0xc67178f2]

/-- Eight words, from one block to the next. -/
structure Words where
  a : UInt32
  b : UInt32
  c : UInt32
  d : UInt32
  e : UInt32
  f : UInt32
  g : UInt32
  h : UInt32

namespace Words

/-- The first 32 bits of the fractional parts of the square roots of the first 8 primes. -/
def initial : Words :=
  ⟨0x6a09e667, 0xbb67ae85, 0x3c6ef372, 0xa54ff53a, 0x510e527f, 0x9b05688c, 0x1f83d9ab, 0x5be0cd19⟩

def add (x y : Words) : Words :=
  ⟨x.a + y.a, x.b + y.b, x.c + y.c, x.d + y.d, x.e + y.e, x.f + y.f, x.g + y.g, x.h + y.h⟩

def toList (w : Words) : List UInt32 := [w.a, w.b, w.c, w.d, w.e, w.f, w.g, w.h]

end Words

def rotr (x n : UInt32) : UInt32 := (x >>> n) ||| (x <<< (32 - n))

/-- The byte at `i` of a message after its end is padded: a one bit, zeros, and the length of
the message in bits in the last eight bytes. -/
def paddedByte (message : ByteArray) (blocks i : Nat) : UInt8 :=
  if h : i < message.size then message[i]
  else if i = message.size then 0x80
  else
    let fromEnd := 64 * blocks - 1 - i
    if fromEnd < 8 then UInt8.ofNat ((8 * message.size) >>> (8 * fromEnd)) else 0

/-- The big-endian word at byte `i`. -/
def paddedWord (message : ByteArray) (blocks i : Nat) : UInt32 :=
  let byte k := (paddedByte message blocks (i + k)).toUInt32
  (byte 0 <<< 24) ||| (byte 1 <<< 16) ||| (byte 2 <<< 8) ||| byte 3

/-- The sixteen words of a block, extended to sixty-four. -/
def schedule (block : Array UInt32) : Array UInt32 :=
  (List.range 48).foldl (fun w i =>
    let at' k := (w[i + k]?).getD 0
    let s0 := rotr (at' 1) 7 ^^^ rotr (at' 1) 18 ^^^ (at' 1 >>> 3)
    let s1 := rotr (at' 14) 17 ^^^ rotr (at' 14) 19 ^^^ (at' 14 >>> 10)
    w.push (at' 0 + s0 + at' 9 + s1)) block

/-- One round, with the sum of a round word and a schedule word. -/
def round (s : Words) (kw : UInt32) : Words :=
  let s1 := rotr s.e 6 ^^^ rotr s.e 11 ^^^ rotr s.e 25
  let ch := (s.e &&& s.f) ^^^ (~~~s.e &&& s.g)
  let t1 := s.h + s1 + ch + kw
  let s0 := rotr s.a 2 ^^^ rotr s.a 13 ^^^ rotr s.a 22
  let maj := (s.a &&& s.b) ^^^ (s.a &&& s.c) ^^^ (s.b &&& s.c)
  ⟨t1 + s0 + maj, s.a, s.b, s.c, s.d + t1, s.e, s.f, s.g⟩

def compress (s : Words) (block : Array UInt32) : Words :=
  s.add ((roundWords.zipWith (· + ·) (schedule block)).foldl round s)

def sha256 (message : ByteArray) : Words :=
  let blocks := (message.size + 8) / 64 + 1
  (List.range blocks).foldl (fun s b =>
    compress s (Array.ofFn fun i : Fin 16 => paddedWord message blocks (64 * b + 4 * i.val)))
    .initial

def hexWord (w : UInt32) : List Char :=
  (List.range 8).map fun i => Nat.digitChar ((w.toNat >>> (4 * (7 - i))) % 16)

/-- The digest of a text in UTF-8, in base 16 behind its name. -/
def ofText (s : String) : String :=
  "sha256:" ++ String.ofList ((sha256 s.toUTF8).toList.flatMap hexWord)

end Sluice.Digest
