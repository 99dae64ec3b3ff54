import JarRepair.Bytes

/-! # Check sums and digests

The check sum of zip entries is a CRC-32: reflected polynomial `0xEDB88320`, all bits inverted
before and after. Output files have the digest of FIPS 180-4, SHA-256: pad to 64-byte blocks, expand
each block to 64 words, and run 64 rounds on the eight working words. Digests are written as
`sha256:` and 64 hexadecimal digits. -/

namespace JarRepair.Crc32

def polynomial : UInt32 := 0xEDB88320

def shift (crc : UInt32) : UInt32 :=
  if crc &&& 1 = 1 then (crc >>> 1) ^^^ polynomial else crc >>> 1

def step (crc : UInt32) (b : UInt8) : UInt32 := Nat.repeat shift 8 (crc ^^^ b.toUInt32)

def checksum (data : Bytes) : UInt32 := data.foldl step 0xFFFFFFFF ^^^ 0xFFFFFFFF

end JarRepair.Crc32

namespace JarRepair.Sha256

structure Words where
  (a b c d e f g h : UInt32)
deriving DecidableEq, Repr

namespace Words

def add (x y : Words) : Words :=
  ⟨x.a + y.a, x.b + y.b, x.c + y.c, x.d + y.d, x.e + y.e, x.f + y.f, x.g + y.g, x.h + y.h⟩

def toList (x : Words) : List UInt32 := [x.a, x.b, x.c, x.d, x.e, x.f, x.g, x.h]

/-- The first 32 bits of the fractional parts of the square roots of the first eight primes. -/
def initial : Words :=
  ⟨0x6a09e667, 0xbb67ae85, 0x3c6ef372, 0xa54ff53a, 0x510e527f, 0x9b05688c, 0x1f83d9ab, 0x5be0cd19⟩

end Words

/-- The first 32 bits of the fractional parts of the cube roots of the first 64 primes. -/
def roundConstants : List UInt32 := [
  0x428a2f98, 0x71374491, 0xb5c0fbcf, 0xe9b5dba5, 0x3956c25b, 0x59f111f1, 0x923f82a4, 0xab1c5ed5,
  0xd807aa98, 0x12835b01, 0x243185be, 0x550c7dc3, 0x72be5d74, 0x80deb1fe, 0x9bdc06a7, 0xc19bf174,
  0xe49b69c1, 0xefbe4786, 0x0fc19dc6, 0x240ca1cc, 0x2de92c6f, 0x4a7484aa, 0x5cb0a9dc, 0x76f988da,
  0x983e5152, 0xa831c66d, 0xb00327c8, 0xbf597fc7, 0xc6e00bf3, 0xd5a79147, 0x06ca6351, 0x14292967,
  0x27b70a85, 0x2e1b2138, 0x4d2c6dfc, 0x53380d13, 0x650a7354, 0x766a0abb, 0x81c2c92e, 0x92722c85,
  0xa2bfe8a1, 0xa81a664b, 0xc24b8b70, 0xc76c51a3, 0xd192e819, 0xd6990624, 0xf40e3585, 0x106aa070,
  0x19a4c116, 0x1e376c08, 0x2748774c, 0x34b0bcb5, 0x391c0cb3, 0x4ed8aa4a, 0x5b9cca4f, 0x682e6ff3,
  0x748f82ee, 0x78a5636f, 0x84c87814, 0x8cc70208, 0x90befffa, 0xa4506ceb, 0xbef9a3f7, 0xc67178f2]

def rotate (x n : UInt32) : UInt32 := (x >>> n) ||| (x <<< (32 - n))

def smallSigma0 (x : UInt32) : UInt32 := rotate x 7 ^^^ rotate x 18 ^^^ (x >>> 3)
def smallSigma1 (x : UInt32) : UInt32 := rotate x 17 ^^^ rotate x 19 ^^^ (x >>> 10)
def bigSigma0 (x : UInt32) : UInt32 := rotate x 2 ^^^ rotate x 13 ^^^ rotate x 22
def bigSigma1 (x : UInt32) : UInt32 := rotate x 6 ^^^ rotate x 11 ^^^ rotate x 25

def choose (x y z : UInt32) : UInt32 := (x &&& y) ^^^ (~~~x &&& z)
def majority (x y z : UInt32) : UInt32 := (x &&& y) ^^^ (x &&& z) ^^^ (y &&& z)

def round (s : Words) (k w : UInt32) : Words :=
  let t₁ := s.h + bigSigma1 s.e + choose s.e s.f s.g + k + w
  let t₂ := bigSigma0 s.a + majority s.a s.b s.c
  ⟨t₁ + t₂, s.a, s.b, s.c, s.d + t₁, s.e, s.f, s.g⟩

/-- Extends the words of a block by `n` more, each from four earlier ones. -/
def expand : Nat → Array UInt32 → Array UInt32
  | 0, w => w
  | n + 1, w =>
    let i := w.size
    expand n (w.push
      (smallSigma1 (w.getD (i - 2) 0) + w.getD (i - 7) 0 + smallSigma0 (w.getD (i - 15) 0) +
        w.getD (i - 16) 0))

def compress (s : Words) (block : List UInt32) : Words :=
  let rounds := roundConstants.zip (expand 48 block.toArray).toList
  s.add (rounds.foldl (fun s (k, w) => round s k w) s)

/-- The byte of a number that `i` bytes follow. -/
def byteAt (v i : Nat) : UInt8 := (v >>> (8 * i)).toUInt8

/-- A one bit, zeros, and the length in bits as 64 bits, up to a whole number of blocks. -/
def padding (length : Nat) : Bytes :=
  0x80 :: List.replicate ((119 - length % 64) % 64) 0 ++
    (List.range 8).map fun i => byteAt (length * 8) (7 - i)

def words : Bytes → List UInt32
  | a :: b :: c :: d :: rest => dwordOf a b c d :: words rest
  | _ => []

/-- Runs `n` blocks of 64 bytes each. -/
def blocks : Nat → Words → Bytes → Words
  | 0, s, _ => s
  | n + 1, s, bs => blocks n (compress s (words (bs.take 64))) (bs.drop 64)

def final (data : Bytes) : Words :=
  let padded := data ++ padding data.length
  blocks (padded.length / 64) .initial padded

def hexDigit (n : UInt8) : UInt8 := if n < 10 then n + 48 else n + 87

def hex (bs : Bytes) : Bytes := bs.flatMap fun b => [hexDigit (b / 16), hexDigit (b % 16)]

def digest (data : Bytes) : Bytes := "sha256:" ++ hex ((final data).toList.flatMap Bytes.dword)

end JarRepair.Sha256
