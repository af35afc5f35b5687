import BitcoinScript.Bytes

/-!
SHA-256 (FIPS 180-4) and its double application, the hash of transactions, merkle nodes and
`OP_HASH256`. The message is padded with a one bit, zeros and its bit length to whole 64-byte
blocks, and each block is folded into eight 32-bit words by sixty-four rounds.
-/

set_option autoImplicit false

namespace BitcoinScript

namespace Sha256

/-- The sixty-four round constants. -/
def roundConstants : Array UInt32 := #[
  0x428a2f98, 0x71374491, 0xb5c0fbcf, 0xe9b5dba5, 0x3956c25b, 0x59f111f1, 0x923f82a4, 0xab1c5ed5,
  0xd807aa98, 0x12835b01, 0x243185be, 0x550c7dc3, 0x72be5d74, 0x80deb1fe, 0x9bdc06a7, 0xc19bf174,
  0xe49b69c1, 0xefbe4786, 0x0fc19dc6, 0x240ca1cc, 0x2de92c6f, 0x4a7484aa, 0x5cb0a9dc, 0x76f988da,
  0x983e5152, 0xa831c66d, 0xb00327c8, 0xbf597fc7, 0xc6e00bf3, 0xd5a79147, 0x06ca6351, 0x14292967,
  0x27b70a85, 0x2e1b2138, 0x4d2c6dfc, 0x53380d13, 0x650a7354, 0x766a0abb, 0x81c2c92e, 0x92722c85,
  0xa2bfe8a1, 0xa81a664b, 0xc24b8b70, 0xc76c51a3, 0xd192e819, 0xd6990624, 0xf40e3585, 0x106aa070,
  0x19a4c116, 0x1e376c08, 0x2748774c, 0x34b0bcb5, 0x391c0cb3, 0x4ed8aa4a, 0x5b9cca4f, 0x682e6ff3,
  0x748f82ee, 0x78a5636f, 0x84c87814, 0x8cc70208, 0x90befffa, 0xa4506ceb, 0xbef9a3f7, 0xc67178f2]

/-- The eight words of the chaining state. -/
structure State where
  a : UInt32
  b : UInt32
  c : UInt32
  d : UInt32
  e : UInt32
  f : UInt32
  g : UInt32
  h : UInt32

/-- The initial chaining state. -/
def initial : State :=
  ⟨0x6a09e667, 0xbb67ae85, 0x3c6ef372, 0xa54ff53a, 0x510e527f, 0x9b05688c, 0x1f83d9ab, 0x5be0cd19⟩

/-- Rotation to the right by `n` bits, `0 < n < 32`. -/
def rotr (x n : UInt32) : UInt32 := (x >>> n) ||| (x <<< (32 - n))

/-- The byte at a position as a word, zero past the end. -/
def byteWord (a : ByteArray) (i : Nat) : UInt32 :=
  if h : i < a.size then a[i].toUInt32 else 0

/-- The big-endian word at a byte position. -/
def wordBE (a : ByteArray) (i : Nat) : UInt32 :=
  (byteWord a i <<< 24) ||| (byteWord a (i + 1) <<< 16) ||| (byteWord a (i + 2) <<< 8) |||
    byteWord a (i + 3)

/-- The message padded to whole blocks: a one bit, zeros, and the bit length in 64 bits. -/
def pad (message : Bytes) : ByteArray :=
  let len := message.length
  (message ++ [0x80] ++ List.replicate ((119 - len % 64) % 64) 0 ++
    Bytes.ofNatBE 8 (8 * len)).toByteArray

/-- The sixty-four schedule words of the block starting at `start`. -/
def schedule (block : ByteArray) (start : Nat) : Array UInt32 :=
  let next (w : Array UInt32) (t : Nat) : Array UInt32 :=
    if t < 16 then w.push (wordBE block (start + 4 * t))
    else
      let x := w.getD (t - 15) 0
      let y := w.getD (t - 2) 0
      let s0 := rotr x 7 ^^^ rotr x 18 ^^^ (x >>> 3)
      let s1 := rotr y 17 ^^^ rotr y 19 ^^^ (y >>> 10)
      w.push (w.getD (t - 16) 0 + s0 + w.getD (t - 7) 0 + s1)
  (List.range 64).foldl next #[]

/-- One round on the working words. -/
def round (s : State) (k w : UInt32) : State :=
  let s1 := rotr s.e 6 ^^^ rotr s.e 11 ^^^ rotr s.e 25
  let ch := (s.e &&& s.f) ^^^ (~~~s.e &&& s.g)
  let t1 := s.h + s1 + ch + k + w
  let s0 := rotr s.a 2 ^^^ rotr s.a 13 ^^^ rotr s.a 22
  let maj := (s.a &&& s.b) ^^^ (s.a &&& s.c) ^^^ (s.b &&& s.c)
  let t2 := s0 + maj
  ⟨t1 + t2, s.a, s.b, s.c, s.d + t1, s.e, s.f, s.g⟩

/-- Folds the block starting at `start` into the chaining state. -/
def compress (s : State) (block : ByteArray) (start : Nat) : State :=
  let w := schedule block start
  let r := (List.range 64).foldl (fun acc t => round acc (roundConstants.getD t 0) (w.getD t 0)) s
  ⟨s.a + r.a, s.b + r.b, s.c + r.c, s.d + r.d, s.e + r.e, s.f + r.f, s.g + r.g, s.h + r.h⟩

/-- A word as four big-endian bytes. -/
def wordBytes (x : UInt32) : Bytes :=
  [(x >>> 24).toUInt8, (x >>> 16).toUInt8, (x >>> 8).toUInt8, x.toUInt8]

/-- The SHA-256 digest: thirty-two bytes. -/
def hash (message : Bytes) : Bytes :=
  let padded := pad message
  let s := (List.range (padded.size / 64)).foldl (fun acc i => compress acc padded (64 * i)) initial
  [s.a, s.b, s.c, s.d, s.e, s.f, s.g, s.h].flatMap wordBytes

end Sha256

/-- SHA-256 applied twice: the digest of transactions and merkle nodes. -/
def sha256d (message : Bytes) : Bytes := Sha256.hash (Sha256.hash message)

end BitcoinScript
