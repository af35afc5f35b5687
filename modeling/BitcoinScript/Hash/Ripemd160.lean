import BitcoinScript.Hash.Sha256

/-!
RIPEMD-160 and HASH160 (RIPEMD-160 of SHA-256), the hash of public keys and P2SH scripts.
RIPEMD-160 pads like SHA-256 but with a little-endian length, reads little-endian words, and
runs two lines of eighty steps side by side, each with its own word order, shifts and constants.
-/

set_option autoImplicit false

namespace BitcoinScript

namespace Ripemd160

/-- The word each left-line step reads. -/
def leftWord : Array Nat := #[
  0, 1, 2, 3, 4, 5, 6, 7, 8, 9, 10, 11, 12, 13, 14, 15,
  7, 4, 13, 1, 10, 6, 15, 3, 12, 0, 9, 5, 2, 14, 11, 8,
  3, 10, 14, 4, 9, 15, 8, 1, 2, 7, 0, 6, 13, 11, 5, 12,
  1, 9, 11, 10, 0, 8, 12, 4, 13, 3, 7, 15, 14, 5, 6, 2,
  4, 0, 5, 9, 7, 12, 2, 10, 14, 1, 3, 8, 11, 6, 15, 13]

/-- The word each right-line step reads. -/
def rightWord : Array Nat := #[
  5, 14, 7, 0, 9, 2, 11, 4, 13, 6, 15, 8, 1, 10, 3, 12,
  6, 11, 3, 7, 0, 13, 5, 10, 14, 15, 8, 12, 4, 9, 1, 2,
  15, 5, 1, 3, 7, 14, 6, 9, 11, 8, 12, 2, 10, 0, 4, 13,
  8, 6, 4, 1, 3, 11, 15, 0, 5, 12, 2, 13, 9, 7, 10, 14,
  12, 15, 10, 4, 1, 5, 8, 7, 6, 2, 13, 14, 0, 3, 9, 11]

/-- The rotation of each left-line step. -/
def leftShift : Array UInt32 := #[
  11, 14, 15, 12, 5, 8, 7, 9, 11, 13, 14, 15, 6, 7, 9, 8,
  7, 6, 8, 13, 11, 9, 7, 15, 7, 12, 15, 9, 11, 7, 13, 12,
  11, 13, 6, 7, 14, 9, 13, 15, 14, 8, 13, 6, 5, 12, 7, 5,
  11, 12, 14, 15, 14, 15, 9, 8, 9, 14, 5, 6, 8, 6, 5, 12,
  9, 15, 5, 11, 6, 8, 13, 12, 5, 12, 13, 14, 11, 8, 5, 6]

/-- The rotation of each right-line step. -/
def rightShift : Array UInt32 := #[
  8, 9, 9, 11, 13, 15, 15, 5, 7, 7, 8, 11, 14, 14, 12, 6,
  9, 13, 15, 7, 12, 8, 9, 11, 7, 7, 12, 7, 6, 15, 13, 11,
  9, 7, 15, 11, 8, 6, 6, 14, 12, 13, 5, 14, 13, 13, 7, 5,
  15, 5, 8, 11, 14, 14, 6, 14, 6, 9, 12, 9, 12, 5, 15, 8,
  8, 5, 12, 9, 12, 5, 14, 6, 8, 13, 6, 5, 15, 13, 11, 11]

/-- The additive constant of each group of sixteen left-line steps. -/
def leftConstant : Array UInt32 := #[0x00000000, 0x5a827999, 0x6ed9eba1, 0x8f1bbcdc, 0xa953fd4e]

/-- The additive constant of each group of sixteen right-line steps. -/
def rightConstant : Array UInt32 := #[0x50a28be6, 0x5c4dd124, 0x6d703ef3, 0x7a6d76e9, 0x00000000]

/-- Rotation to the left by `n` bits, `0 < n < 32`. -/
def rotl (x n : UInt32) : UInt32 := (x <<< n) ||| (x >>> (32 - n))

/-- The boolean function of a group of sixteen steps. -/
def mix (group : Nat) (x y z : UInt32) : UInt32 :=
  match group with
  | 0 => x ^^^ y ^^^ z
  | 1 => (x &&& y) ||| (~~~x &&& z)
  | 2 => (x ||| ~~~y) ^^^ z
  | 3 => (x &&& z) ||| (y &&& ~~~z)
  | _ => x ^^^ (y ||| ~~~z)

/-- The five words of one line. -/
structure Line where
  a : UInt32
  b : UInt32
  c : UInt32
  d : UInt32
  e : UInt32

/-- One step of a line: mix, add a message word and a constant, rotate, shift the words. -/
def Line.step (l : Line) (f k x s : UInt32) : Line :=
  let t := rotl (l.a + f + x + k) s + l.e
  ⟨l.e, t, l.b, rotl l.c 10, l.d⟩

/-- The little-endian word at a byte position. -/
def wordLE (a : ByteArray) (i : Nat) : UInt32 :=
  Sha256.byteWord a i ||| (Sha256.byteWord a (i + 1) <<< 8) |||
    (Sha256.byteWord a (i + 2) <<< 16) ||| (Sha256.byteWord a (i + 3) <<< 24)

/-- Folds the block starting at `start` into the chaining state. -/
def compress (h : Line) (block : ByteArray) (start : Nat) : Line :=
  let x (i : Nat) : UInt32 := wordLE block (start + 4 * i)
  let next (lines : Line × Line) (j : Nat) : Line × Line :=
    let (l, r) := lines
    let g := j / 16
    (l.step (mix g l.b l.c l.d) (leftConstant.getD g 0) (x (leftWord.getD j 0))
      (leftShift.getD j 0),
     r.step (mix (4 - g) r.b r.c r.d) (rightConstant.getD g 0) (x (rightWord.getD j 0))
      (rightShift.getD j 0))
  let lines := (List.range 80).foldl next (h, h)
  let (l, r) := lines
  ⟨h.b + l.c + r.d, h.c + l.d + r.e, h.d + l.e + r.a, h.e + l.a + r.b, h.a + l.b + r.c⟩

/-- The message padded to whole blocks, with the bit length in 64 little-endian bits. -/
def pad (message : Bytes) : ByteArray :=
  let len := message.length
  (message ++ [0x80] ++ List.replicate ((119 - len % 64) % 64) 0 ++
    Bytes.ofNatLE 8 (8 * len)).toByteArray

/-- A word as four little-endian bytes. -/
def wordBytes (x : UInt32) : Bytes :=
  [x.toUInt8, (x >>> 8).toUInt8, (x >>> 16).toUInt8, (x >>> 24).toUInt8]

/-- The RIPEMD-160 digest: twenty bytes. -/
def hash (message : Bytes) : Bytes :=
  let padded := pad message
  let s := (List.range (padded.size / 64)).foldl (fun acc i => compress acc padded (64 * i))
    (⟨0x67452301, 0xefcdab89, 0x98badcfe, 0x10325476, 0xc3d2e1f0⟩ : Line)
  [s.a, s.b, s.c, s.d, s.e].flatMap wordBytes

end Ripemd160

/-- RIPEMD-160 of SHA-256: the twenty-byte hash of keys and redeem scripts. -/
def hash160 (message : Bytes) : Bytes := Ripemd160.hash (Sha256.hash message)

end BitcoinScript
