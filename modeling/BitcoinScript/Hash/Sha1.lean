import BitcoinScript.Hash.Sha256

/-!
SHA-1 (FIPS 180-4), kept for `OP_SHA1`. Padding and word order are those of SHA-256; eighty
rounds in four groups fold each block into five words.
-/

set_option autoImplicit false

namespace BitcoinScript

namespace Sha1

/-- Rotation to the left by `n` bits, `0 < n < 32`. -/
def rotl (x n : UInt32) : UInt32 := (x <<< n) ||| (x >>> (32 - n))

/-- The eighty schedule words of the block starting at `start`. -/
def schedule (block : ByteArray) (start : Nat) : Array UInt32 :=
  let next (w : Array UInt32) (t : Nat) : Array UInt32 :=
    if t < 16 then w.push (Sha256.wordBE block (start + 4 * t))
    else
      w.push (rotl (w.getD (t - 3) 0 ^^^ w.getD (t - 8) 0 ^^^ w.getD (t - 14) 0 ^^^
        w.getD (t - 16) 0) 1)
  (List.range 80).foldl next #[]

/-- The five words of the chaining state. -/
structure State where
  a : UInt32
  b : UInt32
  c : UInt32
  d : UInt32
  e : UInt32

/-- The function and constant of round `t`. -/
def roundMix (t : Nat) (b c d : UInt32) : UInt32 × UInt32 :=
  if t < 20 then ((b &&& c) ||| (~~~b &&& d), 0x5a827999)
  else if t < 40 then (b ^^^ c ^^^ d, 0x6ed9eba1)
  else if t < 60 then ((b &&& c) ||| (b &&& d) ||| (c &&& d), 0x8f1bbcdc)
  else (b ^^^ c ^^^ d, 0xca62c1d6)

/-- Folds the block starting at `start` into the chaining state. -/
def compress (s : State) (block : ByteArray) (start : Nat) : State :=
  let w := schedule block start
  let next (acc : State) (t : Nat) : State :=
    let (f, k) := roundMix t acc.b acc.c acc.d
    let temp := rotl acc.a 5 + f + acc.e + k + w.getD t 0
    ⟨temp, acc.a, rotl acc.b 30, acc.c, acc.d⟩
  let r := (List.range 80).foldl next s
  ⟨s.a + r.a, s.b + r.b, s.c + r.c, s.d + r.d, s.e + r.e⟩

/-- The SHA-1 digest: twenty bytes. -/
def hash (message : Bytes) : Bytes :=
  let padded := Sha256.pad message
  let s := (List.range (padded.size / 64)).foldl (fun acc i => compress acc padded (64 * i))
    (⟨0x67452301, 0xefcdab89, 0x98badcfe, 0x10325476, 0xc3d2e1f0⟩ : State)
  [s.a, s.b, s.c, s.d, s.e].flatMap Sha256.wordBytes

end Sha1

end BitcoinScript
