/-!
Byte strings. Every element, script, hash and transaction is a list of bytes; this module
holds the lowercase hexadecimal text of a byte string and the little- and big-endian values
of fixed-width words, with the round trips that later proofs rely on.
-/

set_option autoImplicit false

namespace BitcoinScript

/-- A byte string, first byte at the head. -/
abbrev Bytes := List UInt8

namespace Bytes

/-- The lowercase hexadecimal digit of a value below sixteen. -/
def hexDigit (n : Nat) : Char :=
  if n < 10 then Char.ofNat (48 + n) else Char.ofNat (87 + n)

/-- Two lowercase hexadecimal digits per byte, most significant digit first. -/
def toHex (bytes : Bytes) : String :=
  String.ofList (bytes.flatMap fun b => [hexDigit (b.toNat / 16), hexDigit (b.toNat % 16)])

/-- The value of one hexadecimal digit of either case. -/
def digitValue? (c : Char) : Option Nat :=
  if '0' ≤ c ∧ c ≤ '9' then some (c.toNat - 48)
  else if 'a' ≤ c ∧ c ≤ 'f' then some (c.toNat - 87)
  else if 'A' ≤ c ∧ c ≤ 'F' then some (c.toNat - 55)
  else none

/-- Reads pairs of hexadecimal digits; an odd count or a foreign character is refused. -/
def ofHexChars? : List Char → Option Bytes
  | [] => some []
  | [_] => none
  | hi :: lo :: rest => do
    let h ← digitValue? hi
    let l ← digitValue? lo
    let tail ← ofHexChars? rest
    pure ((h * 16 + l).toUInt8 :: tail)

/-- Reads a hexadecimal text such as `"00ff"`. -/
def ofHex? (text : String) : Option Bytes :=
  ofHexChars? text.toList

/-- The little-endian value of a byte string: the first byte is the least significant. -/
def leValue (bytes : Bytes) : Nat :=
  bytes.foldr (fun b acc => b.toNat + 256 * acc) 0

/-- The big-endian value of a byte string: the first byte is the most significant. -/
def beValue (bytes : Bytes) : Nat :=
  bytes.foldl (fun acc b => 256 * acc + b.toNat) 0

/-- The lowest `width` bytes of a natural number, least significant first. -/
def ofNatLE : Nat → Nat → Bytes
  | 0, _ => []
  | width + 1, n => (n % 256).toUInt8 :: ofNatLE width (n / 256)

/-- The lowest `width` bytes of a natural number, most significant first. -/
def ofNatBE (width n : Nat) : Bytes :=
  (ofNatLE width n).reverse

@[simp] theorem leValue_nil : leValue [] = 0 := rfl

@[simp] theorem leValue_cons (b : UInt8) (bytes : Bytes) :
    leValue (b :: bytes) = b.toNat + 256 * leValue bytes := rfl

@[simp] theorem length_ofNatLE (width n : Nat) : (ofNatLE width n).length = width := by
  induction width generalizing n with
  | zero => rfl
  | succ width ih => simp [ofNatLE, ih]

@[simp] theorem length_ofNatBE (width n : Nat) : (ofNatBE width n).length = width := by
  simp [ofNatBE]

/-- Writing `width` little-endian bytes keeps the value modulo `256 ^ width`. -/
theorem leValue_ofNatLE (width n : Nat) : leValue (ofNatLE width n) = n % Nat.pow 256 width := by
  induction width generalizing n with
  | zero => simp [ofNatLE, Nat.mod_one]
  | succ width ih =>
    simp only [Nat.pow_eq] at ih ⊢
    simp only [ofNatLE, leValue_cons, ih]
    have byte : ((n % 256).toUInt8).toNat = n % 256 := by
      simp [Nat.toUInt8, UInt8.toNat_ofNat', Nat.mod_mod_of_dvd]
    rw [byte, Nat.pow_succ, Nat.mul_comm (256 ^ width) 256, Nat.mod_mul]

end Bytes

end BitcoinScript
