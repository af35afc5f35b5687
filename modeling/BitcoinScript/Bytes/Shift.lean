import BitcoinScript.Bytes

/-!
Bit shifts of byte strings read as big-endian bit strings of fixed width. Shifting keeps the
length: bits pushed past either end are lost and zeros come in, so a shift by at least the
width clears the string.
-/

set_option autoImplicit false

namespace BitcoinScript

namespace Bytes

/-- The byte at a position of an array, zero outside it. -/
def byteOr0 (a : Array UInt8) (i : Nat) : UInt8 := a.getD i 0

/-- Shifts towards the first byte by `n` bits. -/
def shiftLeft (data : Bytes) (n : Nat) : Bytes :=
  let a := data.toArray
  let len := a.size
  let byteShift := n / 8
  let bitShift := (n % 8).toUInt8
  (List.range len).map fun i =>
    let src := i + byteShift
    if src < len then
      let high := byteOr0 a src <<< bitShift
      if bitShift > 0 ∧ src + 1 < len then high ||| (byteOr0 a (src + 1) >>> (8 - bitShift))
      else high
    else 0

/-- Shifts towards the last byte by `n` bits. -/
def shiftRight (data : Bytes) (n : Nat) : Bytes :=
  let a := data.toArray
  let len := a.size
  let byteShift := n / 8
  let bitShift := (n % 8).toUInt8
  (List.range len).map fun i =>
    if i ≥ byteShift then
      let src := i - byteShift
      let low := byteOr0 a src >>> bitShift
      if bitShift > 0 ∧ src > 0 then low ||| (byteOr0 a (src - 1) <<< (8 - bitShift))
      else low
    else 0

end Bytes

end BitcoinScript
