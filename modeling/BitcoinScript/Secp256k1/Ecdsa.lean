import BitcoinScript.Secp256k1.Curve

/-!
ECDSA over secp256k1: public keys, signatures and verification. A public key is read from 33
bytes (`02`/`03` and x) or 65 bytes (`04`, or the hybrid `06`/`07`, then x and y). A signature is
read from DER strictly (every length minimal and exact, no padding) or laxly (lengths may be
long, garbage may follow); a component that does not fit below the group order reads as zero,
which no verification accepts. Verification takes the low-S form and checks
`(u₁ G + u₂ Q).x ≡ r (mod n)`.
-/

set_option autoImplicit false

namespace BitcoinScript

namespace Secp256k1

/-- A point of the curve, not at infinity. -/
structure PublicKey where
  x : Nat
  y : Nat
  deriving DecidableEq, Repr

/-- A signature: two scalars below the group order (zero when they did not fit). -/
structure Signature where
  r : Nat
  s : Nat
  deriving DecidableEq, Repr

namespace PublicKey

/-- The y-coordinate of a compressed key, when x is on the curve. -/
def liftX? (x : Nat) (odd : Bool) : Option Nat :=
  if x ≥ p then none
  else
    let a := (fmul (fmul x x) x + 7) % p
    let y := powMod a ((p + 1) / 4) p
    if fmul y y ≠ a then none
    else if (y % 2 = 1) = odd then some y else some ((p - y) % p)

/-- Reads a key: compressed, uncompressed, or hybrid with a parity that matches y. -/
def parse? (bytes : Bytes) : Option PublicKey :=
  match bytes with
  | tag :: rest =>
    if bytes.length = 33 ∧ (tag = 2 ∨ tag = 3) then
      let x := Bytes.beValue rest
      (liftX? x (tag = 3)).map fun y => ⟨x, y⟩
    else if bytes.length = 65 ∧ (tag = 4 ∨ tag = 6 ∨ tag = 7) then
      let x := Bytes.beValue (rest.take 32)
      let y := Bytes.beValue (rest.drop 32)
      if !onCurve x y then none
      else if (tag = 6 ∨ tag = 7) ∧ ((y % 2 = 1) ≠ (tag = 7)) then none
      else some ⟨x, y⟩
    else none
  | [] => none

/-- The compressed form: `02` or `03` by the parity of y, then x in 32 bytes. -/
def compressed (k : PublicKey) : Bytes :=
  (if k.y % 2 = 1 then 3 else 2) :: Bytes.ofNatBE 32 k.x

end PublicKey

namespace Signature

/-- The signature that parsed but can never verify. -/
def zero : Signature := ⟨0, 0⟩

/-- Half the group order, rounded down: S above it is high. -/
def halfOrder : Nat := n / 2

/-- The low-S twin: S above half the order is replaced by `n - S`. -/
def normalizeS (sig : Signature) : Signature :=
  if sig.s > halfOrder then ⟨sig.r, n - sig.s⟩ else sig

/-- The 64-byte form `r ‖ s`, each big-endian in 32 bytes. -/
def compact (sig : Signature) : Bytes :=
  Bytes.ofNatBE 32 sig.r ++ Bytes.ofNatBE 32 sig.s

/-- A scalar from big-endian bytes: zero when it does not fit below the order. -/
def scalarOf (bytes : Bytes) : Nat :=
  if bytes.length > 32 then 0
  else
    let v := Bytes.beValue bytes
    if v ≥ n then 0 else v

/-- Reads a DER length: short form, or long form with no leading zero, at least 128, and
within the input. Returns the length and the bytes after it. -/
def readLength? (bytes : Bytes) : Option (Nat × Bytes) :=
  match bytes with
  | [] => none
  | b :: rest =>
    if b = 0xff then none
    else if b &&& 0x80 = 0 then some (b.toNat, rest)
    else if b = 0x80 then none
    else
      let count := (b &&& 0x7f).toNat
      if count > rest.length then none
      else if rest.head? = some 0 then none
      else if count > 8 then none
      else
        let len := Bytes.beValue (rest.take count)
        let after := rest.drop count
        if len > after.length then none
        else if len < 128 then none
        else some (len, after)

/-- Reads one DER integer: tag `02`, a length, and a body without superfluous padding.
A negative or oversized body reads as zero. -/
def readInteger? (bytes : Bytes) : Option (Nat × Bytes) :=
  match bytes with
  | 0x02 :: rest => do
    let (len, after) ← readLength? rest
    if len = 0 ∨ len > after.length then none
    else
      let body := after.take len
      let first := body.headD 0
      let second := body.getD 1 0
      if first = 0 ∧ len > 1 ∧ second &&& 0x80 = 0 then none
      else if first = 0xff ∧ len > 1 ∧ second &&& 0x80 = 0x80 then none
      else
        let negative := first &&& 0x80 ≠ 0
        let digits := if first = 0 then body.drop 1 else body
        let value := if negative then 0 else scalarOf digits
        some (value, after.drop len)
  | _ => none

/-- Strict DER: a sequence whose length is exactly the rest, of two integers and nothing more. -/
def parseDer? (bytes : Bytes) : Option Signature :=
  match bytes with
  | 0x30 :: rest => do
    let (len, body) ← readLength? rest
    if len ≠ body.length then none
    else
      let (r, afterR) ← readInteger? body
      let (s, afterS) ← readInteger? afterR
      if afterS.isEmpty then some ⟨r, s⟩ else none
  | _ => none

/-- Skips zero bytes of a length field of `count` bytes at `pos`. -/
def skipZeros (input : Bytes) (pos count : Nat) : Nat × Nat :=
  match count with
  | 0 => (pos, 0)
  | c + 1 => if input.getD pos 0 = 0 then skipZeros input (pos + 1) c else (pos, c + 1)

/-- Reads a lax integer length at `pos`: short form, or a long form of fewer than four
significant bytes. Returns the length and the position after it. -/
def laxLength? (input : Bytes) (pos : Nat) : Option (Nat × Nat) :=
  let len := input.length
  if pos = len then none
  else
    let lenByte := (input.getD pos 0).toNat
    let pos := pos + 1
    if lenByte &&& 0x80 ≠ 0 then
      let count := lenByte - 0x80
      if count > len - pos then none
      else
        let (pos, count) := skipZeros input pos count
        if count ≥ 4 then none
        else some (Bytes.beValue ((input.drop pos).take count), pos + count)
    else some (lenByte, pos)

/-- The bytes of an integer without its leading zeros. -/
def stripZeros (bytes : Bytes) : Bytes := bytes.dropWhile (· = 0)

/-- Lax DER, as signatures were accepted before strict DER: the sequence length is skipped,
integer lengths may be long, and anything may follow S. -/
def parseDerLax? (input : Bytes) : Option Signature := do
  let len := input.length
  if len = 0 ∨ input.getD 0 0 ≠ 0x30 then none
  if 1 = len then none
  let seqLen := (input.getD 1 0).toNat
  let pos ← if seqLen &&& 0x80 ≠ 0 then
      (if seqLen - 0x80 > len - 2 then none else some (2 + (seqLen - 0x80)))
    else some 2
  if pos = len ∨ input.getD pos 0 ≠ 0x02 then none
  let (rlen, pos) ← laxLength? input (pos + 1)
  if rlen > len - pos then none
  let rpos := pos
  let pos := pos + rlen
  if pos = len ∨ input.getD pos 0 ≠ 0x02 then none
  let (slen, pos) ← laxLength? input (pos + 1)
  if slen > len - pos then none
  let r := stripZeros ((input.drop rpos).take rlen)
  let s := stripZeros ((input.drop pos).take slen)
  if r.length > 32 ∨ s.length > 32 then return zero
  let rv := Bytes.beValue r
  let sv := Bytes.beValue s
  if rv ≥ n ∨ sv ≥ n then return zero
  return ⟨rv, sv⟩

end Signature

/-- ECDSA verification of a 32-byte digest (read big-endian and reduced modulo the order).
A high S, or a zero component, never verifies. -/
def verify (sig : Signature) (key : PublicKey) (digest : Bytes) : Bool :=
  if sig.r = 0 ∨ sig.s = 0 ∨ sig.r ≥ n ∨ sig.s ≥ n ∨ sig.s > Signature.halfOrder then false
  else
    let m := Bytes.beValue digest % n
    let w := inverse sig.s n
    let u1 := m * w % n
    let u2 := sig.r * w % n
    let point := Jacobian.add (Jacobian.smul u1 generator)
      (Jacobian.smul u2 (Jacobian.ofAffine key.x key.y))
    match point.affineX? with
    | none => false
    | some x => x % n = sig.r

end Secp256k1

end BitcoinScript
