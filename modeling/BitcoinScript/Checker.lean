import BitcoinScript.Sighash
import BitcoinScript.Secp256k1.Ecdsa
import BitcoinScript.Number

/-!
What a script consults beyond its own stacks: a signature check and the lock-time and sequence
checks. A checker is a record of pure functions, so its answers depend on its arguments only.
`Checker.acceptAll` accepts every signature and every lock time; a spend of one input of a
transaction checks against that transaction (SPEC_FULL.md:59, 63).
-/

set_option autoImplicit false

namespace BitcoinScript

/-- The checks a script delegates. -/
structure Checker where
  /-- Checks a parsed signature and key against the digest selected by the hash type and flags,
  committing to the script code. -/
  checkSig : Secp256k1.Signature → Secp256k1.PublicKey → Bytes → Nat → Flags →
    Except ScriptError Bool
  /-- Whether an absolute lock time is satisfied. -/
  checkLockTime : Int → Bool
  /-- Whether a relative lock time is satisfied. -/
  checkSequence : Int → Bool

namespace Checker

/-- The checker that accepts every signature and lock time. -/
def acceptAll : Checker := ⟨fun _ _ _ _ _ => .ok true, fun _ => true, fun _ => true⟩

end Checker

/-- One input of a transaction being spent, with the amount of the output it spends. -/
structure Spend where
  tx : Tx
  index : Nat
  amount : Nat

namespace Spend

/-- Lock times below this are block heights, from it on timestamps. -/
def lockTimeThreshold : Int := 500000000

/-- The sequence number of the spending input, if the index names one. -/
def sequence? (c : Spend) : Option Nat := (c.tx.inputs[c.index]?).map (·.sequence)

/-- An absolute lock time holds when it is of the transaction's kind (height or time), not
later than the transaction's, and the input is not final. -/
def checkLockTime (c : Spend) (lockTime : Int) : Bool :=
  match Number.toI64? lockTime with
  | none => false
  | some n =>
    let txLock : Int := c.tx.lockTime
    if (txLock < lockTimeThreshold) ≠ (n < lockTimeThreshold) then false
    else if n > txLock then false
    else match c.sequence? with
      | some s => s ≠ 0xffffffff
      | none => false

/-- The low 64 bits of an integer, as two's complement. -/
def low64 (n : Int) : Nat := (n % Int.pow 2 64).toNat

/-- A relative lock time holds when the transaction is of version 2 or later, the input's
sequence enables relative lock times, both are of the same kind, and it is not later. -/
def checkSequence (c : Spend) (sequence : Int) : Bool :=
  match Number.toI64? sequence, c.sequence? with
  | some n, some txSeq =>
    if c.tx.signedVersion < 2 then false
    else if txSeq &&& 0x80000000 ≠ 0 then false
    else
      let typeFlag := 0x400000
      let mask := typeFlag ||| 0xffff
      let txMasked := txSeq &&& mask
      let masked := low64 n &&& mask
      if (txMasked < typeFlag) ≠ (masked < typeFlag) then false
      else masked ≤ txMasked
  | _, _ => false

/-- The digest a signature of this hash type signs. -/
def digest (c : Spend) (scriptCode : Bytes) (hashType : Nat) (flags : Flags) :
    Except ScriptError Bytes :=
  let parts := if Sighash.usesForkIdDigest hashType flags then some (SigHashParts.ofTx c.tx)
    else none
  signatureHash c.tx c.index scriptCode c.amount hashType flags parts

/-- Verifies the low-S form of a signature over the digest. -/
def checkSig (c : Spend) (sig : Secp256k1.Signature) (key : Secp256k1.PublicKey)
    (scriptCode : Bytes) (hashType : Nat) (flags : Flags) : Except ScriptError Bool := do
  let d ← c.digest scriptCode hashType flags
  return Secp256k1.verify sig.normalizeS key d

/-- The checker of this spend. -/
def checker (c : Spend) : Checker := ⟨c.checkSig, c.checkLockTime, c.checkSequence⟩

end Spend

end BitcoinScript
