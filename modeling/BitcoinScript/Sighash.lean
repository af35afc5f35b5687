import BitcoinScript.Transaction
import BitcoinScript.Flags
import BitcoinScript.Error

/-!
The digest a signature signs. With the fork-id bit under SIGHASH_FORKID, or always under
BIP143_SIGHASH, the digest is the BIP143 one: it commits to the spent amount and to three
transaction-wide hashes (of outpoints, sequences and outputs) that the hash type may blank.
Otherwise it is the legacy digest of a copy of the transaction whose inputs and outputs the hash
type trims, with the hash type appended; a SINGLE signature on an input without a matching output
signs the number one instead (SPEC_FULL.md:99).
-/

set_option autoImplicit false

namespace BitcoinScript

/-- The transaction-wide components of the BIP143 digest. -/
structure SigHashParts where
  prevouts : Bytes
  sequence : Bytes
  outputs : Bytes
  deriving DecidableEq, Repr

namespace SigHashParts

/-- The three components of a transaction. -/
def ofTx (t : Tx) : SigHashParts :=
  { prevouts := sha256d (t.inputs.flatMap fun i => Encode.outPoint i.prevout)
    sequence := sha256d (t.inputs.flatMap fun i => Bytes.ofNatLE 4 i.sequence)
    outputs := sha256d (t.outputs.flatMap Encode.txOut) }

end SigHashParts

namespace Sighash

/-- The base type ALL. -/
def all : Nat := 1
/-- The base type NONE. -/
def none : Nat := 2
/-- The base type SINGLE. -/
def single : Nat := 3

/-- Thirty-two zero bytes. -/
def zeroHash : Bytes := List.replicate 32 0

/-- Whether the digest is the BIP143 one for this hash type. -/
def usesForkIdDigest (hashType : Nat) (flags : Flags) : Bool :=
  (flags.forkId && hashType &&& 0x40 != 0) || flags.bip143

/-- The BIP143 digest of input `index`. -/
def forkIdDigest (t : Tx) (index : Nat) (input : TxIn) (scriptCode : Bytes) (amount : Nat)
    (hashType : Nat) (parts : SigHashParts) : Bytes :=
  let base := hashType &&& 0x1f
  let anyoneCanPay := hashType &&& 0x80 != 0
  let prevouts := if anyoneCanPay then zeroHash else parts.prevouts
  let sequence := if anyoneCanPay || base = none || base = single then zeroHash else parts.sequence
  let outputs :=
    if base = single then
      match t.outputs[index]? with
      | some o => sha256d (Encode.txOut o)
      | Option.none => zeroHash
    else if base = none then zeroHash
    else parts.outputs
  sha256d (Bytes.ofNatLE 4 t.version ++ prevouts ++ sequence ++ Encode.outPoint input.prevout ++
    Encode.varBytes scriptCode ++ Bytes.ofNatLE 8 amount ++ Bytes.ofNatLE 4 input.sequence ++
    outputs ++ Bytes.ofNatLE 4 t.lockTime ++ Bytes.ofNatLE 4 hashType)

/-- The legacy reading of a hash type: its base (ALL, NONE or SINGLE; anything else is ALL)
and whether it commits to one input only. -/
def legacyType (hashType : Nat) : Nat × Bool :=
  let masked := hashType &&& 0x9f
  let acp := masked &&& 0x80 != 0
  let base := masked &&& 0x1f
  if base = none ∨ base = single then (base, acp) else (all, acp)

/-- The output a SINGLE digest writes in place of the outputs it does not sign. -/
def blankOutput : TxOut := ⟨0xffffffffffffffff, []⟩

/-- The legacy digest of input `index`. -/
def legacyDigest (t : Tx) (index : Nat) (scriptCode : Bytes) (hashType : Nat) : Bytes :=
  let (base, anyoneCanPay) := legacyType hashType
  if base = single ∧ index ≥ t.outputs.length then 1 :: List.replicate 31 0
  else
    let inputs :=
      if anyoneCanPay then
        (t.inputs[index]?.map fun i => [{ i with scriptSig := scriptCode, witness := [] }]).getD []
      else
        t.inputs.zipIdx.map fun (i, k) =>
          { i with
            scriptSig := if k = index then scriptCode else []
            sequence := if k ≠ index ∧ (base = single ∨ base = none) then 0 else i.sequence
            witness := [] }
    let outputs :=
      if base = all then t.outputs
      else if base = single then
        (t.outputs.take (index + 1)).zipIdx.map fun (o, k) => if k = index then o else blankOutput
      else []
    sha256d (Encode.tx { t with inputs, outputs } ++ Bytes.ofNatLE 4 hashType)

end Sighash

/-- The digest signed for input `index` of a transaction, with precomputed BIP143 components
when the caller has them. -/
def signatureHash (t : Tx) (index : Nat) (scriptCode : Bytes) (amount hashType : Nat)
    (flags : Flags) (parts : Option SigHashParts) : Except ScriptError Bytes :=
  match t.inputs[index]? with
  | Option.none => .error (.inputIndexOutOfRange index t.inputs.length)
  | some input =>
    if Sighash.usesForkIdDigest hashType flags then
      .ok (Sighash.forkIdDigest t index input scriptCode amount hashType
        (parts.getD (SigHashParts.ofTx t)))
    else .ok (Sighash.legacyDigest t index scriptCode hashType)

end BitcoinScript
