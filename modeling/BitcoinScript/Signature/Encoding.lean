import BitcoinScript.Flags
import BitcoinScript.Bytes

/-!
Encoding rules for signatures and public keys. A signature on the stack is a DER sequence of two
integers followed by one hash-type byte. Strict DER fixes one layout:
`30 len 02 lenR R 02 lenS S`, eight to seventy-two bytes, both integers non-empty, non-negative
and without superfluous leading zeros. The first rule a signature breaks is the one reported.
-/

set_option autoImplicit false

namespace BitcoinScript

/-- The first strict-DER rule a signature breaks. -/
inductive DerError
  | tooShort
  | tooLong
  | invalidSequenceId
  | invalidDataLength
  | missingTypeIdS
  | missingLengthS
  | invalidLengthS
  | invalidIntegerIdR
  | zeroLengthR
  | negativeR
  | tooMuchPaddingR
  | invalidIntegerIdS
  | zeroLengthS
  | negativeS
  | tooMuchPaddingS
  deriving DecidableEq, Repr

namespace DerError

/-- The variant name used in error kinds. -/
def name : DerError → String
  | tooShort => "TooShort"
  | tooLong => "TooLong"
  | invalidSequenceId => "InvalidSequenceId"
  | invalidDataLength => "InvalidDataLength"
  | missingTypeIdS => "MissingTypeIdS"
  | missingLengthS => "MissingLengthS"
  | invalidLengthS => "InvalidLengthS"
  | invalidIntegerIdR => "InvalidIntegerIdR"
  | zeroLengthR => "ZeroLengthR"
  | negativeR => "NegativeR"
  | tooMuchPaddingR => "TooMuchPaddingR"
  | invalidIntegerIdS => "InvalidIntegerIdS"
  | zeroLengthS => "ZeroLengthS"
  | negativeS => "NegativeS"
  | tooMuchPaddingS => "TooMuchPaddingS"

/-- What the rule says, after `malformed signature: `. -/
def detail : DerError → String
  | tooShort => "too short"
  | tooLong => "too long"
  | invalidSequenceId => "format has wrong type"
  | invalidDataLength => "bad length"
  | missingTypeIdS => "S type indicator missing"
  | missingLengthS => "S length missing"
  | invalidLengthS => "invalid S length"
  | invalidIntegerIdR => "R integer marker"
  | zeroLengthR => "R length is zero"
  | negativeR => "R is negative"
  | tooMuchPaddingR => "R value has too much padding"
  | invalidIntegerIdS => "S integer marker"
  | zeroLengthS => "S length is zero"
  | negativeS => "S is negative"
  | tooMuchPaddingS => "S value has too much padding"

/-- The text shown for each rule. -/
def message (e : DerError) : String := "malformed signature: " ++ e.detail

end DerError

/-- Why a signature check was refused before any curve arithmetic. -/
inductive SigError
  | der (e : DerError)
  | highS
  | pubKeyType
  | invalidSigHashType (hashType : Nat)
  | illegalForkId
  | mustUseForkId
  | nullFail
  deriving DecidableEq, Repr

namespace SigError

/-- The lowercase hexadecimal digits of a number, without padding. -/
def hexNat (n : Nat) : String :=
  String.ofList (Nat.toDigits 16 n)

/-- The variant path used in error kinds. -/
def name : SigError → String
  | der e => "Der." ++ e.name
  | highS => "HighS"
  | pubKeyType => "PubKeyType"
  | invalidSigHashType _ => "InvalidSigHashType"
  | illegalForkId => "IllegalForkId"
  | mustUseForkId => "MustUseForkId"
  | nullFail => "NullFail"

/-- The text shown for each refusal. -/
def message : SigError → String
  | der e => "invalid signature encoding: " ++ e.message
  | highS => "signature is not canonical due to unnecessarily high S value"
  | pubKeyType => "unsupported public key type"
  | invalidSigHashType h => "invalid hash type 0x" ++ hexNat h
  | illegalForkId => "signature uses SIGHASH_FORKID without the forkid flag"
  | mustUseForkId => "signature must use SIGHASH_FORKID"
  | nullFail => "signature not empty on failed checksig"

end SigError

namespace Signature

/-- The hash-type bit that selects the fork-id digest. -/
def forkIdBit : Nat := 0x40

/-- The hash-type bit that commits to one input only. -/
def anyoneCanPayBit : Nat := 0x80

/-- Half the order of the secp256k1 group: a larger S has a smaller twin. -/
def halfOrder : Nat := 0x7fffffffffffffffffffffffffffffff5d576e7357a4501ddfe92f46681b20a0

/-- The byte at a position, zero past the end (every read below is guarded by a length test). -/
def byteAt (sig : Bytes) (i : Nat) : Nat := (sig.getD i 0).toNat

/-- Checks strict DER on a signature without its hash-type byte and returns where S starts and
how long it is. -/
def strictDer (sig : Bytes) : Except DerError (Nat × Nat) :=
  let len := sig.length
  let lenR := byteAt sig 3
  let sTypeOffset := 4 + lenR
  let sLenOffset := sTypeOffset + 1
  let lenS := byteAt sig sLenOffset
  let sOffset := sLenOffset + 1
  if len < 8 then .error .tooShort
  else if len > 72 then .error .tooLong
  else if byteAt sig 0 ≠ 0x30 then .error .invalidSequenceId
  else if byteAt sig 1 ≠ len - 2 then .error .invalidDataLength
  else if sTypeOffset ≥ len then .error .missingTypeIdS
  else if sLenOffset ≥ len then .error .missingLengthS
  else if sOffset + lenS ≠ len then .error .invalidLengthS
  else if byteAt sig 2 ≠ 0x02 then .error .invalidIntegerIdR
  else if lenR = 0 then .error .zeroLengthR
  else if byteAt sig 4 &&& 0x80 ≠ 0 then .error .negativeR
  else if lenR > 1 ∧ byteAt sig 4 = 0 ∧ byteAt sig 5 &&& 0x80 = 0 then .error .tooMuchPaddingR
  else if byteAt sig sTypeOffset ≠ 0x02 then .error .invalidIntegerIdS
  else if lenS = 0 then .error .zeroLengthS
  else if byteAt sig sOffset &&& 0x80 ≠ 0 then .error .negativeS
  else if lenS > 1 ∧ byteAt sig sOffset = 0 ∧ byteAt sig (sOffset + 1) &&& 0x80 = 0 then
    .error .tooMuchPaddingS
  else .ok (sOffset, lenS)

/-- Under STRICTENC the base type must be ALL, NONE or SINGLE, and the fork-id bit must be set
exactly when the fork-id flag is. -/
def checkHashType (hashType : Nat) (flags : Flags) : Except SigError Unit :=
  let base := hashType &&& (0xffffffff ^^^ (anyoneCanPayBit ||| forkIdBit))
  if base < 1 ∨ base > 3 then .error (.invalidSigHashType hashType)
  else
    let hasForkId := hashType &&& forkIdBit ≠ 0
    if !flags.forkId && hasForkId then .error .illegalForkId
    else if flags.forkId && !hasForkId then .error .mustUseForkId
    else .ok ()

/-- The encoding rules the flags enable, on a non-empty signature with its hash-type byte. -/
def checkEncoding (fullSig : Bytes) (flags : Flags) : Except SigError Unit := do
  match fullSig.getLast? with
  | none => pure ()
  | some hashType =>
    if flags.strictEnc then checkHashType hashType.toNat flags
    if flags.requiresStrictDer then
      let sig := fullSig.dropLast
      match strictDer sig with
      | .error e => throw (.der e)
      | .ok (offset, length) =>
        if flags.lowS && Bytes.beValue ((sig.drop offset).take length) > halfOrder then
          throw .highS

/-- A public key in one of the two standard forms: 33 bytes after `02` or `03`, or 65 after `04`. -/
def isStandardPubKey (key : Bytes) : Bool :=
  match key with
  | b :: _ => (key.length = 33 && (b = 2 || b = 3)) || (key.length = 65 && b = 4)
  | [] => false

/-- Under STRICTENC only standard public keys are accepted. -/
def checkPubKey (key : Bytes) (flags : Flags) : Except SigError Unit :=
  if flags.strictEnc && !isStandardPubKey key then .error .pubKeyType else .ok ()

/-- Whether a signature asks for the fork-id digest and the flags allow it. -/
def usesForkId (sig : Bytes) (flags : Flags) : Bool :=
  flags.forkId && match sig.getLast? with
    | some h => h.toNat &&& forkIdBit ≠ 0
    | none => false

end Signature

end BitcoinScript
