import BitcoinScript.Machine.Basic

/-!
`OP_CHECKSIG` and `OP_CHECKMULTISIG`. A signature is checked in order: an empty one simply fails;
then the encoding rules the flags enable (hash type, DER, low S, key form) may refuse it with an
error; a key or a DER body that the curve library cannot read fails the check quietly; only then
is the checker asked. A failed check with a non-empty signature is an error under NULLFAIL.

Multisig matches signatures to keys in stack order, from the top down: each key is tried against
the next unmatched signature and never again, and the scan stops as soon as the keys left are
fewer than the signatures left.
-/

set_option autoImplicit false

namespace BitcoinScript

namespace Machine

/-- Checks a signature with its hash-type byte against a key and a script code. -/
def verifySignature (m : Machine) (fullSig key scriptCode : Bytes) : Except ScriptError Bool :=
  match fullSig.getLast? with
  | none => .ok false
  | some hashType => do
    match Signature.checkEncoding fullSig m.flags with
    | .error e => throw (.checkSig e)
    | .ok () => pure ()
    match Signature.checkPubKey key m.flags with
    | .error e => throw (.checkSig e)
    | .ok () => pure ()
    match Secp256k1.PublicKey.parse? key with
    | none => return false
    | some pk =>
      let body := fullSig.dropLast
      let parsed :=
        if m.flags.requiresStrictDer then Secp256k1.Signature.parseDer? body
        else Secp256k1.Signature.parseDerLax? body
      match parsed with
      | none => return false
      | some sig => m.checker.checkSig sig pk scriptCode hashType.toNat m.flags

/-- Writes a script code back as bytes. -/
def scriptCodeBytes (s : Script) : Except ScriptError Bytes :=
  match Script.unparse? s with
  | .ok b => .ok b
  | .error e => .error (.invalidPushLength e.name e.len)

end Machine

namespace Exec

/-- Pops a key and a signature and checks them; a legacy signature is removed from the script
code it commits to. -/
def checkSig : Exec Bool := do
  let key ← onData Stack.pop
  let sig ← onData Stack.pop
  let m ← get
  let code := if Signature.usesForkId sig m.flags then m.subScript
    else m.subScript.legacySubscript [sig]
  let codeBytes ← lift (Machine.scriptCodeBytes code)
  let ok ← lift (m.verifySignature sig key codeBytes)
  if !ok && m.flags.nullFail && !sig.isEmpty then throw (.checkSig .nullFail)
  return ok

/-- Pops `count` items, top first. -/
def popItems : Nat → Exec (List Bytes)
  | 0 => pure []
  | c + 1 => do
    let x ← onData Stack.pop
    let xs ← popItems c
    return x :: xs

/-- A count within `0 ..= max`. -/
def countInRange? (n : Int) (max : Nat) : Option Nat :=
  match Number.toI64? n with
  | some k => if 0 ≤ k ∧ k ≤ max then some k.toNat else none
  | none => none

/-- The greedy scan: signatures and keys top first; each key is tried once, against the next
unmatched signature, until every signature is matched or too few keys are left. -/
def matchSignatures (m : Machine) (code : Bytes) :
    List Bytes → List Bytes → Except ScriptError Bool
  | [], _ => .ok true
  | _ :: _, [] => .ok false
  | sig :: sigs, key :: keys => do
    let ok ← m.verifySignature sig key code
    let sigsLeft := if ok then sigs else sig :: sigs
    if keys.length < sigsLeft.length then return false
    matchSignatures m code sigsLeft keys

/-- `OP_CHECKMULTISIG`: pops the key count, the keys, the signature count, the signatures and the
dummy, and matches signatures to keys. -/
def checkMultiSig : Exec Bool := do
  let keysCount ← onData Stack.popNum
  let m ← get
  let some nKeys := countInRange? keysCount m.limits.maxPubkeysPerMultisig
    | throw (.checkMultiSig (.invalidPubkeyCount ((Number.toI64? keysCount).getD 9223372036854775807)))
  let ops := m.numOps + nKeys
  set { m with numOps := ops }
  if ops > m.limits.maxOps then throw (.tooManyOperations m.limits.maxOps)
  let keys ← popItems nKeys
  let sigsCount ← onData Stack.popNum
  let some nSigs := countInRange? sigsCount nKeys
    | throw (.checkMultiSig (.invalidSignatureCount
        ((Number.toI64? sigsCount).getD 9223372036854775807) nKeys))
  let sigs ← popItems nSigs
  let dummy ← onData Stack.pop
  let m ← get
  if m.flags.nullDummy && !dummy.isEmpty then throw (.checkMultiSig (.nullDummy dummy.length))
  let legacy := sigs.filter fun s => !Signature.usesForkId s m.flags
  let codeBytes ← lift (Machine.scriptCodeBytes (m.subScript.legacySubscript legacy))
  let ok ← lift (matchSignatures m codeBytes sigs keys)
  if !ok && m.flags.nullFail && sigs.any (!·.isEmpty) then throw (.checkSig .nullFail)
  return ok

end Exec

end BitcoinScript
