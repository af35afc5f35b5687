import BitcoinScript.Hash.Sha256

/-!
Transactions in their consensus serialization. Integers are little-endian; counts and lengths
are variable-length integers that must use their shortest form. A transaction whose input count
reads as zero is in the extended form: a flag byte `01`, the inputs, the outputs, one witness per
input, then the lock time; a transaction with inputs none of which has a witness is refused in
that form. Reading must consume every byte. The legacy serialization, which never writes
witnesses, gives the transaction id and the legacy digest.
-/

set_option autoImplicit false

namespace BitcoinScript

/-- The output a transaction input spends. -/
structure OutPoint where
  /-- The spent transaction's id, in internal byte order. -/
  txid : Bytes
  vout : Nat
  deriving DecidableEq, Repr

/-- A transaction input. -/
structure TxIn where
  prevout : OutPoint
  scriptSig : Bytes
  sequence : Nat
  witness : List Bytes := []
  deriving DecidableEq, Repr

/-- A transaction output. -/
structure TxOut where
  /-- The amount in satoshis, as an unsigned 64-bit value. -/
  value : Nat
  scriptPubKey : Bytes
  deriving DecidableEq, Repr

/-- A transaction. -/
structure Tx where
  /-- The version as an unsigned 32-bit value; it is signed when compared. -/
  version : Nat
  inputs : List TxIn
  outputs : List TxOut
  lockTime : Nat
  deriving DecidableEq, Repr

namespace Encode

/-- The shortest variable-length form of a count. -/
def varInt (n : Nat) : Bytes :=
  if n < 0xfd then [n.toUInt8]
  else if n ≤ 0xffff then 0xfd :: Bytes.ofNatLE 2 n
  else if n ≤ 0xffffffff then 0xfe :: Bytes.ofNatLE 4 n
  else 0xff :: Bytes.ofNatLE 8 n

/-- A byte string with its length in front. -/
def varBytes (b : Bytes) : Bytes := varInt b.length ++ b

/-- An outpoint: the id, then the output index in four bytes. -/
def outPoint (o : OutPoint) : Bytes := o.txid ++ Bytes.ofNatLE 4 o.vout

/-- An input without its witness. -/
def txIn (i : TxIn) : Bytes :=
  outPoint i.prevout ++ varBytes i.scriptSig ++ Bytes.ofNatLE 4 i.sequence

/-- An output: the amount in eight bytes, then the script. -/
def txOut (o : TxOut) : Bytes := Bytes.ofNatLE 8 o.value ++ varBytes o.scriptPubKey

/-- The legacy serialization: version, inputs, outputs, lock time, no witnesses. -/
def tx (t : Tx) : Bytes :=
  Bytes.ofNatLE 4 t.version ++ varInt t.inputs.length ++ t.inputs.flatMap txIn ++
    varInt t.outputs.length ++ t.outputs.flatMap txOut ++ Bytes.ofNatLE 4 t.lockTime

end Encode

/-- Reading bytes from the front of a buffer; `none` when the buffer runs out. -/
abbrev Reader := StateT Bytes Option

namespace Reader

/-- Takes `n` bytes. -/
def take (n : Nat) : Reader Bytes := fun buf =>
  if n ≤ buf.length then some (buf.take n, buf.drop n) else none

/-- A little-endian unsigned integer of `n` bytes. -/
def uint (n : Nat) : Reader Nat := do
  return Bytes.leValue (← take n)

/-- A variable-length integer in its shortest form. -/
def varInt : Reader Nat := do
  let first ← uint 1
  if first < 0xfd then return first
  else if first = 0xfd then
    let v ← uint 2
    if v < 0xfd then failure else return v
  else if first = 0xfe then
    let v ← uint 4
    if v < 0x10000 then failure else return v
  else
    let v ← uint 8
    if v < 0x100000000 then failure else return v

/-- A byte string with its length in front. -/
def varBytes : Reader Bytes := do
  take (← varInt)

/-- `count` items read one after another. -/
def many {α : Type} (item : Reader α) : Nat → Reader (List α)
  | 0 => pure []
  | c + 1 => do
    let x ← item
    let xs ← many item c
    return x :: xs

/-- A list with its count in front. -/
def list {α : Type} (item : Reader α) : Reader (List α) := do
  many item (← varInt)

/-- An input without its witness. -/
def txIn : Reader TxIn := do
  let txid ← take 32
  let vout ← uint 4
  let scriptSig ← varBytes
  let sequence ← uint 4
  return { prevout := ⟨txid, vout⟩, scriptSig, sequence }

/-- An output. -/
def txOut : Reader TxOut := do
  let value ← uint 8
  let scriptPubKey ← varBytes
  return { value, scriptPubKey }

/-- A transaction, legacy or extended. -/
def tx : Reader Tx := do
  let version ← uint 4
  let inputs ← list txIn
  if inputs.isEmpty then
    let flag ← uint 1
    if flag ≠ 1 then failure
    let inputs ← list txIn
    let outputs ← list txOut
    let witnesses ← many (list varBytes) inputs.length
    if !inputs.isEmpty && witnesses.all List.isEmpty then failure
    let lockTime ← uint 4
    let inputs := (inputs.zip witnesses).map fun (i, w) => { i with witness := w }
    return { version, inputs, outputs, lockTime }
  else
    let outputs ← list txOut
    let lockTime ← uint 4
    return { version, inputs, outputs, lockTime }

end Reader

namespace Tx

/-- Reads a whole transaction; leftover bytes are refused. -/
def decode? (bytes : Bytes) : Option Tx :=
  match Reader.tx bytes with
  | some (t, []) => some t
  | _ => none

/-- The transaction id: the double SHA-256 of the legacy serialization, internal byte order. -/
def txid (t : Tx) : Bytes := sha256d (Encode.tx t)

/-- The version read as a signed 32-bit integer. -/
def signedVersion (t : Tx) : Int :=
  if t.version < Nat.pow 2 31 then t.version else (t.version : Int) - Int.pow 2 32

end Tx

end BitcoinScript
