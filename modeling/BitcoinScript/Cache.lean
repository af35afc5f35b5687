import BitcoinScript.Checker

/-!
Caches shared by the checks of many inputs. The digest-component cache maps a transaction id to
the BIP143 components of that transaction. The signature cache remembers, under a SHA-256 key of
digest, compact signature and compressed key, the signatures that verified; it holds at most its
capacity (nothing when that is zero), and a new key in a full cache evicts the oldest one
(SPEC_FULL.md:73-74).
-/

set_option autoImplicit false

namespace BitcoinScript

/-- BIP143 components by transaction id. -/
structure SigHashCache where
  entries : List (Bytes × SigHashParts) := []

namespace SigHashCache

/-- The components cached for a transaction id. -/
def get? (c : SigHashCache) (txid : Bytes) : Option SigHashParts :=
  (c.entries.find? (·.1 == txid)).map (·.2)

/-- Whether a transaction id has components. -/
def contains (c : SigHashCache) (txid : Bytes) : Bool := (c.get? txid).isSome

/-- The components of a transaction, computed and stored unless already present. -/
def add (c : SigHashCache) (t : Tx) : SigHashCache × SigHashParts :=
  let id := t.txid
  match c.get? id with
  | some parts => (c, parts)
  | none =>
    let parts := SigHashParts.ofTx t
    (⟨c.entries ++ [(id, parts)]⟩, parts)

/-- Forgets a transaction id. -/
def purge (c : SigHashCache) (txid : Bytes) : SigHashCache :=
  ⟨c.entries.filter (·.1 != txid)⟩

/-- The number of transactions cached. -/
def size (c : SigHashCache) : Nat := c.entries.length

end SigHashCache

/-- One hold of the component cache's lock. A lookup reads an id: `get`, `contains`, and the first
look of an add. An insert is the second hold of an add whose look found nothing: it stores the
components computed in between, unless another caller stored some first. A purge forgets an id. -/
inductive SigHashCacheAccess
  | lookup (txid : Bytes)
  | insert (t : Tx)
  | purge (txid : Bytes)

namespace SigHashCache

/-- The components stored for an id; when there are none, the given ones, which are then stored. -/
def insertOrGet (c : SigHashCache) (txid : Bytes) (parts : SigHashParts) :
    SigHashCache × SigHashParts :=
  match c.get? txid with
  | some stored => (c, stored)
  | none => (⟨c.entries ++ [(txid, parts)]⟩, parts)

/-- Runs one hold of the lock: the cache after it, and the components it reads. -/
def access (c : SigHashCache) : SigHashCacheAccess → SigHashCache × Option SigHashParts
  | .lookup txid => (c, c.get? txid)
  | .insert t =>
    let r := c.insertOrGet t.txid (SigHashParts.ofTx t)
    (r.1, some r.2)
  | .purge txid => (c.purge txid, none)

/-- An add as its two holds of the lock: the look finds the cache as `c`; when it finds nothing,
the components are computed outside the lock and inserted into the cache as the second hold finds
it, `c'`, after the holds of other callers. The cache after the add, and its answer. -/
def addAcross (c c' : SigHashCache) (t : Tx) : SigHashCache × SigHashParts :=
  match c.get? t.txid with
  | some parts => (c, parts)
  | none => c'.insertOrGet t.txid (SigHashParts.ofTx t)

end SigHashCache

/-- Keys of signatures known to verify, oldest first, at most `capacity` of them. -/
structure SigCache where
  capacity : Nat
  entries : List Bytes := []

namespace SigCache

/-- The key of a verified signature. -/
def key (digest : Bytes) (sig : Secp256k1.Signature) (pk : Secp256k1.PublicKey) : Bytes :=
  Sha256.hash (digest ++ sig.compact ++ pk.compressed)

/-- Whether the signature of this digest by this key verified before. -/
def contains (c : SigCache) (digest : Bytes) (sig : Secp256k1.Signature)
    (pk : Secp256k1.PublicKey) : Bool :=
  c.entries.contains (key digest sig pk)

/-- Records a verified signature; a full cache first evicts its oldest entry. -/
def add (c : SigCache) (digest : Bytes) (sig : Secp256k1.Signature)
    (pk : Secp256k1.PublicKey) : SigCache :=
  if c.capacity = 0 then c
  else
    let k := key digest sig pk
    if c.entries.contains k then c
    else
      let kept := if c.entries.length ≥ c.capacity then c.entries.drop 1 else c.entries
      { c with entries := kept ++ [k] }

/-- The number of signatures cached. -/
def size (c : SigCache) : Nat := c.entries.length

end SigCache

/-- The caches a group of checkers shares. -/
structure SharedCaches where
  sigHashes : SigHashCache := {}
  sigs : SigCache

namespace Spend

/-- The digest a checker of the spend signs when it holds the transaction-wide components `parts`.
A checker fetches them once, on its first fork-id signature, from the shared component cache or
by computing them, and keeps them; a legacy digest does not read them. -/
def digestWith (c : Spend) (parts : SigHashParts) (scriptCode : Bytes) (hashType : Nat)
    (flags : Flags) : Except ScriptError Bytes :=
  signatureHash c.tx c.index scriptCode c.amount hashType flags
    (if Sighash.usesForkIdDigest hashType flags then some parts else none)

/-- Checks a signature as the spend's checker does, reading and filling shared caches: the
BIP143 components come from the component cache, a signature already cached is accepted without
curve arithmetic, and one that verifies is cached. -/
def checkSigCached (c : Spend) (caches : SharedCaches) (sig : Secp256k1.Signature)
    (key : Secp256k1.PublicKey) (scriptCode : Bytes) (hashType : Nat) (flags : Flags) :
    SharedCaches × Except ScriptError Bool :=
  let (sigHashes, parts) :=
    if Sighash.usesForkIdDigest hashType flags then
      let (cache, parts) := caches.sigHashes.add c.tx
      (cache, some parts)
    else (caches.sigHashes, none)
  let caches := { caches with sigHashes }
  match signatureHash c.tx c.index scriptCode c.amount hashType flags parts with
  | .error e => (caches, .error e)
  | .ok digest =>
    let sig := sig.normalizeS
    if caches.sigs.contains digest sig key then (caches, .ok true)
    else
      let valid := Secp256k1.verify sig key digest
      let caches := if valid then { caches with sigs := caches.sigs.add digest sig key } else caches
      (caches, .ok valid)

end Spend

/-- A command on a digest-component cache. -/
inductive SigHashCacheCommand
  | add (t : Tx)
  | get (t : Tx)
  | contains (t : Tx)
  | purge (t : Tx)
  | size
  | isEmpty

/-- What a digest-component cache command answers. -/
inductive SigHashCacheAnswer
  | parts (p : Option SigHashParts)
  | truth (b : Bool)
  | nothing
  | count (n : Nat)

namespace SigHashCache

/-- Applies one command; transactions are named by their id. -/
def perform (c : SigHashCache) : SigHashCacheCommand → SigHashCache × SigHashCacheAnswer
  | .add t => let (c, p) := c.add t; (c, .parts (some p))
  | .get t => (c, .parts (c.get? t.txid))
  | .contains t => (c, .truth (c.contains t.txid))
  | .purge t => (c.purge t.txid, .nothing)
  | .size => (c, .count c.size)
  | .isEmpty => (c, .truth (c.size == 0))

/-- Applies commands in order. -/
def performAll (c : SigHashCache) : List SigHashCacheCommand → List SigHashCacheAnswer
  | [] => []
  | cmd :: cmds => let (c, a) := c.perform cmd; a :: performAll c cmds

end SigHashCache

/-- A command on a signature cache. -/
inductive SigCacheCommand
  | add (digest : Bytes) (sig : Secp256k1.Signature) (key : Secp256k1.PublicKey)
  | contains (digest : Bytes) (sig : Secp256k1.Signature) (key : Secp256k1.PublicKey)
  | size
  | isEmpty

/-- What a signature cache command answers. -/
inductive SigCacheAnswer
  | nothing
  | truth (b : Bool)
  | count (n : Nat)

namespace SigCache

/-- Applies one command. -/
def perform (c : SigCache) : SigCacheCommand → SigCache × SigCacheAnswer
  | .add d s k => (c.add d s k, .nothing)
  | .contains d s k => (c, .truth (c.contains d s k))
  | .size => (c, .count c.size)
  | .isEmpty => (c, .truth (c.size == 0))

/-- Applies commands in order. -/
def performAll (c : SigCache) : List SigCacheCommand → List SigCacheAnswer
  | [] => []
  | cmd :: cmds => let (c, a) := c.perform cmd; a :: performAll c cmds

end SigCache

namespace Spend

/-- Two checkers of the same spend sharing fresh caches of the given capacity each check one
signature once: the two answers, and the sizes of the signature and component caches after. -/
def checkTwiceShared (c : Spend) (capacity : Nat) (sig : Secp256k1.Signature)
    (key : Secp256k1.PublicKey) (scriptCode : Bytes) (hashType : Nat) (flags : Flags) :
    Except ScriptError (Bool × Bool × Nat × Nat) := do
  let caches : SharedCaches := { sigs := { capacity } }
  let (caches, first) := c.checkSigCached caches sig key scriptCode hashType flags
  let first ← first
  let (caches, second) := c.checkSigCached caches sig key scriptCode hashType flags
  let second ← second
  return (first, second, caches.sigs.size, caches.sigHashes.size)

end Spend

/-- The merkle root reached from a leaf by hashing the running value with each branch in turn. -/
def merkleRoot (leaf : Bytes) (branches : List Bytes) : Bytes :=
  branches.foldl (fun acc b => sha256d (acc ++ b)) leaf

end BitcoinScript
