/-!
Verification flags and execution limits. Each flag turns on one rule on top of consensus; the
genesis flag chooses between two sets of limits.
-/

set_option autoImplicit false

namespace BitcoinScript

/-- A set of verification flags, as bits. Bits without a name are kept and mean nothing. -/
structure Flags where
  bits : Nat
  deriving DecidableEq, Repr

namespace Flags

/-- The flags with their names and bits, `NONE` and `STANDARD` included. -/
def named : List (String × Nat) :=
  [("NONE", 0), ("P2SH", 1), ("STRICTENC", 2), ("DERSIG", 4), ("LOW_S", 8), ("NULLDUMMY", 16),
   ("SIGPUSHONLY", 32), ("MINIMALDATA", 64), ("DISCOURAGE_UPGRADABLE_NOPS", 128),
   ("CLEANSTACK", 256), ("CHECKLOCKTIMEVERIFY", 512), ("CHECKSEQUENCEVERIFY", 1024),
   ("MINIMALIF", 2048), ("NULLFAIL", 4096), ("SIGHASH_FORKID", 8192), ("BIP143_SIGHASH", 16384),
   ("UTXO_AFTER_GENESIS", 32768), ("STANDARD", 16351)]

/-- The bits of a flag name; names are matched exactly. -/
def bitsOfName? (name : String) : Option Nat :=
  (named.find? (·.1 == name)).map (·.2)

/-- The empty set. -/
def none : Flags := ⟨0⟩

/-- Adds the bits of another set. -/
def union (f g : Flags) : Flags := ⟨f.bits ||| g.bits⟩

/-- Whether every bit of `mask` is set. -/
def has (f : Flags) (mask : Nat) : Bool := f.bits &&& mask == mask

def p2sh (f : Flags) : Bool := f.has 1
def strictEnc (f : Flags) : Bool := f.has 2
def derSig (f : Flags) : Bool := f.has 4
def lowS (f : Flags) : Bool := f.has 8
def nullDummy (f : Flags) : Bool := f.has 16
def sigPushOnly (f : Flags) : Bool := f.has 32
def minimalData (f : Flags) : Bool := f.has 64
def discourageUpgradableNops (f : Flags) : Bool := f.has 128
def cleanStack (f : Flags) : Bool := f.has 256
def checkLockTime (f : Flags) : Bool := f.has 512
def checkSequence (f : Flags) : Bool := f.has 1024
def minimalIf (f : Flags) : Bool := f.has 2048
def nullFail (f : Flags) : Bool := f.has 4096
def forkId (f : Flags) : Bool := f.has 8192
def bip143 (f : Flags) : Bool := f.has 16384
def afterGenesis (f : Flags) : Bool := f.has 32768

/-- Signatures are held to strict DER when any of DERSIG, LOW_S or STRICTENC is set. -/
def requiresStrictDer (f : Flags) : Bool := f.bits &&& (4 ||| 8 ||| 2) != 0

/-- The flags in force during execution: SIGHASH_FORKID brings STRICTENC with it. -/
def effective (f : Flags) : Flags :=
  if f.forkId then f.union ⟨2⟩ else f

end Flags

/-- The limits of one execution. -/
structure Limits where
  maxOps : Nat
  maxStackSize : Nat
  maxScriptSize : Nat
  maxElementSize : Nat
  maxNumLen : Nat
  maxPubkeysPerMultisig : Nat
  deriving DecidableEq, Repr

namespace Limits

/-- Limits for outputs created before genesis. -/
def beforeGenesis : Limits :=
  { maxOps := 500, maxStackSize := 1000, maxScriptSize := 10000, maxElementSize := 520,
    maxNumLen := 4, maxPubkeysPerMultisig := 20 }

/-- Limits for outputs created after genesis: the signed 32-bit maximum, and numbers of up to
750000 bytes. -/
def afterGenesis : Limits :=
  { maxOps := 2147483647, maxStackSize := 2147483647, maxScriptSize := 2147483647,
    maxElementSize := 2147483647, maxNumLen := 750000, maxPubkeysPerMultisig := 2147483647 }

/-- The limits chosen by the genesis rule. -/
def ofGenesis (after : Bool) : Limits :=
  if after then afterGenesis else beforeGenesis

/-- The limits selected by a flag set. -/
def ofFlags (f : Flags) : Limits := ofGenesis f.afterGenesis

end Limits

end BitcoinScript
