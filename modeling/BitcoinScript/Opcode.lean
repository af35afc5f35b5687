import BitcoinScript.Bytes

/-!
The opcode table. Every byte is an opcode with a name, a way of carrying inline data and an
operation. Bytes `0x00` to `0x4e` push data; `0x4f` to `0x60` push small numbers (with
`OP_RESERVED` among them); the rest are operations, of which `0xba` and above are invalid (SPEC_FULL.md:56-64).
-/

set_option autoImplicit false

namespace BitcoinScript

/-- One byte of a script read as an instruction code. -/
structure Opcode where
  /-- The byte. -/
  value : UInt8
  deriving DecidableEq, Repr

/-- How an opcode's inline data is written after it. -/
inductive PushLength
  /-- No inline data. -/
  | none
  /-- Exactly this many bytes follow. -/
  | direct (n : Nat)
  /-- A little-endian length of this many bytes follows, then the data. -/
  | prefixed (width : Nat)
  deriving DecidableEq, Repr

/-- What executing an opcode does, by family. -/
inductive Operation
  /-- `OP_0` and the data pushes: push the inline data. -/
  | pushData
  /-- `OP_1NEGATE` and `OP_1` to `OP_16`: push a small number. -/
  | pushSmall (n : Int)
  /-- `OP_RESERVED`, `OP_VER`, `OP_RESERVED1`, `OP_RESERVED2`. -/
  | reserved
  /-- `OP_VERIF`, `OP_VERNOTIF`: reserved, and illegal before genesis even when skipped. -/
  | reservedBranch
  /-- `0xba` and above. -/
  | invalid
  /-- `OP_2MUL`, `OP_2DIV`. -/
  | disabled
  /-- `OP_NOP` and the upgradable `OP_NOP1`, `OP_NOP4` to `OP_NOP10`. -/
  | nop
  | ifBranch (negate : Bool)
  | elseBranch
  | endBranch
  | verify
  | returnEarly
  | toAltStack
  | fromAltStack
  | drop (n : Nat)
  | dup (n : Nat)
  | «over» (n : Nat)
  | rot (n : Nat)
  | swap (n : Nat)
  | ifDup
  | depth
  | nip
  | pick
  | roll
  | tuck
  | cat
  | split
  | num2bin
  | bin2num
  | size
  | invert
  | bitAnd
  | bitOr
  | bitXor
  | equal
  | equalVerify
  | add1
  | sub1
  | negate
  | abs
  | not
  | nonZero
  | add
  | sub
  | mul
  | div
  | mod
  | shiftLeft
  | shiftRight
  | boolAnd
  | boolOr
  | numEqual
  | numEqualVerify
  | numNotEqual
  | lessThan
  | greaterThan
  | lessOrEqual
  | greaterOrEqual
  | min
  | max
  | within
  | ripemd160
  | sha1
  | sha256
  | hash160
  | hash256
  | codeSeparator
  | checkSig (verify : Bool)
  | checkMultiSig (verify : Bool)
  | checkLockTime
  | checkSequence
  deriving DecidableEq, Repr

namespace Opcode

/-- Names of the opcodes `0x61` (`OP_NOP`) to `0xb9` (`OP_NOP10`), in order. -/
def operationNames : List String :=
  ["OP_NOP", "OP_VER", "OP_IF", "OP_NOTIF", "OP_VERIF", "OP_VERNOTIF", "OP_ELSE", "OP_ENDIF",
   "OP_VERIFY", "OP_RETURN", "OP_TOALTSTACK", "OP_FROMALTSTACK", "OP_2DROP", "OP_2DUP",
   "OP_3DUP", "OP_2OVER", "OP_2ROT", "OP_2SWAP", "OP_IFDUP", "OP_DEPTH", "OP_DROP", "OP_DUP",
   "OP_NIP", "OP_OVER", "OP_PICK", "OP_ROLL", "OP_ROT", "OP_SWAP", "OP_TUCK", "OP_CAT",
   "OP_SPLIT", "OP_NUM2BIN", "OP_BIN2NUM", "OP_SIZE", "OP_INVERT", "OP_AND", "OP_OR", "OP_XOR",
   "OP_EQUAL", "OP_EQUALVERIFY", "OP_RESERVED1", "OP_RESERVED2", "OP_1ADD", "OP_1SUB",
   "OP_2MUL", "OP_2DIV", "OP_NEGATE", "OP_ABS", "OP_NOT", "OP_0NOTEQUAL", "OP_ADD", "OP_SUB",
   "OP_MUL", "OP_DIV", "OP_MOD", "OP_LSHIFT", "OP_RSHIFT", "OP_BOOLAND", "OP_BOOLOR",
   "OP_NUMEQUAL", "OP_NUMEQUALVERIFY", "OP_NUMNOTEQUAL", "OP_LESSTHAN", "OP_GREATERTHAN",
   "OP_LESSTHANOREQUAL", "OP_GREATERTHANOREQUAL", "OP_MIN", "OP_MAX", "OP_WITHIN",
   "OP_RIPEMD160", "OP_SHA1", "OP_SHA256", "OP_HASH160", "OP_HASH256", "OP_CODESEPARATOR",
   "OP_CHECKSIG", "OP_CHECKSIGVERIFY", "OP_CHECKMULTISIG", "OP_CHECKMULTISIGVERIFY", "OP_NOP1",
   "OP_CHECKLOCKTIMEVERIFY", "OP_CHECKSEQUENCEVERIFY", "OP_NOP4", "OP_NOP5", "OP_NOP6",
   "OP_NOP7", "OP_NOP8", "OP_NOP9", "OP_NOP10"]

/-- The name of an opcode. -/
def name (op : Opcode) : String :=
  let v := op.value.toNat
  if v = 0 then "OP_0"
  else if v ≤ 75 then "OP_DATA_" ++ toString v
  else if v = 0x4c then "OP_PUSHDATA1"
  else if v = 0x4d then "OP_PUSHDATA2"
  else if v = 0x4e then "OP_PUSHDATA4"
  else if v = 0x4f then "OP_1NEGATE"
  else if v = 0x50 then "OP_RESERVED"
  else if v ≤ 0x60 then "OP_" ++ toString (v - 0x50)
  else if v ≤ 0xb9 then operationNames.getD (v - 0x61) ""
  else if v ≤ 0xf9 then "OP_UNKNOWN" ++ toString v
  else if v = 0xfa then "OP_SMALLINTEGER"
  else if v = 0xfb then "OP_PUBKEYS"
  else if v = 0xfc then "OP_UNKNOWN252"
  else if v = 0xfd then "OP_PUBKEYHASH"
  else if v = 0xfe then "OP_PUBKEY"
  else "OP_INVALIDOPCODE"

/-- How the opcode's inline data is written. -/
def pushLength (op : Opcode) : PushLength :=
  let v := op.value.toNat
  if v = 0 then .none
  else if v ≤ 75 then .direct v
  else if v = 0x4c then .prefixed 1
  else if v = 0x4d then .prefixed 2
  else if v = 0x4e then .prefixed 4
  else .none

/-- `OP_2MUL` and `OP_2DIV` fail whenever they are passed before genesis. -/
def isDisabled (op : Opcode) : Bool := op.value = 0x8d || op.value = 0x8e

/-- `OP_VERIF` and `OP_VERNOTIF` fail before genesis even on a skipped branch. -/
def isAlwaysIllegal (op : Opcode) : Bool := op.value = 0x65 || op.value = 0x66

/-- The opcodes from `OP_IF` to `OP_ENDIF` keep the conditional bookkeeping on skipped branches. -/
def isConditional (op : Opcode) : Bool := 0x63 ≤ op.value && op.value ≤ 0x68

/-- Pushes are the opcodes up to `OP_16`; `OP_RESERVED` counts as one. -/
def isPush (op : Opcode) : Bool := op.value ≤ 0x60

/-- The opcodes above `OP_16` count towards the operation limit. -/
def countsAsOperation (op : Opcode) : Bool := op.value > 0x60

/-- Whether the opcode carries inline data (`OP_0` to `OP_PUSHDATA4`). -/
def isDataPush (op : Opcode) : Bool := op.value ≤ 0x4e

/-- The number pushed by `OP_1NEGATE` and `OP_1` to `OP_16`. -/
def smallInt? (op : Opcode) : Option Int :=
  let v := op.value.toNat
  if v = 0x4f then some (-1)
  else if 0x51 ≤ v ∧ v ≤ 0x60 then some ((v : Int) - 0x50)
  else none

/-- The operations of the opcodes `0x61` to `0xb9`, in order. -/
def operationTable : List Operation :=
  [.nop, .reserved, .ifBranch false, .ifBranch true, .reservedBranch, .reservedBranch,
   .elseBranch, .endBranch, .verify, .returnEarly, .toAltStack, .fromAltStack, .drop 2, .dup 2,
   .dup 3, .«over» 2, .rot 2, .swap 2, .ifDup, .depth, .drop 1, .dup 1, .nip, .«over» 1, .pick,
   .roll, .rot 1, .swap 1, .tuck, .cat, .split, .num2bin, .bin2num, .size, .invert, .bitAnd,
   .bitOr, .bitXor, .equal, .equalVerify, .reserved, .reserved, .add1, .sub1, .disabled,
   .disabled, .negate, .abs, .not, .nonZero, .add, .sub, .mul, .div, .mod, .shiftLeft,
   .shiftRight, .boolAnd, .boolOr, .numEqual, .numEqualVerify, .numNotEqual, .lessThan,
   .greaterThan, .lessOrEqual, .greaterOrEqual, .min, .max, .within, .ripemd160, .sha1, .sha256,
   .hash160, .hash256, .codeSeparator, .checkSig false, .checkSig true, .checkMultiSig false,
   .checkMultiSig true, .nop, .checkLockTime, .checkSequence, .nop, .nop, .nop, .nop, .nop, .nop,
   .nop]

/-- What executing the opcode does. -/
def operation (op : Opcode) : Operation :=
  let v := op.value.toNat
  if v ≤ 0x4e then .pushData
  else if v = 0x50 then .reserved
  else if v ≤ 0x60 then .pushSmall (if v = 0x4f then -1 else (v : Int) - 0x50)
  else if v ≤ 0xb9 then operationTable.getD (v - 0x61) .invalid
  else .invalid

/-- The upgradable no-ops `OP_NOP1` to `OP_NOP10`, which the discouragement flag refuses. -/
def isUpgradableNop (op : Opcode) : Bool := 0xb0 ≤ op.value && op.value ≤ 0xb9

/-- `OP_0`. -/
def zero : Opcode := ⟨0x00⟩
/-- `OP_PUSHDATA1`. -/
def pushData1 : Opcode := ⟨0x4c⟩
/-- `OP_PUSHDATA2`. -/
def pushData2 : Opcode := ⟨0x4d⟩
/-- `OP_PUSHDATA4`. -/
def pushData4 : Opcode := ⟨0x4e⟩
/-- `OP_1NEGATE`. -/
def oneNegate : Opcode := ⟨0x4f⟩
/-- `OP_1`. -/
def one : Opcode := ⟨0x51⟩
/-- `OP_IF`. -/
def ifCode : Opcode := ⟨0x63⟩
/-- `OP_NOTIF`. -/
def notIfCode : Opcode := ⟨0x64⟩
/-- `OP_ENDIF`. -/
def endIfCode : Opcode := ⟨0x68⟩
/-- `OP_RETURN`. -/
def returnCode : Opcode := ⟨0x6a⟩
/-- `OP_CODESEPARATOR`. -/
def codeSeparatorCode : Opcode := ⟨0xab⟩

end Opcode

end BitcoinScript
