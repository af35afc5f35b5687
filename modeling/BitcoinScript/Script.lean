import BitcoinScript.Opcode

/-!
Scripts as instruction lists. An instruction is an opcode with its inline data. Reading a script
takes the data pushes `0x00` to `0x4e` with their data and every other byte as a bare opcode; a
push whose data runs past the end makes the script unreadable. An `OP_RETURN` outside every
`OP_IF`/`OP_NOTIF` block ends the script and keeps all the bytes after it as its data, readable
or not. Writing an instruction back puts the opcode, its length prefix and the data, and refuses
data that the opcode's length class cannot carry (SPEC_FULL.md:53-54).
-/

set_option autoImplicit false

namespace BitcoinScript

/-- An opcode with its inline data. -/
structure Instruction where
  opcode : Opcode
  data : Bytes := []
  deriving DecidableEq, Repr

/-- A parsed script: its instructions in order. -/
abbrev Script := List Instruction

namespace Instruction

/-- The instruction for a byte and its data. -/
def ofByte (value : UInt8) (data : Bytes := []) : Instruction := ⟨⟨value⟩, data⟩

/-- The opcode's byte. -/
def value (i : Instruction) : UInt8 := i.opcode.value

/-- The opcode's name. -/
def name (i : Instruction) : String := i.opcode.name

/-- Debug text: the name, then `0x` and the data in hexadecimal when there is data. -/
def debugText (i : Instruction) : String :=
  if i.data.isEmpty then i.name else i.name ++ " 0x" ++ Bytes.toHex i.data

/-- Script text: `0` for `OP_0`, the data alone for a push, else the name and any data. -/
def text (i : Instruction) : String :=
  if i.value = 0 then "0"
  else if i.value ≤ 0x4e then Bytes.toHex i.data
  else if i.data.isEmpty then i.name
  else i.name ++ " " ++ Bytes.toHex i.data

/-- A push is minimal when no shorter push places the same element: `OP_0` for the empty
string, `OP_1` to `OP_16` and `OP_1NEGATE` for one-byte numbers, a direct push up to 75 bytes,
then the narrowest prefix. -/
def isMinimalPush (i : Instruction) : Bool :=
  let v := i.value.toNat
  match i.data with
  | [] => v = 0
  | [b] =>
    if 1 ≤ b.toNat ∧ b.toNat ≤ 16 then v = 0x50 + b.toNat
    else if b = 0x81 then v = 0x4f
    else v = 1
  | data =>
    let len := data.length
    if len ≤ 75 then v = len
    else if len ≤ 0xff then v = 0x4c
    else if len ≤ 0xffff then v = 0x4d
    else true

/-- A push as a standard writer emits it: a data push of a string that is not a small number,
with a length prefix only when the data needs one that wide. -/
def isCanonicalPush (i : Instruction) : Bool :=
  let v := i.value.toNat
  let len := i.data.length
  let smallByte : Bool := match i.data with
    | [b] => b.toNat ≤ 16
    | _ => false
  if v > 0x60 then false
  else if 0 < v ∧ v < 0x4c ∧ smallByte then false
  else if v = 0x4c then len ≥ 0x4c
  else if v = 0x4d then len > 0xff
  else if v = 0x4e then len > 0xffff
  else true

/-- Whether the data fits the opcode's length class; a terminating `OP_RETURN` may carry any. -/
def fitsLength (i : Instruction) : Bool :=
  match i.opcode.pushLength with
  | .none => i.data.isEmpty || i.value = 0x6a
  | .direct n => i.data.length = n
  | .prefixed width => i.data.length < Nat.pow 256 width

/-- The bytes of an instruction: opcode, length prefix, data. Assumes `fitsLength`. -/
def encode (i : Instruction) : Bytes :=
  match i.opcode.pushLength with
  | .prefixed width => i.value :: Bytes.ofNatLE width i.data.length ++ i.data
  | _ => i.value :: i.data

end Instruction

/-- Why a list of instructions cannot be written as bytes. -/
structure LengthMismatch where
  /-- The opcode's name. -/
  name : String
  /-- The length of the data it carries. -/
  len : Nat
  deriving DecidableEq, Repr

namespace Script

/-- The data and the rest of the script after a push of the given opcode byte, when the script
holds the whole push. -/
def takePush (value : UInt8) (rest : Bytes) : Option (Bytes × { r : Bytes // r.length ≤ rest.length }) :=
  let width :=
    if value = 0x4c then 1 else if value = 0x4d then 2 else if value = 0x4e then 4 else 0
  if width = 0 then
    let n := value.toNat
    if n ≤ rest.length then some (rest.take n, ⟨rest.drop n, by simp⟩) else none
  else if width ≤ rest.length then
    let n := Bytes.leValue (rest.take width)
    let body := rest.drop width
    if n ≤ body.length then some (body.take n, ⟨body.drop n, by simp [body]⟩) else none
  else none

/-- Reads instructions at conditional depth `depth` (counting `OP_IF`/`OP_NOTIF` up and
`OP_ENDIF` down, never below zero). -/
def parseAt (depth : Nat) (bytes : Bytes) : Option Script :=
  match bytes with
  | [] => some []
  | b :: rest =>
    if b ≤ 0x4e then
      match takePush b rest with
      | none => none
      | some (data, ⟨rest', _⟩) => (parseAt depth rest').map (Instruction.ofByte b data :: ·)
    else if b = 0x6a ∧ depth = 0 then some [Instruction.ofByte b rest]
    else
      let depth' := if b = 0x63 ∨ b = 0x64 then depth + 1 else if b = 0x68 then depth - 1 else depth
      (parseAt depth' rest).map (Instruction.ofByte b :: ·)
termination_by bytes.length

/-- Reads a script; `none` when a push runs past the end. -/
def parse? (bytes : Bytes) : Option Script := parseAt 0 bytes

/-- Writes the instructions back as bytes, refusing the first whose data does not fit. -/
def unparse? : Script → Except LengthMismatch Bytes
  | [] => .ok []
  | i :: rest =>
    if i.fitsLength then (unparse? rest).map (i.encode ++ ·)
    else .error ⟨i.name, i.data.length⟩

/-- The script text: instruction texts joined by one space. -/
def disassemble (s : Script) : String :=
  " ".intercalate (s.map Instruction.text)

/-- Whether every instruction is a push (`OP_RESERVED` included). -/
def isPushOnly (s : Script) : Bool :=
  s.all (·.opcode.isPush)

/-- The script without any instruction of the given opcode. -/
def removeOpcode (s : Script) (value : UInt8) : Script :=
  s.filter (·.value ≠ value)

/-- The script without the canonical pushes of exactly `data`; an empty `data` removes nothing. -/
def removeData (s : Script) (data : Bytes) : Script :=
  if data.isEmpty then s else s.filter fun i => !(i.isCanonicalPush && i.data == data)

/-- The script code a legacy signature commits to: no `OP_CODESEPARATOR`, and none of the
given signatures pushed. -/
def legacySubscript (s : Script) (signatures : List Bytes) : Script :=
  signatures.foldl removeData (s.removeOpcode 0xab)

/-- A locking script of the pay-to-script-hash form `OP_HASH160 <20 bytes> OP_EQUAL`. -/
def isPayToScriptHash (bytes : Bytes) : Bool :=
  bytes.length = 23 && bytes[0]? = some 0xa9 && bytes[1]? = some 0x14 && bytes[22]? = some 0x87

end Script

end BitcoinScript
