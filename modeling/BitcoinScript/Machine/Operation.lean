import BitcoinScript.Machine.Signature
import BitcoinScript.Bytes.Shift
import BitcoinScript.Hash.Ripemd160
import BitcoinScript.Hash.Sha1

/-!
What each opcode does once the machine has decided to run it. Operands are popped top first, so
a binary operation pops its second operand before its first; a failure after some pops leaves
those pops done (SPEC_FULL.md:57-64).
-/

set_option autoImplicit false

namespace BitcoinScript

namespace Exec

/-- Pops a number with the stack's operand bound. -/
def popNum : Exec Int := onData Stack.popNum

/-- Pushes a number. -/
def pushNum (n : Int) : Exec Unit := onData (Stack.pushNum n)

/-- Pushes a truth value. -/
def pushBool (b : Bool) : Exec Unit := onData (Stack.pushBool b)

/-- Pops an item. -/
def pop : Exec Bytes := onData Stack.pop

/-- Pushes an item. -/
def push (x : Bytes) : Exec Unit := onData (Stack.push x)

/-- Pops the operand of `OP_IF`/`OP_NOTIF`; under MINIMALIF it must be empty or `01`. -/
def popCondition : Exec Bool := do
  let m ← get
  if !m.flags.minimalIf then onData Stack.popBool
  else
    match ← pop with
    | [] => pure false
    | [1] => pure true
    | _ => throw .minimalIf

/-- `OP_IF` (or `OP_NOTIF` with `negate`): opens a block whose branch runs when the operand,
negated or not, is true; a block opened inside a skipped branch is skipped as a whole, and one
that the post-genesis gate closes is inactive. -/
def openBranch (op : Instruction) (negate : Bool) : Exec Unit := do
  let m ← get
  let b ←
    if m.shouldExec op then
      if m.isBranchExecuting then
        let v ← popCondition
        pure (if v != negate then Branch.active else .inactive)
      else pure .skipped
    else pure .inactive
  modify fun m => { m with branches := b :: m.branches, elseSeen := false :: m.elseSeen }

/-- `OP_ELSE`: flips the innermost branch (a skipped block stays skipped); after genesis a block
takes one `OP_ELSE` only. -/
def flipBranch : Exec Unit := do
  let m ← get
  match m.branches, m.elseSeen with
  | b :: bs, seen :: ss =>
    if m.afterGenesis && seen then throw .unbalancedConditional
    let b' := match b with
      | .active => Branch.inactive
      | .inactive => .active
      | .skipped => .skipped
    set { m with branches := b' :: bs, elseSeen := true :: ss }
  | _, _ => throw .unbalancedConditional

/-- `OP_ENDIF`: closes the innermost block. -/
def closeBranch : Exec Unit := do
  let m ← get
  match m.branches with
  | _ :: bs => set { m with branches := bs, elseSeen := m.elseSeen.tail }
  | [] => throw .unbalancedConditional

/-- Whether a lock-time opcode is a no-op: when its flag is off, or after genesis; the
discouragement flag then refuses it. -/
def lockTimeIsNop (op : Instruction) (enabled : Bool) : Exec Bool := do
  let m ← get
  if enabled && !m.afterGenesis then return false
  if m.flags.discourageUpgradableNops then throw (.discourageUpgradableNops op.name)
  return true

/-- Pops a stack index for `OP_PICK`/`OP_ROLL`; one beyond 64 bits is out of range. -/
def popIndex : Exec Int := do
  let n ← popNum
  match Number.toI64? n with
  | some k => pure k
  | none => throw (.stack .invalidOperation)

/-- Pops two numbers and pushes `f a b`, where `b` was on top. -/
def binary (f : Int → Int → Except ScriptError Int) : Exec Unit := do
  let b ← popNum
  let a ← popNum
  pushNum (← lift (f a b))

/-- Pops two numbers and pushes whether `f a b` holds, where `b` was on top. -/
def compare (f : Int → Int → Bool) : Exec Unit := do
  let b ← popNum
  let a ← popNum
  pushBool (f a b)

/-- Pops two items of equal length and pushes their bytewise combination. -/
def bitwise (op : Instruction) (f : UInt8 → UInt8 → UInt8) : Exec Unit := do
  let b ← pop
  let a ← pop
  if a.length ≠ b.length then throw (.invalidInputLength op.name)
  push (List.zipWith f a b)

/-- Pops a shift amount and an item and pushes the shifted item. -/
def shift (f : Bytes → Nat → Bytes) : Exec Unit := do
  let n ← popNum
  let data ← pop
  if n < 0 then throw (.numberTooSmall .shiftNegative)
  push (f data n.toNat)

/-- Pops an item and pushes its hash. -/
def hashTop (f : Bytes → Bytes) : Exec Unit := do
  push (f (← pop))

/-- Lifts a number error. -/
def number {α : Type} (x : Except NumberError α) : Except ScriptError α :=
  match x with
  | .ok a => .ok a
  | .error e => .error (.number e)

/-- Runs an opcode. -/
def perform (op : Instruction) : Exec Unit := do
  match op.opcode.operation with
  | .pushData => push op.data
  | .pushSmall n => pushNum n
  | .reserved => throw (.reservedOpcode op.name)
  | .reservedBranch =>
    let m ← get
    if m.afterGenesis && !m.shouldExec op then pure () else throw (.reservedOpcode op.name)
  | .invalid => throw (.invalidOpcode op.name)
  | .disabled => throw (.disabledOpcode op.name)
  | .nop =>
    let m ← get
    if op.opcode.isUpgradableNop && m.flags.discourageUpgradableNops then
      throw (.discourageUpgradableNops op.name)
  | .ifBranch negate => openBranch op negate
  | .elseBranch => flipBranch
  | .endBranch => closeBranch
  | .verify => if !(← onData Stack.popBool) then throw .verify
  | .returnEarly =>
    let m ← get
    if !m.afterGenesis then throw .earlyReturn
    set { m with earlyReturn := true, pendingReturn := m.pendingReturn || m.branches.isEmpty }
  | .toAltStack =>
    let x ← pop
    onAlt (Stack.push x)
  | .fromAltStack =>
    let m ← get
    match m.astack.items with
    | x :: rest =>
      set { m with astack := { m.astack with items := rest } }
      push x
    | [] => throw .invalidAltStackOperation
  | .drop n => onData (Stack.drop n)
  | .dup n => onData (Stack.dup n)
  | .«over» n => onData (Stack.«over» n)
  | .rot n => onData (Stack.rot n)
  | .swap n => onData (Stack.swap n)
  | .ifDup =>
    let top ← onData Stack.last
    if castToBool top then onData (Stack.dup 1)
  | .depth =>
    let m ← get
    pushNum m.dstack.depth
  | .nip => onData Stack.nip
  | .pick => onData (Stack.pick (← popIndex))
  | .roll => onData (Stack.roll (← popIndex))
  | .tuck => onData Stack.tuck
  | .cat =>
    let b ← pop
    let a ← pop
    let m ← get
    let size := a.length + b.length
    if size > m.limits.maxElementSize then throw (.elementTooBig size m.limits.maxElementSize)
    push (a ++ b)
  | .split =>
    let n ← popNum
    let data ← pop
    if n < 0 then throw (.numberTooSmall .splitNegative)
    if n > data.length then throw (.numberTooBig .splitBeyondEnd)
    push (data.take n.toNat)
    push (data.drop n.toNat)
  | .num2bin =>
    let size ← popNum
    let data ← pop
    let m ← get
    if size < 0 then throw (.numberTooSmall .sizeNegative)
    if size > m.limits.maxElementSize then throw (.numberTooBig .sizeBeyondMax)
    let num := Number.minimallyEncode data
    if num.length > size then throw (.numberTooSmall .cannotFit)
    push (Number.widen num size.toNat)
  | .bin2num =>
    let data ← pop
    let m ← get
    let num := Number.minimallyEncode data
    if num.length > m.limits.maxNumLen then throw (.numberTooBig .beyondMaxLength)
    push num
  | .size =>
    let top ← onData Stack.last
    pushNum top.length
  | .invert => push ((← pop).map (~~~·))
  | .bitAnd => bitwise op (· &&& ·)
  | .bitOr => bitwise op (· ||| ·)
  | .bitXor => bitwise op (· ^^^ ·)
  | .equal =>
    let b ← pop
    let a ← pop
    pushBool (a == b)
  | .equalVerify =>
    let b ← pop
    let a ← pop
    if a != b then throw .equalVerify
  | .add1 => pushNum ((← popNum) + 1)
  | .sub1 => pushNum ((← popNum) - 1)
  | .negate => pushNum (-(← popNum))
  | .abs => pushNum (← popNum).natAbs
  | .not => pushBool ((← popNum) == 0)
  | .nonZero => pushBool ((← popNum) != 0)
  | .add => binary fun a b => .ok (a + b)
  | .sub => binary fun a b => .ok (a - b)
  | .mul => binary fun a b => .ok (a * b)
  | .div => binary fun a b => number (Number.quotient? a b)
  | .mod => binary fun a b => number (Number.remainder? a b)
  | .shiftLeft => shift Bytes.shiftLeft
  | .shiftRight => shift Bytes.shiftRight
  | .boolAnd => compare fun a b => a != 0 && b != 0
  | .boolOr => compare fun a b => a != 0 || b != 0
  | .numEqual => compare fun a b => a == b
  | .numEqualVerify =>
    let b ← popNum
    let a ← popNum
    if a != b then throw .numEqualVerify
  | .numNotEqual => compare fun a b => a != b
  | .lessThan => compare fun a b => decide (a < b)
  | .greaterThan => compare fun a b => decide (a > b)
  | .lessOrEqual => compare fun a b => decide (a ≤ b)
  | .greaterOrEqual => compare fun a b => decide (a ≥ b)
  | .min => binary fun a b => .ok (min a b)
  | .max => binary fun a b => .ok (max a b)
  | .within =>
    let hi ← popNum
    let lo ← popNum
    let x ← popNum
    pushBool (decide (lo ≤ x ∧ x < hi))
  | .ripemd160 => hashTop Ripemd160.hash
  | .sha1 => hashTop Sha1.hash
  | .sha256 => hashTop Sha256.hash
  | .hash160 => hashTop hash160
  | .hash256 => hashTop sha256d
  | .codeSeparator => modify fun m => { m with beginCode := m.off + 1 }
  | .checkSig verifyOnly =>
    let ok ← checkSig
    if !verifyOnly then pushBool ok
    else if !ok then throw .checkSigVerify
  | .checkMultiSig verifyOnly =>
    let ok ← checkMultiSig
    if !verifyOnly then pushBool ok
    else if !ok then throw .checkMultiSigVerify
  | .checkLockTime =>
    let m ← get
    if ← lockTimeIsNop op m.flags.checkLockTime then return
    let n ← onData (Stack.peekNum 0 5)
    if n < 0 then throw .negativeLockTime
    if !m.checker.checkLockTime n then throw .unsatisfiedLockTime
  | .checkSequence =>
    let m ← get
    if ← lockTimeIsNop op m.flags.checkSequence then return
    let n ← onData (Stack.peekNum 0 5)
    if n < 0 then throw .negativeLockTime
    if n.toNat.testBit 31 then return
    if !m.checker.checkSequence n then throw .unsatisfiedLockTime

end Exec

end BitcoinScript
