import BitcoinScript.Machine.Operation

/-!
One step of a machine: run the instruction at the program counter, then move the counter. Before
an opcode runs the machine applies the rules that hold on every branch: disabled and
always-illegal opcodes, the element size of inline data, the operation count. On a skipped branch
only the conditionals run; after a post-genesis `OP_RETURN` likewise. After a successful opcode
the two stacks together must stay within their limit. At the end of a script the counter moves to
the next script; before genesis, leaving the locking script of a P2SH spend first checks its
result and then appends the redeem script taken from the unlocking script's stack
(SPEC_FULL.md:67).
-/

set_option autoImplicit false

namespace BitcoinScript

namespace Exec

/-- Checks the result of a script: the stack must be non-empty, hold exactly one item under
CLEANSTACK at the very end, and its top, which is popped, must be true. -/
def checkCondition (final : Bool) : Exec Unit := do
  let m ← get
  if final && !m.isDone then throw .scriptUnfinished
  if m.dstack.items.isEmpty then throw .emptyStack
  if final && m.flags.cleanStack && m.dstack.depth ≠ 1 then throw (.cleanStack m.dstack.depth)
  if !(← onData Stack.popBool) then throw .evalFalse

/-- Moves the program counter to the start of the next non-empty script, clearing the alt stack
and the per-script counters. -/
def shiftScript : Exec Unit := do
  notify .beforeScriptChange
  modify fun m =>
    { m with
      astack := { m.astack with items := [] }
      numOps := 0
      off := 0
      beginCode := 0
      earlyReturn := false }
  let m ← get
  if m.bip16 && m.idx = 0 then
    set { m with idx := 1, savedFirst := m.dstack.items }
  else if m.bip16 && m.idx = 1 && !m.afterGenesis then
    set { m with idx := 2 }
    checkCondition false
    let m ← get
    match m.savedFirst with
    | [] => throw .emptyStack
    | redeem :: rest =>
      match Script.parse? redeem with
      | none => throw .malformedPush
      | some s =>
        set { m with scripts := m.scripts ++ [s], dstack := { m.dstack with items := rest } }
  else
    set { m with idx := m.idx + 1 }
  let m ← get
  if (m.scripts[m.idx]?.map List.isEmpty) == some true then set { m with idx := m.idx + 1 }
  notify .afterScriptChange

/-- The rules checked before an opcode, then the opcode itself when its branch runs. -/
def executeInstruction (op : Instruction) : Exec Unit := do
  let m ← get
  let exec := m.shouldExec op
  if op.opcode.isDisabled && (!m.afterGenesis || exec) then throw (.disabledOpcode op.name)
  if op.opcode.isAlwaysIllegal && !m.afterGenesis then throw (.reservedOpcode op.name)
  if op.data.length > m.limits.maxElementSize then
    throw (.elementTooBig op.data.length m.limits.maxElementSize)
  if op.opcode.countsAsOperation then
    let m ← get
    set { m with numOps := m.numOps + 1 }
    if m.numOps + 1 > m.limits.maxOps then throw (.tooManyOperations m.limits.maxOps)
  let m ← get
  let running := m.isBranchExecuting
  if !running && !op.opcode.isConditional then return
  if m.flags.minimalData && running && exec && op.opcode.isDataPush && !op.isMinimalPush then
    throw (.minimalData op.name)
  if !exec && !op.opcode.isConditional then return
  perform op

/-- What follows a successful opcode of `script`: a pending early return ends the script at
once; otherwise the stacks must fit their limit and the counter moves, to the next script at
the end of this one. Answers whether every script has run. -/
def finishStep (script : Script) : Exec Bool := do
  let m ← get
  if m.pendingReturn then
    set { m with pendingReturn := false }
    shiftScript
    return (← get).isDone
  notify .afterOp
  let m ← get
  let size := m.dstack.depth + m.astack.depth
  if size > m.limits.maxStackSize then throw (.stackOverflow size m.limits.maxStackSize)
  set { m with off := m.off + 1 }
  if m.off + 1 ≥ script.length then
    if !m.branches.isEmpty then throw .unbalancedConditional
    shiftScript
  return (← get).isDone

/-- Runs the instruction at the program counter and moves the counter; answers whether every
script has run. A failure leaves the counter where it was, unless it comes at the end of a script,
after the counter has moved. -/
def step : Exec Bool := do
  let m ← get
  let some script := m.scripts[m.idx]? | throw (.invalidProgramCounter m.idx m.off)
  let some op := script[m.off]? | throw (.invalidProgramCounter m.idx m.off)
  notify .beforeOp
  executeInstruction op
  finishStep script

/-- Steps until every script has run, at most `fuel` times, each step between its hooks. -/
def runSteps : Nat → Exec Unit
  | 0 => pure ()
  | fuel + 1 => do
    notify .beforeStep
    let done ← step
    notify .afterStep
    if !done then runSteps fuel

end Exec

namespace Machine

/-- A bound on the steps of a run: one per instruction of the scripts there are, and one per
byte of any item that could become the redeem script (inline data of the scripts, the stacks). -/
def stepBound (m : Machine) : Nat :=
  let total (xs : List Nat) : Nat := xs.foldr (· + ·) 0
  total (m.scripts.map fun s => s.length + total (s.map fun i => i.data.length)) +
    total (m.savedFirst.map List.length) + total (m.dstack.items.map List.length) + 1

end Machine

namespace Exec

/-- Runs every remaining script and checks the final stack, between the execute hooks. -/
def execute : Exec Unit := fun m =>
  let bound := m.stepBound
  match (do notify .beforeExecute; runSteps bound : Exec Unit) m with
  | .ok () m => (do notify .afterExecute; checkCondition true) m
  | .error e m => .error e { m with log := .phase .afterExecute m.idx m.off :: m.log }

end Exec

end BitcoinScript
