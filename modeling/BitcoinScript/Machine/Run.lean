import BitcoinScript.Machine.Step

/-!
Whole runs. Setting up a machine checks the scripts and flags before anything runs: two empty
scripts are false at once, CLEANSTACK needs P2SH, scripts have a size limit and must parse, and
the unlocking script must be push-only under SIGPUSHONLY or for a P2SH spend. A verification then
runs every script and checks the final stack, with a transcript of hooks ending in
`after_success` or `after_error`. A trace records the snapshot after each step, and a session
applies commands to one machine in turn (SPEC_FULL.md:69-71).
-/

set_option autoImplicit false

namespace BitcoinScript

namespace Machine

/-- Prepares the run of an unlocking and a locking script. -/
def new? (unlocking locking : Bytes) (given : Flags) (checker : Checker) :
    Except ScriptError Machine := do
  if unlocking.isEmpty && locking.isEmpty then throw .evalFalse
  let flags := given.effective
  if flags.cleanStack && !flags.p2sh then throw .invalidFlags
  let afterGenesis := flags.afterGenesis
  let limits := Limits.ofGenesis afterGenesis
  if unlocking.length > limits.maxScriptSize then
    throw (.scriptTooBig unlocking.length limits.maxScriptSize)
  if locking.length > limits.maxScriptSize then
    throw (.scriptTooBig locking.length limits.maxScriptSize)
  let some u := Script.parse? unlocking | throw .malformedPush
  let some l := Script.parse? locking | throw .malformedPush
  if flags.sigPushOnly && !Script.isPushOnly u then throw .sigPushOnly
  let bip16 := flags.p2sh && Script.isPayToScriptHash locking
  if bip16 && !Script.isPushOnly u then throw .sigPushOnly
  let stack : Stack :=
    { maxNumLen := limits.maxNumLen, minimal := flags.minimalData, afterGenesis }
  return { dstack := stack, astack := stack, scripts := [u, l], idx := if u.isEmpty then 1 else 0,
           flags, limits, bip16, afterGenesis, checker }

/-- Runs to the end and checks the final stack; the transcript ends with the verdict. -/
def run (m : Machine) : Machine × Except ScriptError Unit :=
  match Exec.execute m with
  | .ok () m => ({ m with log := .phase .afterSuccess m.idx m.off :: m.log }, .ok ())
  | .error e m => ({ m with log := .failure m.idx m.off e :: m.log }, .error e)

/-- Steps until every script has run or a step fails, at most `fuel` times, without the final
check. -/
def stepUntilStop (m : Machine) : Nat → Machine
  | 0 => m
  | fuel + 1 =>
    match Exec.step m with
    | .ok true m => m
    | .ok false m => stepUntilStop m fuel
    | .error _ m => m

end Machine

/-- The answer of a verification. -/
structure Verdict where
  /-- Success, or why the spend is refused. -/
  result : Except ScriptError Unit
  /-- The data stack, bottom first, after stepping until the end or the first failure (before
  the final check); `none` when setup failed. -/
  stack : Option (List Bytes)
  /-- The transcript, oldest first. -/
  hooks : List Hook

/-- Verifies that an unlocking script satisfies a locking script. -/
def verify (unlocking locking : Bytes) (flags : Flags) (checker : Checker) : Verdict :=
  match Machine.new? unlocking locking flags checker with
  | .error e => ⟨.error e, none, [.failure 0 0 e]⟩
  | .ok m =>
    let (after, result) := m.run
    let stopped := m.stepUntilStop m.stepBound
    ⟨result, some stopped.dstack.toList, after.log.reverse⟩

/-- One step of a trace: the snapshot after it, and its failure if it failed. -/
structure TraceStep where
  snapshot : Snapshot
  failure : Option ScriptError

/-- A trace: the steps taken, and the final check once every script has run. -/
structure Trace where
  steps : List TraceStep
  /-- The final check with the data stack after it (bottom first); `none` if a step failed or
  the steps ran out first. -/
  final : Option (Except ScriptError (List Bytes))

namespace Machine

/-- Steps at most `fuel` times, recording each snapshot. -/
def traceSteps (m : Machine) : Nat → List TraceStep × Option (Except ScriptError (List Bytes))
  | 0 => ([], none)
  | fuel + 1 =>
    match Exec.step m with
    | .error e m => ([⟨m.snapshot, some e⟩], none)
    | .ok true m =>
      let final := match Exec.checkCondition true m with
        | .ok () m => Except.ok m.dstack.toList
        | .error e _ => .error e
      ([⟨m.snapshot, none⟩], some final)
    | .ok false m =>
      let (rest, final) := traceSteps m fuel
      (⟨m.snapshot, none⟩ :: rest, final)

/-- A trace of at most `maxSteps` steps. -/
def trace (m : Machine) (maxSteps : Nat) : Trace :=
  let (steps, final) := m.traceSteps maxSteps
  ⟨steps, final⟩

end Machine

/-- A command applied to a machine in a session. -/
inductive Command
  | step
  | execute
  | check
  | checkFinal
  | isDone
  | save
  | restore
  | opcode
  | config
  | flags
  deriving DecidableEq, Repr

/-- What a command answers. -/
inductive Reply
  | bool (b : Bool)
  | failure (e : ScriptError)
  | opcode (text : Option String)
  | limits (l : Limits)
  | flags (bits : Nat)

/-- A machine under commands, with the last snapshot saved. -/
structure Session where
  machine : Machine
  saved : Option Snapshot := none

namespace Session

/-- The snapshot of an untouched machine with nothing in it. -/
def emptySnapshot : Snapshot :=
  ⟨[], [], [], [], [], [], 0, 0, 0, 0, false, false⟩

/-- Applies one command. -/
def apply (s : Session) (c : Command) : Session × Reply :=
  let m := s.machine
  let answer (r : EStateM.Result ScriptError Machine Bool) : Session × Reply :=
    match r with
    | .ok b m => ({ s with machine := m }, .bool b)
    | .error e m => ({ s with machine := m }, .failure e)
  match c with
  | .step => answer (Exec.step m)
  | .execute => answer ((do Exec.execute; pure true : Exec Bool) m)
  | .check => answer ((do Exec.checkCondition false; pure true : Exec Bool) m)
  | .checkFinal => answer ((do Exec.checkCondition true; pure true : Exec Bool) m)
  | .isDone => (s, .bool m.isDone)
  | .save => ({ s with saved := some m.snapshot }, .bool true)
  | .restore =>
    let snap := s.saved.getD emptySnapshot
    let m := m.restore snap
    ({ s with machine := m }, .bool (m.snapshot == snap))
  | .opcode => (s, .opcode (m.current?.map Instruction.debugText))
  | .config => (s, .limits m.limits)
  | .flags => (s, .flags m.flags.bits)

/-- Applies commands in order; each reply comes with the snapshot after its command. -/
def applyAll (s : Session) : List Command → List (Reply × Snapshot)
  | [] => []
  | c :: cs =>
    let (s, r) := s.apply c
    (r, s.machine.snapshot) :: applyAll s cs

end Session

end BitcoinScript
