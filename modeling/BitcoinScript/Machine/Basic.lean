import BitcoinScript.Script
import BitcoinScript.Checker
import BitcoinScript.Stack

/-!
The state of a script machine. It runs a list of scripts one after another (unlocking, locking,
and before genesis a P2SH redeem script appended on the way) with a program counter made of a
script index and an instruction offset. Open `OP_IF` blocks are a stack of branch states, with a
stack saying whether each block has seen its `OP_ELSE`. Every phase of a run is recorded as a hook
in a transcript, newest first, together with the pushes and pops of the data stack
(SPEC_FULL.md:66-67, 76-77).

A computation on the machine keeps the machine it reached when it fails: a failed opcode leaves
its partial effects visible, and the program counter where it was.
-/

set_option autoImplicit false

namespace BitcoinScript

/-- The state of one open conditional block. -/
inductive Branch
  /-- The current branch runs. -/
  | active
  /-- The current branch is skipped. -/
  | inactive
  /-- The whole block lies inside a skipped branch. -/
  | skipped
  deriving DecidableEq, Repr

/-- The phases a debugger is told about. -/
inductive Phase
  | beforeExecute
  | afterExecute
  | beforeStep
  | afterStep
  | beforeOp
  | afterOp
  | beforeScriptChange
  | afterScriptChange
  | afterSuccess
  deriving DecidableEq, Repr

/-- One entry of a debugger's transcript. -/
inductive Hook
  /-- A phase, with the program counter at that moment. -/
  | phase (p : Phase) (idx off : Nat)
  /-- A failure, with the program counter at that moment. -/
  | failure (idx off : Nat) (e : ScriptError)
  /-- A push or pop of the data stack. -/
  | stack (e : StackEvent)
  deriving Repr

namespace Phase

/-- The name a debugger gives the phase. -/
def name : Phase → String
  | beforeExecute => "before_execute"
  | afterExecute => "after_execute"
  | beforeStep => "before_step"
  | afterStep => "after_step"
  | beforeOp => "before_op"
  | afterOp => "after_op"
  | beforeScriptChange => "before_script_change"
  | afterScriptChange => "after_script_change"
  | afterSuccess => "after_success"

end Phase

/-- The text of a transcript entry: `phase@idx:off`, `after_error@idx:off:kind`, or a push or
pop with the depth and the item in hexadecimal. -/
def Hook.render : Hook → String
  | .phase p idx off => p.name ++ "@" ++ toString idx ++ ":" ++ toString off
  | .failure idx off e => "after_error@" ++ toString idx ++ ":" ++ toString off ++ ":" ++ e.kind
  | .stack (.beforePush d x) => "bpush:" ++ toString d ++ ":" ++ Bytes.toHex x
  | .stack (.afterPush d) => "apush:" ++ toString d
  | .stack (.beforePop d) => "bpop:" ++ toString d
  | .stack (.afterPop d x) => "apop:" ++ toString d ++ ":" ++ Bytes.toHex x

/-- A script machine. -/
structure Machine where
  dstack : Stack
  astack : Stack
  /-- Whether each open block has seen its `OP_ELSE`, innermost first. -/
  elseSeen : List Bool := []
  /-- The open blocks, innermost first. -/
  branches : List Branch := []
  /-- The data stack after the unlocking script, top first, kept for P2SH. -/
  savedFirst : List Bytes := []
  scripts : List Script
  idx : Nat
  off : Nat := 0
  /-- The offset after the last executed `OP_CODESEPARATOR`. -/
  beginCode : Nat := 0
  numOps : Nat := 0
  flags : Flags
  limits : Limits
  /-- Whether the locking script is pay-to-script-hash and P2SH is on. -/
  bip16 : Bool
  afterGenesis : Bool
  /-- A post-genesis `OP_RETURN` ran: only conditionals run until the script ends. -/
  earlyReturn : Bool := false
  /-- A post-genesis `OP_RETURN` outside every block: the script ends after this opcode. -/
  pendingReturn : Bool := false
  checker : Checker
  /-- The transcript, newest first. -/
  log : List Hook := []

/-- A copy of everything that decides a machine's future, taken between steps. -/
structure Snapshot where
  dataStack : List Bytes
  altStack : List Bytes
  elseSeen : List Bool
  branches : List Branch
  savedFirst : List Bytes
  scripts : List Script
  idx : Nat
  off : Nat
  beginCode : Nat
  numOps : Nat
  afterGenesis : Bool
  earlyReturn : Bool
  deriving DecidableEq, Repr

/-- A computation on a machine that keeps the machine it reached when it fails. -/
abbrev Exec := EStateM ScriptError Machine

namespace Machine

/-- Whether every script has run. -/
def isDone (m : Machine) : Bool := m.idx ≥ m.scripts.length

/-- The instruction at the program counter. -/
def current? (m : Machine) : Option Instruction :=
  (m.scripts[m.idx]?).bind (·[m.off]?)

/-- Whether the innermost block's branch runs (no block counts as running). -/
def isBranchExecuting (m : Machine) : Bool :=
  match m.branches with
  | [] => true
  | b :: _ => b == .active

/-- After genesis an opcode runs only when no enclosing branch is inactive and no `OP_RETURN`
has run (an `OP_RETURN` itself still runs); before genesis this gate is always open. -/
def shouldExec (m : Machine) (op : Instruction) : Bool :=
  !m.afterGenesis ||
    (m.branches.all (· != .inactive) && (!m.earlyReturn || op.value == 0x6a))

/-- The script code signatures commit to: the current script from the last executed
`OP_CODESEPARATOR` on. -/
def subScript (m : Machine) : Script :=
  ((m.scripts[m.idx]?).map (·.drop m.beginCode)).getD []

/-- The machine's snapshot. -/
def snapshot (m : Machine) : Snapshot :=
  { dataStack := m.dstack.items, altStack := m.astack.items, elseSeen := m.elseSeen,
    branches := m.branches, savedFirst := m.savedFirst, scripts := m.scripts, idx := m.idx,
    off := m.off, beginCode := m.beginCode, numOps := m.numOps, afterGenesis := m.afterGenesis,
    earlyReturn := m.earlyReturn }

/-- Puts a snapshot back, unreported; the limits follow its genesis rule. -/
def restore (m : Machine) (s : Snapshot) : Machine :=
  { m with
    dstack := { m.dstack with items := s.dataStack }
    astack := { m.astack with items := s.altStack }
    elseSeen := s.elseSeen, branches := s.branches, savedFirst := s.savedFirst,
    scripts := s.scripts, idx := s.idx, off := s.off, beginCode := s.beginCode,
    numOps := s.numOps, afterGenesis := s.afterGenesis, limits := Limits.ofGenesis s.afterGenesis,
    earlyReturn := s.earlyReturn, pendingReturn := false }

end Machine

namespace Exec

/-- Records a phase with the current program counter. -/
def notify (p : Phase) : Exec Unit :=
  modify fun m => { m with log := .phase p m.idx m.off :: m.log }

/-- Runs a data-stack primitive; its pushes and pops go into the transcript. -/
def onData {α : Type} (op : StackM α) : Exec α := fun m =>
  match op { m.dstack with events := [] } with
  | .ok a s =>
    .ok a { m with dstack := { s with events := [] }, log := s.events.map .stack ++ m.log }
  | .error e s =>
    .error (.stack e)
      { m with dstack := { s with events := [] }, log := s.events.map .stack ++ m.log }

/-- Runs an alt-stack primitive; the alt stack reports nothing. -/
def onAlt {α : Type} (op : StackM α) : Exec α := fun m =>
  match op m.astack with
  | .ok a s => .ok a { m with astack := { s with events := [] } }
  | .error e s => .error (.stack e) { m with astack := { s with events := [] } }

/-- Lifts a check that may fail without touching the machine. -/
def lift {α : Type} (x : Except ScriptError α) : Exec α :=
  match x with
  | .ok a => pure a
  | .error e => throw e

end Exec

end BitcoinScript
