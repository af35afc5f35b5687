import Mathlib
import BitcoinScript.Machine.Run

/-!
# What an opcode leaves alone

A computation on the machine preserves a property when every machine it ends in, returning or
failing, has the property whenever the machine it started from had it. The rules below compose
this through `bind`, `get`, `set` and the stack primitives, so that a frame lemma about a whole
opcode is a walk over its `do` block rather than a symbolic run of it.

The view kept by every opcode except the three that open, flip and close a conditional block is
`Machine.control`: the program counter, the scripts, the open blocks, the rules and the checker.
Its main statement is `preserves_control_perform`.
-/

set_option autoImplicit false

namespace BitcoinScript

namespace Exec

/-- The machine a computation ends in, whether it returns or fails. -/
def finalOf {α : Type} : EStateM.Result ScriptError Machine α → Machine
  | .ok _ m => m
  | .error _ m => m

@[simp] theorem finalOf_ok {α : Type} (a : α) (m : Machine) : finalOf (.ok a m) = m := rfl

@[simp] theorem finalOf_error {α : Type} (e : ScriptError) (m : Machine) :
    finalOf (.error e m : EStateM.Result ScriptError Machine α) = m := rfl

/-- `x` preserves `P`: from a machine satisfying `P` it ends, returning or failing, in one that
satisfies `P`. A structure, so that introducing binders never unfolds it. -/
structure Preserves {α : Type} (P : Machine → Prop) (x : Exec α) : Prop where
  final : ∀ m, P m → P (finalOf (x m))

/-- A successful run of a computation that preserves `P` ends in a machine satisfying `P`. -/
theorem Preserves.of_ok {α : Type} {P : Machine → Prop} {x : Exec α} (hx : Preserves P x)
    {m m' : Machine} {a : α} (hm : P m) (h : x m = .ok a m') : P m' := by
  have := hx.final m hm
  rwa [h] at this

section Rules

variable {P : Machine → Prop} {α γ : Type}

theorem preserves_pure (a : α) : Preserves P (pure a : Exec α) := ⟨fun _ h => h⟩

theorem preserves_throw (e : ScriptError) : Preserves P (throw e : Exec α) := ⟨fun _ h => h⟩

/-- The rule for `let m ← get`: the rest may use that the machine read satisfies `P`. -/
theorem preserves_get_bind {k : Machine → Exec α} (hk : ∀ m, P m → Preserves P (k m)) :
    Preserves P (get >>= k) :=
  ⟨fun m hm => (hk m hm).final m hm⟩

theorem preserves_bind {x : Exec α} {g : α → Exec γ} (hx : Preserves P x)
    (hg : ∀ a, Preserves P (g a)) : Preserves P (x >>= g) := by
  refine ⟨fun m hm => ?_⟩
  show P (finalOf (EStateM.bind x g m))
  have hx' := hx.final m hm
  unfold EStateM.bind
  cases h : x m with
  | ok a s =>
    rw [h] at hx'
    exact (hg a).final s hx'
  | error e s =>
    rw [h] at hx'
    exact hx'

theorem preserves_ite {c : Prop} [Decidable c] {x y : Exec α} (hx : Preserves P x)
    (hy : Preserves P y) : Preserves P (if c then x else y) := by
  split
  · exact hx
  · exact hy

theorem preserves_set {s : Machine} (hs : P s) : Preserves P (set s : Exec PUnit) :=
  ⟨fun _ _ => hs⟩

theorem preserves_modify {g : Machine → Machine} (hg : ∀ m, P m → P (g m)) :
    Preserves P (modify g : Exec PUnit) :=
  ⟨fun m hm => hg m hm⟩

end Rules

end Exec

/-- The operations that open, flip or close a conditional block. -/
def Operation.changesBlocks : Operation → Bool
  | .ifBranch _ | .elseBranch | .endBranch => true
  | _ => false

/-- The rules of a run, fixed when it is set up: the flags, the limits, whether the spend is
P2SH, the genesis rule and the checker. -/
structure Rules where
  flags : Flags
  limits : Limits
  bip16 : Bool
  afterGenesis : Bool
  checker : Checker

/-- The part of a machine that an opcode's own work never changes: the program counter, the
scripts, the open blocks and the rules. -/
structure Control where
  elseSeen : List Bool
  branches : List Branch
  savedFirst : List Bytes
  scripts : List Script
  idx : Nat
  off : Nat
  rules : Rules

namespace Machine

/-- The rules of a machine. -/
def rules (m : Machine) : Rules := ⟨m.flags, m.limits, m.bip16, m.afterGenesis, m.checker⟩

/-- The control part of a machine. -/
def control (m : Machine) : Control :=
  ⟨m.elseSeen, m.branches, m.savedFirst, m.scripts, m.idx, m.off, m.rules⟩

@[simp] theorem rules_flags (m : Machine) : m.rules.flags = m.flags := rfl
@[simp] theorem rules_limits (m : Machine) : m.rules.limits = m.limits := rfl
@[simp] theorem rules_afterGenesis (m : Machine) : m.rules.afterGenesis = m.afterGenesis := rfl
@[simp] theorem control_branches (m : Machine) : m.control.branches = m.branches := rfl
@[simp] theorem control_elseSeen (m : Machine) : m.control.elseSeen = m.elseSeen := rfl
@[simp] theorem control_rules (m : Machine) : m.control.rules = m.rules := rfl

end Machine

namespace Exec

section Control

variable (c : Control)

/-- Keeping the control part equal to `c`. -/
abbrev KeepsControl (m : Machine) : Prop := m.control = c

theorem preserves_onData {α : Type} (op : StackM α) : Preserves (KeepsControl c) (onData op) := by
  refine ⟨fun m hm => ?_⟩
  simp only [onData]
  split
  · exact hm
  · exact hm

theorem preserves_onAlt {α : Type} (op : StackM α) : Preserves (KeepsControl c) (onAlt op) := by
  refine ⟨fun m hm => ?_⟩
  simp only [onAlt]
  split
  · exact hm
  · exact hm

theorem preserves_lift {α : Type} (x : Except ScriptError α) :
    Preserves (KeepsControl c) (lift x) := by
  cases x
  · exact preserves_throw _
  · exact preserves_pure _

theorem preserves_notify (p : Phase) : Preserves (KeepsControl c) (notify p) :=
  preserves_modify fun _ hm => hm

/-- Popping `n` items goes through the data stack only. -/
theorem preserves_popItems (n : Nat) : Preserves (KeepsControl c) (popItems n) := by
  induction n with
  | zero => exact preserves_pure _
  | succ n ih =>
    exact preserves_bind (preserves_onData c _) fun _ =>
      preserves_bind ih fun _ => preserves_pure _

/-- `OP_CHECKSIG` pops its operands and asks the checker; it writes nothing else. -/
theorem preserves_checkSig : Preserves (KeepsControl c) checkSig := by
  unfold checkSig
  repeat' first
    | apply preserves_onData
    | apply preserves_lift
    | with_reducible apply preserves_pure
    | with_reducible apply preserves_throw
    | with_reducible apply preserves_get_bind
    | with_reducible apply preserves_bind
    | with_reducible apply preserves_ite
    | intro _

/-- `OP_CHECKMULTISIG` also adds its key count to the operation count, which is no part of the
control. -/
theorem preserves_checkMultiSig : Preserves (KeepsControl c) checkMultiSig := by
  unfold checkMultiSig
  -- beyond the walk of `checkSig`, a `match` on each count and the write of the operation count
  repeat' first
    | apply preserves_onData
    | apply preserves_lift
    | apply preserves_popItems
    | with_reducible apply preserves_pure
    | with_reducible apply preserves_throw
    | (apply preserves_set; assumption)
    | with_reducible apply preserves_get_bind
    | with_reducible apply preserves_bind
    | with_reducible apply preserves_ite
    | split
    | intro _

/-- Every opcode but the three conditional-block ones keeps the control part, returning or
failing. -/
theorem preserves_control_perform (op : Instruction)
    (h : op.opcode.operation.changesBlocks = false) : Preserves (KeepsControl c) (perform op) := by
  unfold perform binary compare bitwise shift hashTop popIndex lockTimeIsNop
  split <;> try (simp only [*, Operation.changesBlocks] at h; contradiction)
  all_goals repeat' first
    | apply preserves_onData
    | apply preserves_onAlt
    | apply preserves_lift
    | with_reducible apply preserves_checkSig
    | with_reducible apply preserves_checkMultiSig
    | with_reducible apply preserves_pure
    | with_reducible apply preserves_throw
    | (apply preserves_set; assumption)
    | (apply preserves_modify; intro _ hm; exact hm)
    | with_reducible apply preserves_get_bind
    | with_reducible apply preserves_bind
    | with_reducible apply preserves_ite
    | split
    | intro _

end Control

end Exec

end BitcoinScript
