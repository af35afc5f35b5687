import BitcoinScript.Proofs.Step

/-!
# What an opcode writes

Almost every opcode works on the two stacks only. `Machine.frame` is the rest of the machine that
such work leaves alone: the position, the scripts and the saved stack, the operation count, the
pending early return, the rules of the run and the number rules of both stacks. Every opcode but
`OP_CHECKMULTISIG`, which counts its keys, and `OP_RETURN`, which may end the script, keeps the
frame, returning or failing (`preserves_frame_perform`); the open blocks, the code separator and
the early-return mark are the other writes, and the lemmas that need them state them.

Below the machine, `Stack.KeepsRule` says that a stack primitive keeps the stack's number rule,
which the frame contains.
-/

set_option autoImplicit false

namespace BitcoinScript

/-- How a stack reads and writes numbers: the operand bound, the minimality rule and whether
pushed numbers escape the 32-bit clamp. -/
structure NumberRule where
  maxNumLen : Nat
  minimal : Bool
  afterGenesis : Bool

namespace Stack

/-- The number rule of a stack. -/
def numberRule (s : Stack) : NumberRule := ⟨s.maxNumLen, s.minimal, s.afterGenesis⟩

/-- The stack a primitive ends with, whether it returns or fails. -/
def finalOf {α : Type} : EStateM.Result StackError Stack α → Stack
  | .ok _ s => s
  | .error _ s => s

@[simp] theorem finalOf_ok {α : Type} (a : α) (s : Stack) : finalOf (.ok a s) = s := rfl

@[simp] theorem finalOf_error {α : Type} (e : StackError) (s : Stack) :
    finalOf (.error e s : EStateM.Result StackError Stack α) = s := rfl

/-- `x` leaves the number rule of the stack as it found it, returning or failing. -/
structure KeepsRule {α : Type} (x : StackM α) : Prop where
  final : ∀ s, (finalOf (x s)).numberRule = s.numberRule

section Rules

variable {α β : Type}

theorem KeepsRule.pure (a : α) : KeepsRule (pure a : StackM α) := ⟨fun _ => rfl⟩

theorem KeepsRule.throw (e : StackError) : KeepsRule (throw e : StackM α) := ⟨fun _ => rfl⟩

theorem KeepsRule.bind {x : StackM α} {f : α → StackM β} (hx : KeepsRule x)
    (hf : ∀ a, KeepsRule (f a)) : KeepsRule (x >>= f) := by
  refine ⟨fun s => ?_⟩
  show (finalOf (EStateM.bind x f s)).numberRule = _
  have hxs := hx.final s
  unfold EStateM.bind
  cases h : x s with
  | ok a s₁ =>
    rw [h] at hxs
    rw [(hf a).final s₁]
    exact hxs
  | error e s₁ =>
    rw [h] at hxs
    exact hxs

theorem KeepsRule.map {x : StackM α} (f : α → β) (hx : KeepsRule x) : KeepsRule (f <$> x) := by
  refine ⟨fun s => ?_⟩
  have hxs := hx.final s
  simp only [Functor.map, EStateM.map]
  cases h : x s with
  | ok a s₁ =>
    rw [h] at hxs
    exact hxs
  | error e s₁ =>
    rw [h] at hxs
    exact hxs

theorem KeepsRule.get_bind {k : Stack → StackM α} (hk : ∀ s, KeepsRule (k s)) :
    KeepsRule (get >>= k) :=
  ⟨fun s => (hk s).final s⟩

theorem KeepsRule.ite {c : Prop} [Decidable c] {x y : StackM α} (hx : KeepsRule x)
    (hy : KeepsRule y) : KeepsRule (if c then x else y) := by
  split
  · exact hx
  · exact hy

theorem KeepsRule.modify {f : Stack → Stack} (hf : ∀ s, (f s).numberRule = s.numberRule) :
    KeepsRule (modify f : StackM PUnit) :=
  ⟨hf⟩

theorem KeepsRule.forIn {γ : Type} (l : List γ) (init : β) (f : γ → β → StackM (ForInStep β))
    (hf : ∀ a r, KeepsRule (f a r)) : KeepsRule (forIn l init f) := by
  induction l generalizing init with
  | nil => exact KeepsRule.pure init
  | cons a l ih =>
    rw [List.forIn_cons]
    refine KeepsRule.bind (hf a init) fun step => ?_
    cases step with
    | done r => exact KeepsRule.pure r
    | yield r => exact ih r

end Rules

/-! ## The primitives -/

theorem keepsRule_require (n : Nat) : KeepsRule (require n) := by
  refine ⟨fun s => ?_⟩
  simp only [require]
  split <;> rfl

theorem keepsRule_last : KeepsRule last := by
  refine ⟨fun s => ?_⟩
  simp only [last]
  split <;> rfl

theorem keepsRule_top (i : Nat) : KeepsRule (top i) := by
  refine ⟨fun s => ?_⟩
  simp only [top]
  split <;> rfl

theorem keepsRule_pop : KeepsRule pop := by
  refine ⟨fun s => ?_⟩
  simp only [pop]
  split <;> rfl

theorem keepsRule_push (x : Bytes) : KeepsRule (push x) := ⟨fun _ => rfl⟩

theorem keepsRule_remove (i : Nat) : KeepsRule (remove i) := by
  refine ⟨fun s => ?_⟩
  simp only [remove]
  split <;> rfl

theorem keepsRule_tuck : KeepsRule tuck := by
  refine ⟨fun s => ?_⟩
  simp only [tuck]
  split <;> rfl

theorem keepsRule_decodeNumber (bytes : Bytes) (maxSize : Nat) :
    KeepsRule (decodeNumber bytes maxSize) := by
  refine ⟨fun s => ?_⟩
  simp only [decodeNumber]
  split <;> rfl

theorem keepsRule_pushAll (xs : List Bytes) : KeepsRule (pushAll xs) := by
  induction xs with
  | nil => exact KeepsRule.pure ()
  | cons x xs ih => exact KeepsRule.bind (keepsRule_push x) fun _ => ih

theorem keepsRule_popNum : KeepsRule popNum :=
  KeepsRule.get_bind fun s =>
    KeepsRule.bind keepsRule_pop fun x => keepsRule_decodeNumber x s.maxNumLen

theorem keepsRule_peekNum (i maxSize : Nat) : KeepsRule (peekNum i maxSize) :=
  KeepsRule.bind (keepsRule_top i) fun x => keepsRule_decodeNumber x maxSize

theorem keepsRule_pushNum (n : Int) : KeepsRule (pushNum n) :=
  KeepsRule.get_bind fun _ => keepsRule_push _

theorem keepsRule_pushBool (v : Bool) : KeepsRule (pushBool v) := keepsRule_push _

theorem keepsRule_popBool : KeepsRule popBool :=
  KeepsRule.bind keepsRule_pop fun _ => KeepsRule.pure _

theorem keepsRule_drop (n : Nat) : KeepsRule (drop n) := by
  unfold drop
  refine KeepsRule.bind (keepsRule_require n) fun _ => ?_
  rw [Std.Legacy.Range.forIn_eq_forIn_range']
  refine KeepsRule.bind (KeepsRule.forIn _ _ _ fun _ _ => ?_) fun _ => KeepsRule.pure _
  exact KeepsRule.bind (KeepsRule.map _ keepsRule_pop) fun _ => KeepsRule.pure _

theorem keepsRule_dup (n : Nat) : KeepsRule (dup n) :=
  KeepsRule.bind (keepsRule_require n) fun _ => KeepsRule.get_bind fun _ => keepsRule_pushAll _

theorem keepsRule_copyUp (i k : Nat) : KeepsRule (copyUp i k) := by
  induction k generalizing i with
  | zero => exact KeepsRule.pure ()
  | succ k ih =>
    refine KeepsRule.get_bind fun s => ?_
    split
    · exact KeepsRule.bind (keepsRule_push _) fun _ => ih (i + 1)
    · exact KeepsRule.throw _

theorem keepsRule_over (n : Nat) : KeepsRule («over» n) :=
  KeepsRule.bind (keepsRule_require _) fun _ => KeepsRule.get_bind fun _ => keepsRule_copyUp _ _

theorem keepsRule_turnTop (k n : Nat) (p : StackPanic) : KeepsRule (turnTop k n p) := by
  refine KeepsRule.bind (keepsRule_require _) fun _ => ?_
  refine KeepsRule.ite (KeepsRule.bind (KeepsRule.throw _) fun _ => ?_) ?_
  all_goals exact KeepsRule.modify fun _ => rfl

theorem keepsRule_rot (n : Nat) : KeepsRule (rot n) := keepsRule_turnTop 3 n _

theorem keepsRule_swap (n : Nat) : KeepsRule (swap n) := keepsRule_turnTop 2 n _

theorem keepsRule_nip : KeepsRule nip := KeepsRule.map _ (keepsRule_remove 1)

theorem keepsRule_pick (n : Int) : KeepsRule (pick n) := by
  unfold pick
  refine KeepsRule.ite (KeepsRule.bind (KeepsRule.throw _) fun _ => ?_) ?_
  all_goals exact KeepsRule.bind (keepsRule_top _) fun x => keepsRule_push x

theorem keepsRule_roll (n : Int) : KeepsRule (roll n) := by
  unfold roll
  refine KeepsRule.ite (KeepsRule.bind (KeepsRule.throw _) fun _ => ?_) ?_
  all_goals exact KeepsRule.bind (keepsRule_remove _) fun x => keepsRule_push x

end Stack

/-! ## The frame of a machine -/

/-- What the work of almost every opcode leaves as it found it: the position, the scripts and the
saved stack, the operation count, the pending early return, the rules of the run and the number
rules of both stacks. -/
structure Frame where
  savedFirst : List Bytes
  scripts : List Script
  idx : Nat
  off : Nat
  numOps : Nat
  pendingReturn : Bool
  rules : Rules
  dataRule : NumberRule
  altRule : NumberRule

/-- The opcodes whose work writes the frame: `OP_CHECKMULTISIG` counts its keys as operations,
and a post-genesis `OP_RETURN` may end the script. -/
def Operation.writesFrame : Operation → Bool
  | .checkMultiSig _ | .returnEarly => true
  | _ => false

namespace Machine

/-- The frame of a machine. -/
def frame (m : Machine) : Frame :=
  ⟨m.savedFirst, m.scripts, m.idx, m.off, m.numOps, m.pendingReturn, m.rules,
    m.dstack.numberRule, m.astack.numberRule⟩

/-- Every push and pop of either stack has gone into the transcript. -/
def Quiet (m : Machine) : Prop := m.dstack.events = [] ∧ m.astack.events = []

end Machine

namespace Exec

section Frame

variable (f : Frame)

/-- Keeping the frame equal to `f`, with nothing left unreported on the stacks. -/
abbrev KeepsFrame (m : Machine) : Prop := m.frame = f ∧ m.Quiet

theorem preserves_frame_onData {α : Type} {op : StackM α} (hop : Stack.KeepsRule op) :
    Preserves (KeepsFrame f) (onData op) := by
  refine ⟨fun m hm => ?_⟩
  have hrule := hop.final { m.dstack with events := [] }
  simp only [onData]
  split
  all_goals
    rename_i hs
    rw [hs] at hrule
    obtain ⟨hf, -, hq⟩ := hm
    refine ⟨?_, rfl, hq⟩
    rw [← hf]
    simp only [finalOf_ok, finalOf_error, Machine.frame, Frame.mk.injEq, true_and, and_true]
    exact ⟨rfl, hrule⟩

theorem preserves_frame_onAlt {α : Type} {op : StackM α} (hop : Stack.KeepsRule op) :
    Preserves (KeepsFrame f) (onAlt op) := by
  refine ⟨fun m hm => ?_⟩
  have hrule := hop.final m.astack
  simp only [onAlt]
  split
  all_goals
    rename_i hs
    rw [hs] at hrule
    obtain ⟨hf, hd, -⟩ := hm
    refine ⟨?_, hd, rfl⟩
    rw [← hf]
    simp only [finalOf_ok, finalOf_error, Machine.frame, Frame.mk.injEq, true_and]
    exact ⟨rfl, hrule⟩

theorem preserves_frame_lift {α : Type} (x : Except ScriptError α) :
    Preserves (KeepsFrame f) (lift x) := by
  cases x
  · exact preserves_throw _
  · exact preserves_pure _

theorem preserves_frame_notify (p : Phase) : Preserves (KeepsFrame f) (notify p) :=
  preserves_modify fun _ hm => hm

theorem preserves_frame_popItems (n : Nat) : Preserves (KeepsFrame f) (popItems n) := by
  induction n with
  | zero => exact preserves_pure _
  | succ n ih =>
    exact preserves_bind (preserves_frame_onData f Stack.keepsRule_pop) fun _ =>
      preserves_bind ih fun _ => preserves_pure _

theorem preserves_frame_checkSig : Preserves (KeepsFrame f) checkSig := by
  unfold checkSig
  repeat' first
    | (apply preserves_frame_onData; exact Stack.keepsRule_pop)
    | apply preserves_frame_lift
    | with_reducible apply preserves_pure
    | with_reducible apply preserves_throw
    | with_reducible apply preserves_get_bind
    | with_reducible apply preserves_bind
    | with_reducible apply preserves_ite
    | intro _

/-- Every opcode but `OP_CHECKMULTISIG` and `OP_RETURN` keeps the frame, returning or failing:
its work reads and writes the stacks, and the block opcodes the open blocks. -/
theorem preserves_frame_perform (op : Instruction) (h : op.opcode.operation.writesFrame = false) :
    Preserves (KeepsFrame f) (perform op) := by
  unfold perform binary compare bitwise shift hashTop popIndex lockTimeIsNop openBranch
    flipBranch closeBranch popCondition
  split <;> try (simp only [*, Operation.writesFrame] at h; contradiction)
  all_goals repeat' first
    | (apply preserves_frame_onData
       first
        | exact Stack.keepsRule_pop | exact Stack.keepsRule_push _ | exact Stack.keepsRule_popNum
        | exact Stack.keepsRule_pushNum _ | exact Stack.keepsRule_pushBool _
        | exact Stack.keepsRule_popBool | exact Stack.keepsRule_last
        | exact Stack.keepsRule_drop _ | exact Stack.keepsRule_dup _
        | exact Stack.keepsRule_over _ | exact Stack.keepsRule_rot _
        | exact Stack.keepsRule_swap _ | exact Stack.keepsRule_nip | exact Stack.keepsRule_tuck
        | exact Stack.keepsRule_pick _ | exact Stack.keepsRule_roll _
        | exact Stack.keepsRule_peekNum _ _)
    | (apply preserves_frame_onAlt; exact Stack.keepsRule_push _)
    | apply preserves_frame_lift
    | with_reducible apply preserves_frame_checkSig
    | with_reducible apply preserves_pure
    | with_reducible apply preserves_throw
    | (apply preserves_set; assumption)
    | (apply preserves_modify; intro _ hm; exact hm)
    | with_reducible apply preserves_get_bind
    | with_reducible apply preserves_bind
    | with_reducible apply preserves_ite
    | split
    | intro _

end Frame

end Exec

end BitcoinScript
