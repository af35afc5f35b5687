import BitcoinScript.Proofs.Termination

/-!
# Snapshots

A snapshot leaves out part of the machine: the transcript, whether an early return is pending,
the rules of the run and the number rules of the stacks. It still captures everything that
decides what the machine does next, for three reasons.

* No computation reads the transcript; each only adds to it. `Exec.Blind x y` says that `x` and
  `y` run alike from two machines that differ in their transcripts alone, and the rules below
  build it through `bind`, `get`, `set`, `if` and the stack primitives, so that the fact for a
  whole step is a walk over its `do` blocks.
* A pending early return lives within one step: `OP_RETURN` sets it and the end of the same step
  clears it, whether the step succeeds or fails.
* No command changes the rules, the checker or the number rules of the stacks, and restoring a
  snapshot sets limits that agree with its genesis rule.

So a machine put back from its own snapshot is the machine itself, up to its transcript, and a
session replays every command list alike from it (`restored_snapshot_replays`).
-/

set_option autoImplicit false

namespace BitcoinScript

namespace Exec

/-- Results alike but for the transcripts of their machines. -/
def ResultAlike {α : Type} : EStateM.Result ScriptError Machine α →
    EStateM.Result ScriptError Machine α → Prop
  | .ok a m, .ok a' m' => a = a' ∧ m' = { m with log := m'.log }
  | .error e m, .error e' m' => e = e' ∧ m' = { m with log := m'.log }
  | _, _ => False

/-- `x` and `y` run alike from machines that differ in their transcripts alone. -/
structure Blind {α : Type} (x y : Exec α) : Prop where
  run : ∀ m L, ResultAlike (x m) (y { m with log := L })

section Rules

variable {α β : Type}

theorem Blind.pure (a : α) : Blind (pure a) (pure a) := ⟨fun _ _ => ⟨rfl, rfl⟩⟩

theorem Blind.throw (e : ScriptError) : Blind (throw e : Exec α) (throw e) :=
  ⟨fun _ _ => ⟨rfl, rfl⟩⟩

theorem Blind.bind {x y : Exec α} {f g : α → Exec β} (hx : Blind x y)
    (hf : ∀ a, Blind (f a) (g a)) : Blind (x >>= f) (y >>= g) := by
  refine ⟨fun m L => ?_⟩
  have h := hx.run m L
  show ResultAlike (EStateM.bind x f m) (EStateM.bind y g { m with log := L })
  unfold EStateM.bind
  revert h
  cases x m with
  | ok a m₁ =>
    cases y { m with log := L } with
    | ok b m₂ =>
      rintro ⟨rfl, hm⟩
      rw [hm]
      exact (hf a).run m₁ m₂.log
    | error e m₂ => exact False.elim
  | error e m₁ =>
    cases y { m with log := L } with
    | ok b m₂ => exact False.elim
    | error e' m₂ => exact id

/-- The rule for `let m ← get`: the two continuations read machines alike but for their
transcripts. -/
theorem Blind.get_bind {k k' : Machine → Exec α}
    (hk : ∀ m L, Blind (k m) (k' { m with log := L })) : Blind (get >>= k) (get >>= k') :=
  ⟨fun m L => (hk m L).run m L⟩

theorem Blind.set {s s' : Machine} (h : s' = { s with log := s'.log }) :
    Blind (set s : Exec PUnit) (set s') :=
  ⟨fun _ _ => ⟨rfl, h⟩⟩

theorem Blind.modify {f : Machine → Machine}
    (h : ∀ m L, f { m with log := L } = { f m with log := (f { m with log := L }).log }) :
    Blind (modify f : Exec PUnit) (modify f) :=
  ⟨fun m L => ⟨rfl, h m L⟩⟩

theorem Blind.ite {c : Prop} [Decidable c] {x y x' y' : Exec α} (hx : Blind x x')
    (hy : Blind y y') : Blind (if c then x else y) (if c then x' else y') := by
  split
  · exact hx
  · exact hy

end Rules

section Primitives

variable {α : Type}

theorem blind_lift (e : Except ScriptError α) : Blind (lift e) (lift e) := by
  cases e
  · exact Blind.throw _
  · exact Blind.pure _

theorem blind_onData (op : StackM α) : Blind (onData op) (onData op) := by
  refine ⟨fun m L => ?_⟩
  unfold onData
  dsimp only
  cases op { m.dstack with events := [] } with
  | ok a s => exact ⟨rfl, rfl⟩
  | error e s => exact ⟨rfl, rfl⟩

theorem blind_onAlt (op : StackM α) : Blind (onAlt op) (onAlt op) := by
  refine ⟨fun m L => ?_⟩
  unfold onAlt
  dsimp only
  cases op m.astack with
  | ok a s => exact ⟨rfl, rfl⟩
  | error e s => exact ⟨rfl, rfl⟩

theorem blind_notify (p : Phase) : Blind (notify p) (notify p) :=
  Blind.modify fun _ _ => rfl

end Primitives

end Exec

/-! The machine reads of the interpreter never look at the transcript. -/

namespace Machine

variable (m : Machine) (L : List Hook)

@[simp] theorem shouldExec_relog (op : Instruction) :
    ({ m with log := L } : Machine).shouldExec op = m.shouldExec op := rfl
@[simp] theorem isBranchExecuting_relog :
    ({ m with log := L } : Machine).isBranchExecuting = m.isBranchExecuting := rfl
@[simp] theorem isDone_relog : ({ m with log := L } : Machine).isDone = m.isDone := rfl
@[simp] theorem subScript_relog : ({ m with log := L } : Machine).subScript = m.subScript := rfl
@[simp] theorem verifySignature_relog :
    ({ m with log := L } : Machine).verifySignature = m.verifySignature := rfl
@[simp] theorem stepBound_relog : ({ m with log := L } : Machine).stepBound = m.stepBound := rfl
@[simp] theorem snapshot_relog : ({ m with log := L } : Machine).snapshot = m.snapshot := rfl
@[simp] theorem current?_relog : ({ m with log := L } : Machine).current? = m.current? := rfl

@[simp] theorem matchSignatures_relog (code : Bytes) (sigs keys : List Bytes) :
    Exec.matchSignatures { m with log := L } code sigs keys = Exec.matchSignatures m code sigs keys :=
  Exec.matchSignatures_congr (fun _ _ => by rw [verifySignature_relog]) sigs keys

end Machine

namespace Exec

/-! ## No computation reads the transcript -/

theorem blind_popItems (n : Nat) : Blind (popItems n) (popItems n) := by
  induction n with
  | zero => exact Blind.pure _
  | succ n ih => exact Blind.bind (blind_onData _) fun _ => Blind.bind ih fun _ => Blind.pure _

theorem blind_checkSig : Blind checkSig checkSig := by
  unfold checkSig
  repeat' first
    | exact blind_onData _
    | exact blind_lift _
    | exact Blind.pure _
    | exact Blind.throw _
    | (apply Blind.get_bind; intro _ _; simp only [Machine.subScript_relog])
    | apply Blind.bind
    | apply Blind.ite
    | intro _

theorem blind_checkMultiSig : Blind checkMultiSig checkMultiSig := by
  unfold checkMultiSig
  repeat' first
    | exact blind_onData _
    | exact blind_lift _
    | exact blind_popItems _
    | exact Blind.pure _
    | exact Blind.throw _
    | exact Blind.set rfl
    | (apply Blind.get_bind; intro _ _;
       simp only [Machine.subScript_relog, Machine.matchSignatures_relog])
    | apply Blind.bind
    | apply Blind.ite
    | split
    | intro _

/-- An opcode runs alike whatever the transcript: its `do` block reads the machine only through
the stacks, the counter, the blocks and the rules. -/
theorem blind_perform (op : Instruction) : Blind (perform op) (perform op) := by
  unfold perform binary compare bitwise shift hashTop popIndex lockTimeIsNop openBranch
    flipBranch closeBranch popCondition
  split
  all_goals repeat' first
    | exact blind_onData _
    | exact blind_onAlt _
    | exact blind_lift _
    | with_reducible exact blind_checkSig
    | with_reducible exact blind_checkMultiSig
    | with_reducible exact Blind.pure _
    | with_reducible exact Blind.throw _
    | exact Blind.set rfl
    | (apply Blind.modify; intro _ _; rfl)
    | (with_reducible apply Blind.get_bind; intro _ _;
       simp only [Machine.shouldExec_relog, Machine.isBranchExecuting_relog])
    | with_reducible apply Blind.bind
    | apply Blind.ite
    | split
    | intro _

theorem blind_executeInstruction (op : Instruction) :
    Blind (executeInstruction op) (executeInstruction op) := by
  unfold executeInstruction
  repeat' first
    | with_reducible exact blind_perform op
    | exact Blind.pure _
    | exact Blind.throw _
    | exact Blind.set rfl
    | (apply Blind.get_bind; intro _ _;
       simp only [Machine.shouldExec_relog, Machine.isBranchExecuting_relog])
    | apply Blind.bind
    | apply Blind.ite
    | intro _

theorem blind_checkCondition (final : Bool) : Blind (checkCondition final) (checkCondition final) := by
  unfold checkCondition
  repeat' first
    | exact blind_onData _
    | exact Blind.pure _
    | exact Blind.throw _
    | (apply Blind.get_bind; intro _ _; simp only [Machine.isDone_relog])
    | apply Blind.bind
    | apply Blind.ite
    | intro _

theorem blind_shiftScript : Blind shiftScript shiftScript := by
  unfold shiftScript
  repeat' first
    | exact blind_notify _
    | exact blind_checkCondition _
    | exact Blind.pure _
    | exact Blind.throw _
    | exact Blind.set rfl
    | (apply Blind.modify; intro _ _; rfl)
    | (apply Blind.get_bind; intro _ _; dsimp only)
    | apply Blind.bind
    | apply Blind.ite
    | split
    | intro _

theorem blind_finishStep (script : Script) : Blind (finishStep script) (finishStep script) := by
  unfold finishStep
  repeat' first
    | exact blind_notify _
    | exact blind_shiftScript
    | exact Blind.pure _
    | exact Blind.throw _
    | exact Blind.set rfl
    | (apply Blind.get_bind; intro _ _; simp only [Machine.isDone_relog])
    | apply Blind.bind
    | apply Blind.ite
    | intro _

theorem blind_step : Blind step step := by
  unfold step
  repeat' first
    | exact blind_notify _
    | exact blind_executeInstruction _
    | exact blind_finishStep _
    | exact Blind.pure _
    | exact Blind.throw _
    | (apply Blind.get_bind; intro _ _; dsimp only)
    | apply Blind.bind
    | split
    | intro _

theorem blind_runSteps (fuel : Nat) : Blind (runSteps fuel) (runSteps fuel) := by
  induction fuel with
  | zero => exact Blind.pure _
  | succ fuel ih =>
    exact Blind.bind (blind_notify _) fun _ => Blind.bind blind_step fun _ =>
      Blind.bind (blind_notify _) fun _ => Blind.ite ih (Blind.pure _)

/-- A whole execution runs alike whatever the transcript; its step budget is read off the
stacks and the scripts. -/
theorem blind_execute : Blind execute execute := by
  refine ⟨fun m L => ?_⟩
  have hrun := (Blind.bind (blind_notify .beforeExecute) fun _ =>
    blind_runSteps m.stepBound).run m L
  unfold execute
  simp only [Machine.stepBound_relog]
  revert hrun
  cases (do notify .beforeExecute; runSteps m.stepBound : Exec Unit) m with
  | ok a m₁ =>
    cases (do notify .beforeExecute; runSteps m.stepBound : Exec Unit) { m with log := L } with
    | ok b m₂ =>
      rintro ⟨-, hm⟩
      rw [hm]
      exact (Blind.bind (blind_notify _) fun _ => blind_checkCondition true).run m₁ m₂.log
    | error e m₂ => exact False.elim
  | error e m₁ =>
    cases (do notify .beforeExecute; runSteps m.stepBound : Exec Unit) { m with log := L } with
    | ok b m₂ => exact False.elim
    | error e' m₂ =>
      rintro ⟨rfl, hm⟩
      exact ⟨rfl, by rw [hm]⟩

end Exec

namespace Session

/-- The reply to a command that runs the machine, read off the result of the run. -/
def replyOf : EStateM.Result ScriptError Machine Bool → Reply
  | .ok b _ => .bool b
  | .error e _ => .failure e

section Running

/-! The commands that run the machine leave it where the run ends and reply from its result. -/

variable (s : Session)

theorem apply_step :
    s.apply .step = ({ s with machine := Exec.finalOf (Exec.step s.machine) },
      replyOf (Exec.step s.machine)) := by
  simp only [Session.apply]
  cases Exec.step s.machine <;> rfl

theorem apply_execute :
    s.apply .execute = ({ s with machine := Exec.finalOf ((do Exec.execute; pure true) s.machine) },
      replyOf ((do Exec.execute; pure true : Exec Bool) s.machine)) := by
  simp only [Session.apply]
  cases (do Exec.execute; pure true : Exec Bool) s.machine <;> rfl

theorem apply_check :
    s.apply .check =
      ({ s with machine := Exec.finalOf ((do Exec.checkCondition false; pure true) s.machine) },
        replyOf ((do Exec.checkCondition false; pure true : Exec Bool) s.machine)) := by
  simp only [Session.apply]
  cases (do Exec.checkCondition false; pure true : Exec Bool) s.machine <;> rfl

theorem apply_checkFinal :
    s.apply .checkFinal =
      ({ s with machine := Exec.finalOf ((do Exec.checkCondition true; pure true) s.machine) },
        replyOf ((do Exec.checkCondition true; pure true : Exec Bool) s.machine)) := by
  simp only [Session.apply]
  cases (do Exec.checkCondition true; pure true : Exec Bool) s.machine <;> rfl

end Running

/-- Two sessions alike but for the transcripts of their machines. -/
def Alike (s s' : Session) : Prop :=
  s'.saved = s.saved ∧ s'.machine = { s.machine with log := s'.machine.log }

theorem Alike.machine_snapshot {s s' : Session} (h : s.Alike s') :
    s'.machine.snapshot = s.machine.snapshot := by
  rw [h.2]
  rfl

/-- A run blind to the transcript replies alike on sessions alike, and leaves them alike. -/
theorem Alike.run {s s' : Session} (h : s.Alike s') {x : Exec Bool} (hx : Exec.Blind x x) :
    replyOf (x s'.machine) = replyOf (x s.machine) ∧
      Alike { s with machine := Exec.finalOf (x s.machine) }
        { s' with machine := Exec.finalOf (x s'.machine) } := by
  obtain ⟨hsaved, hm⟩ := h
  have hr := hx.run s.machine s'.machine.log
  rw [← hm] at hr
  revert hr
  cases x s.machine <;> cases x s'.machine <;>
    first | exact False.elim | (rintro ⟨rfl, hm₂⟩; exact ⟨rfl, hsaved, hm₂⟩)

/-- One command answers alike on sessions alike, and leaves them alike. -/
theorem Alike.apply {s s' : Session} (h : s.Alike s') (c : Command) :
    (s'.apply c).2 = (s.apply c).2 ∧ (s.apply c).1.Alike (s'.apply c).1 := by
  have hcheck : ∀ final, Exec.Blind (do Exec.checkCondition final; pure true : Exec Bool)
      (do Exec.checkCondition final; pure true) := fun final =>
    Exec.Blind.bind (Exec.blind_checkCondition final) fun _ => Exec.Blind.pure _
  cases c with
  | step =>
    rw [apply_step, apply_step]
    exact h.run Exec.blind_step
  | execute =>
    rw [apply_execute, apply_execute]
    exact h.run (Exec.Blind.bind Exec.blind_execute fun _ => Exec.Blind.pure true)
  | check =>
    rw [apply_check, apply_check]
    exact h.run (hcheck false)
  | checkFinal =>
    rw [apply_checkFinal, apply_checkFinal]
    exact h.run (hcheck true)
  | isDone =>
    refine ⟨?_, h.1, h.2⟩
    simp only [Session.apply]
    rw [h.2, Machine.isDone_relog]
  | save =>
    refine ⟨rfl, ?_, h.2⟩
    simp only [Session.apply]
    rw [h.2, Machine.snapshot_relog]
  | restore =>
    simp only [Session.apply]
    rw [h.1, h.2]
    exact ⟨rfl, rfl, rfl⟩
  | opcode =>
    refine ⟨?_, h.1, h.2⟩
    simp only [Session.apply]
    rw [h.2, Machine.current?_relog]
  | config | flags =>
    refine ⟨?_, h.1, h.2⟩
    simp only [Session.apply]
    rw [h.2]

/-- Sessions alike answer every command list alike, with the same snapshots. -/
theorem Alike.applyAll {s s' : Session} (h : s.Alike s') (cs : List Command) :
    s'.applyAll cs = s.applyAll cs := by
  induction cs generalizing s s' with
  | nil => rfl
  | cons c cs ih =>
    obtain ⟨hr, hs⟩ := h.apply c
    simp only [Session.applyAll]
    rw [hr, hs.machine_snapshot, ih hs]

end Session

/-! ## What a step keeps -/

/-- What a step leaves as it found it: the rules of the run, the number rules of both stacks, and
whether an early return is pending, which is clear between steps. -/
structure Setting where
  rules : Rules
  dataRule : NumberRule
  altRule : NumberRule
  pendingReturn : Bool

/-- The setting of a machine. -/
def Machine.setting (m : Machine) : Setting :=
  ⟨m.rules, m.dstack.numberRule, m.astack.numberRule, m.pendingReturn⟩

namespace Exec

/-- Keeping the setting equal to `σ`, with nothing left unreported on the stacks. -/
abbrev KeepsSetting (σ : Setting) (m : Machine) : Prop := m.setting = σ ∧ m.Quiet

section Setting

variable {σ : Setting}

/-- What keeps the frame keeps the setting. -/
theorem Preserves.setting_of_frame {α : Type} {x : Exec α}
    (h : ∀ f, Preserves (KeepsFrame f) x) : Preserves (KeepsSetting σ) x := by
  refine ⟨fun m hm => ?_⟩
  obtain ⟨hf, hq⟩ := (h m.frame).final m ⟨rfl, hm.2⟩
  refine ⟨?_, hq⟩
  rw [← hm.1]
  show (⟨_, _, _, _⟩ : Setting) = ⟨m.frame.rules, m.frame.dataRule, m.frame.altRule,
    m.frame.pendingReturn⟩
  rw [← hf]
  rfl

theorem preserves_setting_checkMultiSig : Preserves (KeepsSetting σ) checkMultiSig := by
  unfold checkMultiSig
  -- the walk of the frame, but for the write of the operation count
  repeat' first
    | (apply Preserves.setting_of_frame; intro f; apply preserves_frame_onData
       first | exact Stack.keepsRule_pop | exact Stack.keepsRule_popNum)
    | (apply Preserves.setting_of_frame; intro f; apply preserves_frame_lift)
    | (apply Preserves.setting_of_frame; intro f; apply preserves_frame_popItems)
    | with_reducible apply preserves_pure
    | with_reducible apply preserves_throw
    | (apply preserves_set; assumption)
    | with_reducible apply preserves_get_bind
    | with_reducible apply preserves_bind
    | with_reducible apply preserves_ite
    | split
    | intro _

/-- Every opcode but `OP_RETURN` keeps the setting, returning or failing. -/
theorem preserves_setting_perform {op : Instruction} (hop : op.opcode.operation ≠ .returnEarly) :
    Preserves (KeepsSetting σ) (perform op) := by
  cases hw : op.opcode.operation.writesFrame
  · exact Preserves.setting_of_frame fun f => preserves_frame_perform f op hw
  · -- the one other opcode that writes the frame is OP_CHECKMULTISIG
    obtain ⟨v, hv⟩ : ∃ v, op.opcode.operation = .checkMultiSig v := by
      revert hop hw
      cases op.opcode.operation <;> simp [Operation.writesFrame]
    unfold perform
    rw [hv]
    exact preserves_bind preserves_setting_checkMultiSig fun _ =>
      preserves_ite (Preserves.setting_of_frame fun f =>
        preserves_frame_onData f (Stack.keepsRule_pushBool _))
        (preserves_ite (preserves_throw _) (preserves_pure _))

theorem preserves_setting_notify (p : Phase) : Preserves (KeepsSetting σ) (notify p) :=
  Preserves.setting_of_frame fun f => preserves_frame_notify f p

/-- Clearing a pending return: the setting of any pending return becomes a calm one. -/
theorem KeepsSetting.settle {m : Machine} {b : Bool} (hm : KeepsSetting { σ with pendingReturn := b } m)
    (hσ : σ.pendingReturn = false) : KeepsSetting σ { m with pendingReturn := false } := by
  obtain ⟨hs, hq⟩ := hm
  refine ⟨?_, hq⟩
  obtain ⟨r, d, a, p⟩ := σ
  subst hσ
  simp only [Machine.setting, Setting.mk.injEq] at hs ⊢
  exact ⟨hs.1, hs.2.1, hs.2.2.1, True.intro⟩

theorem preserves_setting_executeInstruction {op : Instruction}
    (hop : op.opcode.operation ≠ .returnEarly) :
    Preserves (KeepsSetting σ) (executeInstruction op) := by
  unfold executeInstruction
  repeat' first
    | with_reducible exact preserves_setting_perform hop
    | with_reducible apply preserves_pure
    | with_reducible apply preserves_throw
    | (apply preserves_set; exact ⟨(‹KeepsSetting σ _›).1, (‹KeepsSetting σ _›).2⟩)
    | with_reducible apply preserves_get_bind
    | with_reducible apply preserves_bind
    | with_reducible apply preserves_ite
    | intro _

theorem preserves_setting_checkCondition (final : Bool) :
    Preserves (KeepsSetting σ) (checkCondition final) := by
  unfold checkCondition
  repeat' first
    | (apply Preserves.setting_of_frame; intro f
       exact preserves_frame_onData f Stack.keepsRule_popBool)
    | with_reducible apply preserves_pure
    | with_reducible apply preserves_throw
    | with_reducible apply preserves_get_bind
    | with_reducible apply preserves_bind
    | with_reducible apply preserves_ite
    | intro _

theorem preserves_setting_shiftScript : Preserves (KeepsSetting σ) shiftScript := by
  unfold shiftScript
  repeat' first
    | exact preserves_setting_checkCondition _
    | exact preserves_setting_notify _
    | with_reducible apply preserves_pure
    | with_reducible apply preserves_throw
    | (apply preserves_set; exact ⟨(‹KeepsSetting σ _›).1, (‹KeepsSetting σ _›).2⟩)
    | (apply preserves_modify; intro _ hm; exact ⟨hm.1, hm.2⟩)
    | with_reducible apply preserves_get_bind
    | with_reducible apply preserves_bind
    | with_reducible apply preserves_ite
    | split
    | intro _

/-- With no return pending, finishing a step keeps the setting. -/
theorem preserves_setting_finishStep (script : Script) (hσ : σ.pendingReturn = false) :
    Preserves (KeepsSetting σ) (finishStep script) := by
  unfold finishStep
  repeat' first
    | exact preserves_setting_shiftScript
    | exact preserves_setting_notify _
    | with_reducible apply preserves_pure
    | with_reducible apply preserves_throw
    | (apply preserves_set; exact ⟨(‹KeepsSetting σ _›).1, (‹KeepsSetting σ _›).2⟩)
    | (apply preserves_set
       exact KeepsSetting.settle (show KeepsSetting { σ with pendingReturn := σ.pendingReturn } _
         from ‹KeepsSetting σ _›) hσ)
    | with_reducible apply preserves_get_bind
    | with_reducible apply preserves_bind
    | with_reducible apply preserves_ite
    | intro _

theorem finishStep_of_pending (script : Script) {m : Machine} (hp : m.pendingReturn = true) :
    finishStep script m =
      (shiftScript >>= fun _ => get >>= fun m => pure m.isDone) { m with pendingReturn := false } := by
  rw [finishStep_run, if_pos hp]

/-- Finishing a step clears a pending return and keeps the rest of the setting. -/
theorem finishStep_settles (script : Script) {m : Machine} (hσ : σ.pendingReturn = false)
    (hm : KeepsSetting { σ with pendingReturn := m.pendingReturn } m) :
    KeepsSetting σ (finalOf (finishStep script m)) := by
  cases hp : m.pendingReturn
  · -- nothing pending: the setting was calm all along
    have hm' : KeepsSetting σ m := by
      have := hm.settle hσ
      rwa [← hp] at this
    exact (preserves_setting_finishStep script hσ).final m hm'
  · -- the script ends here: the return is cleared before the move to the next script
    rw [finishStep_of_pending script hp]
    exact (preserves_bind preserves_setting_shiftScript fun _ =>
      preserves_get_bind fun _ _ => preserves_pure _).final _ (hm.settle hσ)

/-- A failed instruction failed at a gate, before or after counting, or in its opcode. -/
theorem executeInstruction_error {op : Instruction} {m m' : Machine} {e : ScriptError}
    (h : executeInstruction op m = .error e m') :
    m' = m ∨ m' = m.counted op ∨ perform op (m.counted op) = .error e m' := by
  rw [executeInstruction_run] at h
  -- the passed gates are refuted as they split; a failed one leaves the machine as the count left it
  split_ifs at h
  all_goals first
    | exact .inr (.inr h)
    | (cases h; first | exact .inl rfl | exact .inr (.inl rfl))

/-- `OP_RETURN` fails before it writes anything. -/
theorem perform_returnEarly_error {op : Instruction} {m m' : Machine} {e : ScriptError}
    (hop : op.opcode.operation = .returnEarly) (h : perform op m = .error e m') : m' = m := by
  simp only [perform_of_returnEarly hop, bind, EStateM.bind, get, getThe, MonadStateOf.get, EStateM.get, set,
    MonadStateOf.set, EStateM.set, run_ite, throw, throwThe, MonadExceptOf.throw, EStateM.throw] at h
  split at h
  · cases h
    rfl
  · cases h

theorem counted_eq (m : Machine) (op : Instruction) :
    ∃ n, m.counted op = { m with numOps := n } := by
  unfold Machine.counted
  split
  · exact ⟨_, rfl⟩
  · exact ⟨m.numOps, rfl⟩

/-- A failed `OP_RETURN` leaves the machine as the gates left it, counted or not. -/
theorem executeInstruction_returnEarly_error {op : Instruction} {m m' : Machine} {e : ScriptError}
    (hop : op.opcode.operation = .returnEarly) (h : executeInstruction op m = .error e m') :
    ∃ n, m' = { m with numOps := n } := by
  obtain ⟨n, hn⟩ := counted_eq m op
  rcases executeInstruction_error h with rfl | rfl | hperf
  · exact ⟨m'.numOps, rfl⟩
  · exact ⟨n, hn⟩
  · rw [perform_returnEarly_error hop hperf]
    exact ⟨n, hn⟩

/-- A successful `OP_RETURN` writes the operation count and the two return flags only. -/
theorem executeInstruction_returnEarly_ok {op : Instruction} {m m' : Machine}
    (hop : op.opcode.operation = .returnEarly) (h : executeInstruction op m = .ok () m') :
    ∃ n e p, m' = { m with numOps := n, earlyReturn := e, pendingReturn := p } := by
  obtain ⟨n, hn⟩ := counted_eq m op
  obtain ⟨-, -, rfl | hperf⟩ := executeInstruction_ok h
  · rw [hn]
    exact ⟨n, m.earlyReturn, m.pendingReturn, rfl⟩
  · obtain ⟨-, rfl⟩ := perform_returnEarly_ok hop hperf
    rw [hn]
    exact ⟨n, true, _, rfl⟩

/-- An opcode with the end of its step keeps a calm setting: `OP_RETURN` may set a pending
return, and the end of the same step clears it. -/
theorem preserves_setting_executeFinish (op : Instruction) (script : Script)
    (hσ : σ.pendingReturn = false) :
    Preserves (KeepsSetting σ) (executeInstruction op >>= fun _ => finishStep script) := by
  by_cases hop : op.opcode.operation = .returnEarly
  · refine ⟨fun m hm => ?_⟩
    show KeepsSetting σ (finalOf (EStateM.bind (executeInstruction op) _ m))
    unfold EStateM.bind
    cases h : executeInstruction op m with
    | ok _ m₁ =>
      obtain ⟨n, e, p, rfl⟩ := executeInstruction_returnEarly_ok hop h
      refine finishStep_settles script hσ ⟨?_, hm.2⟩
      rw [← hm.1]
      rfl
    | error _ m₁ =>
      obtain ⟨n, rfl⟩ := executeInstruction_returnEarly_error hop h
      exact ⟨hm.1, hm.2⟩
  · exact preserves_bind (preserves_setting_executeInstruction hop) fun _ =>
      preserves_setting_finishStep script hσ

/-- A step, returning or failing, keeps a calm setting. -/
theorem preserves_setting_step (hσ : σ.pendingReturn = false) :
    Preserves (KeepsSetting σ) step := by
  unfold step
  repeat' first
    | exact preserves_setting_executeFinish _ _ hσ
    | exact preserves_setting_notify _
    | with_reducible apply preserves_throw
    | with_reducible apply preserves_get_bind
    | with_reducible apply preserves_bind
    | split
    | intro _

theorem preserves_setting_runSteps (hσ : σ.pendingReturn = false) (fuel : Nat) :
    Preserves (KeepsSetting σ) (runSteps fuel) := by
  induction fuel with
  | zero => exact preserves_pure _
  | succ fuel ih =>
    exact preserves_bind (preserves_setting_notify _) fun _ =>
      preserves_bind (preserves_setting_step hσ) fun _ =>
      preserves_bind (preserves_setting_notify _) fun _ => preserves_ite ih (preserves_pure _)

/-- A whole execution, returning or failing, keeps a calm setting. -/
theorem preserves_setting_execute (hσ : σ.pendingReturn = false) :
    Preserves (KeepsSetting σ) execute := by
  refine ⟨fun m hm => ?_⟩
  have hrun := (preserves_bind (preserves_setting_notify .beforeExecute) fun _ =>
    preserves_setting_runSteps hσ m.stepBound).final m hm
  unfold execute
  dsimp only
  split
  next m₁ h =>
    rw [h] at hrun
    exact (preserves_bind (preserves_setting_notify _) fun _ =>
      preserves_setting_checkCondition true).final _ hrun
  next m₁ h =>
    rw [h] at hrun
    exact ⟨hrun.1, hrun.2⟩

end Setting

end Exec

/-! ## Between commands -/

/-- What no command changes: the flags, the P2SH rule, the checker and the number rules of the
two stacks. -/
structure Fixture where
  flags : Flags
  bip16 : Bool
  checker : Checker
  dataRule : NumberRule
  altRule : NumberRule

namespace Machine

/-- The fixture of a machine. -/
def fixture (m : Machine) : Fixture :=
  ⟨m.flags, m.bip16, m.checker, m.dstack.numberRule, m.astack.numberRule⟩

/-- A machine between commands: every push and pop reported, no return pending, and limits that
follow its genesis rule. These are the parts of a machine its snapshot leaves out that could
still vary. -/
structure Settled (m : Machine) : Prop where
  quiet : m.Quiet
  calm : m.pendingReturn = false
  limits : m.limits = Limits.ofGenesis m.afterGenesis

theorem new?_settled {unlocking locking : Bytes} {F : Flags} {c : Checker} {m : Machine}
    (h : Machine.new? unlocking locking F c = .ok m) : m.Settled := by
  obtain ⟨u, l, -, -, -, -, rfl⟩ := new?_ok h
  exact ⟨⟨rfl, rfl⟩, rfl, rfl⟩

/-- A computation that keeps the setting keeps a machine settled, under its fixture. -/
theorem Settled.keep {m m' : Machine} (hm : m.Settled) (h : Exec.KeepsSetting m.setting m') :
    m'.Settled ∧ m'.fixture = m.fixture := by
  obtain ⟨hs, hq⟩ := h
  simp only [setting, rules, Setting.mk.injEq, Rules.mk.injEq] at hs
  obtain ⟨⟨hf, hl, hb, hg, hc⟩, hd, ha, hp⟩ := hs
  refine ⟨⟨hq, hp ▸ hm.calm, ?_⟩, ?_⟩
  · rw [hl, hg]
    exact hm.limits
  · simp only [fixture, hf, hb, hc, hd, ha]

/-- Restoring a snapshot settles a machine: the limits follow the restored genesis rule. -/
theorem Settled.restore {m : Machine} (hm : m.Settled) (snap : Snapshot) :
    (m.restore snap).Settled ∧ (m.restore snap).fixture = m.fixture :=
  ⟨⟨hm.quiet, rfl, rfl⟩, rfl⟩

/-- A settled machine put back from its own snapshot, on any quiet machine of its fixture, is
itself up to the transcript. -/
theorem restore_snapshot {m m₁ : Machine} (hm : m.Settled) (hq : m₁.Quiet)
    (hf : m₁.fixture = m.fixture) : m₁.restore m.snapshot = { m with log := m₁.log } := by
  obtain ⟨⟨hd, ha⟩, hp, hl⟩ := hm
  obtain ⟨hd₁, ha₁⟩ := hq
  simp only [fixture, Fixture.mk.injEq, Stack.numberRule, NumberRule.mk.injEq] at hf
  obtain ⟨hflags, hb, hc, ⟨hdn, hdm, hdg⟩, ⟨han, ham, hag⟩⟩ := hf
  -- the stacks keep their settings and have nothing unreported, the rest comes from the snapshot
  have hdstack : { m₁.dstack with items := m.dstack.items } = m.dstack := by
    cases hs : m.dstack
    simp_all
  have hastack : { m₁.astack with items := m.astack.items } = m.astack := by
    cases hs : m.astack
    simp_all
  simp only [Machine.restore, snapshot, hdstack, hastack, hflags, hb, hc, ← hl, ← hp]

end Machine

namespace Session

/-- The sessions commands lead to: a machine just set up, then any command after another. -/
inductive Operated : Session → Prop
  | setup {unlocking locking : Bytes} {flags : Flags} {checker : Checker} {m : Machine} :
      Machine.new? unlocking locking flags checker = .ok m → Operated { machine := m }
  | apply {s : Session} (c : Command) : Operated s → Operated (s.apply c).1

/-- Every command keeps the machine settled and its fixture unchanged. -/
theorem apply_settled {s : Session} (hs : s.machine.Settled) (c : Command) :
    (s.apply c).1.machine.Settled ∧ (s.apply c).1.machine.fixture = s.machine.fixture := by
  have hkeep : ∀ x : Exec Bool, Exec.Preserves (Exec.KeepsSetting s.machine.setting) x →
      (Exec.finalOf (x s.machine)).Settled ∧
        (Exec.finalOf (x s.machine)).fixture = s.machine.fixture :=
    fun x hx => hs.keep (hx.final _ ⟨rfl, hs.quiet⟩)
  have hcheck : ∀ final, Exec.Preserves (Exec.KeepsSetting s.machine.setting)
      (do Exec.checkCondition final; pure true : Exec Bool) := fun final =>
    Exec.preserves_bind (Exec.preserves_setting_checkCondition final) fun _ => Exec.preserves_pure _
  cases c with
  | step =>
    rw [apply_step]
    exact hkeep _ (Exec.preserves_setting_step hs.calm)
  | execute =>
    rw [apply_execute]
    exact hkeep _ (Exec.preserves_bind (Exec.preserves_setting_execute hs.calm) fun _ =>
      Exec.preserves_pure true)
  | check =>
    rw [apply_check]
    exact hkeep _ (hcheck false)
  | checkFinal =>
    rw [apply_checkFinal]
    exact hkeep _ (hcheck true)
  | restore => exact hs.restore _
  | isDone | save | opcode | config | flags => exact ⟨hs, rfl⟩

theorem Operated.settled {s : Session} (hs : s.Operated) : s.machine.Settled := by
  induction hs with
  | setup h => exact Machine.new?_settled h
  | apply c _ ih => exact (apply_settled ih c).1

/-- Commands in turn keep the machine settled and its fixture unchanged. -/
theorem foldl_apply_settled {s : Session} (hs : s.machine.Settled) (ops : List Command) :
    (ops.foldl (fun t c => (t.apply c).1) s).machine.Settled ∧
      (ops.foldl (fun t c => (t.apply c).1) s).machine.fixture = s.machine.fixture := by
  induction ops generalizing s with
  | nil => exact ⟨hs, rfl⟩
  | cons c ops ih =>
    obtain ⟨hs₁, hf₁⟩ := apply_settled hs c
    obtain ⟨hs₂, hf₂⟩ := ih hs₁
    exact ⟨hs₂, hf₂.trans hf₁⟩

end Session

/-- A snapshot captures everything that decides a session's future. Take the snapshot of a
session's machine, run any commands, and put the snapshot back on the machine they lead to:
the machine answers with that snapshot again, and every command list then gives the same replies
and the same snapshots as from the moment the snapshot was taken. The saved slot is the one of
that moment; commands that only run the machine leave it as it was. -/
theorem restored_snapshot_replays {s : Session} (hs : s.Operated) (ops : List Command) :
    let s₁ := ops.foldl (fun t c => (t.apply c).1) s
    let s₂ : Session := { s with machine := s₁.machine.restore s.machine.snapshot }
    s₂.machine.snapshot = s.machine.snapshot ∧ ∀ cs, s₂.applyAll cs = s.applyAll cs := by
  intro s₁ s₂
  have hm := hs.settled
  obtain ⟨hs₁, hf₁⟩ := Session.foldl_apply_settled hm ops
  -- the restored machine is the one of the snapshot's moment, up to its transcript
  have halike : s.Alike s₂ := ⟨rfl, Machine.restore_snapshot hm hs₁.quiet hf₁⟩
  exact ⟨halike.machine_snapshot, halike.applyAll⟩

theorem restored_snapshot_replays_lockOne :
    ∃ s : Session, s.Operated ∧
      let s₁ := [Command.step, .execute].foldl (fun t c => (t.apply c).1) s
      ∀ cs, ({ s with machine := s₁.machine.restore s.machine.snapshot } : Session).applyAll cs =
        s.applyAll cs := by
  obtain ⟨m, hnew⟩ := Machine.new?_lockOne
  exact ⟨_, .setup hnew, (restored_snapshot_replays (.setup hnew) [.step, .execute]).2⟩

end BitcoinScript
