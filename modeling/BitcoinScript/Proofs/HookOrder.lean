import BitcoinScript.Proofs.Runs
import BitcoinScript.Proofs.Failure

/-!
# The order of the hooks

A verification reports its run to a debugger as a transcript of hooks, and the transcript follows
a fixed grammar. A setup that fails reports its error alone, at `(0, 0)`. Otherwise the run is
announced (`before_execute`), each step reports one block, the end of the steps is announced
(`after_execute`), the final check reports the pop of the result when every step succeeded and
the check got that far, and one verdict closes the transcript: `after_success` exactly when the
verification succeeds, and otherwise the failure with the error the verification returns.

The block of a step that succeeds (`StepHooks`) opens with `before_step` and `before_op` at the
instruction's position and goes on with the pushes and pops of the opcode (`StepBody`). It ends
in one of three ways (`StepEnd`): a terminating `OP_RETURN` moves to the next script at once, with
no `after_op` and no check; or `after_op` is followed by the move to the next instruction; or, at
the end of a script, `after_op` is followed by the script change, which carries the pops of the
check a P2SH spend makes between its scripts. `after_step` closes the block at the position
reached. A step that fails stops its block where it failed, before `after_step`
(`FailedStepHooks`).

Every phase hook carries the program counter of the moment it is reported, so the blocks chain:
each starts where the one before it ended (`StepsHooks`).

The proof follows the structure of the run. Opcodes and checks of a script's result only add
pushes and pops (`Exec.StackSince`); a script change, the end of a step and a step are then taken
apart once each, and `runSteps_hooks` puts the steps together by induction on the step budget.
-/

set_option autoImplicit false

namespace BitcoinScript

/-- Whether a hook reports a push or a pop of the data stack. -/
def Hook.isStack : Hook → Bool
  | .stack _ => true
  | _ => false

/-- Hooks that all report pushes and pops of the data stack. -/
def StackHooks (s : List Hook) : Prop := ∀ h ∈ s, h.isStack = true

/-- A move from script `i` at offset `o` to the start of script `j`, oldest first: announced, then
the pushes and pops `s` of the check between the scripts of a P2SH spend, then arrived. -/
def changeHooks (i o j : Nat) (s : List Hook) : List Hook :=
  .phase .beforeScriptChange i o :: s ++ [.phase .afterScriptChange j 0]

/-- How a step whose instruction ran at `(i, o)` ends, oldest first, reaching `(j, p)`. -/
inductive StepEnd (i o : Nat) : List Hook → Nat → Nat → Prop
  /-- A terminating `OP_RETURN`: the script changes at once, with no `after_op` and no check. -/
  | early (j : Nat) : StepEnd i o (changeHooks i o j []) j 0
  /-- The instruction is done and the next one follows in the same script. -/
  | next : StepEnd i o [.phase .afterOp i o] i (o + 1)
  /-- The instruction ends its script and the next script begins. -/
  | last (j : Nat) {s : List Hook} (hs : StackHooks s) :
      StepEnd i o (.phase .afterOp i o :: changeHooks i (o + 1) j s) j 0

/-- What a step that succeeds reports itself, oldest first, from the instruction at `(i, o)` to
`(j, p)`: `before_op`, the pushes and pops of the opcode, and the end of the step. -/
def StepBody (i o : Nat) (b : List Hook) (j p : Nat) : Prop :=
  ∃ s w, StackHooks s ∧ StepEnd i o w j p ∧ b = .phase .beforeOp i o :: s ++ w

/-- The block of a step that succeeds, oldest first, from `(i, o)` to `(j, p)`: its body between
`before_step` and `after_step`. -/
def StepHooks (i o : Nat) (b : List Hook) (j p : Nat) : Prop :=
  ∃ body, StepBody i o body j p ∧
    b = .phase .beforeStep i o :: body ++ [.phase .afterStep j p]

/-- The block of a step that fails at `(i, o)`: a strict prefix of the block of a step that
succeeds from there. -/
def FailedStepHooks (i o : Nat) (f : List Hook) : Prop :=
  ∃ b j p, StepHooks i o b j p ∧ f <+: b ∧ f ≠ b

/-- The blocks of steps that succeed in turn, oldest first, from `(i, o)` to `(k, q)`. -/
inductive StepsHooks : Nat → Nat → List Hook → Nat → Nat → Prop
  | nil (i o : Nat) : StepsHooks i o [] i o
  | cons {i o j p k q : Nat} {b bs : List Hook} :
      StepHooks i o b j p → StepsHooks j p bs k q → StepsHooks i o (b ++ bs) k q

/-- The hooks of the final check: none, or the pop of the result. -/
def FinalPops (s : List Hook) : Prop :=
  s = [] ∨ ∃ d x, s = [.stack (.beforePop (d + 1)), .stack (.afterPop d x)]

/-- The hook that closes a verification at `(i, o)`: success, or the failure with its error. -/
def Hook.verdict : Except ScriptError Unit → Nat → Nat → Hook
  | .ok (), i, o => .phase .afterSuccess i o
  | .error e, i, o => .failure i o e

namespace StackHooks

theorem nil : StackHooks [] := fun _ h => absurd h List.not_mem_nil

theorem append {s t : List Hook} (hs : StackHooks s) (ht : StackHooks t) :
    StackHooks (s ++ t) := by
  intro h hh
  rcases List.mem_append.mp hh with hh | hh
  · exact hs h hh
  · exact ht h hh

theorem reverse {s : List Hook} (hs : StackHooks s) : StackHooks s.reverse :=
  fun h hh => hs h (List.mem_reverse.mp hh)

theorem events (es : List StackEvent) : StackHooks (es.map .stack) := by
  intro h hh
  obtain ⟨e, -, rfl⟩ := List.mem_map.mp hh
  rfl

end StackHooks

namespace Exec

/-- The transcript is `L` with pushes and pops of the data stack added on top. -/
abbrev StackSince (L : List Hook) (m : Machine) : Prop := ∃ s, StackHooks s ∧ m.log = s ++ L

section StackSince

variable {L : List Hook}

theorem preserves_stackSince_onData {α : Type} (op : StackM α) :
    Preserves (StackSince L) (onData op) := by
  refine ⟨fun m ⟨s, hs, hlog⟩ => ?_⟩
  unfold onData
  split
  all_goals
    rename_i t _
    exact ⟨t.events.map .stack ++ s, (StackHooks.events _).append hs, by
      simp only [finalOf_ok, finalOf_error, hlog, List.append_assoc]⟩

theorem preserves_stackSince_onAlt {α : Type} (op : StackM α) :
    Preserves (StackSince L) (onAlt op) := by
  refine ⟨fun m hm => ?_⟩
  unfold onAlt
  split
  · exact hm
  · exact hm

theorem preserves_stackSince_lift {α : Type} (x : Except ScriptError α) :
    Preserves (StackSince L) (lift x) := by
  cases x
  · exact preserves_throw _
  · exact preserves_pure _

theorem preserves_stackSince_popItems (n : Nat) : Preserves (StackSince L) (popItems n) := by
  induction n with
  | zero => exact preserves_pure _
  | succ n ih =>
    exact preserves_bind (preserves_stackSince_onData _) fun _ =>
      preserves_bind ih fun _ => preserves_pure _

theorem preserves_stackSince_checkSig : Preserves (StackSince L) checkSig := by
  unfold checkSig
  repeat' first
    | apply preserves_stackSince_onData
    | apply preserves_stackSince_lift
    | with_reducible apply preserves_pure
    | with_reducible apply preserves_throw
    | with_reducible apply preserves_get_bind
    | with_reducible apply preserves_bind
    | with_reducible apply preserves_ite
    | intro _

theorem preserves_stackSince_checkMultiSig : Preserves (StackSince L) checkMultiSig := by
  unfold checkMultiSig
  repeat' first
    | apply preserves_stackSince_onData
    | apply preserves_stackSince_lift
    | apply preserves_stackSince_popItems
    | with_reducible apply preserves_pure
    | with_reducible apply preserves_throw
    | (apply preserves_set; assumption)
    | with_reducible apply preserves_get_bind
    | with_reducible apply preserves_bind
    | with_reducible apply preserves_ite
    | split
    | intro _

/-- No opcode writes the transcript but through the pushes and pops of the data stack. -/
theorem preserves_stackSince_perform (op : Instruction) : Preserves (StackSince L) (perform op) := by
  unfold perform binary compare bitwise shift hashTop popIndex lockTimeIsNop openBranch
    flipBranch closeBranch popCondition
  split
  all_goals repeat' first
    | apply preserves_stackSince_onData
    | apply preserves_stackSince_onAlt
    | apply preserves_stackSince_lift
    | with_reducible apply preserves_stackSince_checkSig
    | with_reducible apply preserves_stackSince_checkMultiSig
    | with_reducible apply preserves_pure
    | with_reducible apply preserves_throw
    | (apply preserves_set; assumption)
    | (apply preserves_modify; intro _ hm; exact hm)
    | with_reducible apply preserves_get_bind
    | with_reducible apply preserves_bind
    | with_reducible apply preserves_ite
    | split
    | intro _

theorem preserves_stackSince_executeInstruction (op : Instruction) :
    Preserves (StackSince L) (executeInstruction op) := by
  unfold executeInstruction
  repeat' first
    | with_reducible exact preserves_stackSince_perform op
    | with_reducible apply preserves_pure
    | with_reducible apply preserves_throw
    | (apply preserves_set; assumption)
    | with_reducible apply preserves_get_bind
    | with_reducible apply preserves_bind
    | with_reducible apply preserves_ite
    | intro _

theorem preserves_stackSince_checkCondition (final : Bool) :
    Preserves (StackSince L) (checkCondition final) := by
  unfold checkCondition
  repeat' first
    | apply preserves_stackSince_onData
    | with_reducible apply preserves_pure
    | with_reducible apply preserves_throw
    | with_reducible apply preserves_get_bind
    | with_reducible apply preserves_bind
    | with_reducible apply preserves_ite
    | intro _

end StackSince

/-- A failed run of a computation that preserves `P` ends in a machine satisfying `P`. -/
theorem Preserves.of_error {α : Type} {P : Machine → Prop} {x : Exec α} (hx : Preserves P x)
    {m m' : Machine} {e : ScriptError} (hm : P m) (h : x m = .error e m') : P m' := by
  have := hx.final m hm
  rwa [h] at this

/-- Popping a truth value off a non-empty data stack reports the pop. -/
theorem onData_popBool_cons {m : Machine} {x : Bytes} {rest : List Bytes}
    (h : m.dstack.items = x :: rest) :
    onData Stack.popBool m = .ok (castToBool x)
      { m with dstack := { m.dstack with items := rest, events := [] },
               log := .stack (.afterPop rest.length x) :: .stack (.beforePop (rest.length + 1)) ::
                 m.log } := by
  simp only [onData, Stack.popBool, Stack.pop, bind, EStateM.bind, pure, EStateM.pure, h,
    List.length_cons]
  rfl

/-- A check of a script's result reports the pop of the result, when it gets that far, and
nothing else. -/
theorem checkCondition_hooks (final : Bool) (m : Machine) :
    ∃ s, FinalPops s ∧ (finalOf (checkCondition final m)).log = s.reverse ++ m.log := by
  unfold checkCondition
  simp only [bind, EStateM.bind, get, getThe, MonadStateOf.get, EStateM.get, pure, EStateM.pure,
    throw, throwThe, MonadExceptOf.throw, EStateM.throw, run_ite]
  -- the three gates leave the transcript alone; past them the stack has an item to pop
  split_ifs with hdone hempty hclean
  · exact ⟨[], .inl rfl, rfl⟩
  · exact ⟨[], .inl rfl, rfl⟩
  · exact ⟨[], .inl rfl, rfl⟩
  · obtain ⟨x, rest, hitems⟩ : ∃ x rest, m.dstack.items = x :: rest :=
      List.exists_cons_of_ne_nil (by simpa using hempty)
    refine ⟨[.stack (.beforePop (rest.length + 1)), .stack (.afterPop rest.length x)],
      .inr ⟨_, _, rfl⟩, ?_⟩
    simp only [onData_popBool_cons hitems]
    split_ifs <;> rfl

/-- A script change from `(i, o)` announces itself there; before it arrives at the start of the
next script it reports only the pushes and pops of the check a P2SH spend makes before genesis
between its scripts, and none for any other change. A change that fails stops after them. -/
theorem shiftScript_hooks (m : Machine) :
    ∃ s, StackHooks s ∧ (¬(m.bip16 = true ∧ m.idx = 1 ∧ m.afterGenesis = false) → s = []) ∧
      match shiftScript m with
      | .ok () m' => m'.log = (changeHooks m.idx m.off m'.idx s).reverse ++ m.log
      | .error _ m' => m'.log = s.reverse ++ .phase .beforeScriptChange m.idx m.off :: m.log := by
  unfold shiftScript
  simp only [bind, EStateM.bind, get, getThe, MonadStateOf.get, EStateM.get, set,
    MonadStateOf.set, EStateM.set, throw, throwThe, MonadExceptOf.throw, run_ite, notify, modify,
    modifyGet, MonadStateOf.modifyGet, EStateM.modifyGet]
  by_cases h0 : (m.bip16 && decide (m.idx = 0)) = true
  · -- leaving the unlocking script of a P2SH spend
    simp only [h0, if_true]
    split_ifs <;> exact ⟨[], StackHooks.nil, fun _ => rfl, rfl⟩
  by_cases h1 : (m.bip16 && decide (m.idx = 1) && !m.afterGenesis) = true
  · -- the check of the locking script's result, then the redeem script is read
    have hcheck : m.bip16 = true ∧ m.idx = 1 ∧ m.afterGenesis = false := by
      simpa [and_assoc] using h1
    simp only [h0, h1, if_true, if_false, Bool.false_eq_true]
    generalize hr : checkCondition false _ = r
    cases r with
    | ok a m₃ =>
      obtain ⟨s, hs, hlog⟩ := (preserves_stackSince_checkCondition false).of_ok
        ⟨[], StackHooks.nil, rfl⟩ hr
      refine ⟨s.reverse, hs.reverse, fun h => absurd hcheck h, ?_⟩
      dsimp only at hlog ⊢
      cases hsf : m₃.savedFirst with
      | nil =>
        simp only [EStateM.bind, EStateM.throw, List.reverse_reverse, hlog]
      | cons redeem rest =>
        cases hp : Script.parse? redeem with
        | none =>
          simp only [hp, EStateM.bind, EStateM.throw, List.reverse_reverse, hlog]
        | some r =>
          -- the check leaves the counter at the start of the redeem script's place
          have hoff : m₃.off = 0 :=
            congrArg Control.off ((preserves_control_checkCondition _ false).of_ok rfl hr)
          simp only [hp, EStateM.bind, EStateM.set, EStateM.get, EStateM.modifyGet, run_ite]
          split_ifs <;> simp [changeHooks, hoff, hlog]
    | error e m₃ =>
      obtain ⟨s, hs, hlog⟩ := (preserves_stackSince_checkCondition false).of_error
        ⟨[], StackHooks.nil, rfl⟩ hr
      refine ⟨s.reverse, hs.reverse, fun h => absurd hcheck h, ?_⟩
      dsimp only at hlog ⊢
      rw [List.reverse_reverse, hlog]
  · simp only [h0, h1, if_false, Bool.false_eq_true]
    split_ifs <;> exact ⟨[], StackHooks.nil, fun _ => rfl, rfl⟩

/-- The end of a step whose instruction ran at `(i, o)` reports one of the ends of `StepEnd`,
reaching the machine's new position, or stops partway through one of them when it fails. An early
return may be pending only after genesis. -/
theorem finishStep_hooks (script : Script) {m : Machine}
    (hp : m.pendingReturn = true → m.afterGenesis = true) :
    match finishStep script m with
    | .ok _ m' => ∃ w, StepEnd m.idx m.off w m'.idx m'.off ∧ m'.log = w.reverse ++ m.log
    | .error _ m' =>
      ∃ w rest j p, StepEnd m.idx m.off (w ++ rest) j p ∧ m'.log = w.reverse ++ m.log := by
  cases hpend : m.pendingReturn
  case true =>
    -- a terminating `OP_RETURN`: after genesis the change to the next script makes no check
    rw [finishStep_of_pending script hpend]
    obtain ⟨s, -, hnone, hshift⟩ := shiftScript_hooks { m with pendingReturn := false }
    obtain rfl : s = [] := hnone (by simp [hp hpend])
    cases hr : shiftScript { m with pendingReturn := false } with
    | ok _ m' =>
      rw [hr] at hshift
      have hoff : m'.off = 0 := (shiftScript_ok hr).off
      simp only [bind, EStateM.bind, hr, get, getThe, MonadStateOf.get, EStateM.get, pure,
        EStateM.pure]
      refine ⟨changeHooks m.idx m.off m'.idx [], ?_, hshift⟩
      rw [hoff]
      exact .early m'.idx
    | error e m' =>
      rw [hr] at hshift
      simp only [bind, EStateM.bind, hr]
      exact ⟨[.phase .beforeScriptChange m.idx m.off], [.phase .afterScriptChange 0 0], 0, 0,
        .early 0, hshift⟩
  case false =>
    by_cases hsize : m.dstack.depth + m.astack.depth ≤ m.limits.maxStackSize
    · have hfit : ¬ m.limits.maxStackSize < m.dstack.depth + m.astack.depth := not_lt.mpr hsize
      by_cases hend : script.length ≤ m.off + 1
      · by_cases hb : m.branches = []
        · -- the script ends: `after_op`, then the change to the next script
          rw [finishStep_end hpend hsize hb hend]
          obtain ⟨s, hs, -, hshift⟩ := shiftScript_hooks
            { m with off := m.off + 1, log := .phase .afterOp m.idx m.off :: m.log }
          cases hr : shiftScript
              { m with off := m.off + 1, log := .phase .afterOp m.idx m.off :: m.log } with
          | ok _ m' =>
            rw [hr] at hshift
            have hoff : m'.off = 0 := (shiftScript_ok hr).off
            simp only [bind, EStateM.bind, hr, get, getThe, MonadStateOf.get, EStateM.get, pure,
              EStateM.pure]
            refine ⟨.phase .afterOp m.idx m.off :: changeHooks m.idx (m.off + 1) m'.idx s, ?_, ?_⟩
            · rw [hoff]
              exact .last m'.idx hs
            · simpa using hshift
          | error e m' =>
            rw [hr] at hshift
            simp only [bind, EStateM.bind, hr]
            exact ⟨.phase .afterOp m.idx m.off :: .phase .beforeScriptChange m.idx (m.off + 1) :: s,
              [.phase .afterScriptChange 0 0], 0, 0, .last 0 hs, by simpa using hshift⟩
        · -- a block left open at the end of a script
          rw [finishStep_run, if_neg (by simp [hpend]), if_neg hfit, if_pos hend, if_neg hb]
          exact ⟨[.phase .afterOp m.idx m.off], [], m.idx, m.off + 1, .next, rfl⟩
      · -- the next instruction of the same script
        rw [finishStep_run, if_neg (by simp [hpend]), if_neg hfit, if_neg hend]
        exact ⟨[.phase .afterOp m.idx m.off], .next, rfl⟩
    · -- the stacks overflow their limit
      have hover : m.limits.maxStackSize < m.dstack.depth + m.astack.depth := not_le.mp hsize
      rw [finishStep_run, if_neg (by simp [hpend]), if_pos hover]
      exact ⟨[.phase .afterOp m.idx m.off], [], m.idx, m.off + 1, .next, rfl⟩

/-- A step from a machine with no return pending and every push and pop reported. When it
succeeds it reports the body of a step, from its instruction's position to the position it
reaches; when it fails it stops partway through one. -/
theorem step_hooks {m : Machine} (hq : m.Quiet) (hp : m.pendingReturn = false) :
    match step m with
    | .ok _ m' => ∃ b, StepBody m.idx m.off b m'.idx m'.off ∧ m'.log = b.reverse ++ m.log
    | .error _ m' =>
      ∃ g b j p, StepBody m.idx m.off b j p ∧ g <+: b ∧ m'.log = g.reverse ++ m.log := by
  -- a step that finds no instruction fails at once and reports nothing
  have hnone : ∃ g b j p, StepBody m.idx m.off b j p ∧ g <+: b ∧ m.log = g.reverse ++ m.log :=
    ⟨[], [.phase .beforeOp m.idx m.off, .phase .afterOp m.idx m.off], m.idx, m.off + 1,
      ⟨[], _, StackHooks.nil, .next, rfl⟩, List.nil_prefix, rfl⟩
  cases hs : m.scripts[m.idx]? with
  | none =>
    simp only [step, bind, EStateM.bind, get, getThe, MonadStateOf.get, EStateM.get, hs, throw,
      throwThe, MonadExceptOf.throw, EStateM.throw]
    exact hnone
  | some script =>
    cases ho : script[m.off]? with
    | none =>
      simp only [step, bind, EStateM.bind, get, getThe, MonadStateOf.get, EStateM.get, hs, ho,
        throw, throwThe, MonadExceptOf.throw, EStateM.throw]
      exact hnone
    | some op =>
      rw [step_of_current hs ho]
      simp only [bind, EStateM.bind]
      cases hx : executeInstruction op { m with log := .phase .beforeOp m.idx m.off :: m.log } with
      | error e m₁ =>
        -- the opcode failed after its pushes and pops
        obtain ⟨s, hs', hlog⟩ := (preserves_stackSince_executeInstruction op).of_error
          ⟨[], StackHooks.nil, rfl⟩ hx
        refine ⟨.phase .beforeOp m.idx m.off :: s.reverse,
          .phase .beforeOp m.idx m.off :: s.reverse ++ [.phase .afterOp m.idx m.off], m.idx,
          m.off + 1, ⟨s.reverse, _, hs'.reverse, .next, rfl⟩, ⟨_, rfl⟩, ?_⟩
        simp [hlog]
      | ok _ m₁ =>
        obtain ⟨s, hs', hlog⟩ := (preserves_stackSince_executeInstruction op).of_ok
          ⟨[], StackHooks.nil, rfl⟩ hx
        -- the opcode leaves the counter and the rules
        have hplace := (preserves_place_executeInstruction m.scripts m.idx m.off m.rules op).final
          { m with log := .phase .beforeOp m.idx m.off :: m.log } ⟨rfl, rfl, rfl, rfl⟩
        rw [hx, finalOf_ok] at hplace
        obtain ⟨-, hidx, hoff, hrules⟩ := hplace
        -- a return is pending only after genesis
        have hpend : m₁.pendingReturn = true → m₁.afterGenesis = true := by
          intro h
          have hag : m₁.afterGenesis = m.afterGenesis := congrArg Rules.afterGenesis hrules
          cases hg : m.afterGenesis
          · have hkeep := executeInstruction_keeps_pendingReturn (by exact hq) (by exact hg) hx
            simp [hkeep, hp] at h
          · rw [hag, hg]
        have hfin := finishStep_hooks script hpend
        rw [hidx, hoff] at hfin
        cases hf : finishStep script m₁ with
        | ok done m' =>
          rw [hf] at hfin
          obtain ⟨w, hw, hlog'⟩ := hfin
          simp only [hf]
          exact ⟨.phase .beforeOp m.idx m.off :: s.reverse ++ w, ⟨s.reverse, w, hs'.reverse, hw, rfl⟩,
            by simp [hlog', hlog]⟩
        | error e m' =>
          rw [hf] at hfin
          obtain ⟨w, rest, j, p, hw, hlog'⟩ := hfin
          simp only [hf]
          exact ⟨.phase .beforeOp m.idx m.off :: s.reverse ++ w,
            .phase .beforeOp m.idx m.off :: s.reverse ++ (w ++ rest), j, p,
            ⟨s.reverse, w ++ rest, hs'.reverse, hw, rfl⟩, ⟨rest, by simp⟩, by simp [hlog', hlog]⟩

/-- The block of a failed step is a strict prefix of the block of the step it stopped within. -/
theorem failedStepHooks_of_prefix {i o j p : Nat} {g b : List Hook} (hb : StepBody i o b j p)
    (hg : g <+: b) : FailedStepHooks i o (.phase .beforeStep i o :: g) := by
  refine ⟨.phase .beforeStep i o :: b ++ [.phase .afterStep j p], j, p, ⟨b, hb, rfl⟩, ?_, ?_⟩
  · exact List.cons_prefix_cons.mpr ⟨rfl, hg.trans (List.prefix_append b _)⟩
  · -- the failed block lacks at least `after_step`
    intro h
    have hlen := congrArg List.length h
    have hle := hg.length_le
    simp only [List.length_cons, List.cons_append, List.length_append] at hlen
    omega

/-- Steps run in turn from a machine with no return pending and every push and pop reported.
When they all succeed they report the blocks of `StepsHooks` up to the position reached; when one
fails, the blocks before it and its own block up to the failure. -/
theorem runSteps_hooks (fuel : Nat) {m : Machine} (hq : m.Quiet) (hp : m.pendingReturn = false) :
    match runSteps fuel m with
    | .ok _ m' => ∃ bs, StepsHooks m.idx m.off bs m'.idx m'.off ∧ m'.log = bs.reverse ++ m.log
    | .error _ m' => ∃ bs i o f, StepsHooks m.idx m.off bs i o ∧ FailedStepHooks i o f ∧
        m'.log = (bs ++ f).reverse ++ m.log := by
  -- induction on the budget; each step keeps the machine quiet with no return pending
  induction fuel generalizing m with
  | zero => exact ⟨[], .nil _ _, rfl⟩
  | succ fuel ih =>
    rw [runSteps_succ]
    have hstep := @step_hooks { m with log := .phase .beforeStep m.idx m.off :: m.log } hq hp
    simp only [bind, EStateM.bind]
    cases hs : step { m with log := .phase .beforeStep m.idx m.off :: m.log } with
    | error e m₁ =>
      rw [hs] at hstep
      obtain ⟨g, b, j, p, hb, hg, hlog⟩ := hstep
      exact ⟨[], m.idx, m.off, _, .nil _ _, failedStepHooks_of_prefix hb hg, by simp [hlog]⟩
    | ok done m₁ =>
      rw [hs] at hstep
      obtain ⟨b, hb, hlog⟩ := hstep
      have hblock : StepHooks m.idx m.off
          (.phase .beforeStep m.idx m.off :: b ++ [.phase .afterStep m₁.idx m₁.off]) m₁.idx m₁.off :=
        ⟨b, hb, rfl⟩
      have hcalm := (@preserves_setting_step m.setting hp).final
        { m with log := .phase .beforeStep m.idx m.off :: m.log } ⟨rfl, hq⟩
      rw [hs, finalOf_ok] at hcalm
      obtain ⟨hset, hq₁⟩ := hcalm
      have hp₁ : m₁.pendingReturn = false := (congrArg Setting.pendingReturn hset).trans hp
      simp only [notify, modify, modifyGet, MonadStateOf.modifyGet, EStateM.modifyGet, run_ite]
      cases done
      · -- more steps follow from the machine that reported `after_step`
        have hrun := @ih { m₁ with log := .phase .afterStep m₁.idx m₁.off :: m₁.log } hq₁ hp₁
        simp only [Bool.not_false, if_true]
        cases hr : runSteps fuel { m₁ with log := .phase .afterStep m₁.idx m₁.off :: m₁.log } with
        | ok _ m' =>
          rw [hr] at hrun
          obtain ⟨bs, hbs, hlog'⟩ := hrun
          exact ⟨_, .cons hblock hbs, by simp [hlog', hlog]⟩
        | error e m' =>
          rw [hr] at hrun
          obtain ⟨bs, i, o, f, hbs, hf, hlog'⟩ := hrun
          exact ⟨_, i, o, f, .cons hblock hbs, hf, by simp [hlog', hlog]⟩
      · -- every script has run
        simp only [Bool.not_true, Bool.false_eq_true, if_false]
        exact ⟨_, by simpa using StepsHooks.cons hblock (.nil _ _), by simp [hlog]⟩

end Exec

namespace Machine

open Exec

/-- A run from a machine with no return pending and every push and pop reported. Its transcript
grows by the announcement of the execution, the blocks of the steps that succeed, and then either
the announced end at the position reached, the pops of the final check and the verdict there, or
the block of a failed step, the announced end at the failed machine's position and the failure
with the error the run returns. -/
theorem run_hooks {m : Machine} (hq : m.Quiet) (hp : m.pendingReturn = false) :
    ∃ bs i o, StepsHooks m.idx m.off bs i o ∧
      ((∃ pops, FinalPops pops ∧ m.run.1.log =
          (.phase .beforeExecute m.idx m.off :: bs ++ .phase .afterExecute i o :: pops ++
            [Hook.verdict m.run.2 i o]).reverse ++ m.log) ∨
       ∃ f e j p, FailedStepHooks i o f ∧ m.run.2 = .error e ∧ m.run.1.log =
          (Hook.phase .beforeExecute m.idx m.off :: bs ++ f ++
            [Hook.phase .afterExecute j p, Hook.failure j p e]).reverse ++ m.log) := by
  have hsteps := @runSteps_hooks m.stepBound
    { m with log := .phase .beforeExecute m.idx m.off :: m.log } hq hp
  unfold run execute
  simp only [bind, EStateM.bind, notify, modify, modifyGet, MonadStateOf.modifyGet,
    EStateM.modifyGet]
  generalize runSteps m.stepBound _ = r at hsteps ⊢
  cases r with
  | ok u m₁ =>
    cases u
    obtain ⟨bs, hbs, hlog⟩ := hsteps
    refine ⟨bs, m₁.idx, m₁.off, hbs, .inl ?_⟩
    dsimp only
    -- the final check runs where the end was announced, and stays there
    generalize hm₂ : { m₁ with log := .phase .afterExecute m₁.idx m₁.off :: m₁.log } = m₂
    obtain ⟨pops, hpops, hcheck⟩ := checkCondition_hooks true m₂
    have hctl := (preserves_control_checkCondition m₂.control true).final m₂ rfl
    generalize checkCondition true m₂ = c at hcheck hctl ⊢
    have hidx : (finalOf c).idx = m₁.idx := (congrArg Control.idx hctl).trans (by rw [← hm₂]; rfl)
    have hoff : (finalOf c).off = m₁.off := (congrArg Control.off hctl).trans (by rw [← hm₂]; rfl)
    refine ⟨pops, hpops, ?_⟩
    cases c with
    | ok u m₃ =>
      cases u
      simp only [finalOf_ok] at hcheck hidx hoff
      simp [Hook.verdict, hidx, hoff, hcheck, ← hm₂, hlog]
    | error e m₃ =>
      simp only [finalOf_error] at hcheck hidx hoff
      simp [Hook.verdict, hidx, hoff, hcheck, ← hm₂, hlog]
  | error e m₁ =>
    obtain ⟨bs, i, o, f, hbs, hf, hlog⟩ := hsteps
    exact ⟨bs, i, o, hbs, .inr ⟨f, e, m₁.idx, m₁.off, hf, rfl, by simp [hlog]⟩⟩

end Machine

/-- The transcript of a verification follows its grammar. A setup that fails reports its error
alone. Otherwise the transcript opens with `before_execute` where the set-up machine stands and goes
on with the blocks of the steps that succeed, chained by position. Then either `after_execute` comes
where the steps ended, with the pop of the final check if it got that far, and the verdict there,
`after_success` exactly when the verification succeeds; or a step failed, and its block up to the
failure comes, with `after_execute` and the failure carrying the error the verification returns,
both where the failed machine stands. -/
theorem verify_hooks_follow_grammar (unlocking locking : Bytes) (flags : Flags)
    (checker : Checker) :
    (∀ e, Machine.new? unlocking locking flags checker = .error e →
      (verify unlocking locking flags checker).hooks = [.failure 0 0 e]) ∧
    ∀ m, Machine.new? unlocking locking flags checker = .ok m →
      ∃ steps i o, StepsHooks m.idx m.off steps i o ∧
        ((∃ pops, FinalPops pops ∧ (verify unlocking locking flags checker).hooks =
            Hook.phase .beforeExecute m.idx m.off :: steps ++ Hook.phase .afterExecute i o ::
              pops ++ [Hook.verdict (verify unlocking locking flags checker).result i o]) ∨
         ∃ f e j p, FailedStepHooks i o f ∧
           (verify unlocking locking flags checker).result = .error e ∧
           (verify unlocking locking flags checker).hooks =
             Hook.phase .beforeExecute m.idx m.off :: steps ++ f ++
               [Hook.phase .afterExecute j p, Hook.failure j p e]) := by
  refine ⟨fun e he => by simp [verify, he], fun m hm => ?_⟩
  -- a set-up machine is quiet, with no return pending and an empty transcript
  obtain ⟨hq, hp, hlog⟩ : m.Quiet ∧ m.pendingReturn = false ∧ m.log = [] := by
    obtain ⟨u, l, -, -, -, -, rfl⟩ := Machine.new?_ok hm
    exact ⟨⟨rfl, rfl⟩, rfl, rfl⟩
  have hv : (verify unlocking locking flags checker).hooks = m.run.1.log.reverse ∧
      (verify unlocking locking flags checker).result = m.run.2 := by
    simp [verify, hm]
  obtain ⟨bs, i, o, hbs, hrun⟩ := Machine.run_hooks hq hp
  refine ⟨bs, i, o, hbs, ?_⟩
  rw [hv.1, hv.2]
  rcases hrun with ⟨pops, hpops, hr⟩ | ⟨f, e, j, p, hf, he, hr⟩
  · exact .inl ⟨pops, hpops, by simp [hr, hlog]⟩
  · exact .inr ⟨f, e, j, p, hf, he, by simp [hr, hlog]⟩

end BitcoinScript
