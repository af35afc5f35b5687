import BitcoinScript.Proofs.Conditional
import BitcoinScript.Proofs.Counter

/-!
# Where a failed step leaves the program counter

A step fails in one of three places. The gates and the work of the opcode run before the counter
moves, so a failure there leaves the scripts and the counter as they were, and the failed machine
stands on the same instruction. At the end of a script with a block still open the counter has
already moved past the script's last instruction when `OP_ENDIF` is found missing. And before
genesis, leaving the locking script of a P2SH spend moves the counter to the redeem script's place
before the locking script's result is checked and the redeem script is read, so a failure there
leaves the counter on a script that was never appended.

In the last two cases the counter stands on no instruction, so a further step fails at once with
an invalid program counter and changes nothing.
-/

set_option autoImplicit false

namespace BitcoinScript

namespace Exec

section Place

variable (ss : List Script) (i o : Nat) (r : Rules)

/-- Keeping the scripts, the program counter and the rules. -/
abbrev KeepsPlace (m : Machine) : Prop := m.scripts = ss ∧ m.idx = i ∧ m.off = o ∧ m.rules = r

/-- What keeps the control part keeps the scripts, the program counter and the rules. -/
theorem Preserves.place_of_control {α : Type} {x : Exec α}
    (h : ∀ c, Preserves (KeepsControl c) x) : Preserves (KeepsPlace ss i o r) x := by
  refine ⟨fun m hm => ?_⟩
  have hc := (h m.control).final m rfl
  obtain ⟨hs, hi, ho, hr⟩ := hm
  exact ⟨(congrArg Control.scripts hc).trans hs, (congrArg Control.idx hc).trans hi,
    (congrArg Control.off hc).trans ho, (congrArg Control.rules hc).trans hr⟩

/-- `OP_IF` pops its operand and pushes a block; the counter stays. -/
theorem preserves_place_openBranch (op : Instruction) (negate : Bool) :
    Preserves (KeepsPlace ss i o r) (openBranch op negate) := by
  unfold openBranch popCondition pop
  repeat' first
    | apply Preserves.place_of_control _ _ _ _ (preserves_onData · _)
    | with_reducible apply preserves_pure
    | with_reducible apply preserves_throw
    | (apply preserves_modify; intro _ hm; exact hm)
    | with_reducible apply preserves_get_bind
    | with_reducible apply preserves_bind
    | with_reducible apply preserves_ite
    | split
    | intro _

/-- `OP_ELSE` and `OP_ENDIF` rewrite the open blocks only. -/
theorem preserves_place_flipBranch : Preserves (KeepsPlace ss i o r) flipBranch := by
  unfold flipBranch
  repeat' first
    | with_reducible apply preserves_throw
    | (apply preserves_set; assumption)
    | with_reducible apply preserves_get_bind
    | with_reducible apply preserves_bind
    | with_reducible apply preserves_ite
    | split
    | intro _

theorem preserves_place_closeBranch : Preserves (KeepsPlace ss i o r) closeBranch := by
  unfold closeBranch
  repeat' first
    | with_reducible apply preserves_throw
    | (apply preserves_set; assumption)
    | with_reducible apply preserves_get_bind
    | split
    | intro _

/-- No opcode moves the counter or changes the scripts, returning or failing: the block opcodes
write the open blocks, the others keep the whole control part. -/
theorem preserves_place_perform (op : Instruction) : Preserves (KeepsPlace ss i o r) (perform op) := by
  cases h : op.opcode.operation.changesBlocks
  · exact Preserves.place_of_control ss i o r (preserves_control_perform · op h)
  · obtain ⟨negate, hop⟩ | hop | hop := Operation.changesBlocks_eq_true.1 h
    · simpa only [perform, hop] using preserves_place_openBranch ss i o r op negate
    · simpa only [perform, hop] using preserves_place_flipBranch ss i o r
    · simpa only [perform, hop] using preserves_place_closeBranch ss i o r

theorem preserves_place_executeInstruction (op : Instruction) :
    Preserves (KeepsPlace ss i o r) (executeInstruction op) := by
  unfold executeInstruction
  repeat' first
    | with_reducible exact preserves_place_perform ss i o r op
    | with_reducible apply preserves_pure
    | with_reducible apply preserves_throw
    | (apply preserves_set; assumption)
    | with_reducible apply preserves_get_bind
    | with_reducible apply preserves_bind
    | with_reducible apply preserves_ite
    | intro _

end Place

/-! ## Failures at the end of a step -/

/-- Popping a boolean fails only on an empty data stack. -/
theorem popBool_error {m m' : Machine} {e : ScriptError}
    (h : onData Stack.popBool m = .error e m') : m.dstack.items = [] := by
  simp only [onData, Stack.popBool, Stack.pop, bind, EStateM.bind, pure, EStateM.pure] at h
  cases hs : m.dstack.items with
  | nil => rfl
  | cons x rest => simp [hs] at h

/-- Checking the result of a script that is not the last fails on an empty stack or a false top,
and keeps the control part. -/
theorem checkCondition_error {m m' : Machine} {e : ScriptError}
    (h : checkCondition false m = .error e m') :
    (e = .emptyStack ∨ e = .evalFalse) ∧ m'.control = m.control := by
  have hc := (preserves_control_checkCondition m.control false).final m rfl
  rw [h] at hc
  refine ⟨?_, hc⟩
  unfold checkCondition at h
  simp only [bind, EStateM.bind, get, getThe, MonadStateOf.get, EStateM.get, pure, EStateM.pure,
    throw, throwThe, MonadExceptOf.throw, EStateM.throw, run_ite] at h
  -- the gates of the final check cannot fire here
  split at h
  next hfinal => simp at hfinal
  split at h
  next =>
    cases h
    exact .inl rfl
  split at h
  next hclean => simp at hclean
  next hne _ =>
    split at h
    next v s _ =>
      split at h
      next =>
        cases h
        exact .inr rfl
      next => cases h
    next e' s hpop =>
      -- the top is popped from a stack found non-empty
      exact absurd (popBool_error hpop) (by simpa using hne)

/-- A script change fails only at the P2SH stage before genesis, after the counter has moved to the
redeem script's place: the locking script's result fails its check, or no redeem script can be
read from the saved stack. The scripts are those it started with. -/
theorem shiftScript_error {m m' : Machine} {e : ScriptError} (h : shiftScript m = .error e m') :
    m.bip16 = true ∧ m.idx = 1 ∧ m.afterGenesis = false ∧ m'.scripts = m.scripts ∧
      m'.idx = 2 ∧ m'.off = 0 ∧ (e = .emptyStack ∨ e = .evalFalse ∨ e = .malformedPush) := by
  unfold shiftScript at h
  simp only [bind, EStateM.bind, get, getThe, MonadStateOf.get, EStateM.get, set,
    MonadStateOf.set, EStateM.set, throw, throwThe, MonadExceptOf.throw, run_ite, notify, modify,
    modifyGet, MonadStateOf.modifyGet, EStateM.modifyGet] at h
  -- of the three ways of `StageMove` only the redeem stage can fail
  split at h
  next => split at h <;> cases h
  next =>
    split at h
    next hredeem =>
      simp only [Bool.and_eq_true, decide_eq_true_eq, Bool.not_eq_true'] at hredeem
      obtain ⟨⟨hbip, hidx⟩, hgen⟩ := hredeem
      refine ⟨hbip, hidx, hgen, ?_⟩
      split at h
      next heq =>
        -- the check passed: the redeem script is missing or cannot be read
        obtain ⟨-, top, below, L, -, -, -, rfl⟩ := checkCondition_ok heq
        dsimp only at h
        cases hsaved : m.savedFirst with
        | nil =>
          simp only [hsaved, EStateM.throw, EStateM.bind] at h
          cases h
          exact ⟨rfl, rfl, rfl, .inl rfl⟩
        | cons redeem rest =>
          cases hparse : Script.parse? redeem with
          | none =>
            simp only [hsaved, hparse, EStateM.throw, EStateM.bind] at h
            cases h
            exact ⟨rfl, rfl, rfl, .inr (.inr rfl)⟩
          | some r =>
            simp only [hsaved, hparse, EStateM.bind, EStateM.set, EStateM.get] at h
            split at h <;> cases h
      next heq =>
        obtain ⟨he, hc⟩ := checkCondition_error heq
        cases h
        exact ⟨congrArg Control.scripts hc, congrArg Control.idx hc, congrArg Control.off hc,
          he.imp_right .inl⟩
    next => split at h <;> cases h

/-- How a step can fail after its opcode: the stacks overflow before the counter moves; a block is
still open when the counter has moved past the end of the script; or the script change fails. -/
theorem finishStep_error {script : Script} {m m' : Machine} {e : ScriptError}
    (h : finishStep script m = .error e m') :
    (m'.scripts = m.scripts ∧ m'.idx = m.idx ∧ m'.off = m.off) ∨
    (e = .unbalancedConditional ∧ m'.scripts = m.scripts ∧ m'.idx = m.idx ∧
      m'.off = m.off + 1 ∧ script.length ≤ m.off + 1) ∨
    (m.bip16 = true ∧ m.idx = 1 ∧ m.afterGenesis = false ∧ m'.scripts = m.scripts ∧
      m'.idx = 2 ∧ m'.off = 0 ∧ (e = .emptyStack ∨ e = .evalFalse ∨ e = .malformedPush)) := by
  rw [finishStep_run] at h
  split_ifs at h with hp hover hend hb
  · -- a pending early return ends the script at once
    have hfail := shiftScript_error (shiftScript_isDone_error h)
    exact .inr (.inr hfail)
  · cases h
    exact .inl ⟨rfl, rfl, rfl⟩
  · -- the counter moves before the end of the script is looked at
    have hfail := shiftScript_error (shiftScript_isDone_error h)
    exact .inr (.inr hfail)
  · cases h
    exact .inr (.inl ⟨rfl, rfl, rfl, rfl, hend⟩)

/-- How a step can fail. Before its opcode is done and when the stacks overflow, the scripts, the
counter and the rules are as they were. A block still open at the end of the script fails the step
with the counter one past the script's last instruction. A failed script change at the P2SH stage
leaves the counter at the redeem script's place. -/
theorem step_error {m m' : Machine} {e : ScriptError} (h : step m = .error e m') :
    (m'.scripts = m.scripts ∧ m'.idx = m.idx ∧ m'.off = m.off) ∨
    (e = .unbalancedConditional ∧ m'.scripts = m.scripts ∧ m'.idx = m.idx ∧
      m'.off = m.off + 1 ∧ m.scripts[m.idx]?.map List.length = some (m.off + 1)) ∨
    (m.bip16 = true ∧ m.idx = 1 ∧ m.afterGenesis = false ∧ m'.scripts = m.scripts ∧
      m'.idx = 2 ∧ m'.off = 0 ∧ (e = .emptyStack ∨ e = .evalFalse ∨ e = .malformedPush)) := by
  unfold step at h
  simp only [bind, EStateM.bind, get, getThe, MonadStateOf.get, EStateM.get] at h
  cases hs : m.scripts[m.idx]? with
  | none =>
    simp only [hs, throw, throwThe, MonadExceptOf.throw, EStateM.throw] at h
    cases h
    exact .inl ⟨rfl, rfl, rfl⟩
  | some script =>
    cases ho : script[m.off]? with
    | none =>
      simp only [hs, ho, throw, throwThe, MonadExceptOf.throw, EStateM.throw] at h
      cases h
      exact .inl ⟨rfl, rfl, rfl⟩
    | some op =>
      simp only [hs, ho, notify, modify, modifyGet, MonadStateOf.modifyGet, EStateM.modifyGet,
        EStateM.bind] at h
      -- the opcode, done or failed, keeps the scripts, the counter and the rules
      have hkeep := preserves_place_executeInstruction m.scripts m.idx m.off m.rules op
      have hstart : KeepsPlace m.scripts m.idx m.off m.rules
          { m with log := .phase .beforeOp m.idx m.off :: m.log } := ⟨rfl, rfl, rfl, rfl⟩
      split at h
      next m₁ hexec =>
        obtain ⟨hs₁, hi₁, ho₁, hr₁⟩ := hkeep.of_ok hstart hexec
        rcases finishStep_error h with ⟨hs', hi', ho'⟩ | ⟨rfl, hs', hi', ho', hlen⟩ |
            ⟨hbip, hidx, hgen, hs', hi', ho', he⟩
        · exact .inl ⟨hs'.trans hs₁, hi'.trans hi₁, ho'.trans ho₁⟩
        · -- the instruction at the counter was the script's last
          have hlt : m.off < script.length := (List.getElem?_eq_some_iff.1 ho).1
          rw [ho₁] at hlen ho'
          refine .inr (.inl ⟨rfl, hs'.trans hs₁, hi'.trans hi₁, ho', ?_⟩)
          rw [Option.map_some, Option.some.injEq]
          omega
        · have hbip' : m.bip16 = true := (congrArg Rules.bip16 hr₁).symm.trans hbip
          have hgen' : m.afterGenesis = false := (congrArg Rules.afterGenesis hr₁).symm.trans hgen
          exact .inr (.inr ⟨hbip', hi₁ ▸ hidx, hgen', hs'.trans hs₁, hi', ho', he⟩)
      next hexec =>
        have hplace := hkeep.final _ hstart
        rw [hexec] at hplace
        cases h
        exact .inl ⟨hplace.1, hplace.2.1, hplace.2.2.1⟩

/-- A machine whose counter stands on no instruction fails its step and changes nothing. -/
theorem step_of_current?_eq_none {m : Machine} (h : m.current? = none) :
    step m = .error (.invalidProgramCounter m.idx m.off) m := by
  unfold step
  simp only [bind, EStateM.bind, get, getThe, MonadStateOf.get, EStateM.get]
  cases hs : m.scripts[m.idx]? with
  | none => rfl
  | some script =>
    cases ho : script[m.off]? with
    | none => simp [ho, throw, throwThe, MonadExceptOf.throw, EStateM.throw]
    | some op => simp [Machine.current?, hs, ho] at h

/-! ## Failed steps of a run -/

/-- A failed step of a run either leaves the scripts and the program counter as they were, so
that the failed machine stands on the same instruction, or strands the counter past its script:
at the end of a script with a block still open, one past the script's last instruction; at the
P2SH stage before genesis, on the redeem script that was never appended. A stranded counter
makes the next step fail at once, changing nothing. -/
theorem failed_step_keeps_or_strands_counter {m m' : Machine} {e : ScriptError}
    (hm : m.Reachable) (h : step m = .error e m') :
    m'.scripts = m.scripts ∧
    ((m'.idx = m.idx ∧ m'.off = m.off ∧ m'.current? = m.current?) ∨
     (step m' = .error (.invalidProgramCounter m'.idx m'.off) m' ∧
      ((e = .unbalancedConditional ∧ m'.idx = m.idx ∧ m'.off = m.off + 1) ∨
       (m.bip16 = true ∧ m.idx = 1 ∧ m.afterGenesis = false ∧ m'.idx = 2 ∧ m'.off = 0 ∧
         (e = .emptyStack ∨ e = .evalFalse ∨ e = .malformedPush))))) := by
  rcases step_error h with ⟨hs, hi, ho⟩ | ⟨rfl, hs, hi, ho, hlen⟩ |
      ⟨hbip, hidx, hgen, hs, hi, ho, he⟩
  · refine ⟨hs, .inl ⟨hi, ho, ?_⟩⟩
    simp only [Machine.current?, hs, hi, ho]
  · -- the counter is the length of the script it stands on
    have hnone : m'.current? = none := by
      obtain ⟨script, hscript, hl⟩ := Option.map_eq_some_iff.1 hlen
      simp [Machine.current?, hs, hi, ho, hscript, ← hl]
    exact ⟨hs, .inr ⟨step_of_current?_eq_none hnone, .inl ⟨rfl, hi, ho⟩⟩⟩
  · -- before the redeem script is appended a run holds two scripts
    have htwo : m.scripts.length = 2 := by
      rcases (Machine.reachable_onTrack hm).staged with h₂ | ⟨-, h₃⟩
      · exact h₂
      · omega
    have hnone : m'.current? = none := by
      simp [Machine.current?, hs, hi, htwo]
    exact ⟨hs, .inr ⟨step_of_current?_eq_none hnone, .inr ⟨hbip, hidx, hgen, hi, ho, he⟩⟩⟩

/-- The spend of `OP_1` against `OP_IF`: the unlocking script runs, then the locking script opens
a block that nothing closes. -/
theorem run_pushOne_openIf :
    ∃ m₀ m₁ m₂ : Machine, Machine.new? [0x51] [0x63] ⟨0⟩ Checker.acceptAll = .ok m₀ ∧
      step m₀ = .ok false m₁ ∧ step m₁ = .error .unbalancedConditional m₂ ∧
      m₁.idx = 1 ∧ m₁.off = 0 ∧ m₂.idx = 1 ∧ m₂.off = 1 := by
  have hu : Script.parse? [0x51] = some [Instruction.ofByte 0x51] := by
    simp [Script.parse?, Script.parseAt]
  have hl : Script.parse? [0x63] = some [Instruction.ofByte 0x63] := by
    simp [Script.parse?, Script.parseAt]
  obtain ⟨m₀, hnew⟩ : ∃ m, Machine.new? [0x51] [0x63] ⟨0⟩ Checker.acceptAll = .ok m := by
    simp only [Machine.new?, hu, hl]
    exact ⟨_, rfl⟩
  obtain ⟨u, l, hu', hl', -, -, hm₀⟩ := Machine.new?_ok hnew
  rw [hu, Option.some.injEq] at hu'
  rw [hl, Option.some.injEq] at hl'
  subst hu' hl' hm₀
  exact ⟨_, _, _, hnew, rfl, rfl, rfl, rfl, rfl, rfl⟩

/-- A block left open at the end of a script fails the step after the counter has moved. -/
theorem unclosed_block_moves_counter :
    ∃ m₀ m₁ m₂ : Machine, Machine.new? [0x51] [0x63] ⟨0⟩ Checker.acceptAll = .ok m₀ ∧
      step m₀ = .ok false m₁ ∧ step m₁ = .error .unbalancedConditional m₂ ∧
      m₂.idx = m₁.idx ∧ m₂.off ≠ m₁.off := by
  obtain ⟨m₀, m₁, m₂, hnew, h₀, h₁, hi₁, ho₁, hi₂, ho₂⟩ := run_pushOne_openIf
  exact ⟨m₀, m₁, m₂, hnew, h₀, h₁, hi₂.trans hi₁.symm, by omega⟩

theorem failed_step_keeps_or_strands_counter_unclosedIf :
    ∃ m m' : Machine, m.Reachable ∧ step m = .error .unbalancedConditional m' ∧
      m'.off = m.off + 1 ∧ step m' = .error (.invalidProgramCounter m'.idx m'.off) m' := by
  obtain ⟨m₀, m, m', hnew, h₀, h, -, ho, -, ho'⟩ := run_pushOne_openIf
  have hm : m.Reachable := .step (.setup hnew) h₀
  obtain ⟨-, ⟨-, hoff, -⟩ | ⟨hnext, -⟩⟩ := failed_step_keeps_or_strands_counter hm h
  · omega
  · exact ⟨m, m', hm, h, by omega, hnext⟩

end Exec

end BitcoinScript
