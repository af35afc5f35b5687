import BitcoinScript.Proofs.Snapshot

/-!
# Runs without the P2SH stage

A P2SH spend runs like the plain run of its two scripts until the locking script ends. Only there
does the stage act: it checks the locking script's result and goes on with the redeem script.
Before that its two fields, whether the stage is on and the stack saved for it, are written once,
when the unlocking script ends, and read nowhere.

`Machine.unstaged` drops the two fields, and `Exec.Unstages x y` says that `y` runs on the machine
without them exactly as `x` runs on the machine itself, transcript included. The rules below build
it through `bind`, `get`, `set`, `if` and the stack primitives, so that the fact for an opcode is a
walk over its `do` block; a whole step has it away from the end of the locking script
(`step_unstaged`). At that end the two runs part (`step_stage`, `step_stage_of_unstaged`): the
plain run has run both its scripts, while the run with the stage checks the locking script's
result and moves on to the redeem script, appended, on the rest of the saved stack.
-/

set_option autoImplicit false

namespace BitcoinScript

namespace Machine

/-- The machine without its P2SH stage. -/
def unstaged (m : Machine) : Machine := { m with bip16 := false, savedFirst := [] }

section Unstaged

variable (m : Machine)

@[simp] theorem unstaged_dstack : m.unstaged.dstack = m.dstack := rfl
@[simp] theorem unstaged_astack : m.unstaged.astack = m.astack := rfl
@[simp] theorem unstaged_elseSeen : m.unstaged.elseSeen = m.elseSeen := rfl
@[simp] theorem unstaged_branches : m.unstaged.branches = m.branches := rfl
@[simp] theorem unstaged_savedFirst : m.unstaged.savedFirst = [] := rfl
@[simp] theorem unstaged_scripts : m.unstaged.scripts = m.scripts := rfl
@[simp] theorem unstaged_idx : m.unstaged.idx = m.idx := rfl
@[simp] theorem unstaged_off : m.unstaged.off = m.off := rfl
@[simp] theorem unstaged_beginCode : m.unstaged.beginCode = m.beginCode := rfl
@[simp] theorem unstaged_numOps : m.unstaged.numOps = m.numOps := rfl
@[simp] theorem unstaged_flags : m.unstaged.flags = m.flags := rfl
@[simp] theorem unstaged_limits : m.unstaged.limits = m.limits := rfl
@[simp] theorem unstaged_bip16 : m.unstaged.bip16 = false := rfl
@[simp] theorem unstaged_afterGenesis : m.unstaged.afterGenesis = m.afterGenesis := rfl
@[simp] theorem unstaged_earlyReturn : m.unstaged.earlyReturn = m.earlyReturn := rfl
@[simp] theorem unstaged_pendingReturn : m.unstaged.pendingReturn = m.pendingReturn := rfl
@[simp] theorem unstaged_checker : m.unstaged.checker = m.checker := rfl
@[simp] theorem unstaged_log : m.unstaged.log = m.log := rfl

@[simp] theorem unstaged_isDone : m.unstaged.isDone = m.isDone := rfl
@[simp] theorem unstaged_verifySignature : m.unstaged.verifySignature = m.verifySignature := rfl

@[simp] theorem matchSignatures_unstaged (code : Bytes) (sigs keys : List Bytes) :
    Exec.matchSignatures m.unstaged code sigs keys = Exec.matchSignatures m code sigs keys :=
  Exec.matchSignatures_congr (fun _ _ => by rw [unstaged_verifySignature]) sigs keys

end Unstaged

end Machine

namespace Exec

/-- A result with its machine unstaged. -/
def unstagedResult {α : Type} :
    EStateM.Result ScriptError Machine α → EStateM.Result ScriptError Machine α
  | .ok a m => .ok a m.unstaged
  | .error e m => .error e m.unstaged

/-- `y` runs on a machine without its P2SH stage as `x` runs on the machine itself. -/
structure Unstages {α : Type} (x y : Exec α) : Prop where
  run : ∀ m, y m.unstaged = unstagedResult (x m)

section Rules

variable {α β : Type}

theorem Unstages.pure (a : α) : Unstages (pure a) (pure a) := ⟨fun _ => rfl⟩

theorem Unstages.throw (e : ScriptError) : Unstages (throw e : Exec α) (throw e) :=
  ⟨fun _ => rfl⟩

theorem Unstages.bind {x y : Exec α} {f g : α → Exec β} (hx : Unstages x y)
    (hf : ∀ a, Unstages (f a) (g a)) : Unstages (x >>= f) (y >>= g) := by
  refine ⟨fun m => ?_⟩
  show EStateM.bind y g m.unstaged = unstagedResult (EStateM.bind x f m)
  unfold EStateM.bind
  rw [hx.run m]
  cases x m with
  | ok a m₁ => exact (hf a).run m₁
  | error e m₁ => rfl

/-- The rule for `let m ← get`: the second continuation reads the machine without its stage. -/
theorem Unstages.get_bind {k k' : Machine → Exec α} (hk : ∀ m, Unstages (k m) (k' m.unstaged)) :
    Unstages (get >>= k) (get >>= k') :=
  ⟨fun m => (hk m).run m⟩

theorem Unstages.set {s s' : Machine} (h : s' = s.unstaged) :
    Unstages (set s : Exec PUnit) (set s') :=
  ⟨fun _ => by rw [h]; rfl⟩

theorem Unstages.modify {f g : Machine → Machine} (h : ∀ m, g m.unstaged = (f m).unstaged) :
    Unstages (modify f : Exec PUnit) (modify g) :=
  ⟨fun m => by rw [modify_run, modify_run, h]; rfl⟩

/-- The two conditions may be decided by different instances, as when one was read off the
machine without its stage. -/
theorem Unstages.ite {c : Prop} {i₁ i₂ : Decidable c} {x y x' y' : Exec α} (hx : Unstages x x')
    (hy : Unstages y y') : Unstages (@ite _ c i₁ x y) (@ite _ c i₂ x' y') := by
  by_cases h : c
  · rw [if_pos h, if_pos h]
    exact hx
  · rw [if_neg h, if_neg h]
    exact hy

/-- Running `x` and then `f` against `y` and then `g`, where `g` follows `f` only from the machines
that `x` reaches from `m`. -/
theorem Unstages.run_bind {x y : Exec α} {f g : α → Exec β} (hx : Unstages x y) (m : Machine)
    (hf : ∀ a m₁, x m = .ok a m₁ → g a m₁.unstaged = unstagedResult (f a m₁)) :
    (y >>= g) m.unstaged = unstagedResult ((x >>= f) m) := by
  show EStateM.bind y g m.unstaged = unstagedResult (EStateM.bind x f m)
  unfold EStateM.bind
  rw [hx.run m]
  cases hm : x m with
  | ok a m₁ => exact hf a m₁ hm
  | error e m₁ => rfl

end Rules

section Primitives

variable {α : Type}

theorem unstages_lift (e : Except ScriptError α) : Unstages (lift e) (lift e) := by
  cases e
  · exact Unstages.throw _
  · exact Unstages.pure _

theorem unstages_onData (op : StackM α) : Unstages (onData op) (onData op) := by
  refine ⟨fun m => ?_⟩
  unfold onData
  simp only [Machine.unstaged_dstack]
  cases op { m.dstack with events := [] } <;> rfl

theorem unstages_onAlt (op : StackM α) : Unstages (onAlt op) (onAlt op) := by
  refine ⟨fun m => ?_⟩
  unfold onAlt
  simp only [Machine.unstaged_astack]
  cases op m.astack <;> rfl

theorem unstages_notify (p : Phase) : Unstages (notify p) (notify p) :=
  Unstages.modify fun _ => rfl

end Primitives

/-! ## No opcode reads the stage -/

theorem unstages_popItems (n : Nat) : Unstages (popItems n) (popItems n) := by
  induction n with
  | zero => exact Unstages.pure _
  | succ n ih =>
    exact Unstages.bind (unstages_onData _) fun _ => Unstages.bind ih fun _ => Unstages.pure _

theorem unstages_checkSig : Unstages checkSig checkSig := by
  unfold checkSig
  repeat' first
    | exact unstages_onData _
    | exact unstages_lift _
    | with_reducible exact Unstages.pure _
    | with_reducible exact Unstages.throw _
    | (with_reducible apply Unstages.get_bind; intro _; dsimp only [Machine.unstaged])
    | with_reducible apply Unstages.bind
    | intro _
    | apply Unstages.ite

theorem unstages_checkMultiSig : Unstages checkMultiSig checkMultiSig := by
  unfold checkMultiSig
  repeat' first
    | exact unstages_onData _
    | exact unstages_lift _
    | exact unstages_popItems _
    | with_reducible exact Unstages.pure _
    | with_reducible exact Unstages.throw _
    | (apply Unstages.set; rfl)
    | (with_reducible apply Unstages.get_bind; intro _
       try simp only [Machine.matchSignatures_unstaged]; dsimp only [Machine.unstaged])
    | with_reducible apply Unstages.bind
    | intro _
    | apply Unstages.ite
    | split

/-- Every opcode runs alike without the stage: its `do` block reads the machine only through the
stacks, the counter, the blocks and the rules. -/
theorem unstages_perform (op : Instruction) : Unstages (perform op) (perform op) := by
  unfold perform binary compare bitwise shift hashTop popIndex lockTimeIsNop openBranch
    flipBranch closeBranch popCondition
  split
  all_goals repeat' first
    | exact unstages_onData _
    | exact unstages_onAlt _
    | exact unstages_lift _
    | with_reducible exact unstages_checkSig
    | with_reducible exact unstages_checkMultiSig
    | with_reducible exact Unstages.pure _
    | with_reducible exact Unstages.throw _
    | (apply Unstages.set; rfl)
    | (with_reducible apply Unstages.get_bind; intro _; dsimp only [Machine.unstaged])
    | with_reducible apply Unstages.bind
    | (apply Unstages.modify; intro _; rfl)
    | intro _
    | apply Unstages.ite
    | split

theorem unstages_executeInstruction (op : Instruction) :
    Unstages (executeInstruction op) (executeInstruction op) := by
  unfold executeInstruction
  repeat' first
    | with_reducible exact unstages_perform op
    | with_reducible exact Unstages.pure _
    | with_reducible exact Unstages.throw _
    | (with_reducible apply Unstages.get_bind; intro _; dsimp only [Machine.unstaged])
    | with_reducible apply Unstages.bind
    | (apply Unstages.set; rfl)
    | intro _
    | apply Unstages.ite

theorem unstages_checkCondition (final : Bool) :
    Unstages (checkCondition final) (checkCondition final) := by
  unfold checkCondition
  repeat' first
    | exact unstages_onData _
    | with_reducible exact Unstages.pure _
    | with_reducible exact Unstages.throw _
    | (with_reducible apply Unstages.get_bind; intro _; dsimp only [Machine.unstaged])
    | with_reducible apply Unstages.bind
    | intro _
    | apply Unstages.ite

end Exec

namespace Machine

/-- The machine runs the locking script of a P2SH spend before genesis: the end of this script
brings the stage. -/
def Staging (m : Machine) : Prop := m.bip16 = true ∧ m.idx = 1 ∧ m.afterGenesis = false

end Machine

namespace Exec

/-- Away from the stage, a script change is the plain move to the next script: saving the
unlocking script's stack writes only the field the unstaged machine drops. -/
theorem shiftScript_unstaged {m : Machine} (h : ¬ m.Staging) :
    shiftScript m.unstaged = unstagedResult (shiftScript m) := by
  simp only [shiftScript, bind, EStateM.bind, get, getThe, MonadStateOf.get, EStateM.get, set,
    MonadStateOf.set, EStateM.set, throw, throwThe, MonadExceptOf.throw, run_ite, notify, modify,
    modifyGet, MonadStateOf.modifyGet, EStateM.modifyGet, Machine.unstaged_bip16, Bool.false_and,
    Bool.false_eq_true, ite_false]
  by_cases h0 : m.bip16 = true ∧ m.idx = 0
  · obtain ⟨hb, hi⟩ := h0
    simp only [hb, hi, Machine.unstaged_idx, Machine.unstaged_scripts, Nat.zero_add,
      Bool.true_and, decide_true, ite_true]
    split <;> rfl
  · have h1 : ¬(m.bip16 = true ∧ m.idx = 1 ∧ m.afterGenesis = false) := h
    have e0 : (m.bip16 && decide (m.idx = 0)) = false := by simpa using h0
    have e1 : (m.bip16 && decide (m.idx = 1) && !m.afterGenesis) = false := by simpa using h1
    simp only [e0, e1, Bool.false_eq_true, ite_false, Machine.unstaged_idx,
      Machine.unstaged_scripts]
    -- both land alike: the skip of an empty script reads the scripts only
    by_cases hc : (m.scripts[m.idx + 1]?.map List.isEmpty == some true) = true <;>
      simp only [hc, ite_true] <;> rfl

/-- A script change away from the stage, then the answer whether every script has run. -/
theorem shiftScript_isDone_unstaged {m : Machine} (h : ¬ m.Staging) :
    (shiftScript >>= fun _ => get >>= fun m => pure m.isDone : Exec Bool) m.unstaged =
      unstagedResult ((shiftScript >>= fun _ => get >>= fun m => pure m.isDone : Exec Bool) m) := by
  show EStateM.bind shiftScript _ m.unstaged = unstagedResult (EStateM.bind shiftScript _ m)
  unfold EStateM.bind
  rw [shiftScript_unstaged h]
  cases shiftScript m <;> rfl

/-- The end of a step runs alike without the stage unless it changes script at the stage. -/
theorem finishStep_unstaged {script : Script} {m : Machine}
    (h : ¬ m.Staging ∨ (m.pendingReturn = false ∧ m.off + 1 < script.length)) :
    finishStep script m.unstaged = unstagedResult (finishStep script m) := by
  cases hp : m.pendingReturn
  · have hm : ¬ m.Staging ∨ m.off + 1 < script.length := by
      rcases h with h | h
      · exact .inl h
      · exact .inr h.2
    unfold finishStep
    dsimp only [Machine.unstaged]
    simp only [bind, EStateM.bind, get, getThe, MonadStateOf.get, EStateM.get, set,
      MonadStateOf.set, EStateM.set, pure, EStateM.pure, throw, throwThe, MonadExceptOf.throw,
      EStateM.throw, run_ite, notify, modify, modifyGet, MonadStateOf.modifyGet,
      EStateM.modifyGet, hp, Bool.false_eq_true, ite_false]
    split_ifs with hover hend hbranch
    · rfl
    · rfl
    · -- the script ends: its change is away from the stage
      have hs : ¬ Machine.Staging
          { m with off := m.off + 1, pendingReturn := false,
                   log := .phase .afterOp m.idx m.off :: m.log } := by
        rcases hm with hm | hm
        · exact hm
        · omega
      exact shiftScript_isDone_unstaged hs
    · rfl
  · have hs : ¬ m.Staging := by
      rcases h with h | h
      · exact h
      · simp [hp] at h
    rw [finishStep_of_pending script hp, finishStep_of_pending script (by simpa using hp)]
    exact shiftScript_isDone_unstaged (m := { m with pendingReturn := false }) hs

/-- Before genesis no opcode makes an early return pending. -/
theorem executeInstruction_keeps_pendingReturn {op : Instruction} {m m' : Machine} (hq : m.Quiet)
    (hag : m.afterGenesis = false) (h : executeInstruction op m = .ok () m') :
    m'.pendingReturn = m.pendingReturn := by
  obtain ⟨n, hn⟩ := counted_eq m op
  obtain ⟨-, -, hrun⟩ := executeInstruction_ok h
  rcases hrun with rfl | hperf
  · exact Machine.counted_pendingReturn m op
  · by_cases hop : op.opcode.operation = .returnEarly
    · -- `OP_RETURN` runs after genesis only
      have hafter := (perform_returnEarly_ok hop hperf).1
      rw [hn] at hafter
      simp [hag] at hafter
    · have hkeep := (preserves_setting_perform hop).of_ok
        (⟨rfl, Machine.counted_quiet hq op⟩ : KeepsSetting (m.counted op).setting (m.counted op)) hperf
      rw [← Machine.counted_pendingReturn m op]
      exact congrArg Setting.pendingReturn hkeep.1

/-- At the stage the gates and the opcode keep the counter, the scripts and the saved stack, the
machine stays at the stage, and no return is left pending. -/
theorem executeInstruction_staged {op : Instruction} {m m₁ : Machine} (hq : m.Quiet)
    (hp : m.pendingReturn = false) (hs : m.Staging)
    (h : executeInstruction op { m with log := .phase .beforeOp m.idx m.off :: m.log } = .ok () m₁) :
    m₁.idx = m.idx ∧ m₁.off = m.off ∧ m₁.scripts = m.scripts ∧ m₁.savedFirst = m.savedFirst ∧
      m₁.Staging ∧ m₁.pendingReturn = false := by
  obtain ⟨-, -, hf, -, -⟩ := executeInstruction_frame (by exact hq) h
  have hidx : m₁.idx = m.idx := congrArg Frame.idx hf
  have hrules : m₁.rules = m.rules := congrArg Frame.rules hf
  exact ⟨hidx, congrArg Frame.off hf, congrArg Frame.scripts hf, congrArg Frame.savedFirst hf,
    ⟨(congrArg Rules.bip16 hrules).trans hs.1, hidx.trans hs.2.1,
      (congrArg Rules.afterGenesis hrules).trans hs.2.2⟩,
    (executeInstruction_keeps_pendingReturn (by exact hq) (by exact hs.2.2) h).trans hp⟩

/-- A step runs alike without the stage unless it ends the locking script of a P2SH spend before
genesis. -/
theorem step_unstaged {m : Machine} (hq : m.Quiet) (hp : m.pendingReturn = false)
    (h : m.Staging → m.off + 1 < (m.scripts.getD m.idx []).length) :
    step m.unstaged = unstagedResult (step m) := by
  unfold step
  simp only [get_bind_run, Machine.unstaged_scripts, Machine.unstaged_idx, Machine.unstaged_off]
  cases hs : m.scripts[m.idx]? with
  | none => rfl
  | some script =>
    cases ho : script[m.off]? with
    | none => simp only [ho]; rfl
    | some op =>
      simp only [ho]
      refine (unstages_notify _).run_bind m fun _ m₁ hn => ?_
      cases hn
      refine (unstages_executeInstruction op).run_bind _ fun _ m₂ hex => ?_
      obtain ⟨-, -, hf, -, -⟩ := executeInstruction_frame (by exact hq) hex
      have hidx : m₂.idx = m.idx := congrArg Frame.idx hf
      have hoff : m₂.off = m.off := congrArg Frame.off hf
      have hrules : m₂.rules = m.rules := congrArg Frame.rules hf
      refine finishStep_unstaged ?_
      by_cases hst : m₂.Staging
      · -- the locking script goes on after this instruction
        have hst' : m.Staging := by
          obtain ⟨hb, hi, hag⟩ := hst
          exact ⟨(congrArg Rules.bip16 hrules).symm.trans hb, hidx ▸ hi,
            (congrArg Rules.afterGenesis hrules).symm.trans hag⟩
        refine .inr ⟨?_, ?_⟩
        · rw [executeInstruction_keeps_pendingReturn (by exact hq) (by exact hst'.2.2) hex]
          exact hp
        · have hlen := h hst'
          simp only [List.getD_eq_getElem?_getD, hs, Option.getD_some] at hlen
          omega
      · exact .inl hst

/-! ## The stage -/

theorem unstagedResult_eq_ok {α : Type} {r : EStateM.Result ScriptError Machine α} {a : α}
    {m' : Machine} : unstagedResult r = .ok a m' ↔ ∃ m, r = .ok a m ∧ m' = m.unstaged := by
  cases r with
  | ok b m => simp [unstagedResult, eq_comm]
  | error e m => simp [unstagedResult]

/-- A true item on top passes the check between scripts. -/
theorem checkCondition_false_ok {m : Machine} {top : Bytes} {below : List Bytes}
    (hitems : m.dstack.items = top :: below) (htop : castToBool top = true) :
    ∃ m', checkCondition false m = .ok () m' := by
  simp [checkCondition, bind, EStateM.bind, get, getThe, MonadStateOf.get, EStateM.get, pure,
    EStateM.pure, throw, throwThe, MonadExceptOf.throw, onData, Stack.popBool, Stack.pop,
    hitems, htop]

/-- The end of a script with nothing pending, the stacks within their limit and no block open:
the counter moves past the last instruction and the script changes. -/
theorem finishStep_end {script : Script} {m : Machine} (hp : m.pendingReturn = false)
    (hsize : m.dstack.depth + m.astack.depth ≤ m.limits.maxStackSize) (hb : m.branches = [])
    (hend : script.length ≤ m.off + 1) :
    finishStep script m = (shiftScript >>= fun _ => get >>= fun m => pure m.isDone)
      { m with off := m.off + 1, log := .phase .afterOp m.idx m.off :: m.log } := by
  rw [finishStep_run, if_neg (by simp [hp]), if_neg (by omega), if_pos hend, if_pos hb]

/-- Conversely, a successful end of a script with nothing pending had the stacks within their
limit and no block open, and changed script. -/
theorem finishStep_ok_end {script : Script} {m m' : Machine} {done : Bool}
    (hp : m.pendingReturn = false) (hend : script.length ≤ m.off + 1)
    (h : finishStep script m = .ok done m') :
    m.dstack.depth + m.astack.depth ≤ m.limits.maxStackSize ∧ m.branches = [] ∧
      shiftScript { m with off := m.off + 1, log := .phase .afterOp m.idx m.off :: m.log } =
        .ok () m' := by
  rw [finishStep_run, if_neg (by simp [hp]), if_pos hend] at h
  -- the overflow and the open block fail, which `split_ifs` refutes
  split_ifs at h with hover hb
  exact ⟨not_lt.mp hover, hb, (shiftScript_isDone_ok h).1⟩

/-- Without the stage a script change never fails. -/
theorem shiftScript_ok_of_unstaged {m : Machine} (hb : m.bip16 = false) :
    ∃ m', shiftScript m = .ok () m' := by
  simp only [shiftScript, bind, EStateM.bind, get, getThe, MonadStateOf.get, EStateM.get, set,
    MonadStateOf.set, EStateM.set, run_ite, notify, modify, modifyGet, MonadStateOf.modifyGet,
    EStateM.modifyGet, hb, Bool.false_and, Bool.false_eq_true, ite_false]
  split <;> exact ⟨_, rfl⟩

/-- At the stage the script change succeeds when the locking script left a true item and the saved
stack holds a redeem script that parses. -/
theorem shiftScript_stage_ok {m : Machine} {top redeem : Bytes} {below rest : List Bytes}
    {r : Script} (h : m.Staging) (hitems : m.dstack.items = top :: below)
    (htop : castToBool top = true) (hsaved : m.savedFirst = redeem :: rest)
    (hparse : Script.parse? redeem = some r) : ∃ m', shiftScript m = .ok () m' := by
  obtain ⟨hb, hi, hag⟩ := h
  simp only [shiftScript, checkCondition, bind, EStateM.bind, get, getThe, MonadStateOf.get,
    EStateM.get, set, MonadStateOf.set, EStateM.set, pure, EStateM.pure, throw, throwThe,
    MonadExceptOf.throw, run_ite, notify, modify, modifyGet, MonadStateOf.modifyGet,
    EStateM.modifyGet, onData, Stack.popBool, Stack.pop, hb, hi, hag, hitems, htop, hsaved, hparse,
    Bool.true_and, Bool.false_and, decide_true, Bool.not_false, Bool.and_true, Bool.not_true,
    decide_eq_true_eq, one_ne_zero, List.isEmpty_cons, Bool.false_eq_true, ite_true, ite_false]
  split <;> exact ⟨_, rfl⟩

/-- The stage step, from the run with the stage: the plain run finishes its two scripts here with
a true item on top, and the saved stack holds a redeem script that parses; the machine goes on to
that script, appended, on the rest of the saved stack. -/
theorem step_stage {m m' : Machine} {done : Bool} (hq : m.Quiet) (hp : m.pendingReturn = false)
    (hs : m.Staging) (h2 : m.scripts.length = 2) (hend : (m.scripts.getD 1 []).length ≤ m.off + 1)
    (h : step m = .ok done m') :
    ∃ mB, step m.unstaged = .ok true mB ∧ (∃ mB', checkCondition false mB = .ok () mB') ∧
      ∃ redeem rest r, m.savedFirst = redeem :: rest ∧ Script.parse? redeem = some r ∧
        m'.scripts = m.scripts ++ [r] ∧ m'.dstack.items = rest ∧
        m'.idx = Machine.landing (m.scripts ++ [r]) 2 ∧ m'.off = 0 ∧ m'.earlyReturn = false := by
  obtain ⟨script, op, m₁, hsc, hop, hex, hfin⟩ := step_ok h
  obtain ⟨-, hoff, hscripts, hsaved, ⟨hb₁, hi₁, hag₁⟩, hp₁⟩ :=
    executeInstruction_staged hq hp hs hex
  have hlen : script.length ≤ m.off + 1 := by
    rw [hs.2.1] at hsc
    simpa [List.getD_eq_getElem?_getD, hsc] using hend
  obtain ⟨hsize, hb, hshift⟩ := finishStep_ok_end hp₁ (by rw [hoff]; exact hlen) hfin
  have hc := shiftScript_ok hshift
  -- leaving the locking script of the spend is the stage
  obtain ⟨top, below, redeem, rest, r, hitems, htop, hsaved₁, hparse, hsc', hd', hidx'⟩ :
      ∃ top below redeem rest r, m₁.dstack.items = top :: below ∧ castToBool top = true ∧
        m₁.savedFirst = redeem :: rest ∧ Script.parse? redeem = some r ∧
        m'.scripts = m₁.scripts ++ [r] ∧ m'.dstack.items = rest ∧
        m'.idx = Machine.landing (m₁.scripts ++ [r]) 2 := by
    cases hc.move with
    | save _ hi => simp [hi₁] at hi
    | redeem _ _ _ hitems htop hsaved hparse hsc' _ hd' hidx' =>
      exact ⟨_, _, _, _, _, hitems, htop, hsaved, hparse, hsc', by rw [hd'], hidx'⟩
    | next _ hno => exact absurd ⟨hb₁, hi₁, hag₁⟩ hno
  -- the plain run changes script the same way and is done
  obtain ⟨mB, hB⟩ := shiftScript_ok_of_unstaged
    (m := { m₁.unstaged with off := m₁.off + 1, log := .phase .afterOp m₁.idx m₁.off :: m₁.log })
    rfl
  have hcB := shiftScript_ok hB
  have hex' := (unstages_executeInstruction op).run { m with
    log := .phase .beforeOp m.idx m.off :: m.log }
  rw [hex] at hex'
  obtain ⟨hdB, hscB, hidxB⟩ : mB.dstack = m₁.dstack ∧ mB.scripts = m.scripts ∧
      mB.idx = Machine.landing m.scripts 2 := by
    cases hcB.move with
    | save hb' => simp [Machine.unstaged] at hb'
    | redeem hb' => simp [Machine.unstaged] at hb'
    | next _ _ hsc _ hd hi =>
      refine ⟨hd, hsc.trans hscripts, ?_⟩
      rw [hi]
      show Machine.landing m₁.scripts (m₁.idx + 1) = _
      rw [hi₁, hscripts]
  have hdone : mB.isDone = true := by
    have := Machine.le_landing m.scripts 2
    simp only [Machine.isDone, hscB, hidxB, h2, decide_eq_true_eq]
    omega
  refine ⟨mB, ?_, ?_, redeem, rest, r, hsaved ▸ hsaved₁, hparse, hscripts ▸ hsc', hd',
    hscripts ▸ hidx', hc.off, hc.earlyReturn⟩
  · rw [step_of_current (m := m.unstaged) hsc hop, ← hdone]
    refine bind_eq_ok.mpr ⟨(), m₁.unstaged, hex', ?_⟩
    rw [finishStep_end (m := m₁.unstaged) hp₁ hsize hb (by simpa [hoff] using hlen)]
    exact bind_eq_ok.mpr ⟨(), mB, hB, rfl⟩
  · exact checkCondition_false_ok (hdB ▸ hitems) htop

/-- The stage step, from the plain run: when the plain run finishes its two scripts with a true
item on top and the saved stack holds a redeem script that parses, the step with the stage
succeeds. -/
theorem step_stage_of_unstaged {m mB mB' : Machine} {redeem : Bytes} {rest : List Bytes}
    {r : Script} (hq : m.Quiet) (hp : m.pendingReturn = false) (hs : m.Staging)
    (hend : (m.scripts.getD 1 []).length ≤ m.off + 1) (h : step m.unstaged = .ok true mB)
    (hcheck : checkCondition false mB = .ok () mB') (hsaved : m.savedFirst = redeem :: rest)
    (hparse : Script.parse? redeem = some r) :
    ∃ done m', step m = .ok done m' := by
  obtain ⟨script, op, m₁', hsc, hop, hex', hfin'⟩ := step_ok h
  have hrun := (unstages_executeInstruction op).run
    { m with log := .phase .beforeOp m.idx m.off :: m.log }
  have hex'' : executeInstruction op
      ({ m with log := .phase .beforeOp m.idx m.off :: m.log } : Machine).unstaged = .ok () m₁' :=
    hex'
  rw [hex''] at hrun
  obtain ⟨m₁, hex, rfl⟩ := unstagedResult_eq_ok.mp hrun.symm
  obtain ⟨-, hoff, -, hsaved₁, hstage, hp₁⟩ := executeInstruction_staged hq hp hs hex
  have hlen : script.length ≤ m₁.off + 1 := by
    have hsc₁ : m.scripts[1]? = some script := hs.2.1 ▸ hsc
    simpa [List.getD_eq_getElem?_getD, hsc₁, hoff] using hend
  obtain ⟨hsize, hb, hshift⟩ := finishStep_ok_end (m := m₁.unstaged) hp₁ hlen hfin'
  -- the plain change keeps the data stack, whose top the check found true
  have hdB : mB.dstack = m₁.dstack := by
    cases (shiftScript_ok hshift).move with
    | save hb' => simp [Machine.unstaged] at hb'
    | redeem hb' => simp [Machine.unstaged] at hb'
    | next _ _ _ _ hd => exact hd
  obtain ⟨-, top, below, -, hitems, htop, -, -⟩ := checkCondition_ok hcheck
  rw [hdB] at hitems
  obtain ⟨mC, hC⟩ := shiftScript_stage_ok
    (m := { m₁ with off := m₁.off + 1, log := .phase .afterOp m₁.idx m₁.off :: m₁.log })
    hstage hitems htop (hsaved₁.trans hsaved) hparse
  refine ⟨mC.isDone, mC, ?_⟩
  rw [step_of_current (m := m) hsc hop]
  refine bind_eq_ok.mpr ⟨(), m₁, hex, ?_⟩
  rw [finishStep_end hp₁ hsize hb hlen]
  exact bind_eq_ok.mpr ⟨(), mC, hC, rfl⟩

end Exec

end BitcoinScript
