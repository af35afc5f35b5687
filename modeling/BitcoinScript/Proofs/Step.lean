import BitcoinScript.Proofs.Frame

/-!
# One step, taken apart

A successful step fetches the instruction at the program counter, records `before_op`, runs the
instruction through the rules every opcode passes (`executeInstruction`) and then finishes
(`finishStep`): an early return or the end of a script moves to the next script, and otherwise
the counter moves on. The lemmas here say what each part can do, so that a property of a whole
run is proved once per part and never by unfolding `step`:

* `bind_eq_ok` peels a successful sequence apart, and `pop_ok`, `popBool_ok` say what a pop
  does;
* `step_ok` splits a successful step into its instruction and its finish, and `finishStep_run`
  says what the finish does in each case;
* `executeInstruction_conditional`: a conditional opcode always reaches its own work;
* `preserves_control_executeInstruction`: any other opcode but the block ones keeps the control
  part of the machine;
* `preserves_course_finishStep`: finishing a step keeps the rules and the open blocks.

`Machine.Reachable` is the set of machines a run reaches: set up for a spend (`Machine.new?_ok`
says what a successful setup builds), then stepped.
-/

set_option autoImplicit false

namespace BitcoinScript

namespace Exec

/-- Running a choice between two computations runs the one the condition picks. -/
theorem run_ite {α : Type} {c : Prop} [Decidable c] (x y : Exec α) (m : Machine) :
    (if c then x else y) m = if c then x m else y m := by
  split
  · rfl
  · rfl

theorem countsAsOperation_of_isConditional {op : Opcode} (h : op.isConditional = true) :
    op.countsAsOperation = true := by
  simp only [Opcode.isConditional, Opcode.countsAsOperation, Bool.and_eq_true, decide_eq_true_eq,
    UInt8.le_iff_toNat_le, UInt8.lt_iff_toNat_lt, UInt8.reduceToNat] at *
  omega

/-- A sequence succeeds when its first part does and the rest succeeds from where it ended. -/
theorem bind_eq_ok {α β : Type} {x : Exec α} {f : α → Exec β} {m m' : Machine} {b : β} :
    (x >>= f) m = .ok b m' ↔ ∃ a s, x m = .ok a s ∧ f a s = .ok b m' := by
  show EStateM.bind x f m = _ ↔ _
  unfold EStateM.bind
  cases x m with
  | ok a s =>
    constructor
    · intro h
      exact ⟨a, s, rfl, h⟩
    · rintro ⟨a', s', h, hf⟩
      cases h
      exact hf
  | error e s => simp

@[simp] theorem get_run (m : Machine) : (get : Exec Machine) m = .ok m m := rfl

@[simp] theorem pure_run {α : Type} (a : α) (m : Machine) : (pure a : Exec α) m = .ok a m := rfl

@[simp] theorem throw_run {α : Type} (e : ScriptError) (m : Machine) :
    (throw e : Exec α) m = .error e m := rfl

@[simp] theorem modify_run (g : Machine → Machine) (m : Machine) :
    (modify g : Exec PUnit) m = .ok () (g m) := rfl

@[simp] theorem set_run (s m : Machine) : (set s : Exec PUnit) m = .ok () s := rfl

/-- The multisig scan reads the machine and the script code only through the signature check. -/
theorem matchSignatures_congr {m m' : Machine} {code code' : Bytes}
    (h : ∀ sig key, m'.verifySignature sig key code' = m.verifySignature sig key code)
    (sigs keys : List Bytes) :
    matchSignatures m' code' sigs keys = matchSignatures m code sigs keys := by
  -- the scan recurses on the keys
  induction keys generalizing sigs with
  | nil => cases sigs <;> rfl
  | cons key keys ih =>
    cases sigs with
    | nil => rfl
    | cons sig sigs => simp only [matchSignatures, h, ih]

/-- A successful pop takes the top item off the data stack and leaves the control part. -/
theorem pop_ok {m m' : Machine} {x : Bytes} (h : pop m = .ok x m') :
    ∃ rest, m.dstack.items = x :: rest ∧ m'.dstack.items = rest ∧ m'.control = m.control := by
  simp only [pop, onData, Stack.pop] at h
  cases hs : m.dstack.items with
  | nil => simp [hs] at h
  | cons y rest =>
    simp only [hs, EStateM.Result.ok.injEq] at h
    obtain ⟨rfl, rfl⟩ := h
    exact ⟨rest, rfl, rfl, rfl⟩

/-- A successful pop of a truth value takes the top item off the data stack. -/
theorem popBool_ok {m m' : Machine} {v : Bool} (h : onData Stack.popBool m = .ok v m') :
    ∃ x rest, m.dstack.items = x :: rest ∧ v = castToBool x ∧ m'.dstack.items = rest ∧
      m'.control = m.control := by
  simp only [onData, Stack.popBool, Stack.pop, bind, EStateM.bind, pure, EStateM.pure] at h
  cases hs : m.dstack.items with
  | nil => simp [hs] at h
  | cons y rest =>
    simp only [hs, EStateM.Result.ok.injEq] at h
    obtain ⟨rfl, rfl⟩ := h
    exact ⟨y, rest, rfl, rfl, rfl, rfl⟩

/-- A step with an instruction at the counter runs it on the machine that has recorded
`before_op`, and finishes. -/
theorem step_of_current {m : Machine} {script : Script} {op : Instruction}
    (hs : m.scripts[m.idx]? = some script) (ho : script[m.off]? = some op) :
    step m = (executeInstruction op >>= fun _ => finishStep script)
      { m with log := .phase .beforeOp m.idx m.off :: m.log } := by
  simp only [step, bind, EStateM.bind, get, getThe, MonadStateOf.get, EStateM.get, hs, ho, notify,
    modify, modifyGet, MonadStateOf.modifyGet, EStateM.modifyGet]

/-- A successful step runs the instruction at the program counter on the machine that has
recorded `before_op`, and then finishes the step. -/
theorem step_ok {m m' : Machine} {done : Bool} (h : step m = .ok done m') :
    ∃ script op m₁, m.scripts[m.idx]? = some script ∧ script[m.off]? = some op ∧
      executeInstruction op { m with log := .phase .beforeOp m.idx m.off :: m.log } = .ok () m₁ ∧
      finishStep script m₁ = .ok done m' := by
  -- a step with no instruction at the counter fails
  cases hs : m.scripts[m.idx]? with
  | none =>
    simp [step, bind, EStateM.bind, get, getThe, MonadStateOf.get, EStateM.get, hs, throw,
      throwThe, MonadExceptOf.throw, EStateM.throw] at h
  | some script =>
    cases ho : script[m.off]? with
    | none =>
      simp [step, bind, EStateM.bind, get, getThe, MonadStateOf.get, EStateM.get, hs, ho, throw,
        throwThe, MonadExceptOf.throw, EStateM.throw] at h
    | some op =>
      rw [step_of_current hs ho] at h
      obtain ⟨⟨⟩, m₁, hex, hfin⟩ := bind_eq_ok.mp h
      exact ⟨script, op, m₁, rfl, ho, hex, hfin⟩

/-- The end of a step, case by case: a pending early return moves to the next script at once;
otherwise, after `after_op`, the stacks must fit their limit and the counter moves on, to the next
script at the end of this one, where no block may be left open. -/
theorem finishStep_run (script : Script) (m : Machine) :
    finishStep script m =
      if m.pendingReturn then
        (shiftScript >>= fun _ => get >>= fun m => pure m.isDone) { m with pendingReturn := false }
      else if m.limits.maxStackSize < m.dstack.depth + m.astack.depth then
        .error (.stackOverflow (m.dstack.depth + m.astack.depth) m.limits.maxStackSize)
          { m with log := .phase .afterOp m.idx m.off :: m.log }
      else if script.length ≤ m.off + 1 then
        if m.branches = [] then
          (shiftScript >>= fun _ => get >>= fun m => pure m.isDone)
            { m with off := m.off + 1, log := .phase .afterOp m.idx m.off :: m.log }
        else
          .error .unbalancedConditional
            { m with off := m.off + 1, log := .phase .afterOp m.idx m.off :: m.log }
      else .ok m.isDone { m with off := m.off + 1, log := .phase .afterOp m.idx m.off :: m.log } := by
  simp only [finishStep, bind, EStateM.bind, get, getThe, MonadStateOf.get, EStateM.get, set,
    MonadStateOf.set, EStateM.set, pure, EStateM.pure, throw, throwThe, MonadExceptOf.throw,
    EStateM.throw, run_ite, notify, modify, modifyGet, MonadStateOf.modifyGet, EStateM.modifyGet]
  split_ifs <;> simp_all [Machine.isDone]

/-- The script change that ends a step answers whether every script has run. -/
theorem shiftScript_isDone_ok {m m' : Machine} {done : Bool}
    (h : (shiftScript >>= fun _ => get >>= fun m => pure m.isDone) m = .ok done m') :
    shiftScript m = .ok () m' ∧ done = m'.isDone := by
  simp only [bind, EStateM.bind, get, getThe, MonadStateOf.get, EStateM.get, pure,
    EStateM.pure] at h
  split at h
  · cases h
    exact ⟨‹_›, rfl⟩
  · cases h

/-- The script change that ends a step fails as the change does. -/
theorem shiftScript_isDone_error {m m' : Machine} {e : ScriptError}
    (h : (shiftScript >>= fun _ => get >>= fun m => pure m.isDone) m = .error e m') :
    shiftScript m = .error e m' := by
  simp only [bind, EStateM.bind, get, getThe, MonadStateOf.get, EStateM.get, pure,
    EStateM.pure] at h
  split at h
  · cases h
  · cases h
    assumption

/-- Popping a boolean takes the top item off the data stack and touches nothing else but the
transcript. -/
theorem popBool_state {m m' : Machine} {v : Bool} (h : onData Stack.popBool m = .ok v m') :
    ∃ x rest L, m.dstack.items = x :: rest ∧ v = castToBool x ∧
      m' = { m with dstack := { m.dstack with items := rest, events := [] }, log := L } := by
  simp only [onData, Stack.popBool, Stack.pop, bind, EStateM.bind, pure, EStateM.pure] at h
  cases hs : m.dstack.items with
  | nil => simp [hs] at h
  | cons x rest =>
    simp only [hs, EStateM.Result.ok.injEq] at h
    obtain ⟨rfl, rfl⟩ := h
    exact ⟨x, rest, _, rfl, rfl, rfl⟩

/-- A passed check of a script's result pops a true item, the only item under CLEANSTACK at the
very end. -/
theorem checkCondition_ok {final : Bool} {m m' : Machine} (h : checkCondition final m = .ok () m') :
    (final = true → m.isDone = true) ∧
    ∃ top below L, m.dstack.items = top :: below ∧ castToBool top = true ∧
      (final = true → m.flags.cleanStack = true → below = []) ∧
      m' = { m with dstack := { m.dstack with items := below, events := [] }, log := L } := by
  unfold checkCondition at h
  simp only [bind, EStateM.bind, get, getThe, MonadStateOf.get, EStateM.get, pure, EStateM.pure,
    throw, throwThe, MonadExceptOf.throw, EStateM.throw, run_ite] at h
  repeat' (split at h <;> try simp only [reduceCtorEq] at h)
  -- the one surviving path passed the three gates and popped a true item
  rename_i hdone _ hclean _ v m₁ hpop htrue
  cases h
  obtain ⟨top, below, L, hitems, rfl, rfl⟩ := popBool_state hpop
  refine ⟨fun hf => by simpa [hf] using hdone, top, below, L, hitems, by simpa using htrue,
    fun hf hcs => ?_, rfl⟩
  simp only [hf, hcs, Bool.true_and, Stack.depth, hitems, List.length_cons, decide_eq_true_eq,
    ne_eq, Nat.add_eq_right, Decidable.not_not] at hclean
  exact List.length_eq_zero_iff.mp (by simpa using hclean)

/-- A conditional opcode passes every gate once its rules hold: it is counted as an operation
and then does its own work, on skipped branches and after an early return too. -/
theorem executeInstruction_conditional {op : Instruction} {m m' : Machine}
    (hc : op.opcode.isConditional = true) (h : executeInstruction op m = .ok () m') :
    perform op { m with numOps := m.numOps + 1 } = .ok () m' := by
  have hcount := countsAsOperation_of_isConditional hc
  unfold executeInstruction at h
  simp only [bind, EStateM.bind, get, getThe, MonadStateOf.get, EStateM.get, set,
    MonadStateOf.set, EStateM.set, pure, EStateM.pure, throw, throwThe, MonadExceptOf.throw,
    EStateM.throw, run_ite] at h
  -- one case per gate; the failing ones are refuted by the constructor mismatch
  repeat' (split at h <;> try simp only [reduceCtorEq] at h)
  all_goals simp_all

/-- The gates in front of an opcode write the operation count only, so every opcode but the
block ones keeps the control part. -/
theorem preserves_control_executeInstruction (c : Control) (op : Instruction)
    (h : op.opcode.operation.changesBlocks = false) :
    Preserves (KeepsControl c) (executeInstruction op) := by
  unfold executeInstruction
  repeat' first
    | with_reducible exact preserves_control_perform c op h
    | with_reducible apply preserves_pure
    | with_reducible apply preserves_throw
    | (apply preserves_set; assumption)
    | with_reducible apply preserves_get_bind
    | with_reducible apply preserves_bind
    | with_reducible apply preserves_ite
    | intro _

/-- Checking a script's result pops from the data stack only. -/
theorem preserves_control_checkCondition (c : Control) (final : Bool) :
    Preserves (KeepsControl c) (checkCondition final) := by
  unfold checkCondition
  repeat' first
    | apply preserves_onData
    | with_reducible apply preserves_pure
    | with_reducible apply preserves_throw
    | with_reducible apply preserves_get_bind
    | with_reducible apply preserves_bind
    | with_reducible apply preserves_ite
    | intro _

section Course

/-- Keeping the rules and the open blocks. -/
abbrev KeepsCourse (r : Rules) (bs : List Branch) (es : List Bool) (m : Machine) : Prop :=
  m.rules = r ∧ m.branches = bs ∧ m.elseSeen = es

variable (r : Rules) (bs : List Branch) (es : List Bool)

/-- What keeps the control part keeps the rules and the open blocks. -/
theorem Preserves.course_of_control {α : Type} {x : Exec α}
    (h : ∀ c, Preserves (KeepsControl c) x) : Preserves (KeepsCourse r bs es) x := by
  refine ⟨fun m hm => ?_⟩
  have hc := (h m.control).final m rfl
  obtain ⟨hr, hb, he⟩ := hm
  refine ⟨?_, ?_, ?_⟩
  · rw [← hr, ← Machine.control_rules, hc, Machine.control_rules]
  · rw [← hb, ← Machine.control_branches, hc, Machine.control_branches]
  · rw [← he, ← Machine.control_elseSeen, hc, Machine.control_elseSeen]

theorem preserves_course_checkCondition (final : Bool) :
    Preserves (KeepsCourse r bs es) (checkCondition final) :=
  Preserves.course_of_control r bs es (preserves_control_checkCondition · final)

/-- Moving to the next script keeps the rules and the open blocks, the P2SH stage included. -/
theorem preserves_course_shiftScript : Preserves (KeepsCourse r bs es) shiftScript := by
  unfold shiftScript
  repeat' first
    | apply preserves_course_checkCondition
    | apply Preserves.course_of_control _ _ _ (preserves_notify ·  _)
    | with_reducible apply preserves_pure
    | with_reducible apply preserves_throw
    | (apply preserves_set; assumption)
    | (apply preserves_modify; intro _ hm; exact hm)
    | with_reducible apply preserves_get_bind
    | with_reducible apply preserves_bind
    | with_reducible apply preserves_ite
    | split
    | intro _

/-- Finishing a step keeps the rules and the open blocks: a step changes them only through its
opcode. -/
theorem preserves_course_finishStep (script : Script) :
    Preserves (KeepsCourse r bs es) (finishStep script) := by
  unfold finishStep
  repeat' first
    | apply preserves_course_shiftScript
    | apply Preserves.course_of_control _ _ _ (preserves_notify ·  _)
    | with_reducible apply preserves_pure
    | with_reducible apply preserves_throw
    | (apply preserves_set; assumption)
    | with_reducible apply preserves_get_bind
    | with_reducible apply preserves_bind
    | with_reducible apply preserves_ite
    | intro _

end Course

end Exec

namespace Machine

/-- A successful setup: both scripts parse, they are not both empty, a P2SH spend's unlocking
script is push-only, and the machine starts with empty stacks under the number rules of the
effective flags, on the unlocking script or, when that is empty, on the locking script. -/
theorem new?_ok {unlocking locking : Bytes} {F : Flags} {c : Checker} {m : Machine}
    (h : Machine.new? unlocking locking F c = .ok m) :
    ∃ u l, Script.parse? unlocking = some u ∧ Script.parse? locking = some l ∧
      (unlocking = [] → locking ≠ []) ∧
      ((F.effective.p2sh && Script.isPayToScriptHash locking) = true → u.isPushOnly = true) ∧
      m = { dstack := { maxNumLen := (Limits.ofGenesis F.effective.afterGenesis).maxNumLen,
                        minimal := F.effective.minimalData, afterGenesis := F.effective.afterGenesis }
            astack := { maxNumLen := (Limits.ofGenesis F.effective.afterGenesis).maxNumLen,
                        minimal := F.effective.minimalData, afterGenesis := F.effective.afterGenesis }
            scripts := [u, l], idx := if u.isEmpty then 1 else 0, flags := F.effective,
            limits := Limits.ofGenesis F.effective.afterGenesis,
            bip16 := F.effective.p2sh && Script.isPayToScriptHash locking,
            afterGenesis := F.effective.afterGenesis, checker := c } := by
  unfold Machine.new? at h
  simp only [bind, Except.bind, pure, Except.pure, throw, throwThe, MonadExceptOf.throw] at h
  repeat' (split at h <;> try simp only [reduceCtorEq] at h)
  all_goals
    simp only [Except.ok.injEq] at h
    subst h
    refine ⟨_, _, by assumption, by assumption, ?_, ?_, ?_⟩ <;> simp_all

/-- The machines a run reaches: one set up for a spend, and any that a successful step of a
reachable machine leads to. -/
inductive Reachable : Machine → Prop
  | setup {unlocking locking : Bytes} {flags : Flags} {checker : Checker} {m : Machine} :
      Machine.new? unlocking locking flags checker = .ok m → Reachable m
  | step {m m' : Machine} {done : Bool} : Reachable m → Exec.step m = .ok done m' → Reachable m'

end Machine

end BitcoinScript
