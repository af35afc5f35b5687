import BitcoinScript.Proofs.Effects
import BitcoinScript.Proofs.Parse

/-!
# The program counter

A successful step runs the instruction at the program counter through the gates every opcode
passes (`executeInstruction_run` lays them out as one choice, `executeInstruction_ok` says what a
pass leaves), then either moves the counter to the next instruction of the
same script or changes script (`finishStep_ok`). A script change resets the per-script state and
lands on the next script, skipping one empty script; before genesis, leaving the locking script of
a P2SH spend checks its result and appends the redeem script (`shiftScript_ok`, with the three
ways listed by `StageMove`).
-/

set_option autoImplicit false

namespace BitcoinScript

namespace Machine

/-- The machine after the operation count of the gates: an opcode above `OP_16` counts once,
run or skipped. -/
def counted (m : Machine) (op : Instruction) : Machine :=
  if op.opcode.countsAsOperation then { m with numOps := m.numOps + 1 } else m

section Counted

variable (m : Machine) (op : Instruction)

@[simp] theorem counted_dstack : (m.counted op).dstack = m.dstack := by
  unfold counted; split <;> rfl
@[simp] theorem counted_astack : (m.counted op).astack = m.astack := by
  unfold counted; split <;> rfl
@[simp] theorem counted_branches : (m.counted op).branches = m.branches := by
  unfold counted; split <;> rfl
@[simp] theorem counted_limits : (m.counted op).limits = m.limits := by
  unfold counted; split <;> rfl
@[simp] theorem counted_pendingReturn : (m.counted op).pendingReturn = m.pendingReturn := by
  unfold counted; split <;> rfl

theorem counted_quiet {m : Machine} (hq : m.Quiet) (op : Instruction) : (m.counted op).Quiet := by
  simpa [Machine.Quiet] using hq

theorem counted_frame : (m.counted op).frame = { m.frame with numOps := (m.counted op).numOps } := by
  unfold counted; split <;> rfl

/-- The gates count an opcode only within the limit, so the count stays at most the limit or
as it was. -/
theorem counted_numOps {m : Machine} {op : Instruction}
    (h : op.opcode.countsAsOperation = true → m.numOps + 1 ≤ m.limits.maxOps) :
    (m.counted op).numOps ≤ m.limits.maxOps ∨ (m.counted op).numOps = m.numOps := by
  unfold counted
  split
  next hc => exact .inl (h hc)
  next => exact .inr rfl

end Counted

/-- The script a script change lands on: script `i`, or the one after it when script `i` is
empty. -/
def landing (scripts : List Script) (i : Nat) : Nat :=
  if (scripts[i]?.map List.isEmpty) == some true then i + 1 else i

/-- How a script change moves between scripts. -/
inductive StageMove (m m' : Machine) : Prop
  /-- Leaving the unlocking script of a P2SH spend keeps its stack for the redeem script. -/
  | save : m.bip16 = true → m.idx = 0 → m'.scripts = m.scripts → m'.savedFirst = m.dstack.items →
      m'.dstack = m.dstack → m'.idx = landing m.scripts 1 → StageMove m m'
  /-- Before genesis, leaving the locking script of a P2SH spend pops its true result and appends
  the redeem script, the top of the saved stack, to run on the rest of it. -/
  | redeem {top : Bytes} {below : List Bytes} {redeem : Bytes} {rest : List Bytes} {r : Script} :
      m.bip16 = true → m.idx = 1 → m.afterGenesis = false → m.dstack.items = top :: below →
      castToBool top = true → m.savedFirst = redeem :: rest → Script.parse? redeem = some r →
      m'.scripts = m.scripts ++ [r] → m'.savedFirst = m.savedFirst →
      m'.dstack = { m.dstack with items := rest, events := [] } →
      m'.idx = landing (m.scripts ++ [r]) 2 → StageMove m m'
  /-- Otherwise the change moves to the next script. -/
  | next : ¬(m.bip16 = true ∧ m.idx = 0) → ¬(m.bip16 = true ∧ m.idx = 1 ∧ m.afterGenesis = false) →
      m'.scripts = m.scripts → m'.savedFirst = m.savedFirst → m'.dstack = m.dstack →
      m'.idx = landing m.scripts (m.idx + 1) → StageMove m m'

/-- What a successful script change does: the per-script state starts afresh, the rules and the
open blocks stay, and the scripts and stacks move as `StageMove` says. -/
structure ScriptChange (m m' : Machine) : Prop where
  off : m'.off = 0
  numOps : m'.numOps = 0
  beginCode : m'.beginCode = 0
  astack : m'.astack = { m.astack with items := [] }
  earlyReturn : m'.earlyReturn = false
  rules : m'.rules = m.rules
  branches : m'.branches = m.branches
  elseSeen : m'.elseSeen = m.elseSeen
  pendingReturn : m'.pendingReturn = m.pendingReturn
  move : StageMove m m'

theorem le_landing (scripts : List Script) (i : Nat) : i ≤ landing scripts i := by
  unfold landing
  split <;> omega

/-- At the last script, the one skip of an empty script is enough: the counter lands past the end
or on a script with an instruction. -/
theorem landing_lands {scripts : List Script} {i : Nat} (h : scripts.length ≤ i + 1) :
    scripts.length ≤ landing scripts i ∨
      (landing scripts i < scripts.length ∧ 0 < (scripts.getD (landing scripts i) []).length) := by
  unfold landing
  cases hi : scripts[i]? with
  | none =>
    have : scripts.length ≤ i := List.getElem?_eq_none_iff.mp hi
    left
    simpa using this
  | some s =>
    obtain ⟨hlt, hs⟩ := List.getElem?_eq_some_iff.mp hi
    cases he : s.isEmpty
    · -- a script with an instruction: the counter stays on it
      right
      simp only [Option.map_some, he, beq_iff_eq, Option.some.injEq, Bool.false_eq_true,
        ite_false, List.getD_eq_getElem?_getD, hi, Option.getD_some]
      exact ⟨hlt, List.length_pos_iff.mpr (by simpa using he)⟩
    · -- an empty last script is skipped, past the end
      left
      simp only [Option.map_some, he, beq_self_eq_true, ite_true]
      omega

namespace ScriptChange

variable {m m' : Machine} (h : ScriptChange m m')
include h

/-- A script change moves the counter to a later script. -/
theorem idx_lt : m.idx < m'.idx := by
  cases h.move with
  | save _ hidx _ _ _ hland =>
    have := le_landing m.scripts 1
    omega
  | @redeem _ _ _ _ r _ hidx _ _ _ _ _ _ _ _ hland =>
    have := le_landing (m.scripts ++ [r]) 2
    omega
  | next _ _ _ _ _ hland =>
    have := le_landing m.scripts (m.idx + 1)
    omega

/-- A script change only ever appends a script. -/
theorem scripts_prefix : m.scripts <+: m'.scripts := by
  cases h.move with
  | save _ _ hs _ _ _ => exact hs ▸ List.prefix_refl _
  | redeem _ _ _ _ _ _ _ hs _ _ _ => exact hs ▸ List.prefix_append _ _
  | next _ _ hs _ _ _ => exact hs ▸ List.prefix_refl _

end ScriptChange

end Machine

namespace Exec

theorem get_bind_run {α : Type} (k : Machine → Exec α) (m : Machine) : (get >>= k) m = k m m := rfl

theorem set_bind_run {α : Type} (s : Machine) (k : PUnit → Exec α) (m : Machine) :
    (set s >>= k) m = k ⟨⟩ s := rfl

/-- A successful `OP_CHECKMULTISIG` raises the count by its keys, within the limit, and keeps the
rest of the frame. -/
theorem checkMultiSig_ok {m m' : Machine} {v : Bool} (hq : m.Quiet)
    (h : checkMultiSig m = .ok v m') :
    m'.frame = { m.frame with numOps := m'.numOps } ∧ m'.numOps ≤ m.limits.maxOps ∧ m'.Quiet := by
  unfold checkMultiSig at h
  obtain ⟨keysCount, m₁, h₁, h⟩ := bind_eq_ok.mp h
  obtain ⟨hf₁, hq₁⟩ := (preserves_frame_onData m.frame Stack.keepsRule_popNum).of_ok ⟨rfl, hq⟩ h₁
  rw [get_bind_run] at h
  cases hn : countInRange? keysCount m₁.limits.maxPubkeysPerMultisig with
  | none => simp [hn, throw, throwThe, MonadExceptOf.throw, EStateM.throw] at h
  | some nKeys =>
    simp only [hn] at h
    rw [set_bind_run, run_ite] at h
    split at h
    next => cases h
    next hle =>
      -- the rest of the check pops and reads only, at the raised count
      have hstart : KeepsFrame { m₁.frame with numOps := m₁.numOps + nKeys }
          { m₁ with numOps := m₁.numOps + nKeys } := ⟨rfl, hq₁⟩
      have hrest : KeepsFrame { m₁.frame with numOps := m₁.numOps + nKeys } m' := by
        refine Preserves.of_ok ?_ hstart h
        repeat' first
          | (apply preserves_frame_onData
             first | exact Stack.keepsRule_pop | exact Stack.keepsRule_popNum)
          | apply preserves_frame_popItems
          | apply preserves_frame_lift
          | with_reducible apply preserves_pure
          | with_reducible apply preserves_throw
          | with_reducible apply preserves_get_bind
          | with_reducible apply preserves_bind
          | with_reducible apply preserves_ite
          | split
          | intro _
      obtain ⟨hf, hq'⟩ := hrest
      have hops : m'.numOps = m₁.numOps + nKeys := congrArg Frame.numOps hf
      have hlim : m₁.limits = m.limits := congrArg (·.rules.limits) hf₁
      refine ⟨by rw [hf, hops, hf₁], ?_, hq'⟩
      rw [hops, ← hlim]
      omega

/-- The work of `OP_RETURN`, read off the opcode table without opening the other operations. -/
theorem perform_of_returnEarly {op : Instruction} (hop : op.opcode.operation = .returnEarly) :
    perform op = (do
      let m ← get
      if !m.afterGenesis then throw .earlyReturn
      set { m with earlyReturn := true, pendingReturn := m.pendingReturn || m.branches.isEmpty }) := by
  unfold perform
  rw [hop]

/-- A successful `OP_RETURN` runs after genesis only; it marks the early return, and makes it
pending when no block is open. -/
theorem perform_returnEarly_ok {op : Instruction} {m m' : Machine}
    (hop : op.opcode.operation = .returnEarly) (h : perform op m = .ok () m') :
    m.afterGenesis = true ∧
      m' = { m with earlyReturn := true, pendingReturn := m.pendingReturn || m.branches.isEmpty } := by
  simp only [perform_of_returnEarly hop, bind, EStateM.bind, get, getThe, MonadStateOf.get, EStateM.get, set,
    MonadStateOf.set, EStateM.set, run_ite, throw, throwThe, MonadExceptOf.throw, EStateM.throw] at h
  split at h
  · cases h
  · cases h
    simp_all

/-- What a successful opcode writes of the frame: nothing, except that `OP_CHECKMULTISIG` raises
the count within the limit, and that `OP_RETURN` outside every block makes the early return
pending, writing nothing else but the early-return mark. -/
theorem perform_ok_frame {op : Instruction} {m m' : Machine} (hq : m.Quiet)
    (h : perform op m = .ok () m') :
    m'.Quiet ∧ m'.frame = { m.frame with numOps := m'.numOps, pendingReturn := m'.pendingReturn } ∧
      (m'.numOps ≤ m.limits.maxOps ∨ m'.numOps = m.numOps) ∧
      (m'.pendingReturn = m.pendingReturn ∨
        (m.branches = [] ∧ m' = { m with earlyReturn := true, pendingReturn := true })) := by
  cases hw : op.opcode.operation.writesFrame
  case false =>
    obtain ⟨hf, hq'⟩ := (preserves_frame_perform m.frame op hw).of_ok ⟨rfl, hq⟩ h
    have hn : m'.numOps = m.numOps := congrArg Frame.numOps hf
    have hp : m'.pendingReturn = m.pendingReturn := congrArg Frame.pendingReturn hf
    exact ⟨hq', by rw [hf, hn, hp]; rfl, .inr hn, .inl hp⟩
  case true =>
    cases hop : op.opcode.operation <;> simp [hop, Operation.writesFrame] at hw
    case checkMultiSig verifyOnly =>
      simp only [perform, hop] at h
      obtain ⟨ok, m₁, h₁, h⟩ := bind_eq_ok.mp h
      obtain ⟨hf₁, hn₁, hq₁⟩ := checkMultiSig_ok hq h₁
      -- the answer is pushed, or checked
      have hstart : KeepsFrame m₁.frame m₁ := ⟨rfl, hq₁⟩
      have hf : KeepsFrame m₁.frame m' := by
        refine Preserves.of_ok ?_ hstart h
        exact preserves_ite (preserves_frame_onData _ (Stack.keepsRule_pushBool _))
          (preserves_ite (preserves_throw _) (preserves_pure _))
      have hn : m'.numOps = m₁.numOps := congrArg Frame.numOps hf.1
      have hp : m'.pendingReturn = m.pendingReturn :=
        (congrArg Frame.pendingReturn hf.1).trans (congrArg Frame.pendingReturn hf₁)
      exact ⟨hf.2, by rw [hf.1, hf₁, hn, hp]; rfl, .inl (hn ▸ hn₁), .inl hp⟩
    case returnEarly =>
      obtain ⟨-, rfl⟩ := perform_returnEarly_ok hop h
      refine ⟨hq, rfl, .inr rfl, ?_⟩
      cases hp : m.pendingReturn
      · cases hb : m.branches with
        | nil => exact .inr ⟨rfl, by simp⟩
        | cons b bs => exact .inl (by simp)
      · exact .inl (by simp)

/-- The gates in front of every opcode, as one choice over the machine they start from: the
count is their one write, and no later gate reads it. -/
theorem executeInstruction_run (op : Instruction) (m : Machine) :
    executeInstruction op m =
      if op.opcode.isDisabled && (!m.afterGenesis || m.shouldExec op) then
        .error (.disabledOpcode op.name) m
      else if op.opcode.isAlwaysIllegal && !m.afterGenesis then .error (.reservedOpcode op.name) m
      else if op.data.length > m.limits.maxElementSize then
        .error (.elementTooBig op.data.length m.limits.maxElementSize) m
      else if op.opcode.countsAsOperation ∧ m.numOps + 1 > m.limits.maxOps then
        .error (.tooManyOperations m.limits.maxOps) (m.counted op)
      else if !m.isBranchExecuting && !op.opcode.isConditional then .ok () (m.counted op)
      else if m.flags.minimalData && m.isBranchExecuting && m.shouldExec op &&
          op.opcode.isDataPush && !op.isMinimalPush then
        .error (.minimalData op.name) (m.counted op)
      else if !m.shouldExec op && !op.opcode.isConditional then .ok () (m.counted op)
      else perform op (m.counted op) := by
  unfold executeInstruction
  simp only [bind, EStateM.bind, get, getThe, MonadStateOf.get, EStateM.get, set,
    MonadStateOf.set, EStateM.set, pure, EStateM.pure, throw, throwThe, MonadExceptOf.throw,
    EStateM.throw, run_ite]
  cases hc : op.opcode.countsAsOperation
  · simp only [Machine.counted, hc, Bool.false_eq_true, false_and, ↓reduceIte]
  · have hbr : ({ m with numOps := m.numOps + 1 } : Machine).isBranchExecuting =
        m.isBranchExecuting := rfl
    simp only [Machine.counted, hc, true_and, ↓reduceIte, hbr]

/-- A successful pass through the gates: the inline data fits the element limit, the count stays
within the operation limit, and the opcode either did nothing more (a skipped branch) or did its
work on the counted machine. -/
theorem executeInstruction_ok {op : Instruction} {m m' : Machine}
    (h : executeInstruction op m = .ok () m') :
    op.data.length ≤ m.limits.maxElementSize ∧
    (op.opcode.countsAsOperation = true → m.numOps + 1 ≤ m.limits.maxOps) ∧
    (m' = m.counted op ∨ perform op (m.counted op) = .ok () m') := by
  rw [executeInstruction_run] at h
  -- the failed gates are refuted as they split; the rest passed both limits
  split_ifs at h with _ _ hsize hops
  all_goals refine ⟨Nat.le_of_not_gt hsize, fun hc => Nat.le_of_not_gt fun hlt => hops ⟨hc, hlt⟩, ?_⟩
  · cases h
    exact .inl rfl
  · cases h
    exact .inl rfl
  · exact .inr h

/-- A successful instruction: its data fits the element limit, and it writes of the frame the
count only, which stays within the limit or as it was, and the pending early return, which only an
`OP_RETURN` outside every block sets, writing nothing else but the count and the mark. -/
theorem executeInstruction_frame {op : Instruction} {m m' : Machine} (hq : m.Quiet)
    (h : executeInstruction op m = .ok () m') :
    op.data.length ≤ m.limits.maxElementSize ∧ m'.Quiet ∧
      m'.frame = { m.frame with numOps := m'.numOps, pendingReturn := m'.pendingReturn } ∧
      (m'.numOps ≤ m.limits.maxOps ∨ m'.numOps = m.numOps) ∧
      (m'.pendingReturn = m.pendingReturn ∨
        (m.branches = [] ∧ m' = { m.counted op with earlyReturn := true, pendingReturn := true })) := by
  obtain ⟨hdata, hcount, hrun⟩ := executeInstruction_ok h
  have hc := Machine.counted_numOps hcount
  refine ⟨hdata, ?_⟩
  rcases hrun with rfl | hperf
  · -- a skipped opcode is only counted
    refine ⟨Machine.counted_quiet hq op, ?_, hc, .inl (Machine.counted_pendingReturn m op)⟩
    rw [Machine.counted_pendingReturn]
    exact Machine.counted_frame m op
  · obtain ⟨hq', hf, hn, hp⟩ := perform_ok_frame (Machine.counted_quiet hq op) hperf
    refine ⟨hq', by rw [hf, Machine.counted_frame], ?_, ?_⟩
    · rcases hn with hn | hn
      · exact .inl (by simpa using hn)
      · rw [hn]
        exact hc
    · simpa using hp

/-- A successful end of a step: the answer is whether every script has run. Either the counter
moves to the next instruction of the script, the stacks fitting their limit; or the script changes,
from a machine that differs from this one in its offset, its transcript and the pending early return
only, because an early return was pending or because the script ended with the stacks fitting
their limit and no block open. -/
theorem finishStep_ok {script : Script} {m m' : Machine} {done : Bool}
    (h : finishStep script m = .ok done m') :
    done = m'.isDone ∧
    ((m.pendingReturn = false ∧ m.dstack.depth + m.astack.depth ≤ m.limits.maxStackSize ∧
        m.off + 1 < script.length ∧
        m' = { m with off := m.off + 1, log := .phase .afterOp m.idx m.off :: m.log }) ∨
     ∃ o L, (m.pendingReturn = true ∨
         (m.dstack.depth + m.astack.depth ≤ m.limits.maxStackSize ∧ m.branches = [] ∧
           script.length ≤ m.off + 1)) ∧
       shiftScript { m with pendingReturn := false, off := o, log := L } = .ok () m') := by
  rw [finishStep_run] at h
  split_ifs at h with hp hover hend hb
  · -- a pending early return: the change starts from the machine with the return cleared
    obtain ⟨hshift, rfl⟩ := shiftScript_isDone_ok h
    exact ⟨rfl, .inr ⟨m.off, m.log, .inl hp, hshift⟩⟩
  · -- the end of the script with no block open; nothing was pending, so clearing it is no change
    obtain ⟨hshift, rfl⟩ := shiftScript_isDone_ok h
    have hpf : m.pendingReturn = false := by simpa using hp
    refine ⟨rfl, .inr ⟨m.off + 1, .phase .afterOp m.idx m.off :: m.log,
      .inr ⟨not_lt.mp hover, hb, hend⟩, ?_⟩⟩
    rw [← hpf]
    exact hshift
  · cases h
    exact ⟨rfl, .inl ⟨by simpa using hp, not_lt.mp hover, not_le.mp hend, rfl⟩⟩

/-- A successful script change resets the per-script state and moves as `StageMove` says. -/
theorem shiftScript_ok {m m' : Machine} (h : shiftScript m = .ok () m') :
    Machine.ScriptChange m m' := by
  unfold shiftScript at h
  simp only [bind, EStateM.bind, get, getThe, MonadStateOf.get, EStateM.get, set,
    MonadStateOf.set, EStateM.set, throw, throwThe, MonadExceptOf.throw, run_ite, notify, modify,
    modifyGet, MonadStateOf.modifyGet, EStateM.modifyGet] at h
  -- the three ways of `StageMove`; each ends with the skip of one empty script
  split at h
  next hsave =>
    simp only [Bool.and_eq_true, decide_eq_true_eq] at hsave
    split at h <;>
    · cases h
      exact ⟨rfl, rfl, rfl, rfl, rfl, rfl, rfl, rfl, rfl,
        .save hsave.1 hsave.2 rfl rfl rfl (by simp_all [Machine.landing])⟩
  next hsave =>
    split at h
    next hredeem =>
      simp only [Bool.and_eq_true, decide_eq_true_eq, Bool.not_eq_true'] at hredeem
      split at h
      next heq =>
        -- the locking script's result is checked before the redeem script is read
        obtain ⟨-, top, below, L, hitems, htop, -, rfl⟩ := checkCondition_ok heq
        dsimp only at h hitems
        cases hsaved : m.savedFirst with
        | nil => simp [hsaved, EStateM.throw, EStateM.bind] at h
        | cons redeem rest =>
          cases hparse : Script.parse? redeem with
          | none => simp [hsaved, hparse, EStateM.throw, EStateM.bind] at h
          | some r =>
            simp only [hsaved, hparse, EStateM.bind, EStateM.set, EStateM.get] at h
            split at h <;>
            · cases h
              exact ⟨rfl, rfl, rfl, rfl, rfl, rfl, rfl, rfl, rfl,
                .redeem hredeem.1.1 hredeem.1.2 hredeem.2 hitems htop hsaved hparse rfl hsaved.symm rfl
                  (by simp_all [Machine.landing])⟩
      next => simp at h
    next hredeem =>
      split at h <;>
      · cases h
        exact ⟨rfl, rfl, rfl, rfl, rfl, rfl, rfl, rfl, rfl,
          .next (by simpa using hsave) (by simpa using hredeem) rfl rfl rfl
            (by simp_all [Machine.landing])⟩

end Exec

/-! ## Setup -/

/-- An empty script is read only from no bytes. -/
theorem Script.parse?_eq_nil {bytes : Bytes} (h : Script.parse? bytes = some []) : bytes = [] := by
  have := Script.unparse?_of_parseAt h
  simpa [Script.unparse?] using this.symm

namespace Machine

/-! ## The counter stays on an instruction -/

/-- Where a reachable machine stands in its run. It runs the two scripts of the spend until the
P2SH stage appends the redeem script; its counter is past the last script or on an instruction;
every push and pop has been reported; no early return is pending between steps; and at the first
instruction of a script the alt stack and the open blocks are empty, and the operation count and
the code separator start afresh. -/
structure OnTrack (m : Machine) : Prop where
  staged : m.scripts.length = 2 ∨ (m.scripts.length = 3 ∧ 2 ≤ m.idx)
  counter : m.idx < m.scripts.length → m.off < (m.scripts.getD m.idx []).length
  quiet : m.Quiet
  settled : m.pendingReturn = false
  fresh : m.off = 0 → m.astack.items = [] ∧ m.branches = [] ∧ m.numOps = 0 ∧ m.beginCode = 0

theorem new?_onTrack {unlocking locking : Bytes} {F : Flags} {c : Checker} {m : Machine}
    (h : Machine.new? unlocking locking F c = .ok m) : m.OnTrack := by
  obtain ⟨u, l, hu, hl, hne, -, rfl⟩ := new?_ok h
  refine ⟨.inl rfl, fun _ => ?_, ⟨rfl, rfl⟩, rfl, fun _ => ⟨rfl, rfl, rfl, rfl⟩⟩
  -- the first script with an instruction: the unlocking script, or else the locking script
  cases hue : u.isEmpty
  · simpa [List.length_pos_iff] using hue
  · have hu₀ : u = [] := List.isEmpty_iff.mp hue
    subst hu₀
    have hl₀ : l ≠ [] := fun hl₀ => hne (Script.parse?_eq_nil hu) (Script.parse?_eq_nil (hl₀ ▸ hl))
    simpa [List.length_pos_iff] using hl₀

/-- A script change from a machine of the spend's stage lands on a machine of its stage, with the
counter past the last script or on a script with an instruction. -/
theorem ScriptChange.lands {m m' : Machine} (h : ScriptChange m m')
    (hs : m.scripts.length = 2 ∨ (m.scripts.length = 3 ∧ 2 ≤ m.idx)) :
    (m'.scripts.length = 2 ∨ (m'.scripts.length = 3 ∧ 2 ≤ m'.idx)) ∧
      (m'.idx < m'.scripts.length → 0 < (m'.scripts.getD m'.idx []).length) := by
  have hlt := h.idx_lt
  cases h.move with
  | save _ hidx hsc _ _ hland =>
    -- the unlocking script ends while the spend still has its two scripts
    have h2 : m.scripts.length = 2 := by omega
    rw [hsc, hland]
    refine ⟨.inl h2, fun hi => ?_⟩
    rcases landing_lands (by omega : m.scripts.length ≤ 1 + 1) with hl | ⟨-, hl⟩
    · omega
    · exact hl
  | @redeem _ _ _ _ r _ hidx _ _ _ _ _ hsc _ _ hland =>
    have h2 : m.scripts.length = 2 := by omega
    have h3 : (m.scripts ++ [r]).length = 3 := by simp [h2]
    rw [hsc, hland]
    refine ⟨.inr ⟨h3, le_landing _ 2⟩, fun hi => ?_⟩
    rcases landing_lands (by omega : (m.scripts ++ [r]).length ≤ 2 + 1) with hl | ⟨-, hl⟩
    · omega
    · exact hl
  | next _ _ hsc _ _ hland =>
    rw [hsc, hland]
    refine ⟨?_, fun hi => ?_⟩
    · have := le_landing m.scripts (m.idx + 1)
      omega
    · rcases landing_lands (by omega : m.scripts.length ≤ m.idx + 1 + 1) with hl | ⟨-, hl⟩
      · omega
      · exact hl

/-- One successful step keeps a machine on track: within a script the counter moves to the next
instruction; at a script change the landing is on an instruction or past the end, and the closed
blocks, the cleared alt stack and the reset counters make the first instruction fresh. -/
theorem OnTrack.step {m m' : Machine} {done : Bool} (ht : m.OnTrack)
    (h : Exec.step m = .ok done m') : m'.OnTrack := by
  obtain ⟨script, op, m₁, hs, ho, hex, hfin⟩ := Exec.step_ok h
  obtain ⟨-, hq₁, hf₁, -, hp₁⟩ := Exec.executeInstruction_frame (by exact ht.quiet) hex
  have hsc : m₁.scripts = m.scripts := congrArg Frame.scripts hf₁
  have hidx : m₁.idx = m.idx := congrArg Frame.idx hf₁
  have hoff : m₁.off = m.off := congrArg Frame.off hf₁
  obtain ⟨-, hmove⟩ := Exec.finishStep_ok hfin
  rcases hmove with ⟨hp, -, hlt, rfl⟩ | ⟨o, L, hwhy, hshift⟩
  · -- the counter moves to the next instruction of the script
    refine ⟨?_, fun _ => ?_, hq₁, hp, fun h0 => absurd h0 (by simp)⟩
    · simpa [hsc, hidx] using ht.staged
    · simpa [hsc, hidx, hoff, hs] using hlt
  · -- the script changes, with no block open
    have hc := Exec.shiftScript_ok hshift
    have hb : m₁.branches = [] := by
      rcases hwhy with hpend | ⟨-, hb, -⟩
      · rcases hp₁ with hp₁ | ⟨hb, rfl⟩
        · simp [hp₁, ht.settled] at hpend
        · simpa using hb
      · exact hb
    obtain ⟨hstaged, hcounter⟩ := hc.lands (by simpa [hsc, hidx] using ht.staged)
    refine ⟨hstaged, fun hi => ?_, ?_, hc.pendingReturn, fun _ => ?_⟩
    · rw [hc.off]
      exact hcounter hi
    · -- the stacks carry no unreported event across the change
      refine ⟨?_, by rw [hc.astack]; exact hq₁.2⟩
      cases hc.move with
      | save _ _ _ _ hd _ => rw [hd]; exact hq₁.1
      | redeem _ _ _ _ _ _ _ _ _ hd _ => rw [hd]
      | next _ _ _ _ hd _ => rw [hd]; exact hq₁.1
    · exact ⟨by rw [hc.astack], hc.branches.trans hb, hc.numOps, hc.beginCode⟩

/-- Every machine a run reaches is on track. -/
theorem reachable_onTrack {m : Machine} (h : m.Reachable) : m.OnTrack := by
  induction h with
  | setup hnew => exact new?_onTrack hnew
  | step _ hstep ih => exact ih.step hstep

/-! ## The counter only moves forward -/

/-- How many instructions lie before the counter: all of the earlier scripts, and those of the
current script before its offset. -/
def position (m : Machine) : Nat := ((m.scripts.map List.length).take m.idx).sum + m.off

/-- On track and not done, the counter is on an instruction. -/
theorem OnTrack.current {m : Machine} (ht : m.OnTrack) (hd : m.isDone = false) :
    ∃ op, m.current? = some op := by
  have hlt : m.idx < m.scripts.length := by simpa [isDone] using hd
  have hoff := ht.counter hlt
  simp only [List.getD_eq_getElem?_getD, List.getElem?_eq_getElem hlt, Option.getD_some] at hoff
  exact ⟨m.scripts[m.idx][m.off], by
    simp [current?, List.getElem?_eq_getElem hlt, List.getElem?_eq_getElem hoff]⟩

/-- On track and not done, some instruction lies at or after the counter. -/
theorem OnTrack.position_lt {m : Machine} (ht : m.OnTrack) (hd : m.isDone = false) :
    m.position < (m.scripts.map List.length).sum := by
  have hlt : m.idx < m.scripts.length := by simpa [isDone] using hd
  have hoff := ht.counter hlt
  simp only [List.getD_eq_getElem?_getD, List.getElem?_eq_getElem hlt, Option.getD_some] at hoff
  have hlt' : m.idx < (m.scripts.map List.length).length := by simpa using hlt
  calc m.position
      < ((m.scripts.map List.length).take m.idx).sum + m.scripts[m.idx].length := by
        unfold position; omega
    _ = ((m.scripts.map List.length).take (m.idx + 1)).sum := by
        rw [List.sum_take_succ _ _ hlt', List.getElem_map]
    _ ≤ (m.scripts.map List.length).sum := by
        rw [← List.sum_take_add_sum_drop (m.scripts.map List.length) (m.idx + 1)]
        exact Nat.le_add_right _ _

/-- A successful step moves the counter forward, the scripts only growing: to the next instruction
of its script, or to a later script after every instruction of this one. -/
theorem step_ok_advances {m m' : Machine} {done : Bool} (hq : m.Quiet)
    (h : Exec.step m = .ok done m') :
    m.scripts <+: m'.scripts ∧ (m.idx < m'.idx ∨ (m'.idx = m.idx ∧ m'.off = m.off + 1)) ∧
      m.position < m'.position := by
  obtain ⟨script, op, m₁, hs, ho, hex, hfin⟩ := Exec.step_ok h
  obtain ⟨-, -, hf₁, -, -⟩ := Exec.executeInstruction_frame (by exact hq) hex
  have hsc : m₁.scripts = m.scripts := congrArg Frame.scripts hf₁
  have hidx : m₁.idx = m.idx := congrArg Frame.idx hf₁
  have hoff : m₁.off = m.off := congrArg Frame.off hf₁
  have hop : m.off < script.length := (List.getElem?_eq_some_iff.mp ho).1
  obtain ⟨-, hmove⟩ := Exec.finishStep_ok hfin
  rcases hmove with ⟨-, -, -, rfl⟩ | ⟨o, L, -, hshift⟩
  · -- the next instruction of the same script
    refine ⟨by simp [hsc], .inr ⟨hidx, by simp [hoff]⟩, ?_⟩
    simp only [position, hsc, hidx, hoff]
    omega
  · have hc := Exec.shiftScript_ok hshift
    have hpre : m.scripts <+: m'.scripts := by simpa [hsc] using hc.scripts_prefix
    have hlt : m.idx < m'.idx := by simpa [hidx] using hc.idx_lt
    refine ⟨hpre, .inl hlt, ?_⟩
    -- the new script starts after every instruction of the one left
    have hin : m.idx < m.scripts.length := (List.getElem?_eq_some_iff.mp hs).1
    have hidx' : m.idx < (m.scripts.map List.length).length := by simpa using hin
    have hget : (m.scripts.map List.length)[m.idx] = script.length := by
      simp [(List.getElem?_eq_some_iff.mp hs).2]
    have htake : (m'.scripts.map List.length).take (m.idx + 1) =
        (m.scripts.map List.length).take (m.idx + 1) := by
      rw [List.prefix_iff_eq_take.mp (hpre.map List.length), List.take_take]
      simp only [List.length_map]
      congr 1
      omega
    calc m.position
        < ((m.scripts.map List.length).take m.idx).sum + script.length := by
          unfold position; omega
      _ = ((m'.scripts.map List.length).take (m.idx + 1)).sum := by
          rw [htake, List.sum_take_succ _ _ hidx', hget]
      _ ≤ ((m'.scripts.map List.length).take m'.idx).sum := List.monotone_sum_take _ hlt
      _ ≤ m'.position := Nat.le_add_right _ _

end Machine

end BitcoinScript
