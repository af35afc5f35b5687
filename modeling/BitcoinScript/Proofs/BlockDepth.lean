import BitcoinScript.Proofs.Failure
import BitcoinScript.Proofs.Snapshot

/-!
# The open blocks are the parser's depth

Reading a script counts the conditional depth from the bytes alone: `OP_IF` and `OP_NOTIF` one
up, `OP_ENDIF` one down and never below zero, every other opcode (`OP_ELSE`, `OP_VERIF`,
`OP_VERNOTIF` included) no change (`Script.nextDepth`). The depth decides whether an
`OP_RETURN` ends the script and takes the rest of the bytes as its data. The machine keeps one
entry per open block instead, driven by the gates, the skipped branches and the early return.

The two agree on every machine a run reaches: the open blocks are as many as the parser's depth
over the instructions of the current script before the counter (`reachable_branches_length`).
A step changes the blocks by its opcode's syntactic effect (`BlockStep.length_eq`), and every
script starts with none open. So a terminating `OP_RETURN` meets no open block, and after
genesis its step either fails at one of the two gates every counted opcode passes first or ends
the script (`step_of_terminating_return`).
-/

set_option autoImplicit false

namespace BitcoinScript

namespace Opcode

/-! ## The block operations by byte -/

theorem value_of_ifBranch : ∀ (v : UInt8) (negate : Bool),
    (Opcode.mk v).operation = .ifBranch negate → v = 0x63 ∨ v = 0x64 := by
  decide +kernel

theorem value_of_elseBranch : ∀ v : UInt8, (Opcode.mk v).operation = .elseBranch → v = 0x67 := by
  decide +kernel

theorem value_of_endBranch : ∀ v : UInt8, (Opcode.mk v).operation = .endBranch → v = 0x68 := by
  decide +kernel

theorem operation_return : (Opcode.mk 0x6a).operation = .returnEarly := by decide

/-- How `OP_RETURN` meets the opcode gates: neither disabled nor reserved, counted as an operation,
and neither conditional nor a data push. -/
theorem gates_return : (Opcode.mk 0x6a).isDisabled = false ∧
    (Opcode.mk 0x6a).isAlwaysIllegal = false ∧ (Opcode.mk 0x6a).countsAsOperation = true ∧
    (Opcode.mk 0x6a).isConditional = false ∧ (Opcode.mk 0x6a).isDataPush = false := by
  decide

/-- The bytes the parser counts are block operations. -/
theorem changesBlocks_of_counted : ∀ v : UInt8, (v = 0x63 ∨ v = 0x64 ∨ v = 0x68) →
    (Opcode.mk v).operation.changesBlocks = true := by
  decide +kernel

end Opcode

namespace Script

/-! ## The parser's count of each block operation -/

section NextDepth

variable {i : Instruction} (depth : Nat)

theorem nextDepth_of_ifBranch {negate : Bool} (h : i.opcode.operation = .ifBranch negate) :
    nextDepth i.value depth = depth + 1 := by
  have hv := Opcode.value_of_ifBranch i.value negate h
  simp [nextDepth, hv]

theorem nextDepth_of_elseBranch (h : i.opcode.operation = .elseBranch) :
    nextDepth i.value depth = depth := by
  rw [Opcode.value_of_elseBranch i.value h]
  rfl

theorem nextDepth_of_endBranch (h : i.opcode.operation = .endBranch) :
    nextDepth i.value depth = depth - 1 := by
  rw [Opcode.value_of_endBranch i.value h]
  rfl

/-- An opcode that leaves the blocks alone is not counted. -/
theorem nextDepth_of_keep (h : i.opcode.operation.changesBlocks = false) :
    nextDepth i.value depth = depth := by
  have hnot : ¬(i.value = 0x63 ∨ i.value = 0x64 ∨ i.value = 0x68) := fun hv => by
    have hc : i.opcode.operation.changesBlocks = true :=
      Opcode.changesBlocks_of_counted i.value hv
    rw [hc] at h
    cases h
  unfold nextDepth
  rw [if_neg (fun h' => hnot (h'.elim .inl (.inr ∘ .inl))), if_neg (fun h' => hnot (.inr (.inr h')))]

end NextDepth

theorem depthAfter_append (depth : Nat) (s t : Script) :
    depthAfter depth (s ++ t) = depthAfter (depthAfter depth s) t := by
  simp [depthAfter, List.foldl_append]

/-- The depth after one more instruction of a script. -/
theorem depthAfter_take_succ {s : Script} {k : Nat} {i : Instruction} (h : s[k]? = some i) :
    depthAfter 0 (s.take (k + 1)) = nextDepth i.value (depthAfter 0 (s.take k)) := by
  rw [List.take_add_one, h, Option.toList_some, depthAfter_append]
  rfl

end Script

/-! ## A step changes the blocks by its opcode's count -/

/-- Every way a step can change the open blocks changes their number as the parser counts the
opcode: `OP_ENDIF` closes one only when one is open, so the parser's floor at zero is never
reached on a successful step. -/
theorem BlockStep.length_eq {m : Machine} {op : Instruction} {bs : List Branch}
    {es : List Bool} (h : BlockStep m op bs es) :
    bs.length = Script.nextDepth op.value m.branches.length := by
  cases h with
  | keep hop => rw [Script.nextDepth_of_keep _ hop]
  | openRunning hop => rw [Script.nextDepth_of_ifBranch _ hop, List.length_cons]
  | openSkipped hop => rw [Script.nextDepth_of_ifBranch _ hop, List.length_cons]
  | openClosed hop => rw [Script.nextDepth_of_ifBranch _ hop, List.length_cons]
  | flip hop hbs => rw [Script.nextDepth_of_elseBranch _ hop, hbs, List.length_cons,
      List.length_cons]
  | close hop hbs => rw [Script.nextDepth_of_endBranch _ hop, hbs, List.length_cons,
      Nat.add_sub_cancel]

namespace Machine

/-- A successful step moves to the next instruction of the same script, or starts a script at
its first instruction. -/
theorem step_ok_counter {m m' : Machine} {done : Bool} (hq : m.Quiet)
    (h : Exec.step m = .ok done m') :
    (m'.scripts = m.scripts ∧ m'.idx = m.idx ∧ m'.off = m.off + 1) ∨ m'.off = 0 := by
  obtain ⟨script, op, m₁, -, -, hex, hfin⟩ := Exec.step_ok h
  obtain ⟨-, -, hf₁, -, -⟩ := Exec.executeInstruction_frame (by exact hq) hex
  obtain ⟨-, hmove⟩ := Exec.finishStep_ok hfin
  rcases hmove with ⟨-, -, -, rfl⟩ | ⟨o, L, -, hshift⟩
  · have hoff : m₁.off = m.off := congrArg Frame.off hf₁
    exact .inl ⟨congrArg Frame.scripts hf₁, congrArg Frame.idx hf₁, congrArg (· + 1) hoff⟩
  · exact .inr (Exec.shiftScript_ok hshift).off

/-- The parser's conditional depth over the instructions of the current script before the
counter. -/
def parsedDepth (m : Machine) : Nat := Script.depthAfter 0 ((m.scripts.getD m.idx []).take m.off)

/-- On every machine a run reaches, the open blocks are as many as the parser's depth before
the counter. -/
theorem reachable_branches_length {m : Machine} (h : m.Reachable) :
    m.branches.length = m.parsedDepth := by
  induction h with
  | setup hnew =>
    obtain ⟨u, l, -, -, -, -, rfl⟩ := new?_ok hnew
    rfl
  | @step m m' done hr hstep ih =>
    obtain ⟨op, hcur, -, hblock⟩ := step_blockStep hstep
    rcases step_ok_counter (reachable_onTrack hr).quiet hstep with ⟨hsc, hidx, hoff⟩ | h0
    · -- one more instruction of the same script, counted as the parser counts it
      obtain ⟨script, hs, hso⟩ := Option.bind_eq_some_iff.mp hcur
      have hget : (m.scripts.getD m.idx [])[m.off]? = some op := by
        rw [List.getD_eq_getElem?_getD, hs, Option.getD_some, hso]
      unfold parsedDepth at ih ⊢
      rw [hsc, hidx, hoff, Script.depthAfter_take_succ hget, ← ih]
      exact hblock.length_eq
    · -- a new script starts with no block open
      have hfresh := ((reachable_onTrack (.step hr hstep)).fresh h0).2.1
      simp [parsedDepth, hfresh, h0, Script.depthAfter]

/-- Where the parser's depth is zero, no block is open. -/
theorem branches_eq_nil_of_parsedDepth {m : Machine} (h : m.Reachable) (hd : m.parsedDepth = 0) :
    m.branches = [] :=
  List.eq_nil_of_length_eq_zero ((reachable_branches_length h).trans hd)

end Machine

/-! ## A terminating `OP_RETURN` after genesis -/

namespace Exec

/-- After genesis and outside every block, `OP_RETURN` passes the element-size and the
operation-count gates, then marks the early return and makes it pending. -/
theorem executeInstruction_terminating_return {op : Instruction} (m : Machine)
    (hv : op.value = 0x6a) (hg : m.afterGenesis = true) (hb : m.branches = []) :
    executeInstruction op m =
      if op.data.length > m.limits.maxElementSize then
        .error (.elementTooBig op.data.length m.limits.maxElementSize) m
      else if m.numOps + 1 > m.limits.maxOps then
        .error (.tooManyOperations m.limits.maxOps) { m with numOps := m.numOps + 1 }
      else .ok () { m with numOps := m.numOps + 1, earlyReturn := true, pendingReturn := true } := by
  obtain ⟨⟨v⟩, data⟩ := op
  obtain rfl : v = 0x6a := hv
  obtain ⟨hdis, hill, hcount, hcond, hpush⟩ := Opcode.gates_return
  have hexec : m.shouldExec ⟨⟨0x6a⟩, data⟩ = true := by
    simp [Machine.shouldExec, Instruction.value, hg, hb]
  have hperform : perform ⟨⟨0x6a⟩, data⟩ = _ := perform_of_returnEarly Opcode.operation_return
  -- the opcode's byte settles every gate but the element size and the operation count
  simp only [executeInstruction, hperform, hdis, hill, hcount, hcond, hpush, hexec, bind,
    EStateM.bind, get, getThe, MonadStateOf.get, EStateM.get, set, MonadStateOf.set, EStateM.set,
    pure, throw, throwThe, MonadExceptOf.throw, EStateM.throw, run_ite, Machine.isBranchExecuting,
    hg, hb, Bool.false_and, Bool.and_false, Bool.not_true, Bool.not_false, Bool.and_true,
    Bool.false_eq_true, Bool.or_true, List.isEmpty_nil, ↓reduceIte]

end Exec

namespace Machine

/-- An `OP_RETURN` that the parser reads as terminating, at depth zero, meets no open block on a
machine a run reaches. After genesis its step fails only at the element-size or the
operation-count gate, and otherwise ends the script: the counter moves to the next script, past
an empty one, with no block open. -/
theorem step_of_terminating_return {m : Machine} {op : Instruction} (h : m.Reachable)
    (hcur : m.current? = some op) (hv : op.value = 0x6a) (hd : m.parsedDepth = 0)
    (hg : m.afterGenesis = true) :
    m.branches = [] ∧
      (∀ e m', Exec.step m = .error e m' →
        e = .elementTooBig op.data.length m.limits.maxElementSize ∨
          e = .tooManyOperations m.limits.maxOps) ∧
      (∀ done m', Exec.step m = .ok done m' →
        m'.idx = landing m.scripts (m.idx + 1) ∧ m'.off = 0 ∧ m'.branches = []) := by
  have hb := branches_eq_nil_of_parsedDepth h hd
  obtain ⟨script, hs, ho⟩ := Option.bind_eq_some_iff.mp hcur
  rw [Exec.step_of_current hs ho]
  simp only [bind, EStateM.bind]
  rw [Exec.executeInstruction_terminating_return { m with log := .phase .beforeOp m.idx m.off :: m.log }
    hv hg hb]
  refine ⟨hb, fun e m' hstep => ?_, fun done m' hstep => ?_⟩
  all_goals
    split_ifs at hstep with hbig hops
    all_goals dsimp only at hstep
  · cases hstep
    exact .inl rfl
  · cases hstep
    exact .inr rfl
  · -- the pending return moves to the next script, which after genesis cannot fail
    rw [Exec.finishStep_of_pending script rfl] at hstep
    simp only [bind, EStateM.bind] at hstep
    split at hstep
    · cases hstep
    · obtain ⟨-, -, hag, -⟩ := Exec.shiftScript_error ‹_›
      simp [hg] at hag
  · -- past the gates (split_ifs drops the failing ones), the pending return changes script
    rw [Exec.finishStep_of_pending script rfl] at hstep
    simp only [bind, EStateM.bind] at hstep
    split at hstep
    · next m₂ hshift =>
      cases hstep
      have hc := Exec.shiftScript_ok hshift
      refine ⟨?_, hc.off, hc.branches.trans hb⟩
      cases hc.move with
      | save _ hidx _ _ _ hland => rw [hland, hidx]
      | redeem _ _ hag => simp [hg] at hag
      | next _ _ _ _ _ hland => exact hland
    · cases hstep

end Machine

end BitcoinScript
