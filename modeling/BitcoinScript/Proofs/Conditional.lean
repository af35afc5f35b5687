import BitcoinScript.Proofs.Step

/-!
# Conditional blocks against a list of selections

The machine keeps one `Branch` per open `OP_IF` block and reads only the innermost one to decide
whether an opcode runs, with a third state, `skipped`, for blocks opened inside a branch that does
not run; after genesis it uses a second gate, `Machine.shouldExec`, instead of that state. The
reference semantics keeps one flag per open block, whether its branch is selected, and runs an
opcode when every flag is set.

The ladder:

* `BlockStep` says everything one successful step can do to the open blocks, and `step_blockStep`
  proves that every step does one of those things;
* `WellNested` is the invariant of the blocks: as many `OP_ELSE` marks as blocks, before genesis
  a block is skipped exactly when the block around it does not run, after genesis no block is
  skipped; `WellNested.blockStep` keeps it and `reachable_wellNested` holds it on every run;
* on a well-nested machine the innermost block runs exactly when all of them do
  (`isBranchExecuting_and_shouldExec`);
* `Selections.Match` relates the blocks to the reference's flags, and `Selections.Match.blockStep`
  moves it along a step of both.

`conditionals_simulate_reference` puts these together.
-/

set_option autoImplicit false

namespace BitcoinScript

theorem Operation.changesBlocks_table : ∀ i < Opcode.operationTable.length,
    (Opcode.operationTable.getD i .invalid).changesBlocks = true → 2 ≤ i ∧ i ≤ 7 := by
  decide

/-- The block operations belong to `OP_IF` to `OP_ENDIF`, the opcodes that run on every
branch. -/
theorem Opcode.isConditional_of_changesBlocks {op : Opcode} (h : op.operation.changesBlocks = true) :
    op.isConditional = true := by
  simp only [Opcode.operation] at h
  simp only [Opcode.isConditional, Bool.and_eq_true, decide_eq_true_eq,
    UInt8.le_iff_toNat_le, UInt8.reduceToNat]
  split at h
  · simp [Operation.changesBlocks] at h
  split at h
  · simp [Operation.changesBlocks] at h
  split at h
  · simp [Operation.changesBlocks] at h
  split at h
  · by_cases hi : op.value.toNat - 0x61 < Opcode.operationTable.length
    · have := Operation.changesBlocks_table _ hi h
      omega
    · rw [List.getD_eq_getElem?_getD, List.getElem?_eq_none (by omega)] at h
      simp [Operation.changesBlocks] at h
  · simp [Operation.changesBlocks] at h

/-- The truth of the top item of the data stack, the operand `OP_IF` would pop. -/
def Machine.topTruth (m : Machine) : Option Bool := m.dstack.items.head?.map castToBool

namespace Exec

theorem popCondition_ok {m m' : Machine} {v : Bool} (h : popCondition m = .ok v m') :
    m.topTruth = some v ∧ m'.control = m.control := by
  unfold popCondition at h
  obtain ⟨_, _, ⟨⟩, h⟩ := bind_eq_ok.1 h
  rw [run_ite] at h
  split at h
  · obtain ⟨x, rest, hs, rfl, -, hc⟩ := popBool_ok h
    exact ⟨by simp [Machine.topTruth, hs], hc⟩
  · obtain ⟨x, s, hp, hv⟩ := bind_eq_ok.1 h
    obtain ⟨rest, hs, -, hc⟩ := pop_ok hp
    split at hv
    · simp only [pure_run, EStateM.Result.ok.injEq] at hv
      obtain ⟨rfl, rfl⟩ := hv
      exact ⟨by simp [Machine.topTruth, hs, castToBool], hc⟩
    · simp only [pure_run, EStateM.Result.ok.injEq] at hv
      obtain ⟨rfl, rfl⟩ := hv
      exact ⟨by simp [Machine.topTruth, hs, castToBool], hc⟩
    · simp at hv

end Exec

/-- What `OP_ELSE` does to a block: the running and the passed-over branch trade places, and a
block inside a skipped branch stays skipped. -/
def Branch.flip : Branch → Branch
  | .active => .inactive
  | .inactive => .active
  | .skipped => .skipped

/-- What one successful step can do to the open blocks of `m`, by the opcode it runs. -/
inductive BlockStep (m : Machine) (op : Instruction) : List Branch → List Bool → Prop
  /-- Any opcode but the block ones leaves the blocks alone. -/
  | keep : op.opcode.operation.changesBlocks = false → BlockStep m op m.branches m.elseSeen
  /-- With its gate open and the innermost branch running, `OP_IF` pops its operand and opens a
  running or a passed-over block. -/
  | openRunning {negate v : Bool} : op.opcode.operation = .ifBranch negate →
      m.shouldExec op = true → m.isBranchExecuting = true → m.topTruth = some v →
      BlockStep m op ((if v != negate then .active else .inactive) :: m.branches)
        (false :: m.elseSeen)
  /-- Inside a branch that does not run, `OP_IF` opens a skipped block. -/
  | openSkipped {negate : Bool} : op.opcode.operation = .ifBranch negate →
      m.shouldExec op = true → m.isBranchExecuting = false →
      BlockStep m op (.skipped :: m.branches) (false :: m.elseSeen)
  /-- Behind the post-genesis gate, `OP_IF` opens a passed-over block. -/
  | openClosed {negate : Bool} : op.opcode.operation = .ifBranch negate →
      m.shouldExec op = false → BlockStep m op (.inactive :: m.branches) (false :: m.elseSeen)
  /-- `OP_ELSE` flips the innermost block and marks it; after genesis only once. -/
  | flip {b : Branch} {bs : List Branch} {s : Bool} {ss : List Bool} :
      op.opcode.operation = .elseBranch → m.branches = b :: bs → m.elseSeen = s :: ss →
      (m.afterGenesis && s) = false → BlockStep m op (b.flip :: bs) (true :: ss)
  /-- `OP_ENDIF` closes the innermost block. -/
  | close {b : Branch} {bs : List Branch} : op.opcode.operation = .endBranch →
      m.branches = b :: bs → BlockStep m op bs m.elseSeen.tail

namespace Exec

theorem openBranch_ok {op : Instruction} {negate : Bool} {m m' : Machine}
    (hop : op.opcode.operation = .ifBranch negate) (h : openBranch op negate m = .ok () m') :
    m'.rules = m.rules ∧ BlockStep m op m'.branches m'.elseSeen := by
  unfold openBranch at h
  obtain ⟨_, _, ⟨⟩, h⟩ := bind_eq_ok.1 h
  -- the three ways of choosing the new block, each followed by its push
  rw [run_ite] at h
  split at h
  next hexec =>
    rw [run_ite] at h
    split at h
    next hrun =>
      obtain ⟨v, s, hv, h⟩ := bind_eq_ok.1 h
      obtain ⟨htop, hc⟩ := popCondition_ok hv
      simp only [bind_eq_ok, pure_run, EStateM.Result.ok.injEq, modify_run] at h
      obtain ⟨_, _, ⟨rfl, rfl⟩, -, rfl⟩ := h
      have hbr : s.branches = m.branches := congrArg Control.branches hc
      have hes : s.elseSeen = m.elseSeen := congrArg Control.elseSeen hc
      refine ⟨congrArg Control.rules hc, ?_⟩
      simp only [hbr, hes]
      exact .openRunning hop hexec hrun htop
    next hrun =>
      simp only [bind_eq_ok, pure_run, EStateM.Result.ok.injEq, modify_run] at h
      obtain ⟨_, _, ⟨rfl, rfl⟩, -, rfl⟩ := h
      exact ⟨rfl, .openSkipped hop hexec (by simpa using hrun)⟩
  next hexec =>
    simp only [bind_eq_ok, pure_run, EStateM.Result.ok.injEq, modify_run] at h
    obtain ⟨_, _, ⟨rfl, rfl⟩, -, rfl⟩ := h
    exact ⟨rfl, .openClosed hop (by simpa using hexec)⟩

theorem flipBranch_ok {op : Instruction} {m m' : Machine}
    (hop : op.opcode.operation = .elseBranch) (h : flipBranch m = .ok () m') :
    m'.rules = m.rules ∧ BlockStep m op m'.branches m'.elseSeen := by
  unfold flipBranch at h
  obtain ⟨_, _, ⟨⟩, h⟩ := bind_eq_ok.1 h
  cases hb : m.branches with
  | nil => simp [hb] at h
  | cons b bs =>
    cases hs : m.elseSeen with
    | nil => simp [hb, hs] at h
    | cons s ss =>
      simp only [hb, hs, run_ite] at h
      split at h
      next => simp [bind_eq_ok] at h
      next hsecond =>
        simp only [set_run, EStateM.Result.ok.injEq, true_and] at h
        subst h
        refine ⟨rfl, ?_⟩
        -- the code's `match` on the branch is `Branch.flip` once the branch is known
        cases b <;> exact .flip hop hb hs (by simpa using hsecond)

theorem closeBranch_ok {op : Instruction} {m m' : Machine}
    (hop : op.opcode.operation = .endBranch) (h : closeBranch m = .ok () m') :
    m'.rules = m.rules ∧ BlockStep m op m'.branches m'.elseSeen := by
  unfold closeBranch at h
  obtain ⟨_, _, ⟨⟩, h⟩ := bind_eq_ok.1 h
  cases hb : m.branches with
  | nil => simp [hb] at h
  | cons b bs =>
    simp only [hb, set_run, EStateM.Result.ok.injEq, true_and] at h
    subst h
    exact ⟨rfl, .close hop hb⟩

end Exec

/-- The operations that change the open blocks are `OP_IF`/`OP_NOTIF`, `OP_ELSE` and
`OP_ENDIF`. -/
theorem Operation.changesBlocks_eq_true {o : Operation} :
    o.changesBlocks = true ↔ (∃ negate, o = .ifBranch negate) ∨ o = .elseBranch ∨ o = .endBranch := by
  cases o <;> simp [Operation.changesBlocks]

namespace BlockStep

/-- A step's conditions on the blocks read only the blocks, the genesis rule, the early return and
the data stack, so a machine that agrees on these takes the same block steps. -/
theorem transfer {m₁ m : Machine} {op : Instruction} {bs : List Branch} {es : List Bool}
    (h : BlockStep m₁ op bs es) (hb : m₁.branches = m.branches) (he : m₁.elseSeen = m.elseSeen)
    (hg : m₁.afterGenesis = m.afterGenesis) (hr : m₁.earlyReturn = m.earlyReturn)
    (hd : m₁.dstack = m.dstack) : BlockStep m op bs es := by
  have hx : m₁.shouldExec op = m.shouldExec op := by simp only [Machine.shouldExec, hb, hg, hr]
  have hi : m₁.isBranchExecuting = m.isBranchExecuting := by
    simp only [Machine.isBranchExecuting, hb]
  have ht : m₁.topTruth = m.topTruth := by simp only [Machine.topTruth, hd]
  cases h with
  | keep hop =>
    rw [hb, he]
    exact .keep hop
  | openRunning hop hexec hrun htop =>
    rw [hb, he]
    exact .openRunning hop (hx ▸ hexec) (hi ▸ hrun) (ht ▸ htop)
  | openSkipped hop hexec hrun =>
    rw [hb, he]
    exact .openSkipped hop (hx ▸ hexec) (hi ▸ hrun)
  | openClosed hop hexec =>
    rw [hb, he]
    exact .openClosed hop (hx ▸ hexec)
  | flip hop hbs hss hsecond => exact .flip hop (hb ▸ hbs) (he ▸ hss) (hg ▸ hsecond)
  | close hop hbs =>
    rw [he]
    exact .close hop (hb ▸ hbs)

end BlockStep

/-- Every successful step keeps the rules and does to the open blocks one of the things
`BlockStep` lists, for the instruction at the program counter. -/
theorem step_blockStep {m m' : Machine} {done : Bool} (h : Exec.step m = .ok done m') :
    ∃ op, m.current? = some op ∧ m'.rules = m.rules ∧ BlockStep m op m'.branches m'.elseSeen := by
  obtain ⟨script, op, m₁, hs, ho, hexec, hfin⟩ := Exec.step_ok h
  refine ⟨op, by simp [Machine.current?, hs, ho], ?_⟩
  -- the end of the step changes neither the rules nor the blocks
  obtain ⟨hr, hb, he⟩ := (Exec.preserves_course_finishStep m₁.rules m₁.branches m₁.elseSeen
    script).of_ok ⟨rfl, rfl, rfl⟩ hfin
  rw [hr, hb, he]
  cases hblk : op.opcode.operation.changesBlocks
  · have hc := (Exec.preserves_control_executeInstruction _ op hblk).of_ok rfl hexec
    refine ⟨congrArg Control.rules hc, ?_⟩
    rw [show m₁.branches = m.branches from congrArg Control.branches hc,
      show m₁.elseSeen = m.elseSeen from congrArg Control.elseSeen hc]
    exact .keep hblk
  · have hp := Exec.executeInstruction_conditional (Opcode.isConditional_of_changesBlocks hblk) hexec
    obtain ⟨negate, hop⟩ | hop | hop := Operation.changesBlocks_eq_true.1 hblk
    · obtain ⟨hr', hstep⟩ := Exec.openBranch_ok hop (by simpa only [Exec.perform, hop] using hp)
      exact ⟨hr', hstep.transfer rfl rfl rfl rfl rfl⟩
    · obtain ⟨hr', hstep⟩ := Exec.flipBranch_ok hop (by simpa only [Exec.perform, hop] using hp)
      exact ⟨hr', hstep.transfer rfl rfl rfl rfl rfl⟩
    · obtain ⟨hr', hstep⟩ := Exec.closeBranch_ok hop (by simpa only [Exec.perform, hop] using hp)
      exact ⟨hr', hstep.transfer rfl rfl rfl rfl rfl⟩

/-! ## The invariant of the open blocks -/

/-- Before genesis a block is skipped exactly when there is a block around it and that block does
not run. -/
def SkipsNested : List Branch → Prop
  | [] => True
  | b :: outer => (b = .skipped ↔ ∃ o, outer.head? = some o ∧ o ≠ .active) ∧ SkipsNested outer

/-- The open blocks of a machine under a genesis rule: one `OP_ELSE` mark per block, the skipping
rule before genesis, and no skipped block after it. -/
structure WellNested (afterGenesis : Bool) (bs : List Branch) (es : List Bool) : Prop where
  length_eq : es.length = bs.length
  skipsNested : afterGenesis = false → SkipsNested bs
  noSkipped : afterGenesis = true → .skipped ∉ bs

/-- Under the skipping rule, blocks whose innermost one runs all run. -/
theorem SkipsNested.all_active {bs : List Branch} (h : SkipsNested bs)
    (htop : ∀ o, bs.head? = some o → o = .active) : ∀ b ∈ bs, b = .active := by
  induction bs with
  | nil => simp
  | cons b outer ih =>
    have hb : b = .active := htop b rfl
    -- the innermost block is not skipped, so the one around it runs
    have houter : ∀ o, outer.head? = some o → o = .active := by
      intro o ho
      cases o with
      | active => rfl
      | inactive =>
        have hskip := h.1.2 ⟨_, ho, by simp⟩
        rw [hb] at hskip
        cases hskip
      | skipped =>
        have hskip := h.1.2 ⟨_, ho, by simp⟩
        rw [hb] at hskip
        cases hskip
    intro x hx
    rcases List.mem_cons.1 hx with rfl | hx
    · exact hb
    · exact ih h.2 houter x hx

/-- A block whose outer blocks all run is not skipped, under either genesis rule. -/
theorem WellNested.ne_skipped {g : Bool} {b : Branch} {outer : List Branch} {es : List Bool}
    (hw : WellNested g (b :: outer) es) (hall : ∀ c ∈ outer, c = .active) : b ≠ .skipped := by
  intro hb
  cases hg : g
  · obtain ⟨o, ho, hne⟩ := (hw.skipsNested hg).1.1 hb
    exact hne (hall o (List.mem_of_mem_head? ho))
  · exact hw.noSkipped hg (hb ▸ List.mem_cons_self)

theorem Machine.isBranchExecuting_iff (m : Machine) :
    m.isBranchExecuting = true ↔ ∀ o, m.branches.head? = some o → o = .active := by
  unfold Machine.isBranchExecuting
  cases m.branches with
  | nil => simp
  | cons b bs => simp

/-- After genesis, with no skipped block, the gate is open only when every block runs. -/
theorem Machine.all_active_of_shouldExec {m : Machine} {op : Instruction}
    (hg : m.afterGenesis = true) (hnone : .skipped ∉ m.branches) (h : m.shouldExec op = true) :
    ∀ b ∈ m.branches, b = .active := by
  simp only [Machine.shouldExec, hg, Bool.not_true, Bool.false_or, Bool.and_eq_true,
    List.all_eq_true, bne_iff_ne, ne_eq] at h
  intro b hb
  cases b with
  | active => rfl
  | inactive => exact absurd rfl (h.1 _ hb)
  | skipped => exact absurd hb hnone

/-- On well-nested blocks, the test an opcode passes to run (its innermost block running and the
post-genesis gate open) holds exactly when every block runs and, after genesis, no early return
has run or the opcode is `OP_RETURN`. -/
theorem isBranchExecuting_and_shouldExec {m : Machine}
    (hw : WellNested m.afterGenesis m.branches m.elseSeen) (op : Instruction) :
    (m.isBranchExecuting && m.shouldExec op) =
      (m.branches.all (· == .active) && (!m.afterGenesis || !m.earlyReturn || op.value == 0x6a)) := by
  apply Bool.eq_iff_iff.2
  simp only [Bool.and_eq_true, List.all_eq_true, beq_iff_eq, Machine.isBranchExecuting_iff]
  cases hg : m.afterGenesis
  · -- before genesis the gate is open, and the innermost block runs exactly when all do
    have hexec : m.shouldExec op = true := by simp [Machine.shouldExec, hg]
    simp only [hexec, and_true, Bool.not_false, Bool.true_or]
    exact ⟨(hw.skipsNested hg).all_active, fun h o ho => h o (List.mem_of_mem_head? ho)⟩
  · -- after genesis no block is skipped, so an open gate means every block runs
    constructor
    · rintro ⟨-, hexec⟩
      refine ⟨Machine.all_active_of_shouldExec hg (hw.noSkipped hg) hexec, ?_⟩
      simp only [Machine.shouldExec, hg, Bool.not_true, Bool.false_or, Bool.and_eq_true] at hexec
      simpa using hexec.2
    · rintro ⟨hall, hgate⟩
      refine ⟨fun o ho => hall o (List.mem_of_mem_head? ho), ?_⟩
      simp only [Machine.shouldExec, hg, Bool.not_true, Bool.false_or, Bool.and_eq_true,
        List.all_eq_true, bne_iff_ne, ne_eq]
      refine ⟨fun b hb => by simp [hall b hb], by simpa using hgate⟩

/-- Every block step keeps the blocks well nested. -/
theorem WellNested.blockStep {m : Machine} {op : Instruction} {bs : List Branch} {es : List Bool}
    (hw : WellNested m.afterGenesis m.branches m.elseSeen) (h : BlockStep m op bs es) :
    WellNested m.afterGenesis bs es := by
  cases h with
  | keep => exact hw
  | openRunning hop hexec hrun htop =>
    rename_i negate v
    have hnot : ¬∃ o, m.branches.head? = some o ∧ o ≠ .active := by
      rintro ⟨o, ho, hne⟩
      exact hne ((Machine.isBranchExecuting_iff m).1 hrun o ho)
    have hb : (if (v != negate) = true then Branch.active else .inactive) ≠ .skipped := by
      split <;> simp
    refine ⟨by simp [hw.length_eq], fun hg => ⟨?_, hw.skipsNested hg⟩, fun hg => ?_⟩
    · exact iff_of_false hb hnot
    · simp only [List.mem_cons, not_or]
      exact ⟨hb.symm, hw.noSkipped hg⟩
  | openSkipped hop hexec hrun =>
    refine ⟨by simp [hw.length_eq], fun hg => ⟨?_, hw.skipsNested hg⟩, fun hg => ?_⟩
    · refine iff_of_true rfl ?_
      cases hbs : m.branches with
      | nil => simp [Machine.isBranchExecuting, hbs] at hrun
      | cons o rest =>
        refine ⟨o, rfl, fun ho => ?_⟩
        simp [Machine.isBranchExecuting, hbs, ho] at hrun
    · -- after genesis an open gate means every block runs, so the innermost one runs too
      have hall := Machine.all_active_of_shouldExec hg (hw.noSkipped hg) hexec
      have hrun' := (Machine.isBranchExecuting_iff m).2
        (fun o ho => hall o (List.mem_of_mem_head? ho))
      rw [hrun] at hrun'
      cases hrun'
  | openClosed hop hexec =>
    refine ⟨by simp [hw.length_eq], fun hg => ?_, fun hg => ?_⟩
    · simp [Machine.shouldExec, hg] at hexec
    · simp only [List.mem_cons, not_or]
      exact ⟨by simp, hw.noSkipped hg⟩
  | flip hop hbs hss hsecond =>
    rename_i b rest s ss
    have hlen := hw.length_eq
    rw [hbs, hss] at hlen
    have hflip : b.flip = .skipped ↔ b = .skipped := by cases b <;> simp [Branch.flip]
    refine ⟨by simpa using hlen, fun hg => ?_, fun hg => ?_⟩
    · have hsk := hw.skipsNested hg
      rw [hbs] at hsk
      exact ⟨hflip.trans hsk.1, hsk.2⟩
    · have hno := hw.noSkipped hg
      rw [hbs] at hno
      simp only [List.mem_cons, not_or] at hno ⊢
      exact ⟨fun h => hno.1 (hflip.1 h.symm).symm, hno.2⟩
  | close hop hbs =>
    refine ⟨by simp [hw.length_eq, hbs], fun hg => ?_, fun hg => ?_⟩
    · have hsk := hw.skipsNested hg
      rw [hbs] at hsk
      exact hsk.2
    · have hno := hw.noSkipped hg
      rw [hbs] at hno
      exact fun h => hno (List.mem_cons_of_mem _ h)

/-- A machine just set up has no open block. -/
theorem Machine.new?_blocks {u l : Bytes} {f : Flags} {c : Checker} {m : Machine}
    (h : Machine.new? u l f c = .ok m) : m.branches = [] ∧ m.elseSeen = [] := by
  obtain ⟨u, l, -, -, -, -, rfl⟩ := Machine.new?_ok h
  exact ⟨rfl, rfl⟩

/-- The open blocks are well nested on every machine a run reaches. -/
theorem reachable_wellNested {m : Machine} (h : m.Reachable) :
    WellNested m.afterGenesis m.branches m.elseSeen := by
  induction h with
  | setup hnew =>
    obtain ⟨hb, he⟩ := Machine.new?_blocks hnew
    rw [hb, he]
    exact ⟨rfl, fun _ => trivial, fun _ => List.not_mem_nil⟩
  | step _ hstep ih =>
    obtain ⟨op, -, hr, hblock⟩ := step_blockStep hstep
    have hg := congrArg Rules.afterGenesis hr
    simp only [Machine.rules_afterGenesis] at hg
    rw [hg]
    exact ih.blockStep hblock

/-- The skipping rule read bottom up, outermost block first: the block at depth `i` is skipped
exactly when it is not the outermost and the block at depth `i - 1` does not run. -/
theorem SkipsNested.reverse_getElem? {bs : List Branch} (h : SkipsNested bs) :
    ∀ i < bs.length,
      (bs.reverse[i]? = some .skipped ↔ 0 < i ∧ bs.reverse[i - 1]? ≠ some .active) := by
  induction bs with
  | nil => simp
  | cons b outer ih =>
    intro i hi
    simp only [List.length_cons] at hi
    rw [List.reverse_cons]
    rcases Nat.lt_or_ge i outer.length with hlt | hge
    · -- a block inside `outer`: the new innermost block is not seen
      have hlt' : i - 1 < outer.reverse.length := by simp; omega
      rw [List.getElem?_append_left (by simpa using hlt), List.getElem?_append_left hlt']
      exact ih h.2 i hlt
    · -- the innermost block, whose outer neighbour is the head of `outer`
      have hi' : i = outer.length := by omega
      subst hi'
      rw [List.getElem?_append_right (by simp)]
      simp only [List.length_reverse, Nat.sub_self, List.getElem?_cons_zero, Option.some.injEq]
      rw [h.1]
      cases outer with
      | nil => simp
      | cons o os =>
        rw [List.getElem?_append_left (by simp)]
        simp

/-! ## The reference semantics -/

/-- An open block of the reference semantics: whether the branch being read is selected, and
whether the block has had its `OP_ELSE`. -/
structure Selection where
  selected : Bool
  sawElse : Bool
  deriving DecidableEq, Repr

namespace Reference

/-- The reference runs an opcode when every open block's branch is selected and, after genesis,
no early return has run or the opcode is `OP_RETURN`. -/
def executes (afterGenesis earlyReturn : Bool) (op : Instruction) (vf : List Selection) : Bool :=
  vf.all (·.selected) && (!afterGenesis || !earlyReturn || op.value == 0x6a)

/-- One opcode of the reference semantics on the open blocks, innermost first. `operand` is the
truth of the item `OP_IF` would pop, `none` on an empty stack. `OP_IF` pops its operand only when
it runs, and otherwise opens an unselected block; `OP_ELSE` flips the selection of the innermost
block, once only after genesis; `OP_ENDIF` closes it. -/
def step (afterGenesis earlyReturn : Bool) (operand : Option Bool) (op : Instruction)
    (vf : List Selection) : Option (List Selection) :=
  match op.opcode.operation with
  | .ifBranch negate =>
    if executes afterGenesis earlyReturn op vf then operand.map fun v => ⟨v != negate, false⟩ :: vf
    else some (⟨false, false⟩ :: vf)
  | .elseBranch =>
    match vf with
    | [] => none
    | s :: rest => if afterGenesis && s.sawElse then none else some (⟨!s.selected, true⟩ :: rest)
  | .endBranch =>
    match vf with
    | [] => none
    | _ :: rest => some rest
  | _ => some vf

theorem step_of_changesBlocks {afterGenesis earlyReturn : Bool} {operand : Option Bool}
    {op : Instruction} (h : op.opcode.operation.changesBlocks = false) (vf : List Selection) :
    step afterGenesis earlyReturn operand op vf = some vf := by
  unfold step
  split <;> simp_all [Operation.changesBlocks]

end Reference

namespace Selections

/-- The open blocks of a machine stand for the reference's selections: one selection per block,
the same `OP_ELSE` marks, and at every depth the blocks from the outermost one to it all run
exactly when their selections are all made. -/
structure Match (bs : List Branch) (es : List Bool) (vf : List Selection) : Prop where
  length_eq : bs.length = vf.length
  elseSeen_eq : es = vf.map (·.sawElse)
  runs_eq : ∀ k, (bs.drop k).all (· == .active) = (vf.drop k).all (·.selected)

theorem Match.nil : Match [] [] [] := ⟨rfl, rfl, fun _ => by simp⟩

/-- Opening a block on both sides keeps the match when the new innermost depth agrees. -/
theorem Match.push {bs : List Branch} {es : List Bool} {vf : List Selection} (hm : Match bs es vf)
    (b : Branch) (s : Selection)
    (h0 : (b == .active && bs.all (· == .active)) = (s.selected && vf.all (·.selected))) :
    Match (b :: bs) (s.sawElse :: es) (s :: vf) := by
  refine ⟨by simp [hm.length_eq], by simp [hm.elseSeen_eq], fun k => ?_⟩
  cases k with
  | zero => simpa using h0
  | succ k => simpa using hm.runs_eq k

theorem Match.tail {b : Branch} {bs : List Branch} {e : Bool} {es : List Bool} {s : Selection}
    {vf : List Selection} (hm : Match (b :: bs) (e :: es) (s :: vf)) : Match bs es vf := by
  have he := hm.elseSeen_eq
  simp only [List.map_cons, List.cons.injEq] at he
  refine ⟨by simpa using hm.length_eq, he.2, fun k => ?_⟩
  simpa using hm.runs_eq (k + 1)

/-- Blocks that are open match selections that are. -/
theorem Match.exists_cons {b : Branch} {bs : List Branch} {es : List Bool} {vf : List Selection}
    (hm : Match (b :: bs) es vf) : ∃ x xs, vf = x :: xs := by
  cases vf with
  | nil => exact absurd hm.length_eq (by simp)
  | cons x xs => exact ⟨x, xs, rfl⟩

/-- On well-nested blocks that match the selections, the machine runs an opcode exactly when the
reference does. -/
theorem Match.executes {m : Machine} {vf : List Selection}
    (hw : WellNested m.afterGenesis m.branches m.elseSeen)
    (hm : Match m.branches m.elseSeen vf) (op : Instruction) :
    (m.isBranchExecuting && m.shouldExec op) =
      Reference.executes m.afterGenesis m.earlyReturn op vf := by
  have h0 := hm.runs_eq 0
  simp only [List.drop_zero] at h0
  rw [isBranchExecuting_and_shouldExec hw, Reference.executes, h0]

/-- Each block step of the machine is matched by a step of the reference, which then still
matches. -/
theorem Match.blockStep {m : Machine} {op : Instruction} {bs : List Branch} {es : List Bool}
    {vf : List Selection} (hw : WellNested m.afterGenesis m.branches m.elseSeen)
    (hm : Match m.branches m.elseSeen vf) (h : BlockStep m op bs es) :
    ∃ vf', Reference.step m.afterGenesis m.earlyReturn m.topTruth op vf = some vf' ∧
      Match bs es vf' := by
  have h0 := hm.runs_eq 0
  simp only [List.drop_zero] at h0
  cases h with
  | keep hop => exact ⟨vf, Reference.step_of_changesBlocks hop vf, hm⟩
  | openRunning hop hexec hrun htop =>
    rename_i negate v
    have hex : Reference.executes m.afterGenesis m.earlyReturn op vf = true := by
      rw [← hm.executes hw, hexec, hrun, Bool.and_self]
    refine ⟨_, by simp [Reference.step, hop, hex, htop], hm.push _ ⟨v != negate, false⟩ ?_⟩
    rw [h0]
    cases v != negate <;> rfl
  | openSkipped hop hexec hrun =>
    have hex : Reference.executes m.afterGenesis m.earlyReturn op vf = false := by
      rw [← hm.executes hw, hrun, Bool.false_and]
    exact ⟨_, by simp [Reference.step, hop, hex], hm.push _ ⟨false, false⟩ rfl⟩
  | openClosed hop hexec =>
    have hex : Reference.executes m.afterGenesis m.earlyReturn op vf = false := by
      rw [← hm.executes hw, hexec, Bool.and_false]
    exact ⟨_, by simp [Reference.step, hop, hex], hm.push _ ⟨false, false⟩ rfl⟩
  | flip hop hbs hss hsecond =>
    rename_i b rest s ss
    have hm' := hm
    rw [hbs, hss] at hm'
    obtain ⟨x, xs, rfl⟩ := hm'.exists_cons
    have hs : s = x.sawElse := by simpa using congrArg List.head? hm'.elseSeen_eq
    have hrest := hm'.tail
    refine ⟨⟨!x.selected, true⟩ :: xs, by simp [Reference.step, hop, ← hs, hsecond], ?_⟩
    refine (hrest.push b.flip ⟨!x.selected, true⟩ ?_)
    -- the flipped block runs exactly when the flipped selection is made, given the outer ones
    have h1 := hm'.runs_eq 1
    have h0' := hm'.runs_eq 0
    simp only [List.drop_succ_cons, List.drop_zero, List.all_cons] at h1 h0'
    cases hall : rest.all (· == .active)
    · rw [h1] at hall
      simp [hall]
    · have hx : (b == .active) = x.selected := by simpa [hall, ← h1] using h0'
      have hnot : b ≠ .skipped := (hbs ▸ hw).ne_skipped (by simpa using hall)
      rw [← h1, hall, ← hx]
      cases b
      · rfl
      · rfl
      · exact absurd rfl hnot
  | close hop hbs =>
    obtain ⟨x, xs, rfl⟩ := (hbs ▸ hm).exists_cons
    have hm' := hm
    rw [hbs, hm.elseSeen_eq] at hm'
    refine ⟨xs, by simp [Reference.step, hop], ?_⟩
    rw [hm.elseSeen_eq]
    exact hm'.tail

end Selections

/-! ## Simulation -/

/-- Conditional execution follows the reference semantics. A machine set up for a spend has no
open block, matching the reference's empty list. On every machine a run reaches, there are as
many `OP_ELSE` marks as blocks; before genesis the block at depth `i`, counted from the
outermost, is skipped exactly when it is not the outermost and the block around it does not run,
and after genesis no block is skipped; so the gate in front of an opcode, which reads the
innermost block only, passes exactly when every block runs and no early return is pending or
the opcode is `OP_RETURN`. Whenever the blocks match a list of selections, the gate is the
reference's, and a successful step is matched by a successful step of the reference on the
opcode it ran, after which the blocks match again. -/
theorem conditionals_simulate_reference :
    (∀ {unlocking locking : Bytes} {flags : Flags} {checker : Checker} {m : Machine},
      Machine.new? unlocking locking flags checker = .ok m →
        Selections.Match m.branches m.elseSeen []) ∧
    ∀ m : Machine, m.Reachable →
      m.elseSeen.length = m.branches.length ∧
      (m.afterGenesis = false → ∀ i < m.branches.length,
        (m.branches.reverse[i]? = some .skipped ↔
          0 < i ∧ m.branches.reverse[i - 1]? ≠ some .active)) ∧
      (m.afterGenesis = true → .skipped ∉ m.branches) ∧
      (∀ op, (m.isBranchExecuting && m.shouldExec op) =
        (m.branches.all (· == .active) && (!m.afterGenesis || !m.earlyReturn || op.value == 0x6a))) ∧
      ∀ vf, Selections.Match m.branches m.elseSeen vf →
        (∀ op, (m.isBranchExecuting && m.shouldExec op) =
          Reference.executes m.afterGenesis m.earlyReturn op vf) ∧
        ∀ m' done, Exec.step m = .ok done m' →
          ∃ op vf', m.current? = some op ∧
            Reference.step m.afterGenesis m.earlyReturn m.topTruth op vf = some vf' ∧
            Selections.Match m'.branches m'.elseSeen vf' := by
  refine ⟨fun hnew => ?_, fun m hreach => ?_⟩
  · obtain ⟨hb, he⟩ := Machine.new?_blocks hnew
    rw [hb, he]
    exact Selections.Match.nil
  · have hw := reachable_wellNested hreach
    refine ⟨hw.length_eq, fun hg => (hw.skipsNested hg).reverse_getElem?, hw.noSkipped,
      isBranchExecuting_and_shouldExec hw, fun vf hm => ⟨hm.executes hw, ?_⟩⟩
    intro m' done hstep
    obtain ⟨op, hcur, hr, hblock⟩ := step_blockStep hstep
    obtain ⟨vf', href, hm'⟩ := hm.blockStep hw hblock
    exact ⟨op, vf', hcur, href, hm'⟩

/-- The spend of `OP_1 OP_IF OP_1 OP_ENDIF`, nothing unlocking, before genesis. The set-up machine
stands on `OP_1`; its step pushes a true item and stands on `OP_IF` with no early return; that step
opens a block, with no `OP_ELSE` mark, counts as an operation, and leaves instructions to run. -/
theorem Machine.run_ifOne :
    ∃ m₀ m₁ m₂ : Machine, Machine.new? [] [0x51, 0x63, 0x51, 0x68] ⟨0⟩ Checker.acceptAll = .ok m₀ ∧
      Exec.step m₀ = .ok false m₁ ∧ Exec.step m₁ = .ok false m₂ ∧
      m₀.current? = some (.ofByte 0x51) ∧ m₁.current? = some (.ofByte 0x63) ∧
      m₁.topTruth = some true ∧ m₁.afterGenesis = false ∧ m₁.earlyReturn = false ∧
      m₂.elseSeen = [false] ∧ m₂.numOps = 1 ∧ m₂.isDone = false := by
  have hu : Script.parse? [] = some [] := by simp [Script.parse?, Script.parseAt]
  have hl : Script.parse? [0x51, 0x63, 0x51, 0x68] =
      some [.ofByte 0x51, .ofByte 0x63, .ofByte 0x51, .ofByte 0x68] := by
    simp [Script.parse?, Script.parseAt]
  obtain ⟨m₀, hnew⟩ : ∃ m, Machine.new? [] [0x51, 0x63, 0x51, 0x68] ⟨0⟩ Checker.acceptAll = .ok m := by
    simp only [Machine.new?, hu, hl]
    exact ⟨_, rfl⟩
  obtain ⟨u, l, hu', hl', -, -, hm₀⟩ := Machine.new?_ok hnew
  rw [hu, Option.some.injEq] at hu'
  rw [hl, Option.some.injEq] at hl'
  subst hu' hl' hm₀
  -- the pushed item is the encoding of `1`, whose truth only the kernel evaluates
  refine ⟨_, _, _, hnew, rfl, rfl, rfl, rfl, ?_, rfl, rfl, rfl, rfl, rfl⟩
  decide +kernel

/-- Along that run the simulation is carried twice: from the empty list of selections at setup,
`OP_1` keeps it and `OP_IF` on its true item opens one selected block, which the machine's open
block matches; there the gate in front of the next `OP_1` is the reference's. -/
theorem conditionals_simulate_reference_ifOne :
    ∃ m₀ m₁ m₂ : Machine, Machine.new? [] [0x51, 0x63, 0x51, 0x68] ⟨0⟩ Checker.acceptAll = .ok m₀ ∧
      Exec.step m₀ = .ok false m₁ ∧ Exec.step m₁ = .ok false m₂ ∧ m₂.branches = [.active] ∧
      m₂.elseSeen.length = m₂.branches.length ∧
      Selections.Match m₂.branches m₂.elseSeen [⟨true, false⟩] ∧
      (m₂.isBranchExecuting && m₂.shouldExec (.ofByte 0x51)) =
        Reference.executes m₂.afterGenesis m₂.earlyReturn (.ofByte 0x51) [⟨true, false⟩] := by
  obtain ⟨m₀, m₁, m₂, hnew, h₀, h₁, hc₀, hc₁, ht₁, hg₁, he₁, -⟩ := Machine.run_ifOne
  have hr₀ : m₀.Reachable := .setup hnew
  have hr₁ : m₁.Reachable := .step hr₀ h₀
  have hr₂ : m₂.Reachable := .step hr₁ h₁
  -- the reference's step on `OP_1` keeps the empty list
  obtain ⟨op₀, vf₁, hop₀, href₀, hm₁⟩ := ((conditionals_simulate_reference.2 m₀ hr₀).2.2.2.2 []
    (conditionals_simulate_reference.1 hnew)).2 m₁ false h₀
  rw [hc₀, Option.some.injEq] at hop₀
  subst hop₀
  obtain rfl : vf₁ = [] := (Option.some.inj href₀).symm
  -- and on `OP_IF`, every block running, it opens one selected by the true item
  obtain ⟨op₁, vf₂, hop₁, href₁, hm₂⟩ :=
    ((conditionals_simulate_reference.2 m₁ hr₁).2.2.2.2 [] hm₁).2 m₂ false h₁
  rw [hc₁, Option.some.injEq] at hop₁
  subst hop₁
  rw [ht₁, hg₁, he₁] at href₁
  obtain rfl : vf₂ = [⟨true, false⟩] := (Option.some.inj href₁).symm
  -- the one open block runs, as its selection is made
  have hb₂ : m₂.branches = [.active] := by
    obtain ⟨b, hb⟩ := List.length_eq_one_iff.mp hm₂.length_eq
    have hrun := hm₂.runs_eq 0
    rw [hb] at hrun ⊢
    cases b <;> simp_all
  have hsim₂ := conditionals_simulate_reference.2 m₂ hr₂
  exact ⟨m₀, m₁, m₂, hnew, h₀, h₁, hb₂, hsim₂.1, hm₂, (hsim₂.2.2.2.2 _ hm₂).1 _⟩

end BitcoinScript
