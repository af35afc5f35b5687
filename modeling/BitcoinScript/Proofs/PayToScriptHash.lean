import BitcoinScript.Proofs.Stage

/-!
# P2SH spends before genesis

Before genesis a P2SH spend is verified by BIP16 in stages: the unlocking script and the locking
script run as a plain run and must leave a true item on top; then the stack the unlocking script
left, its top read as the redeem script, runs that script on the rest, and the final check applies
there. `Machine.PassesStages` states the stages as three plain runs, and
`verify_payToScriptHash_iff_stages` proves that a spend within the size limit verifies exactly when
it passes them.

The machine carries the stage as two fields, the stage flag and the stack saved at the end of the
unlocking script. Until the locking script ends the saved stack is the plain run's stack at its
start (`Unfinished.saved`); the step that ends the locking script is the stage; after it the
run is the plain run of the redeem script (`Stage`). The step budget of a verification covers the
run because the unlocking script only pushes: the redeem script is one of its pushes, no longer
than its inline data and a byte.

The size limit of the setup is part of the verdict: an unlocking script of more than 10000 bytes
is refused before it runs, whatever its stages do (`verify_refuses_oversized_unlocking`).
-/

set_option autoImplicit false

namespace BitcoinScript

/-! ## Pushes -/

namespace Number

/-- A number below `128` in magnitude is at most one byte: its sign fits in the top bit. -/
theorem length_encode_le_one {n : Int} (h : n.natAbs < 128) : (encode n).length ≤ 1 := by
  unfold encode
  dsimp only
  by_cases h0 : n.natAbs = 0
  · simp [h0, magnitudeLE_zero]
  · have hmag : magnitudeLE n.natAbs = [(n.natAbs % 256).toUInt8] := by
      rw [magnitudeLE, if_neg h0, Nat.div_eq_of_lt (by omega), magnitudeLE_zero]
    have htop : (n.natAbs % 256).toUInt8 &&& 0x80 = 0 := by
      -- the byte is below `2 ^ 7`, so its top bit is clear
      have hlt : (n.natAbs % 256).toUInt8.toNat < 2 ^ 7 := by
        simp [Nat.toUInt8]
        omega
      apply UInt8.toNat_inj.mp
      rw [UInt8.toNat_and]
      show _ &&& 2 ^ 7 = 0
      rw [Nat.and_two_pow, Nat.testBit_lt_two_pow hlt]
      rfl
    simp only [hmag, List.getLast?_singleton, htop, ne_eq, not_true_eq_false, ite_false]
    split <;> simp

/-- Clamping to 32 bits keeps a number that fits. -/
theorem natAbs_clampI32_le (n : Int) : (clampI32 n).natAbs ≤ n.natAbs := by
  unfold clampI32 maxI32 minI32
  split_ifs <;> omega

end Number

/-- The push opcodes, up to `OP_16`: pushes of inline data, `OP_RESERVED`, and the small
numbers. -/
theorem Opcode.operation_of_isPush {op : Opcode} (h : op.isPush = true) :
    op.operation = .pushData ∨ op.operation = .reserved ∨ ∃ n, op.operation = .pushSmall n := by
  have hle : op.value.toNat ≤ 0x60 := by
    simpa [Opcode.isPush, UInt8.le_iff_toNat_le] using h
  unfold Opcode.operation
  dsimp only
  split_ifs <;>
    first | exact .inl rfl | exact .inr (.inl rfl) | exact .inr (.inr ⟨_, rfl⟩)

namespace Exec

/-- A push opcode that succeeds adds at most one item to the data stack, no longer than one byte
more than its inline data. -/
theorem executeInstruction_push {op : Instruction} {m m' : Machine} (hop : op.opcode.isPush = true)
    (h : executeInstruction op m = .ok () m') :
    ∀ x ∈ m'.dstack.items, x ∈ m.dstack.items ∨ x.length ≤ op.data.length + 1 := by
  obtain ⟨-, -, hrun⟩ := executeInstruction_ok h
  rcases hrun with rfl | hperf
  · -- a skipped opcode leaves the stack
    intro x hx
    exact .inl (by simpa using hx)
  rcases Opcode.operation_of_isPush hop with hd | hr | ⟨n, hn⟩
  · simp only [perform, hd, push, onData, Stack.push] at hperf
    cases hperf
    intro x hx
    rcases List.mem_cons.mp hx with rfl | hx
    · exact .inr (Nat.le_succ _)
    · exact .inl (by simpa using hx)
  · simp [perform, hr, throw, throwThe, MonadExceptOf.throw, EStateM.throw] at hperf
  · have hsmall := Opcode.natAbs_le_of_pushSmall hn
    simp only [perform, hn, pushNum, onData, Stack.pushNum, Stack.push, bind, EStateM.bind, get,
      getThe, MonadStateOf.get, EStateM.get] at hperf
    cases hperf
    intro x hx
    rcases List.mem_cons.mp hx with rfl | hx
    · -- a small number takes one byte
      right
      have hle : (if (m.counted op).dstack.afterGenesis then n else Number.clampI32 n).natAbs < 128 := by
        split
        · omega
        · have := Number.natAbs_clampI32_le n
          omega
      have := Number.length_encode_le_one hle
      omega
    · exact .inl (by simpa using hx)

end Exec

namespace Machine

/-- A step writes the data stack as its instruction leaves it. Within a script it keeps the saved
stack; when the unlocking script of a P2SH spend ends, the stack is saved as it is and the next
script starts. -/
theorem step_ok_stack {m m' : Machine} {done : Bool} (hq : m.Quiet)
    (h : Exec.step m = .ok done m') :
    ∃ op m₁, op ∈ m.scripts.getD m.idx [] ∧
      Exec.executeInstruction op { m with log := .phase .beforeOp m.idx m.off :: m.log } =
        .ok () m₁ ∧
      (m'.idx = m.idx → m'.dstack = m₁.dstack ∧ m'.savedFirst = m.savedFirst) ∧
      (m.bip16 = true → m.idx = 0 → m'.idx ≠ 0 →
        m'.dstack = m₁.dstack ∧ m'.savedFirst = m₁.dstack.items ∧ m'.off = 0) := by
  obtain ⟨script, op, m₁, hs, ho, hex, hfin⟩ := Exec.step_ok h
  obtain ⟨-, -, hf₁, -, -⟩ := Exec.executeInstruction_frame (by exact hq) hex
  have hidx : m₁.idx = m.idx := congrArg Frame.idx hf₁
  have hsaved : m₁.savedFirst = m.savedFirst := congrArg Frame.savedFirst hf₁
  have hrules : m₁.rules = m.rules := congrArg Frame.rules hf₁
  refine ⟨op, m₁, ?_, hex, ?_⟩
  · simpa [List.getD_eq_getElem?_getD, hs] using List.mem_of_getElem? ho
  obtain ⟨-, hmove⟩ := Exec.finishStep_ok hfin
  rcases hmove with ⟨-, -, -, rfl⟩ | ⟨o, L, -, hshift⟩
  · exact ⟨fun _ => ⟨rfl, hsaved⟩, fun _ h0 hne => absurd (hidx.trans h0) hne⟩
  · have hc := Exec.shiftScript_ok hshift
    have hlt : m.idx < m'.idx := by simpa [hidx] using hc.idx_lt
    refine ⟨fun he => absurd he (by omega), fun hb h0 _ => ?_⟩
    cases hc.move with
    | save _ _ _ hsave hd _ => exact ⟨hd, hsave, hc.off⟩
    | redeem _ hi => simp [hidx, h0] at hi
    | next hno => exact absurd ⟨(congrArg Rules.bip16 hrules).trans hb, hidx.trans h0⟩ hno

/-! ## The run before the stage -/

/-- Before genesis a P2SH spend within the size limit sets up the plain run of its two scripts
with the stage ahead. -/
theorem new?_payToScriptHash {unlocking locking : Bytes} {F : Flags} {c : Checker} {u l : Script}
    (hp2sh : F.p2sh = true) (hpre : F.afterGenesis = false)
    (hsize : unlocking.length ≤ Limits.beforeGenesis.maxScriptSize)
    (hu : Script.parse? unlocking = some u) (hpush : u.isPushOnly = true)
    (hl : Script.parse? locking = some l) (hlock : Script.isPayToScriptHash locking = true) :
    new? unlocking locking F c = .ok (spend F c u l) := by
  have hlen : locking.length = 23 := by
    simp only [Script.isPayToScriptHash, Bool.and_eq_true, decide_eq_true_eq] at hlock
    exact hlock.1.1.1
  have hne : locking ≠ [] := fun h => by simp [h] at hlen
  have hsize' : ¬ unlocking.length > 10000 := by
    simpa [Limits.beforeGenesis] using hsize
  simp [new?, hu, hl, hpush, hlock, Flags.effective_p2sh, Flags.effective_afterGenesis, hp2sh, hpre,
    hlen, hne, hsize', Limits.ofGenesis, Limits.beforeGenesis, spend, start, landing]
  rfl

section Saved

variable {m₀ m : Machine} {k D : Nat}

/-- Before the stage a run of a P2SH spend keeps what the stage reads. At the start of the locking
script the saved stack is the data stack of the plain run there; and since the unlocking script
only pushes, no item of it is more than a byte longer than the longest inline data `D`. -/
theorem Unfinished.saved (h₀ : m₀.Reachable) (hb : m₀.bip16 = true)
    (hnil : m₀.dstack.items = []) (hsaved : m₀.savedFirst = []) (hoff : m₀.off = 0)
    (hpush : ∀ op ∈ m₀.scripts.getD 0 [], op.opcode.isPush = true ∧ op.data.length ≤ D)
    (h : m₀.Unfinished k m) (hi : m.idx ≤ 1) :
    (m.idx = 0 → ∀ x ∈ m.dstack.items, x.length ≤ D + 1) ∧
    (m.idx = 1 → (∀ x ∈ m.savedFirst, x.length ≤ D + 1) ∧
      ∃ j mU, m₀.unstaged.Unfinished j mU ∧ mU.idx = 1 ∧ mU.off = 0 ∧
        mU.dstack.items = m.savedFirst) := by
  induction h with
  | start =>
    refine ⟨fun _ x hx => by simp [hnil] at hx, fun h1 => ⟨by simp [hsaved], 0, m₀.unstaged,
      .start, h1, hoff, by simp [hnil, hsaved]⟩⟩
  | @step k m₁ m₂ hk hs ih =>
    have ht := reachable_onTrack (hk.reachable h₀)
    have hadv := (step_ok_advances ht.quiet hs).2.1
    have hi₁ : m₁.idx ≤ 1 := by omega
    obtain ⟨ih0, ih1⟩ := ih hi₁
    obtain ⟨op, m₁', hop, hex, hsame, hsave⟩ := step_ok_stack ht.quiet hs
    have hsc : m₁.scripts = m₀.scripts := hk.scripts_eq h₀ hi₁
    have hb₁ : m₁.bip16 = true := (congrArg (fun σ => σ.rules.bip16) (hk.setting h₀)).trans hb
    -- an instruction of the unlocking script pushes at most one short item
    have hpushed : m₁.idx = 0 → ∀ x ∈ m₁'.dstack.items, x.length ≤ D + 1 := fun h0 x hx => by
      rw [h0, hsc] at hop
      obtain ⟨hisPush, hD⟩ := hpush op hop
      rcases Exec.executeInstruction_push hisPush hex x hx with hx | hx
      · exact ih0 h0 x hx
      · omega
    rcases Nat.lt_or_ge m₁.idx m₂.idx with hlt | hge
    · -- the unlocking script ends and its stack is saved
      have h0 : m₁.idx = 0 := by omega
      obtain ⟨hd, hsv, hoff₂⟩ := hsave hb₁ h0 (by omega)
      refine ⟨fun h => absurd h (by omega), fun h1 => ⟨hsv ▸ hpushed h0, k + 1, m₂.unstaged,
        (hk.step hs).unstaged h₀ fun _ => hi, h1, hoff₂, by simp [hd, hsv]⟩⟩
    · have heq : m₂.idx = m₁.idx := by
        rcases hadv with hlt | ⟨heq, -⟩
        · omega
        · exact heq
      obtain ⟨hd, hsv⟩ := hsame heq
      refine ⟨fun h0 => ?_, fun h1 => ?_⟩
      · rw [hd]
        exact hpushed (heq ▸ h0)
      · rw [hsv]
        exact ih1 (heq ▸ h1)

end Saved

/-! ## The stages -/

/-- The BIP16 reading of a P2SH spend, as plain runs: the unlocking and the locking script run
one after the other and leave a true item on top; the data stack the unlocking script leaves holds
a redeem script on top of the rest; and that script, parsed, runs as a third script on the rest
and passes the final check. -/
def PassesStages (F : Flags) (c : Checker) (u l : Script) : Prop :=
  (∃ mB, (start F c [u, l] 0 []).Finishes mB ∧ ∃ mB', Exec.checkCondition false mB = .ok () mB') ∧
  ∃ k mU, (start F c [u, l] 0 []).Unfinished k mU ∧ mU.idx = 1 ∧ mU.off = 0 ∧
    ∃ redeem xs s, mU.dstack.items = redeem :: xs ∧ Script.parse? redeem = some s ∧
      ∃ mC, (start F c [u, l, s] 2 xs).Finishes mC ∧
        ∃ mC', Exec.checkCondition true mC = .ok () mC'

section Spend

variable {F : Flags} {c : Checker} {u l : Script}

theorem spend_unstaged : (spend F c u l).unstaged = start F c [u, l] 0 [] := rfl

theorem spend_idx_le : (spend F c u l).idx ≤ 1 := by
  show landing [u, l] 0 ≤ 1
  unfold landing
  split <;> omega

theorem spend_not_done : (spend F c u l).isDone = false := by
  have := spend_idx_le (F := F) (c := c) (u := u) (l := l)
  simp only [isDone, decide_eq_false_iff_not, not_le]
  show _ < 2
  omega

/-- The step budget of a spend covers its two scripts and one byte past the unlocking script's
inline data. -/
theorem spend_stepBound :
    (spend F c u l).stepBound =
      u.length + (u.map fun i => i.data.length).sum +
        (l.length + (l.map fun i => i.data.length).sum) + 1 := by
  rfl

/-- Before the stage, what the stage reads: the saved stack, once the locking script runs, is the
plain run's stack at its start, and its items are short. -/
theorem Unfinished.spend_saved {j : Nat} {ML : Machine} (h₀ : (spend F c u l).Reachable)
    (hpush : u.isPushOnly = true) (hj : (spend F c u l).Unfinished j ML) (hi : ML.idx = 1) :
    (∀ x ∈ ML.savedFirst, x.length ≤ (u.map fun i => i.data.length).sum + 1) ∧
      ∃ (k : Nat) (mU : Machine), (Machine.start F c [u, l] 0 []).Unfinished k mU ∧ mU.idx = 1 ∧
        mU.off = 0 ∧ mU.dstack.items = ML.savedFirst :=
  (hj.saved h₀ rfl rfl rfl rfl (fun op hop => ⟨List.all_eq_true.mp hpush op hop,
    List.le_sum_of_mem (List.mem_map.mpr ⟨op, hop, rfl⟩)⟩) hi.le).2 hi

/-- The run of a P2SH spend, up to a step that leaves the first two scripts: that step is the
stage, from the last instruction of the locking script. -/
theorem Unfinished.spend_staging {j : Nat} {ML MC : Machine} {done : Bool}
    (h₀ : (spend F c u l).Reachable) (hpre : F.effective.afterGenesis = false) (hl : l ≠ [])
    (hj : (spend F c u l).Unfinished j ML) (hi : ML.idx ≤ 1)
    (h : Exec.step ML.unstaged = .ok done MC ∨ Exec.step ML = .ok done MC) (h2 : 2 ≤ MC.idx) :
    ML.Staging ∧ l.length ≤ ML.off + 1 := by
  have ht := reachable_onTrack (hj.reachable h₀)
  have hsc : ML.scripts = [u, l] := hj.scripts_eq h₀ hi
  have hset := hj.setting h₀
  have hag : ML.afterGenesis = false :=
    (congrArg (fun σ => σ.rules.afterGenesis) hset).trans hpre
  have hl' : ML.scripts.getD 1 [] ≠ [] := by simpa [hsc] using hl
  obtain ⟨h1, hend⟩ : ML.idx = 1 ∧ (ML.scripts.getD 1 []).length ≤ ML.off + 1 := by
    rcases h with h | h
    · exact step_crosses (m := ML.unstaged) (by exact ht.quiet) ht.settled hag hl' hi h h2
    · exact step_crosses ht.quiet ht.settled hag hl' hi h h2
  exact ⟨⟨congrArg (fun σ => σ.rules.bip16) hset, h1, hag⟩, by simpa [hsc] using hend⟩

/-- A run of a P2SH spend to the end whose final check passes passes the stages. -/
theorem passesStages_of_run {K : Nat} {mL ME : Machine} (h₀ : (spend F c u l).Reachable)
    (hpre : F.effective.afterGenesis = false) (hpush : u.isPushOnly = true) (hl : l ≠ [])
    (hK : (spend F c u l).Unfinished K mL) (hL : Exec.step mL = .ok true ME)
    (hE : ∃ ME', Exec.checkCondition true ME = .ok () ME') : PassesStages F c u l := by
  -- the run leaves the first two scripts at the stage step
  have h2 : 2 ≤ ME.idx := by
    have hdone : ME.isDone = true := (step_ok_done hL).symm
    have hlen := (step_ok_advances (reachable_onTrack (hK.reachable h₀)).quiet hL).1.length_le
    obtain ⟨-, rs, hrs, -⟩ := hK.scripts h₀
    simp only [hrs, List.length_append] at hlen
    simp only [isDone, decide_eq_true_eq] at hdone
    have : (spend F c u l).scripts.length = 2 := rfl
    omega
  obtain ⟨j, ML, d, MC, hj, hiL, hsL, h2C, hC⟩ := Finishes.cross (.inr ⟨K, mL, hK, hL⟩) spend_idx_le h2
  have hst := hj.spend_staging h₀ hpre hl hiL (.inr hsL) h2C
  obtain ⟨mB, hB, hcheckB, redeem, rest, r, hsaved, hparse, hrC, -, h2C', hstart⟩ :=
    step_stage_start (hj.reachable h₀) (hj.setting h₀) (hj.scripts_eq h₀ hiL) hst.1 hst.2 hsL
  obtain ⟨-, jU, mU, hUrun, hUidx, hUoff, hUitems⟩ := hj.spend_saved h₀ hpush hst.1.2.1
  refine ⟨⟨mB, .inr ⟨j, ML.unstaged, hj.unstaged h₀ fun _ => hiL, hB⟩, hcheckB⟩, jU, mU, hUrun,
    hUidx, hUoff, redeem, rest, r, hUitems.trans hsaved, hparse, ?_⟩
  exact (finishes_start_iff hrC h2C' hstart).mpr ⟨ME, hC, hE⟩

/-- The plain run of a spend's two scripts ends at the last instruction of the locking script, on
a machine of the run with the stage. -/
theorem Finishes.spend_plain {mB : Machine} (h₀ : (spend F c u l).Reachable)
    (hpre : F.effective.afterGenesis = false) (hl : l ≠ [])
    (h : (Machine.start F c [u, l] 0 []).Finishes mB) :
    ∃ j ML, (spend F c u l).Unfinished j ML ∧ ML.idx ≤ 1 ∧ ML.Staging ∧
      l.length ≤ ML.off + 1 ∧ Exec.step ML.unstaged = .ok true mB := by
  obtain ⟨j, mL, hjU, hsB⟩ : ∃ j mL, (spend F c u l).unstaged.Unfinished j mL ∧
      Exec.step mL = .ok true mB := by
    rcases h with ⟨hd, -⟩ | ⟨j, mL, hj, hs⟩
    · have := spend_not_done (F := F) (c := c) (u := u) (l := l)
      simp [← spend_unstaged, this] at hd
    · exact ⟨j, mL, hj, hs⟩
  obtain ⟨ML, hj, rfl, hscL⟩ := hjU.of_unstaged h₀
  replace hscL : ML.scripts = [u, l] := hscL
  have hiL : ML.idx ≤ 1 := by
    have hnd := hj.not_done spend_not_done
    simp only [isDone, hscL, decide_eq_false_iff_not, not_le] at hnd
    simpa using hnd
  -- the plain step that ends the run leaves the two scripts
  have h2B : 2 ≤ mB.idx := by
    have hdone : mB.isDone = true := (step_ok_done hsB).symm
    have hsc := step_unstaged_scripts (reachable_onTrack (hj.reachable h₀)).quiet hsB
    simpa [isDone, hsc, hscL] using hdone
  obtain ⟨hst, hend⟩ := hj.spend_staging h₀ hpre hl hiL (.inl hsB) h2B
  exact ⟨j, ML, hj, hiL, hst, hend, hsB⟩

/-- A run to the end of the two scripts and a redeem script no longer than the unlocking script's
inline data and a byte fits the step budget. -/
theorem Unfinished.lt_spend_stepBound {K : Nat} {mL ME : Machine} {done : Bool} {r : Script}
    (h₀ : (spend F c u l).Reachable) (hK : (spend F c u l).Unfinished K mL)
    (hs : Exec.step mL = .ok done ME) (hsc : ME.scripts = [u, l, r])
    (hr : r.length ≤ (u.map fun i => i.data.length).sum + 1) : K < (spend F c u l).stepBound := by
  have hlt := hK.lt_length h₀ spend_not_done hs
  rw [hsc] at hlt
  rw [spend_stepBound]
  simp only [List.map_cons, List.map_nil, List.sum_cons, List.sum_nil] at hlt
  omega

/-- A spend that passes the stages runs to the end within its step budget, and passes the final
check there. -/
theorem run_of_passesStages (h₀ : (spend F c u l).Reachable)
    (hpre : F.effective.afterGenesis = false) (hpush : u.isPushOnly = true) (hl : l ≠ [])
    (h : PassesStages F c u l) :
    ∃ K mL ME, (spend F c u l).Unfinished K mL ∧ Exec.step mL = .ok true ME ∧
      K < (spend F c u l).stepBound ∧ ∃ ME', Exec.checkCondition true ME = .ok () ME' := by
  obtain ⟨⟨mB, hB, mB', hcheckB⟩, kU, mU, hUrun, hUidx, hUoff, redeem, xs, s, hUitems, hparse,
    hfinC⟩ := h
  obtain ⟨j, ML, hj, hiL, hst, hend, hsB⟩ := hB.spend_plain h₀ hpre hl
  have htL := reachable_onTrack (hj.reachable h₀)
  have hscL := hj.scripts_eq h₀ hiL
  -- the saved stack is the plain run's stack at the start of the locking script
  obtain ⟨hfits, jU, mU', hU'run, hU'idx, hU'off, hU'items⟩ := hj.spend_saved h₀ hpush hst.2.1
  have hmU : mU = mU' := Unfinished.unstaged_eq h₀ hUrun hU'run (hUidx.trans hU'idx.symm)
    (hUoff.trans hU'off.symm)
  have hsaved : ML.savedFirst = redeem :: xs := by rw [← hU'items, ← hmU, hUitems]
  -- so the stage step succeeds, and starts the redeem script
  obtain ⟨d, MC, hsL⟩ := Exec.step_stage_of_unstaged htL.quiet htL.settled hst
    (by simpa [hscL, spend, start] using hend) hsB hcheckB hsaved hparse
  obtain ⟨-, -, -, redeem', rest', r, hsaved', hparse', hrC, hscC, h2C, hstart⟩ :=
    step_stage_start (hj.reachable h₀) (hj.setting h₀) hscL hst hend hsL
  obtain ⟨rfl, rfl⟩ := List.cons.inj (hsaved.symm.trans hsaved')
  obtain rfl : s = r := Option.some.inj (hparse.symm.trans hparse')
  obtain ⟨ME, hME, hE⟩ := (finishes_start_iff hrC h2C hstart).mp hfinC
  -- the whole run, within the budget: the redeem script is no longer than its bytes
  rcases Finishes.of_step hj hsL hME with ⟨hd, -⟩ | ⟨K, mLast, hK, hsLast⟩
  · simp [spend_not_done] at hd
  have hred := hfits redeem (by simp [hsaved])
  have hlen := Script.length_le_of_parse? hparse
  exact ⟨K, mLast, ME, hK, hsLast, hK.lt_spend_stepBound h₀ hsLast
    ((Finishes.scripts_eq hrC h2C hME).trans hscC) (by omega), hE⟩

/-- Before genesis the run of a P2SH spend succeeds exactly when it passes the stages. -/
theorem execute_spend_iff (h₀ : (spend F c u l).Reachable)
    (hpre : F.effective.afterGenesis = false) (hpush : u.isPushOnly = true) (hl : l ≠ []) :
    (∃ m', Exec.execute (spend F c u l) = .ok () m') ↔ PassesStages F c u l := by
  rw [Exec.execute_ok_iff spend_not_done]
  constructor
  · rintro ⟨K, mL, ME, hK, hL, -, hE⟩
    exact passesStages_of_run h₀ hpre hpush hl hK hL hE
  · exact run_of_passesStages h₀ hpre hpush hl

end Spend

end Machine

/-- Before genesis a P2SH spend within the size limit verifies exactly when it passes the stages
of BIP16; after genesis no run appends a redeem script. -/
theorem verify_payToScriptHash_iff_stages {unlocking locking : Bytes} {F : Flags} {c : Checker}
    {u l : Script} (hp2sh : F.p2sh = true) (hpre : F.afterGenesis = false)
    (hsize : unlocking.length ≤ Limits.beforeGenesis.maxScriptSize)
    (hu : Script.parse? unlocking = some u) (hpush : u.isPushOnly = true)
    (hl : Script.parse? locking = some l) (hlock : Script.isPayToScriptHash locking = true) :
    ((verify unlocking locking F c).result = .ok () ↔ Machine.PassesStages F c u l) ∧
      ∀ m : Machine, m.Reachable → m.afterGenesis = true → m.scripts.length = 2 := by
  have hnew := Machine.new?_payToScriptHash (c := c) hp2sh hpre hsize hu hpush hl hlock
  have hpre' : F.effective.afterGenesis = false := by rw [Flags.effective_afterGenesis, hpre]
  have hl' : l ≠ [] := by
    rintro rfl
    have hnil := Script.parse?_eq_nil hl
    simp [hnil, Script.isPayToScriptHash] at hlock
  have hiff := Machine.execute_spend_iff (.setup hnew) hpre' hpush hl'
  refine ⟨?_, fun m hr hag => Machine.reachable_afterGenesis_scripts hr hag⟩
  rw [verify_result_eq_ok]
  constructor
  · rintro ⟨m, hm, hexec⟩
    rw [hnew] at hm
    cases hm
    exact hiff.mp hexec
  · exact fun h => ⟨_, hnew, hiff.mpr h⟩

/-! ## A spend of the redeem script `OP_1` -/

namespace Script

/-- `OP_HASH160 <20 bytes> OP_EQUAL` for the redeem script `OP_1`: the HASH160 of `51`. -/
def payToOne : Bytes :=
  [0xa9, 0x14, 0xda, 0x17, 0x45, 0xe9, 0xb5, 0x49, 0xbd, 0x0b, 0xfa, 0x1a, 0x56, 0x99, 0x71, 0xc7,
   0x7e, 0xba, 0x30, 0xcd, 0x5a, 0x4b, 0x87]

/-- The instructions of `payToOne`. -/
def payToOneScript : Script :=
  [⟨⟨0xa9⟩, []⟩, ⟨⟨0x14⟩, [0xda, 0x17, 0x45, 0xe9, 0xb5, 0x49, 0xbd, 0x0b, 0xfa, 0x1a, 0x56, 0x99,
    0x71, 0xc7, 0x7e, 0xba, 0x30, 0xcd, 0x5a, 0x4b]⟩, ⟨⟨0x87⟩, []⟩]

/-- Twenty pushes of 520 zero bytes, each with `OP_PUSHDATA2`, then the push of the redeem script
`OP_1`: 10462 bytes. -/
def pushesThenOne : Bytes :=
  (List.replicate 20 ([0x4d, 0x08, 0x02] ++ List.replicate 520 0)).flatten ++ [0x01, 0x51]

end Script

/-- `OP_1` as a redeem script. -/
theorem verify_payToScriptHash_iff_stages_redeemOne :
    (⟨1⟩ : Flags).p2sh = true ∧ (⟨1⟩ : Flags).afterGenesis = false ∧
      [0x01, 0x51].length ≤ Limits.beforeGenesis.maxScriptSize ∧
      Script.parse? [0x01, 0x51] = some [⟨⟨0x01⟩, [0x51]⟩] ∧
      Script.isPushOnly [⟨⟨0x01⟩, [0x51]⟩] = true ∧
      Script.parse? Script.payToOne = some Script.payToOneScript ∧
      Script.isPayToScriptHash Script.payToOne = true ∧
      (((verify [0x01, 0x51] Script.payToOne ⟨1⟩ Checker.acceptAll).result = .ok () ↔
          Machine.PassesStages ⟨1⟩ Checker.acceptAll [⟨⟨0x01⟩, [0x51]⟩] Script.payToOneScript) ∧
        ∀ m : Machine, m.Reachable → m.afterGenesis = true → m.scripts.length = 2) :=
  ⟨by decide, by decide, by decide, by decide +kernel, by decide, by decide +kernel, by decide,
    verify_payToScriptHash_iff_stages (by decide) (by decide) (by decide) (by decide +kernel)
      (by decide) (by decide +kernel) (by decide)⟩

/-- An unlocking script over the size limit is refused at setup, although its stages pass: twenty
pushes of 520 zero bytes and the redeem script `OP_1`, for the P2SH script of `OP_1`. -/
theorem verify_refuses_oversized_unlocking :
    (⟨1⟩ : Flags).p2sh = true ∧ (⟨1⟩ : Flags).afterGenesis = false ∧
      (verify Script.pushesThenOne Script.payToOne ⟨1⟩ Checker.acceptAll).result =
        .error (.scriptTooBig 10462 10000) ∧
      ∃ u, Script.parse? Script.pushesThenOne = some u ∧ u.isPushOnly = true ∧
        Script.parse? Script.payToOne = some Script.payToOneScript ∧
        Script.isPayToScriptHash Script.payToOne = true ∧
        Machine.PassesStages ⟨1⟩ Checker.acceptAll u Script.payToOneScript := by
  let u : Script := List.replicate 20 ⟨⟨0x4d⟩, List.replicate 520 0⟩ ++ [⟨⟨0x01⟩, [0x51]⟩]
  let zeros : List Bytes := List.replicate 20 (List.replicate 520 0)
  refine ⟨by decide, by decide, by decide +kernel, u, by decide +kernel, by decide +kernel,
    by decide +kernel, by decide, ?_⟩
  -- the plain run of the two scripts, evaluated: it ends on the twenty pushes
  have hB : ((Machine.start ⟨1⟩ Checker.acceptAll [u, Script.payToOneScript] 0 []).traceSteps
      30).2 = some (.ok zeros) := by decide +kernel
  obtain ⟨mB, hfinB, _, hcheckB⟩ := Machine.traceSteps_finishes hB
  -- the stack at the start of the locking script: the redeem script on top of the pushes
  have hU : ((Machine.start ⟨1⟩ Checker.acceptAll [u, Script.payToOneScript] 0 []).advance
      21).map (fun m => (m.idx, m.off, m.dstack.items)) = some (1, 0, [0x51] :: zeros) := by
    decide +kernel
  obtain ⟨mU, hadv, hmU⟩ := Option.map_eq_some_iff.mp hU
  simp only [Prod.mk.injEq] at hmU
  -- the redeem script on the rest
  have hC : ((Machine.start ⟨1⟩ Checker.acceptAll [u, Script.payToOneScript, [⟨⟨0x51⟩, []⟩]] 2
      zeros).traceSteps 5).2 = some (.ok zeros) := by decide +kernel
  obtain ⟨mC, hfinC, hcheckC⟩ := Machine.traceSteps_finishes hC
  exact ⟨⟨mB, hfinB, Machine.checkCondition_false_of_true hcheckB⟩, 21, mU,
    Machine.advance_eq_some_iff.mp hadv, hmU.1, hmU.2.1, [0x51], zeros, [⟨⟨0x51⟩, []⟩], hmU.2.2,
    by decide +kernel, mC, hfinC, hcheckC⟩

end BitcoinScript
