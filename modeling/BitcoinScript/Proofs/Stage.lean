import BitcoinScript.Proofs.Runs

/-!
# The stage within a run

Before genesis a P2SH spend runs as the plain run of its two scripts until the last instruction
of the locking script; there the stage checks the result and appends the redeem script, and from
then on the run is again a plain run, of the redeem script. This module relates whole runs to
plain runs on both sides of the stage.

A run that does not pass the stage runs alike without it (`Unfinished.unstaged`), and every plain
run is one of the run with the stage (`Unfinished.of_unstaged`): the plain step at the end of the
locking script runs the last script, so it never stands inside a plain run that goes on. Past the
stage the two agree to the end (`Finishes.unstaged`, `Finishes.of_unstaged`). The step that leaves
the first two scripts is the stage (`step_crosses`), and the machine it reaches is the start of
the redeem script (`step_stage_start`): `Machine.start` runs given scripts on a given stack with
nothing else run, and a machine at the first instruction of a script with the setting of a start
is that start (`eq_start`).

After genesis there is no stage, and every run keeps the two scripts of its spend
(`reachable_afterGenesis_scripts`).
-/

set_option autoImplicit false

namespace BitcoinScript

namespace Machine

/-! ## Steps at the end of a script -/

/-- A change to a script with an instruction stays on it. -/
theorem landing_of_ne_nil {scripts : List Script} {i : Nat} (h : scripts.getD i [] ≠ []) :
    landing scripts i = i := by
  unfold landing
  cases hi : scripts[i]? with
  | none => rfl
  | some s =>
    have hs : s ≠ [] := by simpa [List.getD_eq_getElem?_getD, hi] using h
    simp [hs]

/-- A step from the last instruction of a script moves to a later script. -/
theorem step_end_idx_lt {m m' : Machine} {done : Bool} (hq : m.Quiet)
    (h : Exec.step m = .ok done m') (hend : (m.scripts.getD m.idx []).length ≤ m.off + 1) :
    m.idx < m'.idx := by
  obtain ⟨script, op, m₁, hs, ho, hex, hfin⟩ := Exec.step_ok h
  obtain ⟨-, -, hf₁, -, -⟩ := Exec.executeInstruction_frame (by exact hq) hex
  have hidx : m₁.idx = m.idx := congrArg Frame.idx hf₁
  have hoff : m₁.off = m.off := congrArg Frame.off hf₁
  have hlen : script.length ≤ m.off + 1 := by simpa [List.getD_eq_getElem?_getD, hs] using hend
  obtain ⟨-, hmove⟩ := Exec.finishStep_ok hfin
  rcases hmove with ⟨-, -, hlt, -⟩ | ⟨o, L, -, hshift⟩
  · omega
  · simpa [hidx] using (Exec.shiftScript_ok hshift).idx_lt

/-- Before genesis, when the locking script has instructions, a step out of the first two scripts
runs the last instruction of the locking script. -/
theorem step_crosses {m m' : Machine} {done : Bool} (hq : m.Quiet) (hp : m.pendingReturn = false)
    (hag : m.afterGenesis = false) (hl : m.scripts.getD 1 [] ≠ []) (hi : m.idx ≤ 1)
    (h : Exec.step m = .ok done m') (h2 : 2 ≤ m'.idx) :
    m.idx = 1 ∧ (m.scripts.getD 1 []).length ≤ m.off + 1 := by
  obtain ⟨script, op, m₁, hs, ho, hex, hfin⟩ := Exec.step_ok h
  obtain ⟨-, -, hf₁, -, -⟩ := Exec.executeInstruction_frame (by exact hq) hex
  have hidx : m₁.idx = m.idx := congrArg Frame.idx hf₁
  have hoff : m₁.off = m.off := congrArg Frame.off hf₁
  have hsc : m₁.scripts = m.scripts := congrArg Frame.scripts hf₁
  have hp₁ : m₁.pendingReturn = false :=
    (Exec.executeInstruction_keeps_pendingReturn (by exact hq) (by exact hag) hex).trans hp
  obtain ⟨-, hmove⟩ := Exec.finishStep_ok hfin
  rcases hmove with ⟨-, -, -, rfl⟩ | ⟨o, L, hwhy, hshift⟩
  · simp only at h2
    omega
  have hend : script.length ≤ m.off + 1 := by
    rcases hwhy with hpend | ⟨-, -, hend⟩
    · simp [hp₁] at hpend
    · omega
  -- out of the unlocking script the change lands on the locking script
  have h1 : m.idx = 1 := by
    by_contra hne
    have h0 : m.idx = 0 := by omega
    have hland : m'.idx = landing m.scripts 1 := by
      cases (Exec.shiftScript_ok hshift).move with
      | save _ _ _ _ _ hland => simpa [hsc] using hland
      | redeem _ hi' => simp [hidx, h0] at hi'
      | next _ _ _ _ _ hland => simpa [hsc, hidx, h0] using hland
    rw [hland, landing_of_ne_nil hl] at h2
    omega
  have hs1 : m.scripts[1]? = some script := h1 ▸ hs
  exact ⟨h1, by simpa [List.getD_eq_getElem?_getD, hs1] using hend⟩

/-- Without the stage a step keeps the scripts. -/
theorem step_unstaged_scripts {m m' : Machine} {done : Bool} (hq : m.Quiet)
    (h : Exec.step m.unstaged = .ok done m') : m'.scripts = m.scripts := by
  rcases step_ok_scripts (by exact hq) h with hs | ⟨redeem, r, hmem, -⟩
  · exact hs
  · simp at hmem

/-- The plain step from the last instruction of the locking script runs the last script. -/
theorem step_unstaged_end {m mU : Machine} {done : Bool} (ht : m.OnTrack) (h1 : m.idx = 1)
    (hend : (m.scripts.getD m.idx []).length ≤ m.off + 1)
    (hs : Exec.step m.unstaged = .ok done mU) : done = true := by
  have hlt : m.unstaged.idx < mU.idx := step_end_idx_lt (by exact ht.quiet) hs (by simpa using hend)
  have h2 : m.scripts.length = 2 := by
    rcases ht.staged with h2 | ⟨-, h2⟩
    · exact h2
    · omega
  rw [step_ok_done hs]
  simp only [isDone, step_unstaged_scripts ht.quiet hs, h2, unstaged_idx] at hlt ⊢
  exact decide_eq_true (by omega)

/-! ## Runs with and without the stage -/

section Runs

variable {m₀ m mU : Machine} {k : Nat}

/-- A run that has not left the first two scripts has not appended a redeem script. -/
theorem Unfinished.scripts_eq (h₀ : m₀.Reachable) (h : m₀.Unfinished k m) (hi : m.idx ≤ 1) :
    m.scripts = m₀.scripts := by
  obtain ⟨-, rs, hs, -⟩ := h.scripts h₀
  have h2 : m.scripts.length = 2 := by
    rcases (reachable_onTrack (h.reachable h₀)).staged with h2 | ⟨-, h2⟩
    · exact h2
    · omega
  have h2₀ : m₀.scripts.length = 2 := by
    rcases (reachable_onTrack h₀).staged with h2 | ⟨-, h2⟩
    · exact h2
    · have := h.idx_le h₀
      omega
  have hrs : rs = [] := by
    rw [hs, List.length_append, h2₀] at h2
    exact List.eq_nil_of_length_eq_zero (by omega)
  rw [hs, hrs, List.append_nil]

/-- A run that does not pass the stage runs alike without it. -/
theorem Unfinished.unstaged (h₀ : m₀.Reachable) (h : m₀.Unfinished k m)
    (hstay : m₀.idx ≤ 1 → m.idx ≤ 1) : m₀.unstaged.Unfinished k m.unstaged := by
  induction h with
  | start => exact .start
  | @step k m₁ m₂ hk hs ih =>
    have ht := reachable_onTrack (hk.reachable h₀)
    have hadv := (step_ok_advances ht.quiet hs).2.1
    -- the stage step would leave the first two scripts
    have hagree := Exec.step_unstaged ht.quiet ht.settled fun hst => by
      by_contra hend
      have h1 : m₁.idx = 1 := hst.2.1
      have hlt := step_end_idx_lt ht.quiet hs (by omega)
      have := hstay (le_trans (hk.idx_le h₀) (le_of_eq h1))
      omega
    rw [hs] at hagree
    exact .step (ih fun h => by have := hstay h; omega) hagree

/-- A run without the stage is the run with it, which keeps its scripts: the stage step would be
the plain run's last. -/
theorem Unfinished.of_unstaged (h₀ : m₀.Reachable) (h : m₀.unstaged.Unfinished k mU) :
    ∃ m, m₀.Unfinished k m ∧ mU = m.unstaged ∧ m.scripts = m₀.scripts := by
  induction h with
  | start => exact ⟨m₀, .start, rfl, rfl⟩
  | @step k mU₁ mU₂ hk hs ih =>
    obtain ⟨m₁, hr₁, rfl, hsc₁⟩ := ih
    have ht := reachable_onTrack (hr₁.reachable h₀)
    have hsc₂ : mU₂.scripts = m₁.scripts := step_unstaged_scripts ht.quiet hs
    -- from the end of the locking script the plain step would run the last script
    have hagree := Exec.step_unstaged ht.quiet ht.settled fun hst => by
      by_contra hend
      exact Bool.false_ne_true (step_unstaged_end ht hst.2.1 (by omega) hs)
    rw [hs] at hagree
    obtain ⟨m₂, hs₂, rfl⟩ := Exec.unstagedResult_eq_ok.mp hagree.symm
    exact ⟨m₂, .step hr₁ hs₂, rfl, by simpa [hsc₁] using hsc₂⟩

/-- The plain run of a machine reaches one machine at each place of its counter. -/
theorem Unfinished.unstaged_eq {j : Nat} {mU' : Machine} (h₀ : m₀.Reachable)
    (h : m₀.unstaged.Unfinished k mU) (h' : m₀.unstaged.Unfinished j mU')
    (hidx : mU.idx = mU'.idx) (hoff : mU.off = mU'.off) : mU = mU' := by
  obtain ⟨m, hr, rfl, hsc⟩ := h.of_unstaged h₀
  obtain ⟨m', hr', rfl, hsc'⟩ := h'.of_unstaged h₀
  have hpos : m.position = m'.position := by
    simp only [unstaged_idx, unstaged_off] at hidx hoff
    simp only [position, hsc, hsc', hidx, hoff]
  rw [hr.eq_of_position h₀ hr' hpos]

/-- Past the first two scripts every step of a run is the plain step. -/
theorem Unfinished.step_unstaged (h₀ : m₀.Reachable) (h2 : 2 ≤ m₀.idx) (h : m₀.Unfinished k m) :
    Exec.step m.unstaged = Exec.unstagedResult (Exec.step m) := by
  have ht := reachable_onTrack (h.reachable h₀)
  refine Exec.step_unstaged ht.quiet ht.settled fun hst => ?_
  have := h.idx_le h₀
  have := hst.2.1
  omega

/-- Past the first two scripts a run to the end runs alike without the stage. -/
theorem Finishes.unstaged {m' : Machine} (h₀ : m₀.Reachable) (h2 : 2 ≤ m₀.idx)
    (h : m₀.Finishes m') : m₀.unstaged.Finishes m'.unstaged := by
  rcases h with ⟨hd, rfl⟩ | ⟨k, m₁, hk, hs⟩
  · exact .inl ⟨hd, rfl⟩
  · have hagree := hk.step_unstaged h₀ h2
    rw [hs] at hagree
    exact .inr ⟨k, _, hk.unstaged h₀ fun h => absurd h (by omega), hagree⟩

/-- ... and a run to the end without the stage is one with it, which keeps the scripts. -/
theorem Finishes.of_unstaged (h₀ : m₀.Reachable) (h2 : 2 ≤ m₀.idx)
    (h : m₀.unstaged.Finishes mU) : ∃ m, m₀.Finishes m ∧ mU = m.unstaged ∧ m.scripts = m₀.scripts := by
  rcases h with ⟨hd, rfl⟩ | ⟨k, mU₁, hk, hs⟩
  · exact ⟨m₀, .inl ⟨hd, rfl⟩, rfl, rfl⟩
  · obtain ⟨m₁, hr₁, rfl, hsc₁⟩ := hk.of_unstaged h₀
    have hagree := hr₁.step_unstaged h₀ h2
    rw [hs] at hagree
    obtain ⟨m, hs', rfl⟩ := Exec.unstagedResult_eq_ok.mp hagree.symm
    have hsc := step_unstaged_scripts (reachable_onTrack (hr₁.reachable h₀)).quiet hs
    exact ⟨m, .inr ⟨k, m₁, hr₁, hs'⟩, rfl, by simpa [hsc₁] using hsc⟩

/-- Past the first two scripts a run keeps its scripts. -/
theorem Finishes.scripts_eq {m' : Machine} (h₀ : m₀.Reachable) (h2 : 2 ≤ m₀.idx)
    (h : m₀.Finishes m') : m'.scripts = m₀.scripts := by
  obtain ⟨m, -, heq, hsc⟩ := Finishes.of_unstaged h₀ h2 (h.unstaged h₀ h2)
  have hm : m'.unstaged.scripts = m.unstaged.scripts := congrArg Machine.scripts heq
  rw [unstaged_scripts, unstaged_scripts] at hm
  rw [hm, hsc]

end Runs

/-- After genesis there is no stage: every run keeps the two scripts of its spend. -/
theorem reachable_afterGenesis_scripts {m : Machine} (h : m.Reachable)
    (hag : m.afterGenesis = true) : m.scripts.length = 2 := by
  induction h with
  | setup hnew =>
    obtain ⟨u, l, -, -, -, -, rfl⟩ := new?_ok hnew
    rfl
  | @step m m' done hr hs ih =>
    have ht := reachable_onTrack hr
    have hag' : m.afterGenesis = true :=
      (congrArg Rules.afterGenesis (step_ok_rules ht.quiet hs)).symm.trans hag
    -- the plain step is the step
    have hagree := Exec.step_unstaged ht.quiet ht.settled fun hst => by
      simp [hst.2.2] at hag'
    rw [hs] at hagree
    rw [← ih hag', ← step_unstaged_scripts ht.quiet hagree]
    rfl

end Machine

/-! ## Starts -/

namespace Flags

theorem effective_p2sh (f : Flags) : f.effective.p2sh = f.p2sh := by
  rw [p2sh_eq_testBit, p2sh_eq_testBit, testBit_effective_of_ne _ (by decide)]

theorem effective_afterGenesis (f : Flags) : f.effective.afterGenesis = f.afterGenesis := by
  rw [afterGenesis_eq_testBit, afterGenesis_eq_testBit, testBit_effective_of_ne _ (by decide)]

end Flags

namespace Machine

/-- The machine that runs script `i` of `scripts` (the next one, when that one is empty) on the
data stack `stack`, and nothing else: no P2SH stage, the alt stack empty, no block open, the
counters at zero, under the effective flags and the limits of their genesis rule. -/
def start (F : Flags) (c : Checker) (scripts : List Script) (i : Nat) (stack : List Bytes) :
    Machine :=
  let flags := F.effective
  let empty : Stack :=
    { maxNumLen := (Limits.ofGenesis flags.afterGenesis).maxNumLen, minimal := flags.minimalData,
      afterGenesis := flags.afterGenesis }
  { dstack := { empty with items := stack }, astack := empty, scripts, idx := landing scripts i,
    flags, limits := Limits.ofGenesis flags.afterGenesis, bip16 := false,
    afterGenesis := flags.afterGenesis, checker := c }

/-- The machine of a P2SH spend: the plain run of its two scripts, with the stage ahead. -/
def spend (F : Flags) (c : Checker) (u l : Script) : Machine :=
  { start F c [u, l] 0 [] with bip16 := true }

/-- A machine without the stage at the first instruction of a script, with nothing pending, no
block open and the setting of a start, is that start, up to the transcript. -/
theorem eq_start {m : Machine} {F : Flags} {c : Checker} {scripts : List Script} {i : Nat}
    {stack : List Bytes} (hq : m.Quiet) (hp : m.pendingReturn = false)
    (hsetting : m.setting = (start F c scripts i stack).setting) (hb : m.bip16 = false)
    (hsaved : m.savedFirst = [])
    (hfresh : m.astack.items = [] ∧ m.branches = [] ∧ m.numOps = 0 ∧ m.beginCode = 0)
    (helse : m.elseSeen = []) (hoff : m.off = 0) (hearly : m.earlyReturn = false)
    (hscripts : m.scripts = scripts) (hidx : m.idx = landing scripts i)
    (hitems : m.dstack.items = stack) :
    m = { start F c scripts i stack with log := m.log } := by
  obtain ⟨⟨items, n, mi, ag, ev⟩, ⟨aitems, an, ami, aag, aev⟩, es, bs, saved, scs, idx, off, bc, ops,
    flags, limits, b16, ag', er, pr, ch, log⟩ := m
  obtain ⟨hev, haev⟩ := hq
  simp only [setting, rules, start, Stack.numberRule, Setting.mk.injEq, Rules.mk.injEq,
    NumberRule.mk.injEq] at hsetting
  simp_all [start]

/-- The final check, like any check, does not read the stage. -/
theorem checkCondition_unstaged_ok {final : Bool} {m : Machine} :
    (∃ m', Exec.checkCondition final m.unstaged = .ok () m') ↔
      ∃ m', Exec.checkCondition final m = .ok () m' := by
  rw [(Exec.unstages_checkCondition final).run m]
  cases Exec.checkCondition final m with
  | ok _ m' => exact ⟨fun _ => ⟨m', rfl⟩, fun _ => ⟨m'.unstaged, rfl⟩⟩
  | error e m' => simp [Exec.unstagedResult]

/-- The check at the very end passes the check between scripts: it checks more and pops alike. -/
theorem checkCondition_false_of_true {m m' : Machine}
    (h : Exec.checkCondition true m = .ok () m') : ∃ m'', Exec.checkCondition false m = .ok () m'' := by
  obtain ⟨-, top, below, -, hitems, htop, -⟩ := Exec.checkCondition_ok h
  exact Exec.checkCondition_false_ok hitems htop

/-- ... nor the transcript. -/
theorem checkCondition_relog_ok {final : Bool} {m : Machine} (L : List Hook) :
    (∃ m', Exec.checkCondition final { m with log := L } = .ok () m') ↔
      ∃ m', Exec.checkCondition final m = .ok () m' := by
  constructor
  · rintro ⟨m', h⟩
    obtain ⟨m'', h', -⟩ := (Exec.blind_checkCondition final).ok_of_relog h
    exact ⟨m'', h'⟩
  · rintro ⟨m', h⟩
    obtain ⟨L', h'⟩ := (Exec.blind_checkCondition final).ok_relog h L
    exact ⟨_, h'⟩

/-- From a start that a run reaches past the first two scripts, the run to the end and its final
check are those of the start. -/
theorem finishes_start_iff {MC : Machine} {F : Flags} {c : Checker} {S : List Script} {i : Nat}
    {xs : List Bytes} (hr : MC.Reachable) (h2 : 2 ≤ MC.idx)
    (heq : MC.unstaged = { start F c S i xs with log := MC.log }) :
    (∃ mC, (start F c S i xs).Finishes mC ∧ ∃ mC', Exec.checkCondition true mC = .ok () mC') ↔
      ∃ ME, MC.Finishes ME ∧ ∃ ME', Exec.checkCondition true ME = .ok () ME' := by
  have hS : start F c S i xs = { MC.unstaged with log := [] } := by
    rw [heq]
    rfl
  rw [hS]
  constructor
  · rintro ⟨mC, hfin, hcheck⟩
    obtain ⟨L', hfin'⟩ := hfin.relog MC.log
    obtain ⟨ME, hME, hmC, -⟩ := Finishes.of_unstaged hr h2 (by exact hfin')
    refine ⟨ME, hME, checkCondition_unstaged_ok.mp ?_⟩
    rw [← hmC]
    exact (checkCondition_relog_ok L').mpr hcheck
  · rintro ⟨ME, hME, hcheck⟩
    obtain ⟨L', hfin'⟩ := (hME.unstaged hr h2).relog []
    exact ⟨_, hfin', (checkCondition_relog_ok L').mpr (checkCondition_unstaged_ok.mpr hcheck)⟩

/-- The stage step of a P2SH spend: the plain run finishes both scripts with a true item on top,
and the machine goes on at the start of the redeem script, read from the top of the saved stack, on
the rest of it. -/
theorem step_stage_start {ML MC : Machine} {done : Bool} {F : Flags} {c : Checker} {u l : Script}
    (hr : ML.Reachable)
    (hset : ML.setting = (spend F c u l).setting)
    (hsc : ML.scripts = [u, l]) (hst : ML.Staging) (hend : l.length ≤ ML.off + 1)
    (hs : Exec.step ML = .ok done MC) :
    ∃ mB, Exec.step ML.unstaged = .ok true mB ∧ (∃ mB', Exec.checkCondition false mB = .ok () mB') ∧
      ∃ redeem rest r, ML.savedFirst = redeem :: rest ∧ Script.parse? redeem = some r ∧
        MC.Reachable ∧ MC.scripts = [u, l, r] ∧ 2 ≤ MC.idx ∧
        MC.unstaged = { start F c [u, l, r] 2 rest with log := MC.log } := by
  have ht := reachable_onTrack hr
  obtain ⟨mB, hB, hcheck, redeem, rest, r, hsaved, hparse, hscC, hitC, hidxC, hoffC, herC⟩ :=
    Exec.step_stage ht.quiet ht.settled hst (by simp [hsc]) (by simpa [hsc] using hend) hs
  have hrC : MC.Reachable := .step hr hs
  have htC := reachable_onTrack hrC
  have hfresh := htC.fresh hoffC
  -- no block is open, so no `OP_ELSE` mark is left
  have helse : MC.elseSeen = [] := by
    have := (reachable_wellNested hrC).length_eq
    rw [hfresh.2.1] at this
    exact List.eq_nil_of_length_eq_zero this
  have hS : MC.setting = (spend F c u l).setting :=
    ((Exec.preserves_setting_step (σ := ML.setting) ht.settled).of_ok ⟨rfl, ht.quiet⟩ hs).1.trans
      hset
  have hsetting : MC.unstaged.setting = (start F c [u, l, r] 2 rest).setting := by
    simp only [setting, rules, Stack.numberRule, Setting.mk.injEq, Rules.mk.injEq,
      NumberRule.mk.injEq] at hS ⊢
    obtain ⟨⟨hf, hl, -, hag, hc⟩, ⟨hdn, hdm, hdg⟩, ⟨han, ham, hag'⟩, hp⟩ := hS
    simp [hf, hl, hag, hc, hdn, hdm, hdg, han, ham, hag', hp, spend, start]
  refine ⟨mB, hB, hcheck, redeem, rest, r, hsaved, hparse, hrC, by rw [hscC, hsc]; rfl,
    hidxC ▸ le_landing _ _, ?_⟩
  exact eq_start (m := MC.unstaged) (by exact htC.quiet) htC.settled hsetting rfl rfl hfresh helse
    hoffC herC (by simp [hscC, hsc]) (by simp [hidxC, hsc]) hitC

end Machine

end BitcoinScript
