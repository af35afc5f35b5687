import BitcoinScript.Proofs.PayToScriptHash
import BitcoinScript.Proofs.TerminatingReturn

/-!
# The step budget covers every run

`Exec.execute` runs at most `Machine.stepBound` steps and then checks the final stack, which
fails with `scriptUnfinished` while scripts remain (SPEC_FULL.md:69). The budget counts one step
per instruction of the scripts and one per byte of their inline data and of the stacks. From a
setup it is never used up: a run still going after `K` steps has `K` below the budget
(`Machine.Unfinished.lt_stepBound`), so the loop of `execute` only returns at the end of the
scripts (`Exec.execute_loop_runs_to_end`), and running out of steps is never the reason a
verification fails.

`run_steps_bounded` counts the steps of a run against the instructions of the scripts it
reaches. Without the P2SH stage those are the two scripts of the setup
(`Machine.Unfinished.scripts_of_plain`). With it a third script, the redeem script, is read
from one of the unlocking script's pushes, so it has no more instructions than the unlocking
script has bytes of inline data, and a byte (`Machine.Unfinished.redeem_length_le`).
-/

set_option autoImplicit false

namespace BitcoinScript

namespace Machine

variable {unlocking locking : Bytes} {F : Flags} {c : Checker} {m₀ m : Machine} {K : Nat}

/-- A setup runs the two scripts its bytes parse to. -/
theorem new?_scripts {u l : Script} (hnew : Machine.new? unlocking locking F c = .ok m₀)
    (hu : Script.parse? unlocking = some u) (hl : Script.parse? locking = some l) :
    m₀.scripts = [u, l] := by
  obtain ⟨u', l', hu', hl', -, -, rfl⟩ := new?_ok hnew
  obtain rfl : u = u' := Option.some.inj (hu.symm.trans hu')
  obtain rfl : l = l' := Option.some.inj (hl.symm.trans hl')
  rfl

/-- A setup with the stage ahead is the machine of a P2SH spend, whose unlocking script only
pushes and whose locking script is not empty. -/
theorem new?_spend {u l : Script} (hnew : Machine.new? unlocking locking F c = .ok m₀)
    (hu : Script.parse? unlocking = some u) (hl : Script.parse? locking = some l)
    (hb : m₀.bip16 = true) : m₀ = spend F c u l ∧ u.isPushOnly = true ∧ l ≠ [] := by
  obtain ⟨u', l', hu', hl', -, hpush, rfl⟩ := new?_ok hnew
  obtain rfl : u = u' := Option.some.inj (hu.symm.trans hu')
  obtain rfl : l = l' := Option.some.inj (hl.symm.trans hl')
  have hstage : (F.effective.p2sh && Script.isPayToScriptHash locking) = true := hb
  have hne : l ≠ [] := by
    rintro rfl
    have hlock : Script.isPayToScriptHash locking = true := (Bool.and_eq_true _ _ ▸ hstage).2
    simp [Script.parse?_eq_nil hl, Script.isPayToScriptHash] at hlock
  refine ⟨?_, hpush hstage, hne⟩
  simp only [spend, start, landing]
  rw [hstage]
  cases u <;> rfl

/-- Without the stage a run keeps the two scripts of its setup: every step is the plain one. -/
theorem Unfinished.scripts_of_plain (h₀ : m₀.Reachable) (hb : m₀.bip16 = false)
    (h : m₀.Unfinished K m) : m.scripts = m₀.scripts := by
  induction h with
  | start => rfl
  | @step k m₁ m₂ hk hs ih =>
    have ht := reachable_onTrack (hk.reachable h₀)
    have hb₁ : m₁.bip16 = false := (congrArg (fun σ => σ.rules.bip16) (hk.setting h₀)).trans hb
    have hagree := Exec.step_unstaged ht.quiet ht.settled fun hst => by
      rw [hst.1] at hb₁
      cases hb₁
    rw [hs] at hagree
    rw [← ih, ← step_unstaged_scripts ht.quiet hagree]
    rfl

/-- The redeem script a run of a P2SH spend appends has no more instructions than the unlocking
script has bytes of inline data, and a byte: it is read from the item that script left on top. -/
theorem Unfinished.redeem_length_le {u l r : Script} (h₀ : (spend F c u l).Reachable)
    (hpush : u.isPushOnly = true) (hl : l ≠ []) (h : (spend F c u l).Unfinished K m)
    (hsc : m.scripts = [u, l, r]) : r.length ≤ (u.map fun i => i.data.length).sum + 1 := by
  have ht := reachable_onTrack (h.reachable h₀)
  -- three scripts: the run stands past the first two, and so is before genesis
  have h2 : 2 ≤ m.idx := by
    rcases ht.staged with h2 | ⟨-, h2⟩
    · simp [hsc] at h2
    · exact h2
  have hpre : F.effective.afterGenesis = false := by
    have hag := congrArg (fun σ => σ.rules.afterGenesis) (h.setting h₀)
    cases hg : F.effective.afterGenesis with
    | false => rfl
    | true =>
      have := reachable_afterGenesis_scripts (h.reachable h₀) (hag.trans hg)
      simp [hsc] at this
  -- the step that left the first two scripts was the stage, reading the saved top item
  obtain ⟨j, m₁, m₂, j', hj, hi₁, hs₁, h2₂, hrun⟩ := h.cross spend_idx_le h2
  have hst := hj.spend_staging h₀ hpre hl hi₁ (.inr hs₁) h2₂
  obtain ⟨-, -, -, redeem, rest, r', hsaved, hparse, hr₂, hsc₂, -, -⟩ :=
    step_stage_start (hj.reachable h₀) (hj.setting h₀) (hj.scripts_eq h₀ hi₁) hst.1 hst.2 hs₁
  obtain ⟨hfits, -⟩ := hj.spend_saved h₀ hpush hst.1.2.1
  have hredeem := hfits redeem (by simp [hsaved])
  have hlen := Script.length_le_of_parse? hparse
  -- and the run after it kept the three scripts
  obtain ⟨-, rs, hrs, -⟩ := hrun.scripts hr₂
  have hnil : rs = [] := by
    have hl₃ := congrArg List.length hrs
    simp only [hsc, hsc₂, List.length_append, List.length_cons, List.length_nil] at hl₃
    exact List.eq_nil_of_length_eq_zero (by omega)
  rw [hsc, hsc₂, hnil, List.append_nil] at hrs
  obtain rfl : r = r' := by simpa using hrs
  omega

/-- The step budget covers every run from a setup: a run still going after `K` steps has `K`
below the budget. -/
theorem Unfinished.lt_stepBound (hnew : Machine.new? unlocking locking F c = .ok m₀)
    (h : m₀.Unfinished K m) : K < m₀.stepBound := by
  have h₀ : m₀.Reachable := .setup hnew
  obtain ⟨u, l, hu, hl, hrun, -⟩ := run_steps_bounded hnew
  obtain ⟨rs, hs, hlen, -, hk⟩ := hrun K m h
  have hsc₀ := new?_scripts hnew hu hl
  cases rs with
  | nil =>
    -- the two scripts of the setup, each instruction a step
    have hsum := sum_lengths_lt_stepBound m₀
    simp only [hsc₀, List.map_cons, List.map_nil, List.sum_cons, List.sum_nil] at hsum hk
    omega
  | cons r rs =>
    obtain rfl : rs = [] := List.eq_nil_of_length_eq_zero (by simpa using hlen)
    -- a third script comes only with the stage
    cases hb : m₀.bip16 with
    | false =>
      have hkeep := h.scripts_of_plain h₀ hb
      rw [hs, hsc₀] at hkeep
      simp at hkeep
    | true =>
      obtain ⟨rfl, hpush, hne⟩ := new?_spend hnew hu hl hb
      have hr := h.redeem_length_le h₀ hpush hne (by simpa using hs)
      rw [spend_stepBound]
      simp only [List.map_cons, List.map_nil, List.sum_cons, List.sum_nil] at hk
      omega

end Machine

namespace Exec

/-- From a setup the loop of `execute` never runs out of steps: when it returns, every script has
run, so the final check never stops at `scriptUnfinished`. -/
theorem execute_loop_runs_to_end {unlocking locking : Bytes} {F : Flags} {c : Checker}
    {m₀ mR : Machine} (hnew : Machine.new? unlocking locking F c = .ok m₀)
    (h : (do notify .beforeExecute; runSteps m₀.stepBound : Exec Unit) m₀ = .ok () mR) :
    mR.isDone = true := by
  obtain ⟨_, _, hn, hrun⟩ := bind_eq_ok.mp h
  cases hn
  cases hd : mR.isDone with
  | true => rfl
  | false =>
    obtain ⟨m', hU⟩ := unfinished_of_runSteps_not_done hrun hd
    exact absurd (hU.lt_stepBound hnew) (Nat.lt_irrefl _)

end Exec

end BitcoinScript
