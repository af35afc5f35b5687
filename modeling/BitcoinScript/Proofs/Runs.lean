import BitcoinScript.Proofs.Unstaged
import BitcoinScript.Proofs.Monotone

/-!
# Runs to the end of the scripts

`Machine.Finishes m m'` says that the machine runs its scripts to the end: it has run them all
already, or its steps succeed, leaving scripts to run, until one runs the last instruction. An
execution is such a run between its hooks, within a step budget: `runSteps` reaches the end of
a run that fits the budget (`runSteps_of_unfinished`), and a run it leaves at the end is one
(`unfinished_of_runSteps`), in both cases up to the transcript.

Runs are deterministic, so a run reaches one machine at each position of its counter
(`Unfinished.eq_of_position`); the script index never goes back, so a run that leaves the
first two scripts does so at one step (`Finishes.cross`). `Machine.advance` computes the
machine a run reaches, and a trace whose final check passes is a run to the end
(`traceSteps_finishes`), so that runs on given scripts can be evaluated.
-/
set_option autoImplicit false

namespace BitcoinScript

namespace Machine

/-- `m` runs to the end of its scripts, at `m'`: every script has run already, or the steps
succeed and leave scripts to run until one runs the last instruction. -/
def Finishes (m m' : Machine) : Prop :=
  (m.isDone = true ∧ m' = m) ∨ ∃ k m₁, m.Unfinished k m₁ ∧ Exec.step m₁ = .ok true m'

section Unfinished

variable {m₀ m m₁ m' : Machine} {k j : Nat}

/-- The first step of a run that takes one. -/
theorem Unfinished.head (h : m₀.Unfinished (k + 1) m) :
    ∃ m₁, Exec.step m₀ = .ok false m₁ ∧ m₁.Unfinished k m := by
  induction k generalizing m with
  | zero =>
    cases h with
    | step h₀ hs =>
      cases h₀
      exact ⟨m, hs, .start⟩
  | succ k ih =>
    cases h with
    | step hk hs =>
      obtain ⟨m₁, h₁, hr⟩ := ih hk
      exact ⟨m₁, h₁, .step hr hs⟩

theorem Unfinished.cons (h₀ : Exec.step m₀ = .ok false m₁) (h : m₁.Unfinished k m) :
    m₀.Unfinished (k + 1) m := by
  induction h with
  | start => exact .step .start h₀
  | step _ hs ih => exact .step ih hs

theorem Unfinished.trans (h₁ : m₀.Unfinished k m₁) (h : m₁.Unfinished j m) :
    m₀.Unfinished (k + j) m := by
  induction h with
  | start => exact h₁
  | step _ hs ih => exact .step ih hs

/-- A run is determined by its start: it reaches one machine after `k` steps. -/
theorem Unfinished.det (h : m₀.Unfinished k m) (h' : m₀.Unfinished k m') : m = m' := by
  induction h generalizing m' with
  | start =>
    cases h'
    rfl
  | step hk hs ih =>
    cases h' with
    | step hk' hs' =>
      rw [ih hk'] at hs
      rw [hs] at hs'
      cases hs'
      rfl

/-- Of two machines on one run, the later one is reached from the earlier. -/
theorem Unfinished.split (h : m₀.Unfinished k m₁) (h' : m₀.Unfinished (k + j) m) :
    m₁.Unfinished j m := by
  induction j generalizing m with
  | zero => exact (h.det h') ▸ .start
  | succ j ih =>
    cases h' with
    | step hk hs => exact .step (ih hk) hs

/-- A run reaches one machine at each position of its counter, the counter moving forward at
every step. -/
theorem Unfinished.eq_of_position (h₀ : m₀.Reachable) (h : m₀.Unfinished k m₁)
    (h' : m₀.Unfinished j m) (hpos : m₁.position = m.position) : m₁ = m := by
  rcases Nat.le_total k j with hkj | hjk
  · obtain ⟨i, rfl⟩ := Nat.exists_eq_add_of_le hkj
    have hrun := h.split h'
    have hge := hrun.position_ge (h.reachable h₀)
    have hi : i = 0 := by omega
    subst hi
    exact h.det h'
  · obtain ⟨i, rfl⟩ := Nat.exists_eq_add_of_le hjk
    have hrun := h'.split h
    have hge := hrun.position_ge (h'.reachable h₀)
    have hi : i = 0 := by omega
    subst hi
    exact (h'.det h).symm

/-- A run from a machine that differs in its transcript alone reaches the same machines, up to
their transcripts. -/
theorem Unfinished.relog (h : m₀.Unfinished k m) (L : List Hook) :
    ∃ L', ({ m₀ with log := L } : Machine).Unfinished k { m with log := L' } := by
  induction h with
  | start => exact ⟨L, .start⟩
  | @step k m₁ m₂ hk hs ih =>
    obtain ⟨L₁, hr⟩ := ih
    have halike := Exec.blind_step.run m₁ L₁
    rw [hs] at halike
    revert halike
    cases hs' : Exec.step { m₁ with log := L₁ } with
    | ok d m₃ =>
      rintro ⟨rfl, hm₃⟩
      exact ⟨m₃.log, .step hr (hm₃ ▸ hs')⟩
    | error e m₃ => exact False.elim

/-- Along a run the script index never goes back. -/
theorem Unfinished.idx_le (h₀ : m₀.Reachable) (h : m₀.Unfinished k m) : m₀.idx ≤ m.idx := by
  induction h with
  | start => exact le_rfl
  | step hk hs ih =>
    have := (step_ok_advances (reachable_onTrack (hk.reachable h₀)).quiet hs).2.1
    omega

/-- A run keeps the setting of its start. -/
theorem Unfinished.setting (h₀ : m₀.Reachable) (h : m₀.Unfinished k m) :
    m.setting = m₀.setting := by
  induction h with
  | start => rfl
  | @step k m₁ m₂ hk hs ih =>
    have ht := reachable_onTrack (hk.reachable h₀)
    have hkeep := (Exec.preserves_setting_step (σ := m₁.setting) ht.settled).of_ok
      ⟨rfl, ht.quiet⟩ hs
    exact hkeep.1.trans ih

/-- A run that starts in the first two scripts and ends past them leaves them at one step. -/
theorem Unfinished.cross (h : m₀.Unfinished k m) (hi : m₀.idx ≤ 1) (h2 : 2 ≤ m.idx) :
    ∃ j m₁ m₂ j', m₀.Unfinished j m₁ ∧ m₁.idx ≤ 1 ∧ Exec.step m₁ = .ok false m₂ ∧
      2 ≤ m₂.idx ∧ m₂.Unfinished j' m := by
  induction h with
  | start => omega
  | @step k m₁ m₂ hk hs ih =>
    by_cases h₁ : m₁.idx ≤ 1
    · exact ⟨k, m₁, m₂, 0, hk, h₁, hs, h2, .start⟩
    · obtain ⟨j, m₃, m₄, j', hj, hi₃, hs₃, h₄, hrun⟩ := ih (by omega)
      exact ⟨j, m₃, m₄, j' + 1, hj, hi₃, hs₃, h₄, .step hrun hs⟩

/-- The steps of a run before its last number fewer than the instructions where it ends: each
passes one, and the counter is still on one before the last step. -/
theorem Unfinished.lt_length {done : Bool} (h₀ : m₀.Reachable) (hd : m₀.isDone = false)
    (h : m₀.Unfinished k m) (hs : Exec.step m = .ok done m') :
    k < (m'.scripts.map List.length).sum := by
  have hpos := h.position_ge h₀
  have ht := reachable_onTrack (h.reachable h₀)
  have hlt := ht.position_lt (h.not_done hd)
  obtain ⟨t, hpre⟩ := (step_ok_advances ht.quiet hs).1.map List.length
  have hsum : (m.scripts.map List.length).sum ≤ (m'.scripts.map List.length).sum := by
    rw [← hpre, List.sum_append]
    exact Nat.le_add_right _ _
  omega

end Unfinished

end Machine

namespace Exec

/-- One round of `runSteps`: a step between its two hooks. -/
theorem runSteps_succ (n : Nat) (m : Machine) :
    runSteps (n + 1) m = (step >>= fun done => notify .afterStep >>= fun _ =>
      if !done then runSteps n else pure ()) { m with log := .phase .beforeStep m.idx m.off :: m.log } :=
  rfl

/-- A computation blind to the transcript succeeds alike from a machine that differs in its
transcript alone. -/
theorem Blind.ok_relog {α : Type} {x y : Exec α} (hb : Blind x y) {m m' : Machine} {a : α}
    (h : x m = .ok a m') (L : List Hook) : ∃ L', y { m with log := L } = .ok a { m' with log := L' } := by
  have halike := hb.run m L
  rw [h] at halike
  revert halike
  cases hy : y { m with log := L } with
  | ok b m₂ =>
    rintro ⟨rfl, hm₂⟩
    exact ⟨m₂.log, hm₂ ▸ rfl⟩
  | error e m₂ => exact False.elim

/-- … and what succeeds from the machine with another transcript succeeds from the machine. -/
theorem Blind.ok_of_relog {α : Type} {x y : Exec α} (hb : Blind x y) {m m₂ : Machine} {a : α}
    {L : List Hook} (h : y { m with log := L } = .ok a m₂) :
    ∃ m', x m = .ok a m' ∧ m₂ = { m' with log := m₂.log } := by
  have halike := hb.run m L
  rw [h] at halike
  revert halike
  cases hx : x m with
  | ok b m' =>
    rintro ⟨rfl, hm₂⟩
    exact ⟨m', rfl, hm₂⟩
  | error e m' => exact False.elim

theorem step_relog {m m₁ : Machine} {done : Bool} (h : step m = .ok done m₁) (L : List Hook) :
    ∃ L', step { m with log := L } = .ok done { m₁ with log := L' } :=
  blind_step.ok_relog h L

/-- `runSteps` reaches the end of a run that fits its budget, up to the transcript. -/
theorem runSteps_of_unfinished {m mL m' : Machine} {k n : Nat} (h : m.Unfinished k mL)
    (hL : step mL = .ok true m') (hk : k < n) (L : List Hook) :
    ∃ L', runSteps n { m with log := L } = .ok () { m' with log := L' } := by
  induction n generalizing m k L with
  | zero => omega
  | succ n ih =>
    rw [runSteps_succ]
    cases k with
    | zero =>
      -- the last step
      have hm : m = mL := by cases h; rfl
      subst hm
      obtain ⟨L₁, hs⟩ := step_relog hL (.phase .beforeStep m.idx m.off :: L)
      exact ⟨_, bind_eq_ok.mpr ⟨true, _, hs, bind_eq_ok.mpr ⟨(), _, rfl, rfl⟩⟩⟩
    | succ k =>
      obtain ⟨m₁, hs₁, hrun⟩ := h.head
      obtain ⟨L₁, hs⟩ := step_relog hs₁ (.phase .beforeStep m.idx m.off :: L)
      obtain ⟨L', hr⟩ := ih hrun (by omega) (.phase .afterStep m₁.idx m₁.off :: L₁)
      exact ⟨L', bind_eq_ok.mpr ⟨false, _, hs, bind_eq_ok.mpr ⟨(), _, rfl, hr⟩⟩⟩

/-- A budget that `runSteps` leaves at the end of the scripts was a run to the end, up to the
transcript. -/
theorem unfinished_of_runSteps {m mR : Machine} {n : Nat} {L : List Hook}
    (h : runSteps n { m with log := L } = .ok () mR) (hd : mR.isDone = true)
    (hm : m.isDone = false) :
    ∃ k mL m', m.Unfinished k mL ∧ step mL = .ok true m' ∧ mR = { m' with log := mR.log } ∧
      k < n := by
  induction n generalizing m L with
  | zero =>
    cases h
    simp [hm] at hd
  | succ n ih =>
    rw [runSteps_succ] at h
    obtain ⟨done, m₂, hs₂, h⟩ := bind_eq_ok.mp h
    obtain ⟨_, m₃, hn, h⟩ := bind_eq_ok.mp h
    cases hn
    -- the step from the machine itself, the transcript aside
    have hs₂' : step { m with log := .phase .beforeStep m.idx m.off :: L } = .ok done m₂ := hs₂
    obtain ⟨m₁, hs, hm₂⟩ := blind_step.ok_of_relog hs₂'
    cases done with
    | true =>
      cases h
      exact ⟨0, m, m₁, .start, hs, by rw [hm₂], by omega⟩
    | false =>
      have hd₁ : m₁.isDone = false := (Machine.step_ok_done hs).symm
      have h' : runSteps n { m₁ with log := .phase .afterStep m₁.idx m₁.off :: m₂.log } =
          .ok () mR := by
        rw [hm₂] at h
        exact h
      obtain ⟨k, mL, m', hrun, hL, hR, hk⟩ := ih h' hd₁
      exact ⟨k + 1, mL, m', .cons hs hrun, hL, hR, by omega⟩

/-- A budget that `runSteps` uses up short of the end was a run of as many steps, none of which
finished the scripts, up to the transcript. -/
theorem unfinished_of_runSteps_not_done {m mR : Machine} {n : Nat} {L : List Hook}
    (h : runSteps n { m with log := L } = .ok () mR) (hd : mR.isDone = false) :
    ∃ m', m.Unfinished n m' := by
  induction n generalizing m L with
  | zero => exact ⟨m, .start⟩
  | succ n ih =>
    rw [runSteps_succ] at h
    obtain ⟨done, m₂, hs₂, h⟩ := bind_eq_ok.mp h
    obtain ⟨_, m₃, hn, h⟩ := bind_eq_ok.mp h
    cases hn
    have hs₂' : step { m with log := .phase .beforeStep m.idx m.off :: L } = .ok done m₂ := hs₂
    obtain ⟨m₁, hs, hm₂⟩ := blind_step.ok_of_relog hs₂'
    cases done with
    | true =>
      -- a step that finishes the scripts ends the loop at a finished machine
      cases h
      rw [hm₂] at hd
      exact absurd ((Machine.step_ok_done hs).trans hd) Bool.noConfusion
    | false =>
      have h' : runSteps n { m₁ with log := .phase .afterStep m₁.idx m₁.off :: m₂.log } =
          .ok () mR := by
        rw [hm₂] at h
        exact h
      obtain ⟨m', hrun⟩ := ih h'
      exact ⟨m', .cons hs hrun⟩

/-- An execution succeeds exactly when its run reaches the end within the step budget and the
final check passes there. -/
theorem execute_ok_iff {m : Machine} (hm : m.isDone = false) :
    (∃ m', execute m = .ok () m') ↔
      ∃ k mL mE, m.Unfinished k mL ∧ step mL = .ok true mE ∧ k < m.stepBound ∧
        ∃ mE', checkCondition true mE = .ok () mE' := by
  unfold execute
  dsimp only
  constructor
  · rintro ⟨m', h⟩
    cases hrun : (notify .beforeExecute >>= fun _ => runSteps m.stepBound : Exec Unit) m with
    | error e m₂ => simp [hrun] at h
    | ok _ m₂ =>
      simp only [hrun] at h
      obtain ⟨_, _, hn, hrun⟩ := bind_eq_ok.mp hrun
      cases hn
      obtain ⟨_, _, hn, hcheck⟩ := bind_eq_ok.mp h
      cases hn
      obtain ⟨hdone, -⟩ := checkCondition_ok hcheck
      obtain ⟨k, mL, mE, hU, hL, hR, hk⟩ := unfinished_of_runSteps hrun (hdone rfl) hm
      have hcheck' : checkCondition true
          { mE with log := .phase .afterExecute mE.idx mE.off :: m₂.log } = .ok () m' := by
        rw [hR] at hcheck
        exact hcheck
      obtain ⟨mE', hE, -⟩ := (blind_checkCondition true).ok_of_relog hcheck'
      exact ⟨k, mL, mE, hU, hL, hk, mE', hE⟩
  · rintro ⟨k, mL, mE, hU, hL, hk, mE', hE⟩
    obtain ⟨L, hrun⟩ := runSteps_of_unfinished hU hL hk (.phase .beforeExecute m.idx m.off :: m.log)
    obtain ⟨L', hcheck⟩ := (blind_checkCondition true).ok_relog hE
      (.phase .afterExecute mE.idx mE.off :: L)
    have hpre : (notify .beforeExecute >>= fun _ => runSteps m.stepBound : Exec Unit) m =
        .ok () { mE with log := L } := bind_eq_ok.mpr ⟨(), _, rfl, hrun⟩
    refine ⟨{ mE' with log := L' }, ?_⟩
    rw [hpre]
    exact bind_eq_ok.mpr ⟨(), _, rfl, hcheck⟩

end Exec

namespace Machine

section Finishes

variable {m₀ m₁ m₂ m' : Machine} {k : Nat}

/-- A machine that has run every script has no run beyond itself. -/
theorem Finishes.eq_of_isDone (hd : m₀.isDone = true) (h : m₀.Finishes m') : m' = m₀ := by
  rcases h with ⟨-, rfl⟩ | ⟨k, m₁, hk, hs⟩
  · rfl
  · cases k with
    | zero =>
      cases hk
      rw [step_of_isDone hd] at hs
      cases hs
    | succ k =>
      obtain ⟨_, hs₀, -⟩ := hk.head
      rw [step_of_isDone hd] at hs₀
      cases hs₀

/-- A run to the end through a step on the way. -/
theorem Finishes.of_step {done : Bool} (hk : m₀.Unfinished k m₁)
    (hs : Exec.step m₁ = .ok done m₂) (h : m₂.Finishes m') : m₀.Finishes m' := by
  cases done with
  | false =>
    rcases h with ⟨hd, rfl⟩ | ⟨j, m₃, hj, hs₃⟩
    · have := step_ok_done hs
      simp [hd] at this
    · exact .inr ⟨_, m₃, (hk.step hs).trans hj, hs₃⟩
  | true =>
    rw [h.eq_of_isDone (step_ok_done hs).symm]
    exact .inr ⟨k, m₁, hk, hs⟩

/-- A run to the end that leaves the first two scripts does so at one step. -/
theorem Finishes.cross (h : m₀.Finishes m') (hi : m₀.idx ≤ 1) (h2 : 2 ≤ m'.idx) :
    ∃ j m₁ done m₂, m₀.Unfinished j m₁ ∧ m₁.idx ≤ 1 ∧ Exec.step m₁ = .ok done m₂ ∧
      2 ≤ m₂.idx ∧ m₂.Finishes m' := by
  rcases h with ⟨-, rfl⟩ | ⟨k, mL, hk, hs⟩
  · omega
  by_cases hL : mL.idx ≤ 1
  · exact ⟨k, mL, true, m', hk, hL, hs, h2, .inl ⟨(step_ok_done hs).symm, rfl⟩⟩
  · obtain ⟨j, m₁, m₂, j', hj, hi₁, hs₁, h₂, hrun⟩ := hk.cross hi (by omega)
    exact ⟨j, m₁, false, m₂, hj, hi₁, hs₁, h₂, .inr ⟨j', mL, hrun, hs⟩⟩

theorem Finishes.relog (h : m₀.Finishes m') (L : List Hook) :
    ∃ L', ({ m₀ with log := L } : Machine).Finishes { m' with log := L' } := by
  rcases h with ⟨hd, rfl⟩ | ⟨k, m₁, hk, hs⟩
  · exact ⟨L, .inl ⟨hd, rfl⟩⟩
  · obtain ⟨L₁, hk'⟩ := hk.relog L
    obtain ⟨L', hs'⟩ := Exec.blind_step.ok_relog hs L₁
    exact ⟨L', .inr ⟨k, _, hk', hs'⟩⟩

end Finishes

/-! ## Runs that compute -/

/-- The machine `k` steps on, when each of them succeeds and leaves scripts to run. -/
def advance (m : Machine) : Nat → Option Machine
  | 0 => some m
  | k + 1 =>
    match Exec.step m with
    | .ok false m₁ => m₁.advance k
    | _ => none

theorem advance_eq_some_iff {m m' : Machine} {k : Nat} : m.advance k = some m' ↔ m.Unfinished k m' := by
  induction k generalizing m with
  | zero =>
    constructor
    · rintro ⟨⟩
      exact .start
    · intro h
      cases h
      rfl
  | succ k ih =>
    constructor
    · intro h
      unfold advance at h
      split at h
      next m₁ hs => exact (ih.mp h).cons hs
      next => cases h
    · intro h
      obtain ⟨m₁, hs, hrun⟩ := h.head
      simp only [advance, hs]
      exact ih.mpr hrun

/-- A trace that ends with a final check passed is a run to the end whose final check passes. -/
theorem traceSteps_finishes {m : Machine} {n : Nat} {xs : List Bytes}
    (h : (m.traceSteps n).2 = some (.ok xs)) :
    ∃ mE, m.Finishes mE ∧ ∃ mE', Exec.checkCondition true mE = .ok () mE' := by
  induction n generalizing m with
  | zero => cases h
  | succ n ih =>
    unfold traceSteps at h
    split at h
    next => cases h
    next m₁ hs =>
      -- the last step: the final check ran on the machine it left
      refine ⟨m₁, .inr ⟨0, m, .start, hs⟩, ?_⟩
      split at h
      next m₂ hc => exact ⟨m₂, hc⟩
      next => cases h
    next m₁ hs =>
      obtain ⟨mE, hfin, hcheck⟩ := ih h
      exact ⟨mE, Finishes.of_step .start hs hfin, hcheck⟩

end Machine

end BitcoinScript
