import BitcoinScript.Proofs.Bounds

/-!
# Termination within a step bound

The counter of a run only moves forward (`step_ok_advances`), and a machine with scripts left to
run has an instruction at or after its counter, so the steps that leave scripts to run are fewer
than the instructions there are. The scripts are the unlocking and locking scripts, and after a
P2SH locking script one redeem script, read from an item of the saved stack: no longer than the
element limit, and with no more instructions than bytes.
-/

set_option autoImplicit false

namespace BitcoinScript

theorem Instruction.length_encode_pos (i : Instruction) : 0 < i.encode.length := by
  unfold Instruction.encode
  split <;> simp

namespace Script

/-- Writing a script back takes at least a byte per instruction. -/
theorem length_le_of_unparse? {s : Script} {b : Bytes} (h : unparse? s = .ok b) :
    s.length ≤ b.length := by
  induction s generalizing b with
  | nil => exact Nat.zero_le _
  | cons i rest ih =>
    simp only [unparse?] at h
    split at h
    · cases hrest : unparse? rest with
      | error e => simp [hrest, Except.map] at h
      | ok b' =>
        simp only [hrest, Except.map, Except.ok.injEq] at h
        subst h
        have hi := i.length_encode_pos
        have := ih hrest
        simp only [List.length_cons, List.length_append]
        omega
    · cases h

theorem length_le_of_parse? {bytes : Bytes} {s : Script} (h : parse? bytes = some s) :
    s.length ≤ bytes.length :=
  length_le_of_unparse? (unparse?_of_parseAt h)

end Script

namespace Machine

variable {m m' : Machine} {done : Bool}

theorem step_ok_done (h : Exec.step m = .ok done m') : done = m'.isDone := by
  obtain ⟨_, _, _, -, -, -, hfin⟩ := Exec.step_ok h
  exact (Exec.finishStep_ok hfin).1

/-- A step keeps the rules of the run. -/
theorem step_ok_rules (hq : m.Quiet) (h : Exec.step m = .ok done m') : m'.rules = m.rules := by
  obtain ⟨script, op, m₁, -, -, hex, hfin⟩ := Exec.step_ok h
  obtain ⟨-, -, hf₁, -, -⟩ := Exec.executeInstruction_frame (by exact hq) hex
  have hr : m₁.rules = m.rules := congrArg Frame.rules hf₁
  obtain ⟨-, hmove⟩ := Exec.finishStep_ok hfin
  rcases hmove with ⟨-, -, -, rfl⟩ | ⟨o, L, -, hshift⟩
  · exact hr
  · exact (Exec.shiftScript_ok hshift).rules.trans hr

/-- `k` successful steps from `m₀` to `m`, each leaving scripts to run. -/
inductive Unfinished (m₀ : Machine) : Nat → Machine → Prop
  | start : Unfinished m₀ 0 m₀
  | step {k : Nat} {m m' : Machine} : Unfinished m₀ k m → Exec.step m = .ok false m' →
      Unfinished m₀ (k + 1) m'

section Unfinished

variable {m₀ : Machine} {k : Nat}

theorem Unfinished.reachable (h₀ : m₀.Reachable) (h : m₀.Unfinished k m) : m.Reachable := by
  induction h with
  | start => exact h₀
  | step _ hstep ih => exact .step ih hstep

theorem Unfinished.not_done (h₀ : m₀.isDone = false) (h : m₀.Unfinished k m) :
    m.isDone = false := by
  cases h with
  | start => exact h₀
  | step _ hstep => exact (step_ok_done hstep).symm

/-- Each step moves the counter past at least one instruction. -/
theorem Unfinished.position_ge (h₀ : m₀.Reachable) (h : m₀.Unfinished k m) :
    m₀.position + k ≤ m.position := by
  induction h with
  | start => exact Nat.le_refl _
  | step hrun hstep ih =>
    have hq := (reachable_onTrack (hrun.reachable h₀)).quiet
    have hlt := (step_ok_advances hq hstep).2.2
    omega

/-- The scripts of a run are those of its start and, appended to them, redeem scripts read from
the saved stack, none longer than the element limit. -/
theorem Unfinished.scripts (h₀ : m₀.Reachable) (h : m₀.Unfinished k m) :
    m.limits = m₀.limits ∧ ∃ rs, m.scripts = m₀.scripts ++ rs ∧
      ∀ r ∈ rs, r.length ≤ m₀.limits.maxElementSize := by
  induction h with
  | start => exact ⟨rfl, [], by simp, by simp⟩
  | @step _ m₁ m₂ hrun hstep ih =>
    obtain ⟨hl, rs, hs, hrs⟩ := ih
    have hr₁ := hrun.reachable h₀
    have hq := (reachable_onTrack hr₁).quiet
    have hl₂ : m₂.limits = m₀.limits := (congrArg Rules.limits (step_ok_rules hq hstep)).trans hl
    rcases step_ok_scripts hq hstep with hs₂ | ⟨redeem, r, hmem, hparse, hs₂⟩
    · exact ⟨hl₂, rs, hs₂.trans hs, hrs⟩
    · -- the redeem script has no more instructions than the saved item has bytes
      have hsaved := (reachable_withinLimits hr₁).fits.saved redeem hmem
      have hr : r.length ≤ m₀.limits.maxElementSize := by
        have := Script.length_le_of_parse? hparse
        rw [hl] at hsaved
        omega
      refine ⟨hl₂, rs ++ [r], by rw [hs₂, hs, List.append_assoc], fun x hx => ?_⟩
      rcases List.mem_append.mp hx with hx | hx
      · exact hrs x hx
      · rw [List.mem_singleton.mp hx]
        exact hr

end Unfinished

theorem new?_not_done {unlocking locking : Bytes} {F : Flags} {c : Checker}
    (h : Machine.new? unlocking locking F c = .ok m) : m.isDone = false := by
  obtain ⟨u, l, -, -, -, -, rfl⟩ := new?_ok h
  simp only [isDone, List.length_cons, List.length_nil]
  split <;> rfl

end Machine

/-- A run stops within a step bound. From a successful setup, the steps that leave scripts to
run number fewer than the instructions of the unlocking script, the locking script and the redeem
script appended after them, if any, which has no more instructions than the element limit; so an
execution calls step at most that many times. Every successful step moves the program counter
forward, to a later script or to the next offset of the same one. -/
theorem run_steps_bounded {unlocking locking : Bytes} {F : Flags} {c : Checker} {m₀ : Machine}
    (hnew : Machine.new? unlocking locking F c = .ok m₀) :
    ∃ u l, Script.parse? unlocking = some u ∧ Script.parse? locking = some l ∧
      (∀ k m, m₀.Unfinished k m → ∃ rs, m.scripts = [u, l] ++ rs ∧ rs.length ≤ 1 ∧
        (∀ r ∈ rs, r.length ≤ m₀.limits.maxElementSize) ∧
        k + 1 ≤ u.length + l.length + (rs.map List.length).sum) ∧
      ∀ m m' done, m.Reachable → Exec.step m = .ok done m' →
        m.idx < m'.idx ∨ (m'.idx = m.idx ∧ m'.off = m.off + 1) := by
  obtain ⟨u, l, hu, hl, -, -, hm₀⟩ := Machine.new?_ok hnew
  have h₀ : m₀.Reachable := .setup hnew
  refine ⟨u, l, hu, hl, fun k m hrun => ?_, fun m m' done hr hstep =>
    (Machine.step_ok_advances (Machine.reachable_onTrack hr).quiet hstep).2.1⟩
  obtain ⟨-, rs, hs, hrs⟩ := hrun.scripts h₀
  rw [hm₀] at hs
  have ht := Machine.reachable_onTrack (hrun.reachable h₀)
  -- a run has the two scripts of its setup and at most one more
  have hlen : rs.length ≤ 1 := by
    have hstaged := ht.staged
    simp only [hs, List.length_append, List.length_cons, List.length_nil] at hstaged
    omega
  -- the counter passed an instruction per step and still has one at or after it
  have hpos := hrun.position_ge h₀
  have hlt := ht.position_lt (hrun.not_done (Machine.new?_not_done hnew))
  simp only [hs, List.map_append, List.sum_append, List.map_cons, List.map_nil,
    List.sum_cons, List.sum_nil] at hlt
  exact ⟨rs, hs, hlen, hrs, by omega⟩

/-- The two steps of `OP_1 OP_IF OP_1 OP_ENDIF` that leave it unfinished number fewer than its
instructions. -/
theorem run_steps_bounded_ifOne :
    ∃ m₀ m₂ u l, Machine.new? [] [0x51, 0x63, 0x51, 0x68] ⟨0⟩ Checker.acceptAll = .ok m₀ ∧
      m₀.Unfinished 2 m₂ ∧ Script.parse? [] = some u ∧ Script.parse? [0x51, 0x63, 0x51, 0x68] = some l ∧
      ∃ rs, m₂.scripts = [u, l] ++ rs ∧ 2 + 1 ≤ u.length + l.length + (rs.map List.length).sum := by
  obtain ⟨m₀, m₁, m₂, hnew, h₀, h₁, -⟩ := Machine.run_ifOne
  have hrun : m₀.Unfinished 2 m₂ := .step (.step .start h₀) h₁
  obtain ⟨u, l, hu, hl, hsteps, -⟩ := run_steps_bounded hnew
  obtain ⟨rs, hs, -, -, hk⟩ := hsteps 2 m₂ hrun
  exact ⟨m₀, m₂, u, l, hnew, hrun, hu, hl, rs, hs, hk⟩

end BitcoinScript
