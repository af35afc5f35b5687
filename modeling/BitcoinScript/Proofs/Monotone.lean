import BitcoinScript.Proofs.Policy
import BitcoinScript.Proofs.FlagSet

/-!
# Policy flags only refuse

A spend that verifies under some flags verifies under fewer. The squares of
`BitcoinScript.Proofs.Policy` carry a run step by step, with one exception: the P2SH stage. A
stronger run that asks for P2SH checks the result of the locking script at its end and goes on
with the redeem script; a weaker run that does not ask for it stops there. Its final check then
reads the same stack that the stronger run's stage check has just passed, and CLEANSTACK, which
would ask more of that stack, needs P2SH.

`Exec.SquareAt r Q x y m` is the square of one run from `m` that may instead end the weaker run
in an outcome `Q`; `Machine.Passes` is the outcome of the weaker run at the dropped stage.
-/

set_option autoImplicit false

namespace BitcoinScript

namespace Machine

/-- The stronger machine is at a P2SH stage that the weaker run drops. -/
def DropsStage (r : Relaxation) (m : Machine) : Prop :=
  r.p2sh = false ∧ m.bip16 = true ∧ m.idx = 1 ∧ m.afterGenesis = false

/-- A machine whose every script has run and whose final check passes. -/
def Passes (m : Machine) : Prop :=
  m.isDone = true ∧ m.flags.cleanStack = false ∧
    ∃ x rest, m.dstack.items = x :: rest ∧ castToBool x = true

theorem Staged.succ {m : Machine} (h : m.Staged) : ({ m with idx := m.idx + 1 }).Staged :=
  h.imp id fun h => Nat.le_succ_of_le h

end Machine

namespace Exec

variable {r : Relaxation} {α β : Type}

/-! ## Squares that may end the weaker run -/

/-- The square of a run from `m`, or the weaker run ends in an outcome `Q`. -/
def SquareAt (r : Relaxation) (Q : α → Machine → Prop) (x y : Exec α) (m : Machine) : Prop :=
  m.Tight r → ∀ a m₂, y m = .ok a m₂ →
    (m₂.Tight r ∧ x (m.relax r) = .ok a (m₂.relax r)) ∨ ∃ b W, x (m.relax r) = .ok b W ∧ Q b W

theorem Sim.squareAt {Q : α → Machine → Prop} {x y : Exec α} (h : Sim r x y) (m : Machine) :
    SquareAt r Q x y m :=
  fun hm a m₂ hy => .inl (h.run m hm a m₂ hy)

/-- The continuation runs from where the stronger run got to; where the weaker run ended in
`Q₁`, the continuation must take it to `Q`. -/
theorem SquareAt.bind {Q₁ : α → Machine → Prop} {Q : β → Machine → Prop} {x y : Exec α}
    {f k : α → Exec β} {m : Machine} (hx : SquareAt r Q₁ x y m)
    (hf : ∀ a m₁, y m = .ok a m₁ → SquareAt r Q (f a) (k a) m₁)
    (hQ : ∀ b W, Q₁ b W → ∃ c W', f b W = .ok c W' ∧ Q c W') :
    SquareAt r Q (x >>= f) (y >>= k) m := by
  intro hm c m₂ hy
  obtain ⟨a, m₁, hy₁, hk⟩ := bind_eq_ok.mp hy
  rcases hx hm a m₁ hy₁ with ⟨hm₁, hx₁⟩ | ⟨b, W, hxW, hQW⟩
  · rcases hf a m₁ hy₁ hm₁ c m₂ hk with ⟨hm₂, hf₂⟩ | ⟨c', W', hfW, hQW'⟩
    · exact .inl ⟨hm₂, bind_eq_ok.mpr ⟨a, _, hx₁, hf₂⟩⟩
    · exact .inr ⟨c', W', bind_eq_ok.mpr ⟨a, _, hx₁, hfW⟩, hQW'⟩
  · obtain ⟨c', W', hfW, hQW'⟩ := hQ b W hQW
    exact .inr ⟨c', W', bind_eq_ok.mpr ⟨b, W, hxW, hfW⟩, hQW'⟩

/-- A square followed by a square that may end the weaker run. -/
theorem SquareAt.sim_bind {Q : β → Machine → Prop} {x y : Exec α} {f k : α → Exec β}
    {m : Machine} (hx : Sim r x y) (hf : ∀ a m₁, y m = .ok a m₁ → SquareAt r Q (f a) (k a) m₁) :
    SquareAt r Q (x >>= f) (y >>= k) m :=
  SquareAt.bind (show SquareAt r (fun _ _ => False) x y m from hx.squareAt m) hf fun _ _ h => h.elim

theorem SquareAt.of_tight {Q : α → Machine → Prop} {x y : Exec α} {m : Machine}
    (h : m.Tight r → SquareAt r Q x y m) : SquareAt r Q x y m :=
  fun hm => h hm hm

theorem SquareAt.get_bind {Q : α → Machine → Prop} {f k : Machine → Exec α} {m : Machine}
    (h : SquareAt r Q (f (m.relax r)) (k m) m) : SquareAt r Q (get >>= f) (get >>= k) m :=
  fun hm a m₂ hy => h hm a m₂ hy

theorem SquareAt.ite {Q : α → Machine → Prop} {c : Prop} {i₁ i₂ : Decidable c} {x x' y y' : Exec α}
    {m : Machine} (hx : c → SquareAt r Q x x' m) (hy : ¬c → SquareAt r Q y y' m) :
    SquareAt r Q (@ite _ c i₁ x y) (@ite _ c i₂ x' y') m := by
  by_cases hc : c
  · rw [@if_pos _ i₁ hc, @if_pos _ i₂ hc]
    exact hx hc
  · rw [@if_neg _ i₁ hc, @if_neg _ i₂ hc]
    exact hy hc

theorem SquareAt.ite_cases {Q : α → Machine → Prop} {c c' : Prop} [Decidable c] [Decidable c']
    {x x' y y' : Exec α} {m : Machine} (h₁ : c → c' → SquareAt r Q x x' m)
    (h₂ : ¬c → c' → SquareAt r Q y x' m) (h₃ : c → ¬c' → SquareAt r Q x y' m)
    (h₄ : ¬c → ¬c' → SquareAt r Q y y' m) :
    SquareAt r Q (if c then x else y) (if c' then x' else y') m := by
  by_cases hc : c <;> by_cases hc' : c'
  · rw [if_pos hc, if_pos hc']
    exact h₁ hc hc'
  · rw [if_pos hc, if_neg hc']
    exact h₃ hc hc'
  · rw [if_neg hc, if_pos hc']
    exact h₂ hc hc'
  · rw [if_neg hc, if_neg hc']
    exact h₄ hc hc'

theorem SquareAt.if_neg_left {Q : α → Machine → Prop} {c : Prop} [Decidable c] {x y x' : Exec α}
    {m : Machine} (hc : ¬c) (h : SquareAt r Q y x' m) : SquareAt r Q (if c then x else y) x' m := by
  rw [if_neg hc]
  exact h

/-! ## Moving to the next script -/

/-- The end of a script change: an empty script is skipped. -/
theorem sim_skipEmpty :
    Sim r
      (do
        let m ← get
        if (m.scripts[m.idx]?.map List.isEmpty) == some true then set { m with idx := m.idx + 1 }
        notify .afterScriptChange)
      (do
        let m ← get
        if (m.scripts[m.idx]?.map List.isEmpty) == some true then set { m with idx := m.idx + 1 }
        notify .afterScriptChange) := by
  refine Sim.get_bind fun s hs => ?_
  simp only [Machine.relax_scripts, Machine.relax_idx]
  refine Sim.ite (fun _ => ?_) fun _ => Sim.modify (fun _ => rfl) fun _ h => h
  exact Sim.bind (Sim.set rfl ⟨hs.1, hs.2.1, Machine.Staged.succ hs.2.2⟩) fun _ =>
    Sim.modify (fun _ => rfl) fun _ h => h

/-- The skip of an empty script, where none is left. -/
theorem skipEmpty_run_done {m : Machine} (h : m.scripts.length ≤ m.idx) :
    (do
        let m ← get
        if (m.scripts[m.idx]?.map List.isEmpty) == some true then set { m with idx := m.idx + 1 }
        notify .afterScriptChange : Exec Unit) m =
      .ok () { m with log := .phase .afterScriptChange m.idx m.off :: m.log } := by
  have hnone : m.scripts[m.idx]? = none := List.getElem?_eq_none h
  simp only [bind, EStateM.bind, get, getThe, MonadStateOf.get, EStateM.get, hnone, Option.map_none]
  rfl

theorem shiftScript_squareAt (hr : r.flags.cleanStack = true → r.p2sh = true) (m : Machine) :
    SquareAt r (fun _ W => W.Passes) shiftScript shiftScript m := by
  unfold shiftScript
  refine SquareAt.sim_bind (Sim.modify (fun _ => rfl) fun _ h => h) fun _ m₁ h₁ => ?_
  refine SquareAt.sim_bind (Sim.modify (fun _ => rfl) fun _ h => h) fun _ m₂ h₂ => ?_
  refine SquareAt.get_bind (SquareAt.of_tight fun hm => ?_)
  dsimp only
  simp only [Machine.relax_bip16, Machine.relax_idx, Machine.relax_afterGenesis]
  refine SquareAt.ite_cases (fun hw hs => ?_) (fun hw hs => ?_) (fun hw hs => ?_) fun hw hs => ?_
  · -- both runs keep the unlocking script's stack for the stage
    have hp : r.p2sh = true := by simp_all
    have h0 : m₂.idx = 0 := by simp_all
    refine (Sim.bind (Sim.set ?_ ?_) fun _ => sim_skipEmpty).squareAt m₂
    · simp only [Machine.relax, hp, ↓reduceIte]
      rfl
    · exact ⟨hm.1, hm.2.1, .inl (hm.2.2.resolve_right (by omega))⟩
  · -- only the stronger run keeps it: the weaker run moves on alike
    have hp : r.p2sh = false := by simp_all
    have h0 : m₂.idx = 0 := by simp_all
    refine SquareAt.if_neg_left (by simp [h0]) ?_
    refine (Sim.bind (Sim.set ?_ ?_) fun _ => sim_skipEmpty).squareAt m₂
    · simp only [Machine.relax, hp, h0]
      rfl
    · exact ⟨hm.1, hm.2.1, .inl (hm.2.2.resolve_right (by omega))⟩
  · refine absurd ?_ hs
    simp only [Bool.and_eq_true] at hw ⊢
    exact ⟨hw.1.1, hw.2⟩
  -- the P2SH stage
  refine SquareAt.ite_cases (fun hw' hs' => ?_) (fun hw' hs' => ?_) (fun hw' hs' => ?_)
    fun hw' hs' => ?_
  · -- both runs take it: the stage check, then the redeem script
    have hp : r.p2sh = true := by simp_all
    refine SquareAt.sim_bind (Sim.set ?_ ?_) fun _ m₃ h₃ => ?_
    · rfl
    · exact ⟨hm.1, hm.2.1, .inr le_rfl⟩
    cases h₃
    refine SquareAt.sim_bind (sim_checkCondition false) fun _ m₄ h₄ => ?_
    have hidx : m₄.idx = 2 :=
      congrArg Control.idx ((preserves_control_checkCondition _ false).of_ok rfl h₄)
    refine SquareAt.get_bind (SquareAt.of_tight fun hm₄ => ?_)
    simp only [Machine.relax_savedFirst, hp, ↓reduceIte]
    split
    · exact (Sim.throw_bind _).squareAt m₄
    · split
      · exact (Sim.throw_bind _).squareAt m₄
      · refine (Sim.bind (Sim.set ?_ ?_) fun _ => sim_skipEmpty).squareAt m₄
        · simp only [Machine.relax, hp, ↓reduceIte]
          rfl
        · exact ⟨hm₄.1, hm₄.2.1, .inr hidx.ge⟩
  · -- only the stronger run takes it: the weaker run is over, on the stack the stage check passed
    have hp : r.p2sh = false := by simp_all
    simp only [Bool.and_eq_true, decide_eq_true_eq, Bool.not_eq_true'] at hs'
    obtain ⟨⟨-, h1⟩, -⟩ := hs'
    have hlen : m₂.scripts.length = 2 := hm.2.2.resolve_right (by omega)
    intro _ a m₅ hy
    obtain ⟨_, m₃, h₃, hy⟩ := bind_eq_ok.mp hy
    cases h₃
    obtain ⟨_, m₄, h₄, -⟩ := bind_eq_ok.mp hy
    obtain ⟨-, x, rest, -, hitems, htrue, -⟩ := checkCondition_ok h₄
    have hclean : r.flags.cleanStack = false := by
      cases hc : r.flags.cleanStack
      · rfl
      · simp [hr hc] at hp
    refine .inr ⟨(), _, skipEmpty_run_done ?_, ?_, hclean, x, rest, hitems, htrue⟩
    · simp [hlen, h1]
    · simp [Machine.isDone, hlen, h1]
  · refine absurd ?_ hs'
    simp only [Bool.and_eq_true] at hw' ⊢
    exact ⟨⟨hw'.1.1.1, hw'.1.2⟩, hw'.2⟩
  · -- neither run takes it
    refine (Sim.bind (Sim.set ?_ ?_) fun _ => sim_skipEmpty).squareAt m₂
    · rfl
    · exact ⟨hm.1, hm.2.1, Machine.Staged.succ hm.2.2⟩

/-- What a step, or the part that finishes it, ends the weaker run in: every script run, and a
final check that passes. -/
def Finished (b : Bool) (W : Machine) : Prop := b = true ∧ W.Passes

theorem sim_isDone : Sim r (get >>= fun m => pure m.isDone) (get >>= fun m => pure m.isDone) :=
  Sim.get_bind fun _ _ => Sim.pure rfl

/-- After a script change the weaker run answers that it is over. -/
theorem isDone_of_passes {W : Machine} (hW : W.Passes) :
    ∃ c W', (get >>= fun m => pure m.isDone : Exec Bool) W = .ok c W' ∧ Finished c W' :=
  ⟨_, W, rfl, hW.1, hW⟩

theorem finishStep_squareAt (hr : r.flags.cleanStack = true → r.p2sh = true) (script : Script)
    (m : Machine) : SquareAt r Finished (finishStep script) (finishStep script) m := by
  unfold finishStep
  refine SquareAt.get_bind (SquareAt.of_tight fun hm => ?_)
  dsimp only
  simp only [Machine.relax_pendingReturn]
  refine SquareAt.ite (fun _ => ?_) fun _ => ?_
  · -- a pending early return ends the script at once
    refine SquareAt.sim_bind (Sim.set rfl hm) fun _ m₁ _ => ?_
    exact SquareAt.bind (shiftScript_squareAt hr m₁) (fun _ m₂ _ => sim_isDone.squareAt m₂)
      fun _ _ => isDone_of_passes
  -- otherwise the stacks must fit, and the end of the script moves to the next one
  refine SquareAt.sim_bind (Sim.modify (fun _ => rfl) fun _ h => h) fun _ m₁ _ => ?_
  refine SquareAt.get_bind (SquareAt.of_tight fun hm₁ => ?_)
  simp only [Machine.relax_dstack, Machine.relax_astack, Stack.depth, Stack.relax_items,
    Machine.relax_limits, Machine.relax_off, Machine.relax_branches]
  refine SquareAt.ite (fun _ => (Sim.throw_bind _).squareAt m₁) fun _ => ?_
  refine SquareAt.sim_bind (Sim.set rfl ?_) fun _ m₂ _ => ?_
  · exact hm₁
  refine SquareAt.ite (fun _ => SquareAt.ite (fun _ => (Sim.throw_bind _).squareAt m₂) fun _ => ?_)
    fun _ => sim_isDone.squareAt m₂
  exact SquareAt.bind (shiftScript_squareAt hr m₂) (fun _ m₃ _ => sim_isDone.squareAt m₃)
    fun _ _ => isDone_of_passes

theorem step_squareAt (hr : r.flags.cleanStack = true → r.p2sh = true) (m : Machine) :
    SquareAt r Finished step step m := by
  refine SquareAt.get_bind (SquareAt.of_tight fun hm => ?_)
  simp only [Machine.relax_scripts, Machine.relax_idx, Machine.relax_off]
  split
  · split
    · refine SquareAt.sim_bind (Sim.modify (fun _ => rfl) fun _ h => h) fun _ m₁ _ => ?_
      exact SquareAt.sim_bind (sim_executeInstruction _) fun _ m₂ _ => finishStep_squareAt hr _ m₂
    · exact (Sim.throw _).squareAt m
  · exact (Sim.throw _).squareAt m

/-- A run of steps: by induction on the fuel, each step a square until the weaker run drops the
stage and stops there. -/
theorem runSteps_squareAt (hr : r.flags.cleanStack = true → r.p2sh = true) (fuel : Nat) :
    ∀ m, SquareAt r (fun _ W => W.Passes) (runSteps fuel) (runSteps fuel) m := by
  induction fuel with
  | zero => exact fun m => (Sim.pure rfl).squareAt m
  | succ fuel ih =>
    intro m
    refine SquareAt.sim_bind (Sim.modify (fun _ => rfl) fun _ h => h) fun _ m₁ _ => ?_
    refine SquareAt.bind (step_squareAt hr m₁) (fun _ m₂ _ => ?_) fun b W hW => ?_
    · refine SquareAt.sim_bind (Sim.modify (fun _ => rfl) fun _ h => h) fun _ m₃ _ => ?_
      exact SquareAt.ite (fun _ => ih m₃) fun _ => (Sim.pure rfl).squareAt m₃
    · -- the weaker step answered that it is over, so the weaker run stops
      obtain ⟨rfl, hP⟩ := hW
      exact ⟨(), _, rfl, hP⟩

/-- The final check passes on a machine that passes. -/
theorem checkCondition_of_passes {W : Machine} (hW : W.Passes) :
    ∃ W', checkCondition true W = .ok () W' := by
  obtain ⟨hdone, hclean, x, rest, hitems, htrue⟩ := hW
  simp [checkCondition, hdone, hclean, hitems, htrue, onData, Stack.popBool, Stack.pop, bind,
    EStateM.bind, get, getThe, MonadStateOf.get, EStateM.get, pure, EStateM.pure]

theorem stepBound_relax {m : Machine} (hsaved : m.savedFirst = []) :
    (m.relax r).stepBound = m.stepBound := by
  unfold Machine.stepBound
  rw [Machine.relax_savedFirst, hsaved, ite_self]
  rfl

/-- A whole run under the stronger flags that succeeds from a machine with nothing saved for the
stage succeeds under the weaker flags. -/
theorem execute_relax (hr : r.flags.cleanStack = true → r.p2sh = true) {m m' : Machine}
    (hm : m.Tight r) (hsaved : m.savedFirst = []) (h : execute m = .ok () m') :
    ∃ W, execute (m.relax r) = .ok () W := by
  unfold execute at h ⊢
  rw [stepBound_relax hsaved]
  have hrun : SquareAt r (fun _ W => W.Passes)
      (notify .beforeExecute >>= fun _ => runSteps m.stepBound)
      (notify .beforeExecute >>= fun _ => runSteps m.stepBound) m :=
    SquareAt.sim_bind (Sim.modify (fun _ => rfl) fun _ h => h) fun _ m₁ _ =>
      runSteps_squareAt hr _ m₁
  cases hs : (notify .beforeExecute >>= fun _ => runSteps m.stepBound : Exec Unit) m with
  | error e s =>
    simp only [hs] at h
    cases h
  | ok u m₁ =>
    simp only [hs] at h
    rcases hrun hm u m₁ hs with ⟨hm₁, hw⟩ | ⟨_, W, hw, hW⟩
    · -- the weaker run went through every step alike: so does its final check
      have hcheck : Sim r (notify .afterExecute >>= fun _ => checkCondition true)
          (notify .afterExecute >>= fun _ => checkCondition true) :=
        Sim.bind (Sim.modify (fun _ => rfl) fun _ h => h) fun _ => sim_checkCondition true
      exact ⟨_, by simp only [hw]; exact (hcheck.run m₁ hm₁ () m' h).2⟩
    · -- the weaker run stopped at the stage it drops
      have hW₁ : Machine.Passes { W with log := .phase .afterExecute W.idx W.off :: W.log } := hW
      obtain ⟨W', hW'⟩ := checkCondition_of_passes hW₁
      exact ⟨W', by simp only [hw]; exact hW'⟩

end Exec

/-! ## Setting up under fewer flags -/

namespace Machine

/-- Setting up under weaker flags, which pass the flag check themselves and keep the genesis rule,
gives the relaxed view of the stronger machine. -/
theorem new?_relax {unlocking locking : Bytes} {G H : Flags} {c : Checker} {m : Machine}
    (ht : G.effective.Tightens H.effective)
    (hclean : G.effective.cleanStack = true → G.effective.p2sh = true)
    (hag : G.effective.afterGenesis = H.effective.afterGenesis)
    (h : Machine.new? unlocking locking H c = .ok m) :
    Machine.new? unlocking locking G c = .ok (m.relax ⟨G.effective, G.effective.p2sh⟩) := by
  unfold Machine.new? at h ⊢
  simp only [bind, Except.bind, pure, Except.pure, throw, throwThe, MonadExceptOf.throw] at h ⊢
  rw [hag]
  -- every check the stronger setup passes, the weaker one passes: first the flag check
  have hflags : ¬(G.effective.cleanStack && !G.effective.p2sh) = true := by
    cases hc : G.effective.cleanStack <;> simp [hclean, hc]
  rw [if_neg hflags]
  split at h
  · cases h
  rename_i hempty
  rw [if_neg hempty]
  split at h
  · cases h
  split at h
  · cases h
  rename_i hsize₁
  rw [if_neg hsize₁]
  split at h
  · cases h
  rename_i hsize₂
  rw [if_neg hsize₂]
  -- then the parses, which read no flag, and the push-only rules
  split at h
  · rename_i u hu
    split at h
    · rename_i l hl
      split at h
      · cases h
      rename_i hpush
      split at h
      · cases h
      rename_i hbip
      cases h
      have hpush' : ¬(G.effective.sigPushOnly && !u.isPushOnly) = true := by
        intro hg
        simp only [Bool.and_eq_true] at hg hpush
        exact hpush ⟨ht.sigPushOnly hg.1, hg.2⟩
      have hbip' : ¬(G.effective.p2sh && Script.isPayToScriptHash locking && !u.isPushOnly) = true := by
        intro hg
        simp only [Bool.and_eq_true] at hg hbip
        exact hbip ⟨⟨ht.p2sh hg.1.1, hg.1.2⟩, hg.2⟩
      rw [if_neg hpush', if_neg hbip']
      -- the machines agree: the stacks' number rule is the weaker one, and so is the P2SH stage
      have hmin : (G.effective.minimalData && H.effective.minimalData) = G.effective.minimalData :=
        Bool.and_eq_left_iff_imp.mpr ht.minimalData
      cases hp : G.effective.p2sh
      · simp [Machine.relax, Stack.relax, hmin]
      · simp [Machine.relax, Stack.relax, hmin, ht.p2sh hp]
    · cases h
  · cases h

/-- A machine set up for a spend runs under the effective flags and the given checker, on the two
scripts of the spend, with nothing saved for the P2SH stage. -/
theorem new?_setup {unlocking locking : Bytes} {F : Flags} {c : Checker} {m : Machine}
    (h : Machine.new? unlocking locking F c = .ok m) :
    m.flags = F.effective ∧ m.checker = c ∧ m.scripts.length = 2 ∧ m.savedFirst = [] := by
  obtain ⟨u, l, -, -, -, -, rfl⟩ := new?_ok h
  exact ⟨rfl, rfl, rfl, rfl⟩

end Machine

/-! ## Verification under fewer flags -/

/-- A verification succeeds when its setup does and the run from there does. -/
theorem verify_result_eq_ok {unlocking locking : Bytes} {F : Flags} {c : Checker} :
    (verify unlocking locking F c).result = .ok () ↔
      ∃ m, Machine.new? unlocking locking F c = .ok m ∧ ∃ m', Exec.execute m = .ok () m' := by
  unfold verify Machine.run
  cases hn : Machine.new? unlocking locking F c with
  | error e => simp
  | ok m => cases hx : Exec.execute m <;> simp [hx]

/-- A spend that verifies under some flags verifies under any that they tighten, that pass the
flag check and keep the genesis rule, with a checker steady between the two. -/
theorem verify_of_tightens {unlocking locking : Bytes} {G H : Flags} {c : Checker}
    (ht : G.effective.Tightens H.effective) (hc : c.Steady G.effective H.effective)
    (hclean : G.effective.cleanStack = true → G.effective.p2sh = true)
    (hag : G.effective.afterGenesis = H.effective.afterGenesis)
    (h : (verify unlocking locking H c).result = .ok ()) :
    (verify unlocking locking G c).result = .ok () := by
  obtain ⟨m, hnew, m', hrun⟩ := verify_result_eq_ok.mp h
  obtain ⟨hflags, hchecker, hscripts, hsaved⟩ := Machine.new?_setup hnew
  have hm : m.Tight ⟨G.effective, G.effective.p2sh⟩ := by
    refine ⟨?_, ?_, .inl hscripts⟩
    · rw [hflags]
      exact ht
    · rw [hflags, hchecker]
      exact hc
  obtain ⟨W, hW⟩ := Exec.execute_relax hclean hm hsaved hrun
  exact verify_result_eq_ok.mpr ⟨_, Machine.new?_relax ht hclean hag hnew, W, hW⟩

theorem Checker.acceptAll_steady (g h : Flags) : Checker.acceptAll.Steady g h :=
  ⟨fun _ _ _ _ => rfl, fun _ _ _ _ _ _ _ => rfl⟩

/-- A degenerate signature, with `r` or `s` zero, verifies against no key and no digest: its low-S
form is degenerate too. -/
theorem Secp256k1.verify_normalizeS_of_degenerate {sig : Secp256k1.Signature} (h : sig.Degenerate)
    (key : Secp256k1.PublicKey) (d : Bytes) : Secp256k1.verify sig.normalizeS key d = false := by
  unfold Secp256k1.Signature.normalizeS
  rcases h with hr | hs
  · split <;> simp [Secp256k1.verify, hr]
  · have hlow : ¬ sig.s > Secp256k1.Signature.halfOrder := by omega
    simp [hlow, Secp256k1.verify, hs]

/-- The digest of a spend reads the flags only through the choice of the BIP143 digest. -/
theorem Spend.digest_congr (c : Spend) {g h : Flags} (hfork : g.forkId = h.forkId)
    (hbip : g.bip143 = h.bip143) (code : Bytes) (hashType : Nat) :
    c.digest code hashType g = c.digest code hashType h := by
  have huses : Sighash.usesForkIdDigest hashType g = Sighash.usesForkIdDigest hashType h := by
    simp only [Sighash.usesForkIdDigest, hfork, hbip]
  simp only [Spend.digest, signatureHash, huses]

/-- The checker of a spend is steady between flags that agree on SIGHASH_FORKID and
BIP143_SIGHASH: they choose the same digest, and a degenerate signature fails against it. -/
theorem Spend.checker_steady (c : Spend) {g h : Flags} (hfork : g.forkId = h.forkId)
    (hbip : g.bip143 = h.bip143) : c.checker.Steady g h := by
  refine ⟨fun sig key code hashType => ?_, fun sig sig' key code hashType hs hs' => ?_⟩
  · show c.checkSig sig key code hashType g = c.checkSig sig key code hashType h
    simp only [Spend.checkSig, c.digest_congr hfork hbip]
  · show c.checkSig sig key code hashType h = c.checkSig sig' key code hashType h
    simp only [Spend.checkSig, Secp256k1.verify_normalizeS_of_degenerate hs,
      Secp256k1.verify_normalizeS_of_degenerate hs']

/-- A policy or lock-time flag leaves SIGHASH_FORKID and BIP143_SIGHASH alone, so the checker of
every spend is steady between the flags without it and with it. -/
theorem Spend.checker_steady_union (c : Spend) (F : Flags) {f : Nat}
    (hf : f ∈ Flags.policyBits ∨ f ∈ Flags.lockTimeBits) :
    c.checker.Steady F.effective (F.union ⟨f⟩).effective := by
  have hbits : ∀ f ∈ Flags.policyBits ++ Flags.lockTimeBits,
      f.testBit 13 = false ∧ f.testBit 14 = false := by decide
  obtain ⟨h13, h14⟩ := hbits f (List.mem_append.mpr hf)
  have hbip : ∀ G : Flags, G.bip143 = G.bits.testBit 14 := fun G => Flags.has_two_pow G 14
  refine c.checker_steady ?_ ?_
  · rw [Flags.forkId_eq_testBit, Flags.forkId_eq_testBit,
      F.testBit_effective_union_of_clear (by decide) h13]
  · rw [hbip, hbip, F.testBit_effective_union_of_clear (by decide) h14]

/-- Adding a policy flag never turns a refused spend into an accepted one: a spend that
verifies with one of the flags of `Flags.policyBits` added verifies without it, and so with one
of `Flags.lockTimeBits` where the upgradable no-ops are not discouraged. The flags must pass the
setup's flag check, and the checker must answer alike with and without the flag and on
signatures that cannot verify. -/
theorem verify_ok_without_policyFlag {unlocking locking : Bytes} {F : Flags} {f : Nat}
    {c : Checker} (hclean : F.cleanStack = true → F.p2sh = true)
    (hf : f ∈ Flags.policyBits ∨ (f ∈ Flags.lockTimeBits ∧ F.discourageUpgradableNops = false))
    (hc : c.Steady F.effective (F.union ⟨f⟩).effective)
    (h : (verify unlocking locking (F.union ⟨f⟩) c).result = .ok ()) :
    (verify unlocking locking F c).result = .ok () := by
  -- the added bit leaves SIGHASH_FORKID and the genesis rule alone, and a lock-time bit comes
  -- only where the no-ops are not discouraged
  obtain ⟨h13, h15, hnop⟩ : f.testBit 13 = false ∧ f.testBit 15 = false ∧
      (f.testBit 9 = true ∨ f.testBit 10 = true → F.discourageUpgradableNops = false) := by
    rcases hf with hp | ⟨hl, hd⟩
    · obtain ⟨h9, h10, h13, h15⟩ := Flags.testBit_of_mem_policyBits f hp
      exact ⟨h13, h15, fun h => by simp [h9, h10] at h⟩
    · obtain ⟨h13, h15⟩ := Flags.testBit_of_mem_lockTimeBits f hl
      exact ⟨h13, h15, fun _ => hd⟩
  have hbit : ∀ i, i ≠ 1 →
      (F.union ⟨f⟩).effective.bits.testBit i = (F.bits.testBit i || f.testBit i) := fun i hi => by
    rw [Flags.testBit_effective_of_ne _ hi, Flags.testBit_union]
  have hbitF : ∀ i, i ≠ 1 → F.effective.bits.testBit i = F.bits.testBit i :=
    fun i hi => Flags.testBit_effective_of_ne _ hi
  have hfork : F.bits.testBit 13 = (F.union ⟨f⟩).bits.testBit 13 := by
    rw [Flags.testBit_union, h13, Bool.or_false]
  -- a lock-time check that only the stronger flags make is one the weaker flags do not discourage
  have hnop' : ∀ k, k ≠ 1 → k = 9 ∨ k = 10 → (F.union ⟨f⟩).effective.bits.testBit k = true →
      F.effective.bits.testBit k = false → F.effective.discourageUpgradableNops = false := by
    intro k hk hk' hH hG
    rw [hbit k hk] at hH
    rw [hbitF k hk] at hG
    rw [hG, Bool.false_or] at hH
    rw [Flags.discourage_eq_testBit, hbitF 7 (by decide), ← Flags.discourage_eq_testBit]
    rcases hk' with rfl | rfl
    · exact hnop (.inl hH)
    · exact hnop (.inr hH)
  have ht : F.effective.Tightens (F.union ⟨f⟩).effective := by
    refine Flags.Tightens.of_sub (Flags.effective_sub (Flags.sub_union F ⟨f⟩) hfork) ?_ ?_ ?_
    · rw [Flags.forkId_eq_testBit, Flags.forkId_eq_testBit, hbit 13 (by decide),
        hbitF 13 (by decide), h13, Bool.or_false]
    · intro hH hG
      rw [Flags.checkLockTime_eq_testBit] at hH hG
      exact hnop' 9 (by decide) (.inl rfl) hH hG
    · intro hH hG
      rw [Flags.checkSequence_eq_testBit] at hH hG
      exact hnop' 10 (by decide) (.inr rfl) hH hG
  have hclean' : F.effective.cleanStack = true → F.effective.p2sh = true := by
    rw [Flags.cleanStack_eq_testBit, Flags.p2sh_eq_testBit, hbitF 8 (by decide),
      hbitF 0 (by decide), ← Flags.cleanStack_eq_testBit, ← Flags.p2sh_eq_testBit]
    exact hclean
  have hag : F.effective.afterGenesis = (F.union ⟨f⟩).effective.afterGenesis := by
    rw [Flags.afterGenesis_eq_testBit, Flags.afterGenesis_eq_testBit, hbit 15 (by decide),
      hbitF 15 (by decide), h15, Bool.or_false]
  exact verify_of_tightens ht hc hclean' hag h

/-- A script that pushes one true byte passes with P2SH, and so without it, under the checker that
accepts everything and under the checker of a transaction's input. -/
theorem verify_ok_without_policyFlag_pushByte :
    ((verify [] [0x01, 0x01] (Flags.union ⟨0⟩ ⟨1⟩) Checker.acceptAll).result = .ok () ∧
      (verify [] [0x01, 0x01] ⟨0⟩ Checker.acceptAll).result = .ok ()) ∧
    ((verify [] [0x01, 0x01] (Flags.union ⟨0⟩ ⟨1⟩) (Spend.mk ⟨1, [], [], 0⟩ 0 0).checker).result =
        .ok () ∧
      (verify [] [0x01, 0x01] ⟨0⟩ (Spend.mk ⟨1, [], [], 0⟩ 0 0).checker).result = .ok ()) := by
  have hu : Script.parse? [] = some [] := by simp [Script.parse?, Script.parseAt]
  have hl : Script.parse? [0x01, 0x01] = some [Instruction.ofByte 0x01 [0x01]] := by
    simp [Script.parse?, Script.parseAt, Script.takePush]
  -- the script consults neither checker
  have hstrong : (verify [] [0x01, 0x01] (Flags.union ⟨0⟩ ⟨1⟩) Checker.acceptAll).result = .ok () ∧
      (verify [] [0x01, 0x01] (Flags.union ⟨0⟩ ⟨1⟩) (Spend.mk ⟨1, [], [], 0⟩ 0 0).checker).result =
        .ok () := by
    constructor
    all_goals
      refine verify_result_eq_ok.mpr ?_
      simp only [Machine.new?, hu, hl]
      exact ⟨_, rfl, _, rfl⟩
  exact ⟨⟨hstrong.1, verify_ok_without_policyFlag (by decide) (.inl (by decide))
      (Checker.acceptAll_steady _ _) hstrong.1⟩,
    ⟨hstrong.2, verify_ok_without_policyFlag (by decide) (.inl (by decide))
      (Spend.checker_steady_union _ _ (.inl (by decide))) hstrong.2⟩⟩

end BitcoinScript
