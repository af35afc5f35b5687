import BitcoinScript.Proofs.Der

/-!
# The same machine under fewer flags

The policy flags only add refusals. To compare a run under some flags with the run of the same
spend under more, the weaker machine is read off the stronger one by `Machine.relax`: the same
machine with the weaker flags, its stacks held to the weaker rule for popped numbers, and its
P2SH stage dropped when the weaker flags do not ask for one.

`Exec.Sim r x y` is the square of a simulation for one computation: whenever `y` succeeds on a
machine, `x` succeeds on the relaxed machine with the same answer and ends in the relaxed view
of where `y` ended. The rules here build squares through `bind`, `get`, `set`, `if` and the stack
primitives (`Stack.Sim` for the latter), so that the square of an opcode is a walk over its `do`
block. Only the places where a flag is read need an argument of their own.

`Machine.Tight r m` is what the square needs of the stronger machine: its flags ask everything the
weaker ones ask (`Flags.Tightens`), and its checker answers alike under both sets of flags and on
any two signatures that cannot verify (`Checker.Steady`).
-/

set_option autoImplicit false

namespace BitcoinScript

/-- `h` asks everything `g` asks. Besides, `h` may turn the lock-time no-ops into their checks,
but only where `g` does not refuse those no-ops outright, and the two agree on the flags that
choose a digest. -/
structure Flags.Tightens (g h : Flags) : Prop where
  p2sh : g.p2sh = true → h.p2sh = true
  strictEnc : g.strictEnc = true → h.strictEnc = true
  lowS : g.lowS = true → h.lowS = true
  strictDer : g.requiresStrictDer = true → h.requiresStrictDer = true
  nullDummy : g.nullDummy = true → h.nullDummy = true
  sigPushOnly : g.sigPushOnly = true → h.sigPushOnly = true
  minimalData : g.minimalData = true → h.minimalData = true
  discourage : g.discourageUpgradableNops = true → h.discourageUpgradableNops = true
  cleanStack : g.cleanStack = true → h.cleanStack = true
  minimalIf : g.minimalIf = true → h.minimalIf = true
  nullFail : g.nullFail = true → h.nullFail = true
  lockTime : g.checkLockTime = true → h.checkLockTime = true
  sequence : g.checkSequence = true → h.checkSequence = true
  lockTimeNop : h.checkLockTime = true → g.checkLockTime = false →
    g.discourageUpgradableNops = false
  sequenceNop : h.checkSequence = true → g.checkSequence = false →
    g.discourageUpgradableNops = false
  forkId : g.forkId = h.forkId

/-- What a run under fewer flags needs of the checker: it answers alike under the flags `g` and
`h`, and alike on any two degenerate signatures. -/
structure Checker.Steady (c : Checker) (g h : Flags) : Prop where
  checkSig_flags : ∀ sig key code hashType,
    c.checkSig sig key code hashType g = c.checkSig sig key code hashType h
  checkSig_degenerate : ∀ sig sig' key code hashType, sig.Degenerate → sig'.Degenerate →
    c.checkSig sig key code hashType h = c.checkSig sig' key code hashType h

/-- A weaker run: its flags, and whether it keeps the P2SH stage of the stronger one. -/
structure Relaxation where
  flags : Flags
  p2sh : Bool

/-- A stack held to a number rule no stricter than `minimal`. -/
def Stack.relax (minimal : Bool) (s : Stack) : Stack := { s with minimal := minimal && s.minimal }

namespace Stack

variable (b : Bool) (s : Stack)

@[simp] theorem relax_items : (s.relax b).items = s.items := rfl
@[simp] theorem relax_maxNumLen : (s.relax b).maxNumLen = s.maxNumLen := rfl
@[simp] theorem relax_minimal : (s.relax b).minimal = (b && s.minimal) := rfl
@[simp] theorem relax_afterGenesis : (s.relax b).afterGenesis = s.afterGenesis := rfl
@[simp] theorem relax_events : (s.relax b).events = s.events := rfl

end Stack

namespace Machine

/-- The machine of the weaker run that stands for `m`. -/
def relax (r : Relaxation) (m : Machine) : Machine :=
  { m with
    flags := r.flags
    dstack := { m.dstack.relax r.flags.minimalData with events := [] }
    astack := m.astack.relax r.flags.minimalData
    bip16 := m.bip16 && r.p2sh
    savedFirst := if r.p2sh then m.savedFirst else [] }

/-- Until the P2SH stage appends the redeem script, a machine runs the two scripts of its
spend. -/
def Staged (m : Machine) : Prop := m.scripts.length = 2 ∨ 2 ≤ m.idx

/-- What a square needs of the stronger machine: flags that ask more, a steady checker, and the
scripts of its stage, which the stage that only the stronger run takes depends on. -/
def Tight (r : Relaxation) (m : Machine) : Prop :=
  r.flags.Tightens m.flags ∧ m.checker.Steady r.flags m.flags ∧ m.Staged

section

variable (r : Relaxation) (m : Machine)

@[simp] theorem relax_flags : (m.relax r).flags = r.flags := rfl
@[simp] theorem relax_dstack :
    (m.relax r).dstack = { m.dstack.relax r.flags.minimalData with events := [] } := rfl
@[simp] theorem relax_astack : (m.relax r).astack = m.astack.relax r.flags.minimalData := rfl
@[simp] theorem relax_bip16 : (m.relax r).bip16 = (m.bip16 && r.p2sh) := rfl
@[simp] theorem relax_savedFirst :
    (m.relax r).savedFirst = if r.p2sh then m.savedFirst else [] := rfl
@[simp] theorem relax_elseSeen : (m.relax r).elseSeen = m.elseSeen := rfl
@[simp] theorem relax_branches : (m.relax r).branches = m.branches := rfl
@[simp] theorem relax_scripts : (m.relax r).scripts = m.scripts := rfl
@[simp] theorem relax_idx : (m.relax r).idx = m.idx := rfl
@[simp] theorem relax_off : (m.relax r).off = m.off := rfl
@[simp] theorem relax_beginCode : (m.relax r).beginCode = m.beginCode := rfl
@[simp] theorem relax_numOps : (m.relax r).numOps = m.numOps := rfl
@[simp] theorem relax_limits : (m.relax r).limits = m.limits := rfl
@[simp] theorem relax_afterGenesis : (m.relax r).afterGenesis = m.afterGenesis := rfl
@[simp] theorem relax_earlyReturn : (m.relax r).earlyReturn = m.earlyReturn := rfl
@[simp] theorem relax_pendingReturn : (m.relax r).pendingReturn = m.pendingReturn := rfl
@[simp] theorem relax_checker : (m.relax r).checker = m.checker := rfl
@[simp] theorem relax_log : (m.relax r).log = m.log := rfl
@[simp] theorem relax_shouldExec (op : Instruction) :
    (m.relax r).shouldExec op = m.shouldExec op := rfl
@[simp] theorem relax_isBranchExecuting : (m.relax r).isBranchExecuting = m.isBranchExecuting :=
  rfl
@[simp] theorem relax_subScript : (m.relax r).subScript = m.subScript := rfl
@[simp] theorem relax_isDone : (m.relax r).isDone = m.isDone := rfl

end

end Machine

/-! ## Squares on the stack -/

namespace Stack

/-- `x` succeeds on a stack held to a weaker number rule wherever it succeeds on the stack itself,
with the same answer and the same stack apart from the rule. -/
structure Sim {α : Type} (b : Bool) (x : StackM α) : Prop where
  run : ∀ s a s₂, x s = .ok a s₂ → x (s.relax b) = .ok a (s₂.relax b)

section Rules

variable {b : Bool} {α β : Type}

theorem Sim.pure (a : α) : Sim b (pure a) := ⟨fun _ _ _ h => by cases h; rfl⟩

theorem Sim.throw (e : StackError) : Sim b (throw e : StackM α) := ⟨fun _ _ _ h => by cases h⟩

theorem Sim.bind {x : StackM α} {f : α → StackM β} (hx : Sim b x) (hf : ∀ a, Sim b (f a)) :
    Sim b (x >>= f) := by
  refine ⟨fun s c s₂ h => ?_⟩
  simp only [Bind.bind, EStateM.bind] at h ⊢
  cases hs : x s with
  | ok a s₁ =>
    rw [hs] at h
    rw [hx.run s a s₁ hs]
    exact (hf a).run s₁ c s₂ h
  | error e s₁ =>
    rw [hs] at h
    cases h

theorem Sim.map {x : StackM α} (f : α → β) (hx : Sim b x) : Sim b (f <$> x) := by
  refine ⟨fun s c s₂ h => ?_⟩
  simp only [Functor.map, EStateM.map] at h ⊢
  cases hs : x s with
  | ok a s₁ =>
    rw [hs] at h
    cases h
    rw [hx.run s a _ hs]
  | error e s₁ =>
    rw [hs] at h
    cases h

/-- The rule for `let s ← get` when what follows reads no number rule. -/
theorem Sim.get_bind {k : Stack → StackM α} (hk : ∀ s, k (s.relax b) = k s)
    (h : ∀ s, Sim b (k s)) : Sim b (get >>= k) := by
  refine ⟨fun s a s₂ hy => ?_⟩
  have hrun := (h s).run s a s₂ hy
  show k (s.relax b) (s.relax b) = _
  rw [hk]
  exact hrun

theorem Sim.ite {c : Prop} [Decidable c] {x y : StackM α} (hx : c → Sim b x) (hy : ¬c → Sim b y) :
    Sim b (if c then x else y) := by
  split
  · exact hx ‹_›
  · exact hy ‹_›

/-- A loop whose every round is a square is a square. -/
theorem Sim.forIn {γ : Type} (l : List γ) (init : β) (f : γ → β → StackM (ForInStep β))
    (hf : ∀ a r, Sim b (f a r)) : Sim b (forIn l init f) := by
  induction l generalizing init with
  | nil => exact Sim.pure init
  | cons a l ih =>
    rw [List.forIn_cons]
    refine Sim.bind (hf a init) fun step => ?_
    cases step with
    | done r => exact Sim.pure r
    | yield r => exact ih r

end Rules

variable (b : Bool)

theorem sim_require (n : Nat) : Sim b (require n) := by
  refine ⟨fun s a s₂ h => ?_⟩
  simp only [require] at h ⊢
  split at h
  · cases h
    rw [if_pos (by simpa using ‹n ≤ s.items.length›)]
  · cases h

theorem sim_last : Sim b last := by
  refine ⟨fun s a s₂ h => ?_⟩
  simp only [last] at h ⊢
  split at h
  · rename_i x rest hs
    cases h
    simp [hs]
  · cases h

theorem sim_top (i : Nat) : Sim b (top i) := by
  refine ⟨fun s a s₂ h => ?_⟩
  simp only [top] at h ⊢
  split at h
  · rename_i x hs
    cases h
    simp [hs]
  · cases h

theorem sim_pop : Sim b pop := by
  refine ⟨fun s a s₂ h => ?_⟩
  simp only [pop] at h ⊢
  split at h
  · rename_i x rest hs
    cases h
    simp [hs]
    rfl
  · cases h

theorem sim_push (x : Bytes) : Sim b (push x) := by
  refine ⟨fun s a s₂ h => ?_⟩
  cases h
  rfl

theorem sim_remove (i : Nat) : Sim b (remove i) := by
  refine ⟨fun s a s₂ h => ?_⟩
  simp only [remove] at h ⊢
  split at h
  · rename_i x hs
    cases h
    simp [hs]
    rfl
  · cases h

theorem sim_tuck : Sim b tuck := by
  refine ⟨fun s a s₂ h => ?_⟩
  simp only [tuck] at h ⊢
  split at h
  · rename_i x y rest hs
    cases h
    simp [hs]
    rfl
  · cases h

/-- A weaker number rule reads every number the stricter one reads, as the same number. -/
theorem sim_decodeNumber (bytes : Bytes) (maxSize : Nat) : Sim b (decodeNumber bytes maxSize) := by
  refine ⟨fun s a s₂ h => ?_⟩
  simp only [decodeNumber] at h ⊢
  split at h
  · rename_i n hdec
    have hweak : Number.decode? bytes (b && s.minimal) maxSize = .ok n := by
      unfold Number.decode? at hdec ⊢
      split at hdec
      · cases hdec
      · rw [if_neg ‹_›]
        split at hdec
        · cases hdec
        · rename_i hmin
          rw [if_neg (fun hw => hmin ⟨(Bool.and_eq_true _ _ ▸ hw.1).2, hw.2⟩)]
          exact hdec
    cases h
    simp only [relax_minimal, hweak]
  · cases h

theorem sim_pushAll (xs : List Bytes) : Sim b (pushAll xs) := by
  induction xs with
  | nil => exact Sim.pure ()
  | cons x xs ih => exact Sim.bind (sim_push b x) fun _ => ih

theorem sim_popNum : Sim b popNum :=
  Sim.get_bind (fun _ => rfl) fun s =>
    Sim.bind (sim_pop b) fun x => sim_decodeNumber b x s.maxNumLen

theorem sim_peekNum (i maxSize : Nat) : Sim b (peekNum i maxSize) :=
  Sim.bind (sim_top b i) fun x => sim_decodeNumber b x maxSize

theorem sim_pushNum (n : Int) : Sim b (pushNum n) :=
  Sim.get_bind (fun _ => rfl) fun _ => sim_push b _

theorem sim_pushBool (v : Bool) : Sim b (pushBool v) := sim_push b _

theorem sim_popBool : Sim b popBool :=
  Sim.bind (sim_pop b) fun _ => Sim.pure _

theorem sim_drop (n : Nat) : Sim b (drop n) := by
  unfold drop
  refine Sim.bind (sim_require b n) fun _ => ?_
  rw [Std.Legacy.Range.forIn_eq_forIn_range']
  refine Sim.bind (Sim.forIn _ _ _ fun _ _ => ?_) fun _ => Sim.pure _
  exact Sim.bind (Sim.map _ (sim_pop b)) fun _ => Sim.pure _

theorem sim_dup (n : Nat) : Sim b (dup n) :=
  Sim.bind (sim_require b n) fun _ =>
    Sim.get_bind (fun _ => rfl) fun _ => sim_pushAll b _

theorem sim_copyUp (i k : Nat) : Sim b (copyUp i k) := by
  induction k generalizing i with
  | zero => exact Sim.pure ()
  | succ k ih =>
    refine Sim.get_bind (fun _ => rfl) fun s => ?_
    split
    · exact Sim.bind (sim_push b _) fun _ => ih (i + 1)
    · exact Sim.throw _

theorem sim_over (n : Nat) : Sim b («over» n) :=
  Sim.bind (sim_require b _) fun _ =>
    Sim.get_bind (fun _ => rfl) fun _ => sim_copyUp b _ _

theorem sim_modify {f : Stack → Stack} (hf : ∀ s, f (s.relax b) = (f s).relax b) :
    Sim b (modify f) := by
  refine ⟨fun s a s₂ h => ?_⟩
  cases h
  show EStateM.Result.ok () (f (s.relax b)) = _
  rw [hf]

theorem sim_turnTop (k n : Nat) (p : StackPanic) : Sim b (turnTop k n p) := by
  refine Sim.bind (sim_require b _) fun _ => ?_
  refine Sim.ite (fun _ => Sim.bind (Sim.throw _) fun _ => ?_) fun _ => ?_
  all_goals exact sim_modify b fun _ => rfl

theorem sim_rot (n : Nat) : Sim b (rot n) := sim_turnTop b 3 n _

theorem sim_swap (n : Nat) : Sim b (swap n) := sim_turnTop b 2 n _

theorem sim_nip : Sim b nip := Sim.map _ (sim_remove b 1)

theorem sim_pick (n : Int) : Sim b (pick n) := by
  unfold pick
  refine Sim.ite (fun _ => Sim.bind (Sim.throw _) fun _ => ?_) fun _ => ?_
  all_goals exact Sim.bind (sim_top b _) fun x => sim_push b x

theorem sim_roll (n : Int) : Sim b (roll n) := by
  unfold roll
  refine Sim.ite (fun _ => Sim.bind (Sim.throw _) fun _ => ?_) fun _ => ?_
  all_goals exact Sim.bind (sim_remove b _) fun x => sim_push b x

end Stack

/-! ## Squares on the machine -/

namespace Exec

/-- The square of a simulation for `x` over `y`: whenever `y` succeeds on a tight machine, `x`
succeeds on its relaxed view with the same answer, ending in the relaxed view of a tight
machine. -/
structure Sim {α : Type} (r : Relaxation) (x y : Exec α) : Prop where
  run : ∀ m, m.Tight r → ∀ a m₂, y m = .ok a m₂ → m₂.Tight r ∧ x (m.relax r) = .ok a (m₂.relax r)

section Rules

variable {r : Relaxation} {α β : Type}

theorem Sim.pure {a b : α} (h : a = b) : Sim r (pure a) (pure b) :=
  ⟨fun _ hm _ _ hy => by cases hy; subst h; exact ⟨hm, rfl⟩⟩

/-- Nothing is asked of the weaker run where the stronger one fails. -/
theorem Sim.throw {x : Exec α} (e : ScriptError) : Sim r x (throw e) :=
  ⟨fun _ _ _ _ hy => by cases hy⟩

theorem Sim.throw_bind {x : Exec β} {k : α → Exec β} (e : ScriptError) :
    Sim r x (MonadExcept.throw e >>= k) :=
  ⟨fun _ _ _ _ hy => by cases hy⟩

theorem Sim.bind {x y : Exec α} {f k : α → Exec β} (hx : Sim r x y) (hf : ∀ a, Sim r (f a) (k a)) :
    Sim r (x >>= f) (y >>= k) := by
  refine ⟨fun m hm b m₂ hy => ?_⟩
  obtain ⟨a, s, hys, hks⟩ := bind_eq_ok.mp hy
  obtain ⟨hs, hxs⟩ := hx.run m hm a s hys
  obtain ⟨hm₂, hfs⟩ := (hf a).run s hs b m₂ hks
  exact ⟨hm₂, bind_eq_ok.mpr ⟨a, s.relax r, hxs, hfs⟩⟩

/-- The rule for `let m ← get`: the weaker run reads the relaxed view of the machine the stronger
one reads. -/
theorem Sim.get_bind {f k : Machine → Exec α} (h : ∀ s, s.Tight r → Sim r (f (s.relax r)) (k s)) :
    Sim r (get >>= f) (get >>= k) :=
  ⟨fun m hm a m₂ hy => (h m hm).run m hm a m₂ hy⟩

theorem Sim.set {t t' : Machine} (ht : t = t'.relax r) (hT : t'.Tight r) :
    Sim r (set t) (set t') :=
  ⟨fun _ _ _ _ hy => by cases hy; subst ht; exact ⟨hT, rfl⟩⟩

theorem Sim.modify {f : Machine → Machine} (hf : ∀ m, f (m.relax r) = (f m).relax r)
    (hT : ∀ m, m.Tight r → (f m).Tight r) : Sim r (modify f) (modify f) :=
  ⟨fun m hm _ _ hy => by cases hy; exact ⟨hT m hm, by rw [← hf]; rfl⟩⟩

/-- Both runs take the same branch of a test that reads no flag. -/
theorem Sim.ite {c : Prop} {i₁ i₂ : Decidable c} {x x' y y' : Exec α} (hx : c → Sim r x x')
    (hy : ¬c → Sim r y y') : Sim r (@ite _ c i₁ x y) (@ite _ c i₂ x' y') := by
  by_cases hc : c
  · rw [@if_pos _ i₁ hc, @if_pos _ i₂ hc]
    exact hx hc
  · rw [@if_neg _ i₁ hc, @if_neg _ i₂ hc]
    exact hy hc

/-- Two tests, one in each run: each pair of branches the runs may take must be a square. -/
theorem Sim.ite_cases {c c' : Prop} [Decidable c] [Decidable c'] {x x' y y' : Exec α}
    (h₁ : c → c' → Sim r x x') (h₂ : ¬c → c' → Sim r y x') (h₃ : c → ¬c' → Sim r x y')
    (h₄ : ¬c → ¬c' → Sim r y y') : Sim r (if c then x else y) (if c' then x' else y') := by
  by_cases hc : c <;> by_cases hc' : c'
  · rw [if_pos hc, if_pos hc']
    exact h₁ hc hc'
  · rw [if_pos hc, if_neg hc']
    exact h₃ hc hc'
  · rw [if_neg hc, if_pos hc']
    exact h₂ hc hc'
  · rw [if_neg hc, if_neg hc']
    exact h₄ hc hc'

/-- A test that the weaker run passes only where the stronger one does: when only the stronger
run takes the first branch, the weaker run's second branch must stand for it. -/
theorem Sim.ite_imp {c c' : Prop} [Decidable c] [Decidable c'] {x x' y y' : Exec α}
    (himp : c → c') (hx : c → Sim r x x') (hyx : ¬c → c' → Sim r y x')
    (hy : ¬c' → Sim r y y') : Sim r (if c then x else y) (if c' then x' else y') :=
  Sim.ite_cases (fun hc _ => hx hc) hyx (fun hc hc' => absurd (himp hc) hc') fun _ hc' => hy hc'

/-- A refusal that the weaker flags make only where the stronger ones make it too. -/
theorem Sim.guard {c c' : Prop} [Decidable c] [Decidable c'] {x y y' : Exec α}
    {k : PUnit → Exec α} {e : ScriptError} (himp : c → c') (hy : Sim r y y') :
    Sim r (if c then x else y) (if c' then MonadExcept.throw e >>= k else y') :=
  Sim.ite_imp himp (fun _ => Sim.throw_bind e) (fun _ _ => Sim.throw_bind e) fun _ => hy

theorem Sim.lift (x : Except ScriptError α) : Sim r (Exec.lift x) (Exec.lift x) := by
  cases x
  · exact Sim.throw _
  · exact Sim.pure rfl

/-- A check that the stronger run passes and the weaker run passes with the same answer. -/
theorem Sim.lift_of {x y : Except ScriptError α} (h : ∀ a, y = .ok a → x = .ok a) :
    Sim r (Exec.lift x) (Exec.lift y) := by
  cases hy : y with
  | error e => exact Sim.throw _
  | ok a =>
    rw [h a hy]
    exact Sim.pure rfl

theorem onData_of_ok {op : StackM α} {m : Machine} {a : α} {s : Stack}
    (h : op { m.dstack with events := [] } = .ok a s) :
    Exec.onData op m =
      .ok a { m with dstack := { s with events := [] }, log := s.events.map .stack ++ m.log } := by
  simp only [Exec.onData, h]

theorem onAlt_of_ok {op : StackM α} {m : Machine} {a : α} {s : Stack} (h : op m.astack = .ok a s) :
    Exec.onAlt op m = .ok a { m with astack := { s with events := [] } } := by
  simp only [Exec.onAlt, h]

theorem Sim.onData {op : StackM α} (h : Stack.Sim r.flags.minimalData op) :
    Sim r (Exec.onData op) (Exec.onData op) := by
  refine ⟨fun m hm a m₂ hy => ?_⟩
  simp only [Exec.onData] at hy
  cases hs : op { m.dstack with events := [] } with
  | ok a' s =>
    rw [hs] at hy
    cases hy
    have hweak : op { (m.relax r).dstack with events := [] } =
        .ok a (s.relax r.flags.minimalData) := h.run _ _ _ hs
    exact ⟨hm, by rw [onData_of_ok hweak]; rfl⟩
  | error e s =>
    rw [hs] at hy
    cases hy

theorem Sim.onAlt {op : StackM α} (h : Stack.Sim r.flags.minimalData op) :
    Sim r (Exec.onAlt op) (Exec.onAlt op) := by
  refine ⟨fun m hm a m₂ hy => ?_⟩
  simp only [Exec.onAlt] at hy
  cases hs : op m.astack with
  | ok a' s =>
    rw [hs] at hy
    cases hy
    have hweak : op (m.relax r).astack = .ok a (s.relax r.flags.minimalData) := h.run _ _ _ hs
    exact ⟨hm, by rw [onAlt_of_ok hweak]; rfl⟩
  | error e s =>
    rw [hs] at hy
    cases hy

end Rules

end Exec

end BitcoinScript
