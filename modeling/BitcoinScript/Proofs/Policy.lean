import BitcoinScript.Proofs.Relax

/-!
# Fewer flags refuse less

Every opcode, and a whole step, is a square of the simulation of `BitcoinScript.Proofs.Relax`:
whatever succeeds under some flags succeeds, with the same stacks and answers, under any flags
they tighten. The flags are read in few places, and each gets its lemma here:

* the signature encoding rules (`Signature.checkEncoding_of_tightens`), and the switch from the
  strict to the lax DER reader, where both readings get the same answer from a steady checker
  (`Machine.verifySignature_relax`);
* the NULLFAIL and NULLDUMMY refusals of `OP_CHECKSIG` and `OP_CHECKMULTISIG`;
* the MINIMALIF rule of `OP_IF`, whose two accepted operands read as the truth values they are;
* the lock-time opcodes, which the stronger flags may turn from no-ops into checks that leave
  the machine as they found it;
* the discouraged no-ops, the MINIMALDATA rule for pushes and the CLEANSTACK rule at the end.
-/

set_option autoImplicit false

namespace BitcoinScript

/-! ## Signature encoding -/

namespace Signature

theorem checkHashType_congr {g h : Flags} (hf : g.forkId = h.forkId) (hashType : Nat) :
    checkHashType hashType g = checkHashType hashType h := by
  unfold checkHashType
  rw [hf]

theorem usesForkId_congr {g h : Flags} (hf : g.forkId = h.forkId) (sig : Bytes) :
    usesForkId sig g = usesForkId sig h := by
  unfold usesForkId
  rw [hf]

/-- What the encoding rules accept: under STRICTENC a valid hash type, under any of the strict
DER flags a strict DER body, and under LOW_S a low S. -/
theorem checkEncoding_eq_ok (fullSig : Bytes) (f : Flags) :
    checkEncoding fullSig f = .ok () ↔
      ∀ hashType, fullSig.getLast? = some hashType →
        (f.strictEnc = true → checkHashType hashType.toNat f = .ok ()) ∧
        (f.requiresStrictDer = true → ∃ s, strictDer fullSig.dropLast = .ok s ∧
          ¬(f.lowS = true ∧ Bytes.beValue ((fullSig.dropLast.drop s.1).take s.2) > halfOrder)) := by
  unfold checkEncoding
  cases hlast : fullSig.getLast? with
  | none => simp [pure, Except.pure]
  | some hashType =>
    simp only [Option.some.injEq, forall_eq']
    -- the hash-type rule first, then the DER rule on the body
    cases hs : f.strictEnc <;> cases hd : f.requiresStrictDer <;>
      cases hh : checkHashType hashType.toNat f <;> cases hder : strictDer fullSig.dropLast <;>
      simp [bind, Except.bind, pure, Except.pure, throw, throwThe, MonadExceptOf.throw]

/-- Tighter flags refuse every encoding that looser ones refuse. -/
theorem checkEncoding_of_tightens {g h : Flags} (ht : g.Tightens h) {fullSig : Bytes}
    (hc : checkEncoding fullSig h = .ok ()) : checkEncoding fullSig g = .ok () := by
  rw [checkEncoding_eq_ok] at hc ⊢
  intro hashType hlast
  obtain ⟨hhash, hder⟩ := hc hashType hlast
  refine ⟨fun hs => ?_, fun hd => ?_⟩
  · rw [checkHashType_congr ht.forkId]
    exact hhash (ht.strictEnc hs)
  · obtain ⟨s, hs, hlow⟩ := hder (ht.strictDer hd)
    exact ⟨s, hs, fun ⟨hl, hgt⟩ => hlow ⟨ht.lowS hl, hgt⟩⟩

theorem checkPubKey_of_tightens {g h : Flags} (ht : g.Tightens h) {key : Bytes}
    (hc : checkPubKey key h = .ok ()) : checkPubKey key g = .ok () := by
  unfold checkPubKey at hc ⊢
  cases hg : g.strictEnc
  · simp
  · rw [ht.strictEnc hg] at hc
    simpa using hc

end Signature

/-! ## Signature checks -/

namespace Machine

variable {r : Relaxation} {m : Machine}

/-- A signature that a tight machine accepts or refuses, the relaxed machine accepts or refuses
alike. Where only the stronger flags ask for strict DER, the body is strict DER, so the lax
reader reads it as the strict one does, up to signatures that cannot verify. -/
theorem verifySignature_relax (hm : m.Tight r) {sig key code : Bytes} {v : Bool}
    (h : m.verifySignature sig key code = .ok v) : (m.relax r).verifySignature sig key code = .ok v := by
  obtain ⟨ht, hc, -⟩ := hm
  unfold verifySignature at h ⊢
  cases hlast : sig.getLast? with
  | none => simpa [hlast] using h
  | some hashType =>
    simp only [hlast] at h ⊢
    cases henc : Signature.checkEncoding sig m.flags with
    | error e => simp [henc, bind, Except.bind, throw, throwThe, MonadExceptOf.throw] at h
    | ok u =>
      have henc' : Signature.checkEncoding sig (m.relax r).flags = .ok () :=
        Signature.checkEncoding_of_tightens ht henc
      cases hkey : Signature.checkPubKey key m.flags with
      | error e => simp [henc, hkey, bind, Except.bind, throw, throwThe, MonadExceptOf.throw] at h
      | ok u' =>
        have hkey' : Signature.checkPubKey key (m.relax r).flags = .ok () :=
          Signature.checkPubKey_of_tightens ht hkey
        simp only [henc, hkey, henc', hkey', pure, Except.pure] at h ⊢
        cases hpk : Secp256k1.PublicKey.parse? key with
        | none => simpa [hpk] using h
        | some pk =>
          simp only [hpk] at h ⊢
          -- the checker answers alike under both flags
          have hflags : ∀ s, (m.relax r).checker.checkSig s pk code hashType.toNat (m.relax r).flags =
              m.checker.checkSig s pk code hashType.toNat m.flags := fun s =>
            hc.checkSig_flags s pk code hashType.toNat
          cases hweak : r.flags.requiresStrictDer with
          | true =>
            -- both runs read the strict way
            rw [if_pos (show (m.relax r).flags.requiresStrictDer = true from hweak)]
            rw [if_pos (ht.strictDer hweak)] at h
            cases hp : Secp256k1.Signature.parseDer? sig.dropLast with
            | none => simpa [hp] using h
            | some s =>
              simp only [hp] at h ⊢
              rw [hflags]
              exact h
          | false =>
            rw [if_neg (show ¬(m.relax r).flags.requiresStrictDer = true by simp [hweak])]
            cases hstrong : m.flags.requiresStrictDer with
            | false =>
              rw [hstrong, if_neg (by decide)] at h
              cases hp : Secp256k1.Signature.parseDerLax? sig.dropLast with
              | none => simpa [hp] using h
              | some s =>
                simp only [hp] at h ⊢
                rw [hflags]
                exact h
            | true =>
              -- the stronger run read a strict DER body: the lax reading gets the same answer
              rw [hstrong, if_pos rfl] at h
              obtain ⟨s, hder, -⟩ :=
                ((Signature.checkEncoding_eq_ok sig m.flags).mp henc hashType hlast).2 hstrong
              obtain ⟨s₁, s₂, h₁, h₂, hagree⟩ := Signature.der_readings_agree hder
              simp only [h₁] at h
              simp only [h₂]
              rw [hflags]
              rcases hagree with rfl | ⟨hd₁, hd₂⟩
              · exact h
              · rw [← hc.checkSig_degenerate s₁ s₂ pk code hashType.toNat hd₁ hd₂]
                exact h

/-- Signatures matched to keys by a tight machine are matched alike by the relaxed one. -/
theorem matchSignatures_relax (hm : m.Tight r) {code : Bytes} :
    ∀ (sigs keys : List Bytes) {v : Bool}, Exec.matchSignatures m code sigs keys = .ok v →
      Exec.matchSignatures (m.relax r) code sigs keys = .ok v
  | [], _, _, h => by
    simp only [Exec.matchSignatures] at h ⊢
    exact h
  | _ :: _, [], _, h => by
    simp only [Exec.matchSignatures] at h ⊢
    exact h
  | sig :: sigs, key :: keys, v, h => by
    unfold Exec.matchSignatures at h ⊢
    cases hver : m.verifySignature sig key code with
    | error e => simp [hver, bind, Except.bind] at h
    | ok ok =>
      rw [verifySignature_relax hm hver]
      simp only [hver, bind, Except.bind] at h ⊢
      -- the same signatures are left on both sides
      generalize (if ok = true then sigs else sig :: sigs) = left at h ⊢
      split at h
      · rw [if_pos ‹_›]
        exact h
      · rw [if_neg ‹_›]
        exact matchSignatures_relax hm left keys h

end Machine

namespace Exec

variable {r : Relaxation}

/-- `OP_CHECKSIG` pops the same operands and gives the same answer; NULLFAIL refuses no more under
the weaker flags. -/
theorem sim_checkSig : Sim r checkSig checkSig := by
  unfold checkSig
  refine Sim.bind (Sim.onData (Stack.sim_pop _)) fun key => ?_
  refine Sim.bind (Sim.onData (Stack.sim_pop _)) fun sig => ?_
  refine Sim.get_bind fun s hs => ?_
  -- the script code depends on the fork-id flag only, on which the two runs agree
  have hcode : Signature.usesForkId sig (s.relax r).flags = Signature.usesForkId sig s.flags :=
    Signature.usesForkId_congr hs.1.forkId sig
  simp only [hcode, Machine.relax_subScript]
  refine Sim.bind (Sim.lift _) fun codeBytes => ?_
  refine Sim.bind (Sim.lift_of fun v hv => Machine.verifySignature_relax hs hv) fun ok => ?_
  refine Sim.guard (fun hc => ?_) (Sim.pure rfl)
  simp only [Machine.relax_flags, Bool.and_eq_true] at hc ⊢
  exact ⟨⟨hc.1.1, hs.1.nullFail hc.1.2⟩, hc.2⟩

theorem sim_popItems (n : Nat) : Sim r (popItems n) (popItems n) := by
  induction n with
  | zero => exact Sim.pure rfl
  | succ n ih =>
    exact Sim.bind (Sim.onData (Stack.sim_pop _)) fun _ =>
      Sim.bind ih fun _ => Sim.pure rfl

/-- `OP_CHECKMULTISIG` pops the same operands and matches them alike; NULLDUMMY and NULLFAIL
refuse no more under the weaker flags. -/
theorem sim_checkMultiSig : Sim r checkMultiSig checkMultiSig := by
  unfold checkMultiSig
  refine Sim.bind (Sim.onData (Stack.sim_popNum _)) fun keysCount => ?_
  refine Sim.get_bind fun s hs => ?_
  simp only [Machine.relax_limits, Machine.relax_numOps]
  split
  · refine Sim.bind (Sim.set rfl hs) fun _ => ?_
    refine Sim.ite (fun _ => Sim.throw_bind _) fun _ => ?_
    refine Sim.bind (sim_popItems _) fun keys => ?_
    refine Sim.bind (Sim.onData (Stack.sim_popNum _)) fun sigsCount => ?_
    split
    · refine Sim.bind (sim_popItems _) fun sigs => ?_
      refine Sim.bind (Sim.onData (Stack.sim_pop _)) fun dummy => ?_
      refine Sim.get_bind fun s' hs' => ?_
      -- the legacy signatures are those without the fork-id bit, read alike by both runs
      simp only [Machine.relax_flags, Machine.relax_subScript,
        Signature.usesForkId_congr hs'.1.forkId]
      refine Sim.guard (fun hc => ?_) ?_
      · simp only [Bool.and_eq_true] at hc ⊢
        exact ⟨hs'.1.nullDummy hc.1, hc.2⟩
      refine Sim.bind (Sim.lift _) fun codeBytes => ?_
      refine Sim.bind (Sim.lift_of fun v hv => Machine.matchSignatures_relax hs' sigs keys hv)
        fun ok => ?_
      refine Sim.guard (fun hc => ?_) (Sim.pure rfl)
      simp only [Bool.and_eq_true] at hc ⊢
      exact ⟨⟨hc.1.1, hs'.1.nullFail hc.1.2⟩, hc.2⟩
    · exact Sim.throw _
  · exact Sim.throw _

/-- Popping a truth value is popping an item and reading it as one. -/
theorem onData_popBool : onData Stack.popBool = castToBool <$> onData Stack.pop := by
  funext m
  simp only [onData, Stack.popBool, Functor.map, EStateM.map, bind, EStateM.bind, pure,
    EStateM.pure]
  cases h : Stack.pop { m.dstack with events := [] } <;> rfl

/-- Under MINIMALIF the operand of `OP_IF` must be empty or `01`, which read as false and true:
where the rule holds, popping the operand as a truth value gives the same answer. -/
theorem sim_popBool_minimalIf :
    Sim r (onData Stack.popBool)
      (do match ← pop with
        | [] => pure false
        | [1] => pure true
        | _ => MonadExcept.throw ScriptError.minimalIf) := by
  refine ⟨fun m hm a m₂ hy => ?_⟩
  obtain ⟨x, m₁, hpop, hmatch⟩ := bind_eq_ok.mp hy
  obtain ⟨hm₁, hweak⟩ := (Sim.onData (Stack.sim_pop _)).run m hm x m₁ hpop
  -- the operand is `[]` or `[1]`, and the answer its truth value
  have hx : castToBool x = a ∧ m₂ = m₁ := by
    split at hmatch
    · cases hmatch
      exact ⟨rfl, rfl⟩
    · cases hmatch
      exact ⟨rfl, rfl⟩
    · cases hmatch
  obtain ⟨rfl, rfl⟩ := hx
  refine ⟨hm₁, ?_⟩
  rw [onData_popBool]
  show EStateM.map castToBool (onData Stack.pop) (m.relax r) = _
  simp only [EStateM.map]
  rw [hweak]

/-- `OP_IF`'s operand: MINIMALIF, where only the stronger flags ask for it, accepts only
operands that read as the truth values the weaker run reads. -/
theorem sim_popCondition : Sim r popCondition popCondition := by
  unfold popCondition
  refine Sim.get_bind fun s hs => ?_
  refine Sim.ite_cases (fun _ _ => Sim.onData (Stack.sim_popBool _)) (fun hc hc' => ?_)
    (fun _ _ => sim_popBool_minimalIf) (fun _ _ => ?_)
  · -- the weaker flags ask for MINIMALIF only if the stronger ones do
    simp only [Machine.relax_flags, Bool.not_eq_true'] at hc hc'
    exact absurd (hs.1.minimalIf (by simpa using hc)) (by simpa using hc')
  · refine Sim.bind (Sim.onData (Stack.sim_pop _)) fun x => ?_
    split
    · exact Sim.pure rfl
    · exact Sim.pure rfl
    · exact Sim.throw _

/-- Peeking at a number leaves the stack as it was, whether it reads one or fails. -/
theorem Stack.peekNum_keeps (i maxSize : Nat) (st : Stack) :
    (∃ n, Stack.peekNum i maxSize st = .ok n st) ∨
      ∃ e, Stack.peekNum i maxSize st = .error e st := by
  simp only [Stack.peekNum, bind, EStateM.bind, Stack.top, Stack.decodeNumber]
  cases st.items[i]? with
  | none => exact .inr ⟨_, rfl⟩
  | some x =>
    simp only
    cases Number.decode? x st.minimal maxSize with
    | ok n => exact .inl ⟨n, rfl⟩
    | error e => exact .inr ⟨_, rfl⟩

/-- Peeking at a number does not move the relaxed view of the machine. -/
theorem preserves_relax_peekNum (c : Machine) (i maxSize : Nat) :
    Preserves (fun m => m.relax r = c) (onData (Stack.peekNum i maxSize)) := by
  refine ⟨fun m hm => ?_⟩
  simp only [onData]
  rcases Stack.peekNum_keeps i maxSize { m.dstack with events := [] } with ⟨n, h⟩ | ⟨e, h⟩
  · rw [h, ← hm]
    rfl
  · rw [h, ← hm]
    rfl

theorem lockTimeIsNop_run (op : Instruction) (enabled : Bool) (m : Machine) :
    lockTimeIsNop op enabled m =
      if (enabled && !m.afterGenesis) = true then .ok false m
      else if m.flags.discourageUpgradableNops = true then
        .error (.discourageUpgradableNops op.name) m
      else .ok true m := by
  simp only [lockTimeIsNop, bind, EStateM.bind, get, getThe, MonadStateOf.get, EStateM.get,
    run_ite, pure, EStateM.pure, throw, throwThe, MonadExceptOf.throw, EStateM.throw]


/-- A lock-time opcode: where only the stronger flags enable it, the check that runs there leaves
the machine as the no-op of the weaker run does, which the weaker flags do not discourage. -/
theorem sim_lockTimeOp (op : Instruction) (enabled : Flags → Bool) (rest : Machine → Exec Unit)
    (henabled : ∀ {g h : Flags}, g.Tightens h → enabled g = true → enabled h = true)
    (hnop : ∀ {g h : Flags}, g.Tightens h → enabled h = true → enabled g = false →
      g.discourageUpgradableNops = false)
    (hrest : ∀ s, s.Tight r → Sim r (rest (s.relax r)) (rest s))
    (hkeep : ∀ s c, Preserves (fun m => m.relax r = c) (rest s)) :
    Sim r (get >>= fun m => lockTimeIsNop op (enabled m.flags) >>= fun nop =>
        if nop = true then pure PUnit.unit else rest m)
      (get >>= fun m => lockTimeIsNop op (enabled m.flags) >>= fun nop =>
        if nop = true then pure PUnit.unit else rest m) := by
  refine Sim.get_bind fun s hs => ?_
  refine ⟨fun m hm a m₂ hy => ?_⟩
  obtain ⟨nop, m₁, hnopRun, hk⟩ := bind_eq_ok.mp hy
  rw [Machine.relax_flags]
  rw [lockTimeIsNop_run] at hnopRun
  split at hnopRun
  · -- the stronger run checks the lock time, which leaves the machine as it was
    rename_i hon
    cases hnopRun
    simp only [Bool.false_eq_true, if_false] at hk
    obtain ⟨hm₂, hweak⟩ := (hrest s hs).run m hm a m₂ hk
    refine ⟨hm₂, bind_eq_ok.mpr ?_⟩
    cases hw : (enabled r.flags && !(m.relax r).afterGenesis)
    · -- only the stronger flags enable it: the weaker run's no-op, which they do not discourage
      have hoff : enabled r.flags = false := by
        simp only [Machine.relax_afterGenesis, Bool.and_eq_false_iff] at hw
        simp only [Bool.and_eq_true] at hon
        rcases hw with h | h
        · exact h
        · simp [hon.2] at h
      have hdisc := hnop hs.1 (Bool.and_eq_true _ _ ▸ hon).1 hoff
      have hsame : m₂.relax r = m.relax r := (hkeep s (m.relax r)).of_ok rfl hk
      refine ⟨true, m.relax r, ?_, ?_⟩
      · rw [lockTimeIsNop_run, hw, if_neg (by decide), if_neg (by simpa using hdisc)]
      · rw [hsame]
        rfl
    · refine ⟨false, m.relax r, ?_, ?_⟩
      · rw [lockTimeIsNop_run, if_pos hw]
      · simpa using hweak
  · split at hnopRun
    · cases hnopRun
    · -- both runs pass the opcode as a no-op
      rename_i hoff hdisc
      cases hnopRun
      simp only [if_true] at hk
      cases hk
      refine ⟨hm, bind_eq_ok.mpr ⟨true, m.relax r, ?_, rfl⟩⟩
      rw [lockTimeIsNop_run, if_neg, if_neg]
      · simpa using fun h => hdisc (hm.1.discourage h)
      · intro hw
        simp only [Machine.relax_afterGenesis, Bool.and_eq_true] at hw
        exact hoff (by simp [henabled hs.1 hw.1, hw.2])

theorem sim_openBranch (op : Instruction) (negate : Bool) :
    Sim r (openBranch op negate) (openBranch op negate) := by
  refine Sim.get_bind fun s hs => ?_
  simp only [Machine.relax_shouldExec, Machine.relax_isBranchExecuting]
  -- the block is pushed in whichever branch the test takes
  refine Sim.ite (fun _ => Sim.ite (fun _ => ?_) fun _ => ?_) fun _ => ?_
  · exact Sim.bind sim_popCondition fun _ =>
      Sim.bind (Sim.pure rfl) fun _ => Sim.modify (fun _ => rfl) fun _ h => h
  all_goals exact Sim.bind (Sim.pure rfl) fun _ => Sim.modify (fun _ => rfl) fun _ h => h

theorem sim_flipBranch : Sim r flipBranch flipBranch := by
  refine Sim.get_bind fun s hs => ?_
  simp only [Machine.relax_branches, Machine.relax_elseSeen, Machine.relax_afterGenesis]
  split
  · exact Sim.ite (fun _ => Sim.throw_bind _) fun _ => Sim.set rfl hs
  · exact Sim.throw _

theorem sim_closeBranch : Sim r closeBranch closeBranch := by
  refine Sim.get_bind fun s hs => ?_
  simp only [Machine.relax_branches]
  split
  · exact Sim.set rfl hs
  · exact Sim.throw _

/-- Every opcode is a square. Past the flags read by the cases written out here, an opcode reads
the stacks, the position and the limits, which the relaxed view keeps, so its square is a walk
over its block. -/
theorem sim_perform (op : Instruction) : Sim r (perform op) (perform op) := by
  unfold perform binary compare bitwise shift hashTop popIndex pop push popNum pushNum pushBool
  cases hop : op.opcode.operation
  all_goals dsimp only
  case nop =>
    refine Sim.get_bind fun s hs => ?_
    refine Sim.ite_imp (fun h => ?_) (fun _ => Sim.throw _) (fun _ _ => Sim.throw _)
      fun _ => Sim.pure rfl
    simp only [Machine.relax_flags, Bool.and_eq_true] at h ⊢
    exact ⟨h.1, hs.1.discourage h.2⟩
  case ifBranch negate => exact sim_openBranch op negate
  case elseBranch => exact sim_flipBranch
  case endBranch => exact sim_closeBranch
  case checkSig verifyOnly =>
    exact Sim.bind sim_checkSig fun _ => Sim.ite (fun _ => Sim.onData (Stack.sim_pushBool _ _))
      fun _ => Sim.ite (fun _ => Sim.throw _) fun _ => Sim.pure rfl
  case checkMultiSig verifyOnly =>
    exact Sim.bind sim_checkMultiSig fun _ => Sim.ite (fun _ => Sim.onData (Stack.sim_pushBool _ _))
      fun _ => Sim.ite (fun _ => Sim.throw _) fun _ => Sim.pure rfl
  case checkLockTime =>
    refine sim_lockTimeOp op Flags.checkLockTime _ (fun ht => ht.lockTime) (fun ht => ht.lockTimeNop)
      (fun s hs => ?_) fun s c => ?_
    · simp only [Machine.relax_checker]
      exact Sim.bind (Sim.onData (Stack.sim_peekNum _ 0 5)) fun _ =>
        Sim.ite (fun _ => Sim.throw_bind _) fun _ => Sim.ite (fun _ => Sim.throw _) fun _ => Sim.pure rfl
    · exact preserves_bind (preserves_relax_peekNum c 0 5) fun _ =>
        preserves_ite (preserves_bind (preserves_throw _) fun _ => preserves_ite (preserves_throw _)
          (preserves_pure _)) (preserves_ite (preserves_throw _) (preserves_pure _))
  case checkSequence =>
    refine sim_lockTimeOp op Flags.checkSequence _ (fun ht => ht.sequence) (fun ht => ht.sequenceNop)
      (fun s hs => ?_) fun s c => ?_
    · simp only [Machine.relax_checker]
      have hchk : ∀ n : Int, Sim r
          (if n.toNat.testBit 31 = true then pure ()
            else if (!s.checker.checkSequence n) = true then throw .unsatisfiedLockTime else pure ())
          (if n.toNat.testBit 31 = true then pure ()
            else if (!s.checker.checkSequence n) = true then throw .unsatisfiedLockTime
            else pure ()) := fun _ =>
        Sim.ite (fun _ => Sim.pure rfl) fun _ => Sim.ite (fun _ => Sim.throw _) fun _ => Sim.pure rfl
      exact Sim.bind (Sim.onData (Stack.sim_peekNum _ 0 5)) fun n =>
        Sim.ite (fun _ => Sim.throw_bind _) fun _ => hchk n
    · have hchk : ∀ n : Int, Preserves (fun m => m.relax r = c)
          (if n.toNat.testBit 31 = true then pure ()
            else if (!s.checker.checkSequence n) = true then throw .unsatisfiedLockTime
            else pure ()) := fun _ =>
        preserves_ite (preserves_pure _) (preserves_ite (preserves_throw _) (preserves_pure _))
      exact preserves_bind (preserves_relax_peekNum c 0 5) fun n =>
        preserves_ite (preserves_bind (preserves_throw _) fun _ => hchk n) (hchk n)
  -- every other opcode reads no flag
  all_goals repeat' first
    | apply Sim.onData
    | apply Sim.onAlt
    | apply Sim.lift
    | apply Stack.sim_pop | apply Stack.sim_push | apply Stack.sim_popNum | apply Stack.sim_pushNum
    | apply Stack.sim_pushBool | apply Stack.sim_popBool | apply Stack.sim_dup | apply Stack.sim_over
    | apply Stack.sim_rot | apply Stack.sim_swap | apply Stack.sim_last | apply Stack.sim_nip
    | apply Stack.sim_tuck | apply Stack.sim_pick | apply Stack.sim_roll | apply Stack.sim_drop
    | with_reducible apply Sim.pure
    | with_reducible apply Sim.throw
    | with_reducible apply Sim.throw_bind
    | (with_reducible refine Sim.get_bind fun _ _ => ?_
       try simp only [Machine.relax_dstack, Machine.relax_astack, Stack.relax_items,
        Machine.relax_branches, Machine.relax_limits, Machine.relax_afterGenesis,
        Machine.relax_shouldExec])
    | with_reducible refine Sim.bind ?_ fun _ => ?_
    | refine Sim.ite (fun _ => ?_) fun _ => ?_
    | (apply Sim.set; rfl; assumption)
    | exact Sim.modify (fun _ => rfl) fun _ h => h
    | split
    | rfl

/-- The last gate before an opcode, the one that reads a flag: under MINIMALDATA a data push on
a running branch must be minimal. -/
theorem sim_minimalDataGate (op : Instruction) (exec : Bool) :
    Sim r
      (do
        let m ← get
        if !m.isBranchExecuting && !op.opcode.isConditional then return
        if m.flags.minimalData && m.isBranchExecuting && exec && op.opcode.isDataPush &&
            !op.isMinimalPush then
          throw (.minimalData op.name)
        if !exec && !op.opcode.isConditional then return
        perform op)
      (do
        let m ← get
        if !m.isBranchExecuting && !op.opcode.isConditional then return
        if m.flags.minimalData && m.isBranchExecuting && exec && op.opcode.isDataPush &&
            !op.isMinimalPush then
          throw (.minimalData op.name)
        if !exec && !op.opcode.isConditional then return
        perform op) := by
  refine Sim.get_bind fun s hs => ?_
  simp only [Machine.relax_isBranchExecuting, Machine.relax_flags]
  refine Sim.ite (fun _ => Sim.pure rfl) fun _ => ?_
  refine Sim.guard (fun hc => ?_) (Sim.ite (fun _ => Sim.pure rfl) fun _ => sim_perform op)
  simp only [Bool.and_eq_true] at hc ⊢
  exact ⟨⟨⟨⟨hs.1.minimalData hc.1.1.1.1, hc.1.1.1.2⟩, hc.1.1.2⟩, hc.1.2⟩, hc.2⟩

/-- The gates in front of an opcode: all but the last read the opcode, the branch and the
limits only. -/
theorem sim_executeInstruction (op : Instruction) :
    Sim r (executeInstruction op) (executeInstruction op) := by
  unfold executeInstruction
  refine Sim.get_bind fun s hs => ?_
  simp only [Machine.relax_shouldExec, Machine.relax_afterGenesis, Machine.relax_limits]
  repeat' first
    | exact sim_minimalDataGate op _
    | with_reducible apply Sim.throw_bind
    | (with_reducible refine Sim.get_bind fun _ _ => ?_
       simp only [Machine.relax_numOps, Machine.relax_limits])
    | with_reducible refine Sim.bind ?_ fun _ => ?_
    | refine Sim.ite (fun _ => ?_) fun _ => ?_
    | (apply Sim.set; rfl; assumption)

/-- The check of a script's result: CLEANSTACK, its one flag, refuses no less under the stronger
flags. -/
theorem sim_checkCondition (final : Bool) : Sim r (checkCondition final) (checkCondition final) := by
  refine Sim.get_bind fun s hs => ?_
  simp only [Machine.relax_isDone, Machine.relax_dstack, Machine.relax_flags, Stack.depth,
    Stack.relax_items]
  refine Sim.ite (fun _ => Sim.throw_bind _) fun _ => ?_
  refine Sim.ite (fun _ => Sim.throw_bind _) fun _ => ?_
  refine Sim.guard (fun hc => ?_) ?_
  · simp only [Bool.and_eq_true] at hc ⊢
    exact ⟨⟨hc.1.1, hs.1.cleanStack hc.1.2⟩, hc.2⟩
  · exact Sim.bind (Sim.onData (Stack.sim_popBool _)) fun _ =>
      Sim.ite (fun _ => Sim.throw _) fun _ => Sim.pure rfl

end Exec

end BitcoinScript
