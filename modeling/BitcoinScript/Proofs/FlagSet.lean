import BitcoinScript.Proofs.Relax

/-!
# Flag sets as sets of bits

A flag set is read through `Flags.has`, which asks for every bit of a mask. Adding bits to a set
therefore keeps every flag it had, and the effective flags, which only add STRICTENC under
SIGHASH_FORKID, keep that order as long as SIGHASH_FORKID itself does not change. This is what
makes one set of flags tighten another (`Flags.Tightens.of_sub`).

The policy flags are the bits that only add refusals: `Flags.policyBits` always, and
`Flags.lockTimeBits`, which turn no-ops into checks, where the no-ops are not discouraged.
-/

set_option autoImplicit false

namespace BitcoinScript

namespace Flags

/-- Every bit of `g` is a bit of `h`. -/
def Sub (g h : Flags) : Prop := ∀ i, g.bits.testBit i = true → h.bits.testBit i = true

theorem has_iff {f : Flags} {mask : Nat} :
    f.has mask = true ↔ ∀ i, mask.testBit i = true → f.bits.testBit i = true := by
  unfold has
  rw [beq_iff_eq]
  constructor
  · intro h i hi
    have hbit := congrArg (Nat.testBit · i) h
    simp only [Nat.testBit_and, hi, Bool.and_true] at hbit
    exact hbit
  · intro h
    apply Nat.eq_of_testBit_eq
    intro i
    rw [Nat.testBit_and]
    cases hi : mask.testBit i
    · simp
    · simp [h i hi]

/-- A single bit is asked for by its index. -/
theorem has_two_pow (f : Flags) (k : Nat) : f.has (2 ^ k) = f.bits.testBit k := by
  cases hk : f.bits.testBit k
  · cases hh : f.has (2 ^ k)
    · rfl
    · have := has_iff.mp hh k (by simp)
      rw [hk] at this
      exact this.symm
  · exact has_iff.mpr fun i hi => by
      rw [Nat.testBit_two_pow] at hi
      rw [← of_decide_eq_true hi]
      exact hk

theorem p2sh_eq_testBit (f : Flags) : f.p2sh = f.bits.testBit 0 := has_two_pow f 0
theorem discourage_eq_testBit (f : Flags) : f.discourageUpgradableNops = f.bits.testBit 7 :=
  has_two_pow f 7
theorem cleanStack_eq_testBit (f : Flags) : f.cleanStack = f.bits.testBit 8 := has_two_pow f 8
theorem checkLockTime_eq_testBit (f : Flags) : f.checkLockTime = f.bits.testBit 9 := has_two_pow f 9
theorem checkSequence_eq_testBit (f : Flags) : f.checkSequence = f.bits.testBit 10 :=
  has_two_pow f 10
theorem forkId_eq_testBit (f : Flags) : f.forkId = f.bits.testBit 13 := has_two_pow f 13
theorem afterGenesis_eq_testBit (f : Flags) : f.afterGenesis = f.bits.testBit 15 := has_two_pow f 15

theorem has_of_sub {g h : Flags} (hs : g.Sub h) {mask : Nat} (hg : g.has mask = true) :
    h.has mask = true :=
  has_iff.mpr fun i hi => hs i (has_iff.mp hg i hi)

theorem requiresStrictDer_of_sub {g h : Flags} (hs : g.Sub h) (hg : g.requiresStrictDer = true) :
    h.requiresStrictDer = true := by
  unfold requiresStrictDer at *
  rw [bne_iff_ne] at *
  intro hzero
  apply hg
  apply Nat.eq_of_testBit_eq
  intro i
  have hbit := congrArg (Nat.testBit · i) hzero
  simp only [Nat.testBit_and, Nat.zero_testBit, Bool.and_eq_false_iff] at hbit ⊢
  rcases hbit with hh | hm
  · cases hgi : g.bits.testBit i
    · exact .inl rfl
    · rw [hs i hgi] at hh
      cases hh
  · exact .inr hm

theorem sub_union (f g : Flags) : f.Sub (f.union g) := fun i hi => by
  simp [union, Nat.testBit_or, hi]

theorem testBit_union (f g : Flags) (i : Nat) :
    (f.union g).bits.testBit i = (f.bits.testBit i || g.bits.testBit i) :=
  Nat.testBit_or _ _ _

/-- The effective flags add bit 1, STRICTENC, when bit 13, SIGHASH_FORKID, is set. -/
theorem testBit_effective (f : Flags) (i : Nat) :
    f.effective.bits.testBit i = (f.bits.testBit i || (i == 1 && f.bits.testBit 13)) := by
  unfold effective
  rw [forkId_eq_testBit]
  cases h13 : f.bits.testBit 13
  · simp
  · rw [if_pos rfl, testBit_union]
    show (f.bits.testBit i || Nat.testBit (2 ^ 1) i) = _
    rw [Nat.testBit_two_pow]
    by_cases hi : i = 1
    · simp [hi]
    · simp [hi, Ne.symm hi]

theorem effective_sub {g h : Flags} (hs : g.Sub h) (hfork : g.bits.testBit 13 = h.bits.testBit 13) :
    g.effective.Sub h.effective := fun i hi => by
  rw [testBit_effective] at hi ⊢
  rw [← hfork]
  rcases Bool.or_eq_true_iff.mp hi with hg | hg
  · simp [hs i hg]
  · simp [hg]

/-- The bits other than STRICTENC are those of the set itself. -/
theorem testBit_effective_of_ne (f : Flags) {i : Nat} (hi : i ≠ 1) :
    f.effective.bits.testBit i = f.bits.testBit i := by
  simp [testBit_effective, hi]

/-- Adding flags that leave a bit other than P2SH's clear leaves that bit as it was. -/
theorem testBit_effective_union_of_clear (f : Flags) {g : Flags} {i : Nat} (hi : i ≠ 1)
    (hg : g.bits.testBit i = false) :
    (f.union g).effective.bits.testBit i = f.effective.bits.testBit i := by
  rw [testBit_effective_of_ne _ hi, testBit_effective_of_ne _ hi, testBit_union, hg, Bool.or_false]

/-- Flags that hold every bit of `g`, agree on SIGHASH_FORKID, and turn a lock-time no-op into its
check only where `g` does not discourage the no-ops, tighten `g`. -/
theorem Tightens.of_sub {g h : Flags} (hs : g.Sub h) (hfork : g.forkId = h.forkId)
    (hlock : h.checkLockTime = true → g.checkLockTime = false → g.discourageUpgradableNops = false)
    (hseq : h.checkSequence = true → g.checkSequence = false → g.discourageUpgradableNops = false) :
    g.Tightens h where
  p2sh := has_of_sub hs
  strictEnc := has_of_sub hs
  lowS := has_of_sub hs
  strictDer := requiresStrictDer_of_sub hs
  nullDummy := has_of_sub hs
  sigPushOnly := has_of_sub hs
  minimalData := has_of_sub hs
  discourage := has_of_sub hs
  cleanStack := has_of_sub hs
  minimalIf := has_of_sub hs
  nullFail := has_of_sub hs
  lockTime := has_of_sub hs
  sequence := has_of_sub hs
  lockTimeNop := hlock
  sequenceNop := hseq
  forkId := hfork

/-- P2SH, STRICTENC, DERSIG, LOW_S, NULLDUMMY, SIGPUSHONLY, MINIMALDATA,
DISCOURAGE_UPGRADABLE_NOPS, CLEANSTACK, MINIMALIF and NULLFAIL. -/
def policyBits : List Nat := [1, 2, 4, 8, 16, 32, 64, 128, 256, 2048, 4096]

/-- CHECKLOCKTIMEVERIFY and CHECKSEQUENCEVERIFY. -/
def lockTimeBits : List Nat := [512, 1024]

/-- A policy flag leaves the lock-time checks, SIGHASH_FORKID and the genesis rule alone. -/
theorem testBit_of_mem_policyBits :
    ∀ f ∈ policyBits, f.testBit 9 = false ∧ f.testBit 10 = false ∧ f.testBit 13 = false ∧
      f.testBit 15 = false := by
  decide

/-- A lock-time flag leaves SIGHASH_FORKID and the genesis rule alone. -/
theorem testBit_of_mem_lockTimeBits :
    ∀ f ∈ lockTimeBits, f.testBit 13 = false ∧ f.testBit 15 = false := by
  decide

end Flags

end BitcoinScript
