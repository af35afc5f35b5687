import Mathlib
import BitcoinScript.Checker

/-!
# Lock-time and sequence checks of a spend

The two checks of a spend against its transaction, read as the rules of BIP65 and BIP112 for an
operand the interpreter can hand them: a non-negative number of at most five bytes, so below
`2 ^ 39`. An absolute lock time holds when it is of the transaction's kind (height or time), not
later than the transaction's, and the spending input is not final (`Spend.AbsoluteLockHolds`).
A relative lock time holds when the transaction's version is at least two, the input's sequence
does not disable relative lock times, and the masked operand is of the sequence's kind and not
later (`Spend.RelativeLockHolds`).

The version test takes the version as an argument of the rule. BIP112 reads the version as an
unsigned 32-bit number. The check here reads it as a signed one, so it refuses the versions from
`2 ^ 31` on that BIP112 accepts (`Spend.checkSequence_signed_version`).
-/

set_option autoImplicit false

namespace BitcoinScript

namespace Spend

/-- The bits of a sequence number that a relative lock time compares: the type flag (bit 22)
and the low sixteen bits. -/
def relativeMask : Nat := 0x400000 ||| 0xffff

/-- BIP65: the lock time is of the transaction's kind, not later than the transaction's, and
the spending input exists and is not final. -/
def AbsoluteLockHolds (c : Spend) (n : Int) : Prop :=
  ((n < lockTimeThreshold) ↔ ((c.tx.lockTime : Int) < lockTimeThreshold)) ∧
    n ≤ c.tx.lockTime ∧
    ∃ input, c.tx.inputs[c.index]? = some input ∧ input.sequence ≠ 0xffffffff

/-- BIP112 with the transaction's version read as `version`: it is at least two, the spending
input exists with the disable bit (31) of its sequence clear, and under the mask the operand is
of the sequence's kind (below the type flag or not) and not later. -/
def RelativeLockHolds (c : Spend) (version n : Int) : Prop :=
  2 ≤ version ∧
    ∃ input, c.tx.inputs[c.index]? = some input ∧ input.sequence &&& 0x80000000 = 0 ∧
      ((n.toNat &&& relativeMask < 0x400000) ↔ (input.sequence &&& relativeMask < 0x400000)) ∧
      n.toNat &&& relativeMask ≤ input.sequence &&& relativeMask

section Operand

variable {n : Int}

/-- A five-byte operand fits a signed 64-bit integer. -/
theorem toI64?_of_operand (hn : 0 ≤ n) (hb : n < 2 ^ 39) : Number.toI64? n = some n := by
  unfold Number.toI64?
  rw [if_pos (by omega)]

/-- The low 64 bits of a five-byte operand are the operand. -/
theorem low64_of_operand (hn : 0 ≤ n) (hb : n < 2 ^ 39) : low64 n = n.toNat := by
  have hpow : Int.pow 2 64 = 2 ^ 64 := rfl
  unfold low64
  rw [hpow, Int.emod_eq_of_lt hn (by omega)]

end Operand

theorem sequence?_eq (c : Spend) : c.sequence? = (c.tx.inputs[c.index]?).map (·.sequence) := rfl

/-- The absolute lock-time check is BIP65's rule on every five-byte operand. -/
theorem checkLockTime_iff {c : Spend} {n : Int} (hn : 0 ≤ n) (hb : n < 2 ^ 39) :
    c.checkLockTime n = true ↔ c.AbsoluteLockHolds n := by
  unfold checkLockTime AbsoluteLockHolds
  rw [toI64?_of_operand hn hb, sequence?_eq]
  dsimp only
  by_cases hkind : ((c.tx.lockTime : Int) < lockTimeThreshold) ≠ (n < lockTimeThreshold)
  · -- a height against a time
    rw [if_pos hkind]
    simp only [Bool.false_eq_true, false_iff, not_and]
    intro hsame
    exact absurd (propext hsame).symm hkind
  rw [if_neg hkind]
  have hsame : (n < lockTimeThreshold) ↔ ((c.tx.lockTime : Int) < lockTimeThreshold) :=
    Iff.of_eq (not_not.mp hkind).symm
  by_cases hlate : n > c.tx.lockTime
  · rw [if_pos hlate]
    simp only [Bool.false_eq_true, false_iff, not_and]
    intro _ hle
    omega
  rw [if_neg hlate]
  cases hin : c.tx.inputs[c.index]? with
  | none => simp
  | some input => simp [hsame, not_lt.mp hlate]

/-- The relative lock-time check is BIP112's rule on every five-byte operand, with the
transaction's version read as a signed 32-bit number. -/
theorem checkSequence_signed_version {c : Spend} {n : Int} (hn : 0 ≤ n) (hb : n < 2 ^ 39) :
    c.checkSequence n = true ↔ c.RelativeLockHolds c.tx.signedVersion n := by
  unfold checkSequence RelativeLockHolds
  rw [toI64?_of_operand hn hb, sequence?_eq]
  cases hin : c.tx.inputs[c.index]? with
  | none => simp
  | some input =>
    simp only [Option.map_some, relativeMask, low64_of_operand hn hb, Nat.reduceOr]
    by_cases hv : c.tx.signedVersion < 2
    · rw [if_pos hv]
      simp only [Bool.false_eq_true, false_iff, not_and]
      intro hle
      omega
    rw [if_neg hv]
    by_cases hdis : input.sequence &&& 0x80000000 ≠ 0
    · rw [if_pos hdis]
      simp [hdis]
    rw [if_neg hdis]
    simp only [ne_eq, Decidable.not_not] at hdis
    by_cases hkind : (input.sequence &&& 0x40ffff < 0x400000) ≠ (n.toNat &&& 0x40ffff < 0x400000)
    · rw [if_pos hkind]
      simp only [Bool.false_eq_true, false_iff, not_and, not_exists]
      intro _ i hi _ hsame
      cases hi
      exact absurd (propext hsame).symm hkind
    · rw [if_neg hkind]
      have hsame := Iff.of_eq (not_not.mp hkind).symm
      simp [hdis, hsame, not_lt.mp hv]

/-- Both checks of a spend follow the BIP rules on every non-negative operand of at most five
bytes: the absolute check is BIP65's, and the relative check is BIP112's with the transaction's
version read as a signed 32-bit number. -/
theorem lockTime_checks_follow_bips (c : Spend) :
    (∀ n : Int, 0 ≤ n → n < 2 ^ 39 → (c.checkLockTime n = true ↔ c.AbsoluteLockHolds n)) ∧
      (∀ n : Int, 0 ≤ n → n < 2 ^ 39 →
        (c.checkSequence n = true ↔ c.RelativeLockHolds c.tx.signedVersion n)) :=
  ⟨fun _ hn hb => checkLockTime_iff hn hb, fun _ hn hb => checkSequence_signed_version hn hb⟩

/-- The spend of the only input, of sequence 10, of a transaction of the given version with
lock time zero and no outputs. -/
def sequenceTen (version : Nat) : Spend :=
  ⟨⟨version, [{ prevout := ⟨List.replicate 32 1, 0⟩, scriptSig := [], sequence := 10 }], [], 0⟩,
    0, 0⟩

theorem lockTime_checks_follow_bips_versionTwo :
    (0 : Int) ≤ 10 ∧ (10 : Int) < 2 ^ 39 ∧
      ((sequenceTen 2).checkLockTime 10 = true ↔ (sequenceTen 2).AbsoluteLockHolds 10) ∧
      ((sequenceTen 2).checkSequence 10 = true ↔
        (sequenceTen 2).RelativeLockHolds (sequenceTen 2).tx.signedVersion 10) :=
  ⟨by decide, by decide, (lockTime_checks_follow_bips (sequenceTen 2)).1 10 (by decide) (by decide),
    (lockTime_checks_follow_bips (sequenceTen 2)).2 10 (by decide) (by decide)⟩

/-- BIP112 read with the unsigned version accepts the operand 10 against sequence 10 in a
transaction of version `0xffffffff`; the check refuses it, that version being `-1` signed. -/
theorem checkSequence_refuses_unsigned_version :
    ¬ ((sequenceTen 0xffffffff).checkSequence 10 = true ↔
      (sequenceTen 0xffffffff).RelativeLockHolds (sequenceTen 0xffffffff).tx.version 10) := by
  have hcheck : (sequenceTen 0xffffffff).checkSequence 10 = false := by decide
  have hrule : (sequenceTen 0xffffffff).RelativeLockHolds (sequenceTen 0xffffffff).tx.version 10 :=
    ⟨by decide, _, rfl, by decide, by decide, by decide⟩
  rw [hcheck]
  simp [hrule]

end Spend

end BitcoinScript
