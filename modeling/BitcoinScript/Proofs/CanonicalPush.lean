import BitcoinScript.Proofs.MinimalPush
import BitcoinScript.Proofs.Bounds
import BitcoinScript.Proofs.ReturnData

/-!
# Canonical pushes and signature removal

Two rules judge how a datum was pushed. MINIMALDATA asks for a minimal push
(`Instruction.isMinimalPush`); removing a signature from the script code of a legacy signature
strips only the canonical pushes of it (`Instruction.isCanonicalPush`), those a standard writer
emits. On a data push whose data fits its opcode, both rules ask for the shortest data push of
the data's length (`Script.shortestPushCode`), and both refuse some single bytes that have a
push of their own: MINIMALDATA the numbers `01` to `10` and `81`, which `OP_1` to `OP_16` and
`OP_1NEGATE` push, the canonical rule the bytes `00` to `10`. So the rules disagree on exactly two
pushes: the one-byte push of `00`, minimal but not canonical, and the one-byte push of `81`,
canonical but not minimal (`isCanonicalPush_ne_isMinimalPush_iff`).

An instruction with data that fits its opcode is a data push or a terminating `OP_RETURN`, which
is never canonical. So, when every instruction carrying a non-empty signature fits its opcode, as in
every script read from bytes, removing the signature strips exactly its minimal pushes, keeping the
one-byte push of `00` and stripping the one-byte push of `81` (`Script.removeData_eq_filter`); and
the script code of a legacy signature is the script without code separators filtered once by all
the signatures (`Script.legacySubscript_eq_filter`).
-/

set_option autoImplicit false

namespace BitcoinScript

/-- A single byte from `00` to `10`, which the canonical rule never sees pushed by data. -/
def SmallByte (d : Bytes) : Prop := ∃ b : UInt8, b.toNat ≤ 16 ∧ d = [b]

namespace Instruction

/-- A push of `sig` that removing the signature strips: a minimal data push of it, except the
one-byte push of `00`, and the one-byte push of `81` as well. -/
def isStrippedPushOf (sig : Bytes) (i : Instruction) : Bool :=
  i.opcode.isDataPush && i.data == sig &&
    (i.isMinimalPush && i != ofByte 1 [0x00] || i == ofByte 1 [0x81])

end Instruction

/-- The two exempt sets of single bytes differ in `00` and `81` alone, byte by byte. -/
theorem byte_exemptions_differ : ∀ b : UInt8,
    (b.toNat ≤ 16 ∧ ¬ (b = 0x81 ∨ 1 ≤ b.toNat ∧ b.toNat ≤ 16) ↔ b = 0x00) ∧
      ((b = 0x81 ∨ 1 ≤ b.toNat ∧ b.toNat ≤ 16) ∧ ¬ b.toNat ≤ 16 ↔ b = 0x81) := by
  decide +kernel

theorem smallByte_cons {b : UInt8} {rest : Bytes} : SmallByte (b :: rest) ↔ b.toNat ≤ 16 ∧ rest = [] := by
  constructor
  · rintro ⟨c, hc, h⟩
    obtain ⟨rfl, rfl⟩ := List.cons.inj h
    exact ⟨hc, rfl⟩
  · rintro ⟨hb, rfl⟩
    exact ⟨b, hb, rfl⟩

theorem smallItem_cons {b : UInt8} {rest : Bytes} :
    SmallItem (b :: rest) ↔ (b = 0x81 ∨ 1 ≤ b.toNat ∧ b.toNat ≤ 16) ∧ rest = [] := by
  constructor
  · rintro (h | ⟨c, hlo, hhi, h⟩)
    · obtain ⟨rfl, rfl⟩ := List.cons.inj h
      exact ⟨.inl rfl, rfl⟩
    · obtain ⟨rfl, rfl⟩ := List.cons.inj h
      exact ⟨.inr ⟨hlo, hhi⟩, rfl⟩
  · rintro ⟨hb | ⟨hlo, hhi⟩, rfl⟩
    · exact .inl (by rw [hb])
    · exact .inr ⟨b, hlo, hhi, rfl⟩

/-- The canonical rule alone exempts `00`. -/
theorem smallByte_not_smallItem_iff {d : Bytes} : SmallByte d ∧ ¬ SmallItem d ↔ d = [0x00] := by
  rcases d with _ | ⟨b, rest⟩
  · simp [SmallByte]
  · rw [smallByte_cons, smallItem_cons, List.cons.injEq]
    have hb := (byte_exemptions_differ b).1
    tauto

/-- MINIMALDATA alone exempts `81`. -/
theorem smallItem_not_smallByte_iff {d : Bytes} : SmallItem d ∧ ¬ SmallByte d ↔ d = [0x81] := by
  rcases d with _ | ⟨b, rest⟩
  · simp [SmallItem]
  · rw [smallByte_cons, smallItem_cons, List.cons.injEq]
    have hb := (byte_exemptions_differ b).2
    tauto

namespace Instruction

variable {i : Instruction}

/-- A fitting data push is canonical exactly when it is the shortest data push of its data and
the data is no single byte up to `10`. -/
theorem isCanonicalPush_iff_shortest (hb : i.value ≤ 0x4e) (hf : i.fitsLength = true) :
    i.isCanonicalPush = true ↔
      i.value.toNat = Script.shortestPushCode i.data.length ∧ ¬ SmallByte i.data := by
  have hfit := (fitsLength_iff_of_push hb).mp hf
  unfold Script.PushFits at hfit
  have hc := Script.shortestPushCode_cases i.data.length
  unfold isCanonicalPush
  rcases hd : i.data with _ | ⟨b, _ | ⟨c, rest⟩⟩ <;> rw [hd] at hfit hc
  · -- only `OP_0` and the prefixed pushes carry nothing, and only `OP_0` is canonical
    have hsmall : ¬ SmallByte [] := by simp [SmallByte]
    simp only [hsmall, List.length_nil, not_false_eq_true, and_true, Bool.false_eq_true, and_false,
      if_false] at hfit hc ⊢
    split_ifs <;> simp <;> omega
  · -- one byte: the direct push of one byte, unless the byte is small
    simp only [smallByte_cons, List.length_singleton, and_true, decide_eq_true_eq] at hfit hc ⊢
    split_ifs <;> simp <;> omega
  · -- longer data: the direct push of its length or the narrowest prefix
    have hsmall : ¬ SmallByte (b :: c :: rest) := by simp [smallByte_cons]
    simp only [hsmall, List.length_cons, not_false_eq_true, and_true, Bool.false_eq_true, and_false,
      if_false] at hfit hc ⊢
    split_ifs <;> simp <;> omega

/-- A fitting data push is minimal exactly when it is the shortest data push of its data and the
data is no number with a push of its own. -/
theorem isMinimalPush_iff_shortest_of_push (hb : i.value ≤ 0x4e) (hf : i.fitsLength = true) :
    i.isMinimalPush = true ↔
      i.value.toNat = Script.shortestPushCode i.data.length ∧ ¬ SmallItem i.data := by
  by_cases hs : SmallItem i.data
  · simp [isMinimalPush_of_small hb hs, hs]
  · simp [isMinimalPush_iff_shortest hb hf hs, hs]

/-- On fitting data pushes the canonical and the minimal rule disagree on exactly two pushes: the
one-byte push of `00`, minimal but not canonical, and the one-byte push of `81`, canonical but
not minimal. -/
theorem isCanonicalPush_ne_isMinimalPush_iff (hb : i.value ≤ 0x4e) (hf : i.fitsLength = true) :
    i.isCanonicalPush ≠ i.isMinimalPush ↔ i = ofByte 1 [0x00] ∨ i = ofByte 1 [0x81] := by
  constructor
  · intro hne
    have hdiff : ¬ (i.isCanonicalPush = true ↔ i.isMinimalPush = true) :=
      fun h => hne (Bool.eq_iff_iff.mpr h)
    rw [isCanonicalPush_iff_shortest hb hf, isMinimalPush_iff_shortest_of_push hb hf] at hdiff
    -- both ask for the shortest push, so the exemptions tell them apart
    have hshort : i.value.toNat = Script.shortestPushCode i.data.length := by tauto
    have hdata : i.data = [0x00] ∨ i.data = [0x81] := by
      by_cases hbyte : SmallByte i.data <;> by_cases hsmall : SmallItem i.data
      · tauto
      · exact .inl (smallByte_not_smallItem_iff.mp ⟨hbyte, hsmall⟩)
      · exact .inr (smallItem_not_smallByte_iff.mp ⟨hsmall, hbyte⟩)
      · tauto
    -- the shortest push of one byte is the direct push of one byte
    have hv : i.value = 1 := by
      have hlen : i.data.length = 1 := by rcases hdata with h | h <;> rw [h] <;> rfl
      rw [hlen] at hshort
      exact UInt8.toNat_inj.mp hshort
    rcases hdata with h | h
    · exact .inl (eq_of_value_data hv h)
    · exact .inr (eq_of_value_data hv h)
  · rintro (rfl | rfl) <;> decide

/-- Hence a fitting data push is canonical when it is minimal and not the one-byte push of `00`,
or when it is the one-byte push of `81`. -/
theorem isCanonicalPush_eq_of_push (hb : i.value ≤ 0x4e) (hf : i.fitsLength = true) :
    i.isCanonicalPush = (i.isMinimalPush && i != ofByte 1 [0x00] || i == ofByte 1 [0x81]) := by
  by_cases h0 : i = ofByte 1 [0x00]
  · subst h0
    decide
  by_cases h81 : i = ofByte 1 [0x81]
  · subst h81
    decide
  have heq : i.isCanonicalPush = i.isMinimalPush := by
    by_contra hne
    rcases (isCanonicalPush_ne_isMinimalPush_iff hb hf).mp hne with h | h
    · exact h0 h
    · exact h81 h
  have hkeep : (i != ofByte 1 [0x00]) = true := bne_iff_ne.mpr h0
  have hstrip : (i == ofByte 1 [0x81]) = false := beq_eq_false_iff_ne.mpr h81
  rw [heq, hkeep, hstrip, Bool.and_true, Bool.or_false]

/-- An instruction with data that fits and is no data push is a terminating `OP_RETURN`, which is
never canonical. -/
theorem isCanonicalPush_of_bare (hb : 0x4e < i.value) (hf : i.fitsLength = true)
    (hd : i.data ≠ []) : i.isCanonicalPush = false := by
  have hnone : i.opcode.pushLength = .none := Script.pushLength_of_gt hb
  unfold fitsLength at hf
  rw [hnone] at hf
  have hret : i.value = 0x6a := by
    simp only [Bool.or_eq_true, List.isEmpty_iff, decide_eq_true_eq] at hf
    exact hf.resolve_left hd
  exact isCanonicalPush_of_return hret

end Instruction

namespace Script

/-- Removing a non-empty signature from a script in which every instruction carrying it fits its
opcode strips exactly its minimal pushes, except that the one-byte push of `00` stays and the
one-byte push of `81` goes. -/
theorem removeData_eq_filter {s : Script} {sig : Bytes}
    (hs : ∀ i ∈ s, i.data = sig → i.fitsLength = true) (hsig : sig ≠ []) :
    s.removeData sig = s.filter fun i => !i.isStrippedPushOf sig := by
  have hne : sig.isEmpty = false := by simpa using hsig
  simp only [removeData, hne, Bool.false_eq_true, if_false]
  refine List.filter_congr fun i hi => ?_
  unfold Instruction.isStrippedPushOf
  by_cases hd : i.data = sig
  case neg =>
    have hother : (i.data == sig) = false := beq_eq_false_iff_ne.mpr hd
    simp only [hother, Bool.and_false, Bool.false_and]
  have hf := hs i hi hd
  rw [beq_iff_eq.mpr hd, Bool.and_true, Bool.and_true]
  by_cases hb : i.value ≤ 0x4e
  · -- a data push: the canonical rule in the words of the minimal one
    have hpush : i.opcode.isDataPush = true := decide_eq_true hb
    rw [Instruction.isCanonicalPush_eq_of_push hb hf, hpush, Bool.true_and]
  · -- any other instruction carrying data is a terminating `OP_RETURN`, which is not canonical
    have hpush : i.opcode.isDataPush = false := decide_eq_false hb
    rw [Instruction.isCanonicalPush_of_bare (UInt8.not_le.mp hb) hf (hd ▸ hsig), hpush,
      Bool.false_and]

example : Script.removeData [Instruction.ofByte 1 [0x00], Instruction.ofByte 1 [0x81]] [0x00] =
      [Instruction.ofByte 1 [0x00], Instruction.ofByte 1 [0x81]] ∧
    Script.removeData [Instruction.ofByte 1 [0x81], Instruction.ofByte 0x4c [0x81]] [0x81] =
      [Instruction.ofByte 0x4c [0x81]] := by
  decide

/-- The script code of a legacy signature, from a script whose instructions fit, is the script
without code separators, less the pushes that each non-empty signature strips. -/
theorem legacySubscript_eq_filter {s : Script} (hs : s.Writable) (sigs : List Bytes) :
    s.legacySubscript sigs = (s.removeOpcode 0xab).filter fun i =>
      !sigs.any fun sig => !sig.isEmpty && i.isStrippedPushOf sig := by
  unfold legacySubscript
  have hws : (s.removeOpcode 0xab).Writable := hs.sublist List.filter_sublist
  -- the signatures are removed one after another, each from a sublist of the script
  generalize s.removeOpcode 0xab = t at hws ⊢
  induction sigs generalizing t with
  | nil => simp
  | cons sig sigs ih =>
    rw [List.foldl_cons]
    by_cases hsig : sig = []
    · have hkeep : t.removeData sig = t := by simp [removeData, hsig]
      rw [hkeep, ih t hws]
      simp [hsig]
    · rw [removeData_eq_filter (fun i hi _ => hws i hi) hsig, ih _ (hws.sublist List.filter_sublist),
        List.filter_filter]
      have hne : sig.isEmpty = false := by simpa using hsig
      refine List.filter_congr fun i _ => ?_
      simp [hne, Bool.and_comm]

end Script

/-- Signature removal strips the minimal pushes of the signature, but for two. On a fitting data
push the canonical rule and MINIMALDATA agree except on the one-byte push of `00`, minimal and
not canonical, and the one-byte push of `81`, canonical and not minimal. So removing a non-empty
signature from a script in which every instruction carrying it fits its opcode (as in every script
read from bytes) strips exactly its minimal pushes, keeping the one-byte push of `00` and
stripping the one-byte push of `81`; and at every machine a run reaches, the script code of a
legacy signature is the current script from its code separator, without code separators and less
those pushes of every non-empty signature removed. -/
theorem signatureRemoval_strips_minimal_pushes :
    (∀ i : Instruction, i.opcode.isDataPush = true → i.fitsLength = true →
      (i.isCanonicalPush ≠ i.isMinimalPush ↔
        i = Instruction.ofByte 1 [0x00] ∨ i = Instruction.ofByte 1 [0x81])) ∧
    ((Instruction.ofByte 1 [0x00]).isMinimalPush = true ∧
      (Instruction.ofByte 1 [0x00]).isCanonicalPush = false) ∧
    ((Instruction.ofByte 1 [0x81]).isCanonicalPush = true ∧
      (Instruction.ofByte 1 [0x81]).isMinimalPush = false) ∧
    (∀ (s : Script) (sig : Bytes), (∀ i ∈ s, i.data = sig → i.fitsLength = true) → sig ≠ [] →
      s.removeData sig = s.filter fun i => !i.isStrippedPushOf sig) ∧
    (∀ m : Machine, m.Reachable → ∀ sigs : List Bytes,
      m.subScript.legacySubscript sigs = (m.subScript.removeOpcode 0xab).filter fun i =>
        !sigs.any fun sig => !sig.isEmpty && i.isStrippedPushOf sig) := by
  refine ⟨fun i hpush hf => ?_, by decide, by decide, fun s sig hs hsig => ?_, fun m hm sigs => ?_⟩
  · exact Instruction.isCanonicalPush_ne_isMinimalPush_iff (of_decide_eq_true hpush) hf
  · exact Script.removeData_eq_filter hs hsig
  · exact Script.legacySubscript_eq_filter
      (Machine.subScript_writable (Machine.reachable_scripts_writable hm)) sigs

/-- Removing the signature `81` from the one-byte pushes of `00` and of `81` and the
`OP_PUSHDATA1` push of `81` strips the one-byte push of `81` alone. -/
theorem signatureRemoval_strips_minimal_pushes_oneBytes :
    (∀ i ∈ [Instruction.ofByte 1 [0x00], Instruction.ofByte 1 [0x81], Instruction.ofByte 0x4c [0x81]],
      i.data = [0x81] → i.fitsLength = true) ∧ [(0x81 : UInt8)] ≠ [] ∧
    Script.removeData [Instruction.ofByte 1 [0x00], Instruction.ofByte 1 [0x81],
        Instruction.ofByte 0x4c [0x81]] [0x81] =
      [Instruction.ofByte 1 [0x00], Instruction.ofByte 1 [0x81],
        Instruction.ofByte 0x4c [0x81]].filter fun i => !i.isStrippedPushOf [0x81] := by
  have hfit : ∀ i ∈ [Instruction.ofByte 1 [0x00], Instruction.ofByte 1 [0x81],
      Instruction.ofByte 0x4c [0x81]], i.data = [0x81] → i.fitsLength = true := by
    decide
  exact ⟨hfit, by decide, signatureRemoval_strips_minimal_pushes.2.2.2.1 _ _ hfit (by decide)⟩

end BitcoinScript
