import BitcoinScript.Proofs.Parse

/-!
# Writing a script and reading it back

Writing instructions as bytes (`Script.unparse?`) refuses exactly the lists in which some
instruction's data does not fit its opcode's length class (`Instruction.Misfit`), and it names
the first such instruction. The other direction of the round trip of `Parse.lean`: when every
instruction fits, reading the bytes back gives the same instructions, provided the list is one
that reading can produce. That asks two things of its `OP_RETURN`s: one outside every block is
the last instruction, since reading stops there, and one with data stands outside every block,
since inside a block `OP_RETURN` is read bare. Direct and prefixed pushes are cut again at the
same boundaries whatever their prefix width, so non-minimal pushes survive too.
-/

set_option autoImplicit false

namespace BitcoinScript

namespace Instruction

/-- The data of an instruction does not fit its opcode's length class: data on an opcode that
carries none (a terminating `OP_RETURN` apart), a direct push of another length, or a length
its prefix of `w` bytes cannot hold. -/
def Misfit (i : Instruction) : Prop :=
  (i.opcode.pushLength = .none ∧ i.data ≠ [] ∧ i.value ≠ 0x6a) ∨
  (∃ n, i.opcode.pushLength = .direct n ∧ i.data.length ≠ n) ∨
  (∃ w, i.opcode.pushLength = .prefixed w ∧ 2 ^ (8 * w) ≤ i.data.length)

theorem fitsLength_eq_false_iff (i : Instruction) : i.fitsLength = false ↔ i.Misfit := by
  unfold fitsLength Misfit
  cases i.opcode.pushLength with
  | none => simp
  | direct n => simp
  | prefixed w =>
    have hpow : (256 : Nat) ^ w = 2 ^ (8 * w) := by
      rw [pow_mul]
      norm_num
    simp [hpow]

/-- An instruction is its opcode's byte with its data. -/
theorem ofByte_value_data (i : Instruction) : ofByte i.value i.data = i := rfl

end Instruction

namespace Script

/-! ## Refusing data that does not fit -/

/-- A refused list has a first instruction that does not fit, and the refusal names it with the
length of its data. -/
theorem unparse?_error {s : Script} {e : LengthMismatch} (h : unparse? s = .error e) :
    ∃ pre i post, s = pre ++ i :: post ∧ (∀ j ∈ pre, j.fitsLength = true) ∧
      i.fitsLength = false ∧ e = ⟨i.name, i.data.length⟩ := by
  induction s with
  | nil => cases h
  | cons i rest ih =>
    by_cases hf : i.fitsLength = true
    · -- the refusal comes from the rest of the list
      cases hrest : unparse? rest with
      | ok out => simp [unparse?, hf, hrest, Except.map] at h
      | error e' =>
        simp only [unparse?, hf, ite_true, hrest, Except.map, Except.error.injEq] at h
        subst h
        obtain ⟨pre, j, post, rfl, hpre, hj, he⟩ := ih hrest
        refine ⟨i :: pre, j, post, rfl, ?_, hj, he⟩
        intro k hk
        rcases List.mem_cons.mp hk with rfl | hk
        · exact hf
        · exact hpre k hk
    · simp only [unparse?, hf] at h
      have hi : i.fitsLength = false := by simpa using hf
      exact ⟨[], i, rest, rfl, fun _ hj => absurd hj List.not_mem_nil, hi, by simpa using h.symm⟩

/-- A list with an instruction that does not fit is refused. -/
theorem unparse?_error_of_misfit {s : Script} {i : Instruction} (hi : i ∈ s)
    (hf : i.fitsLength = false) : ∃ e, unparse? s = .error e := by
  induction s with
  | nil => cases hi
  | cons j rest ih =>
    by_cases hj : j.fitsLength = true
    · have hrest : i ∈ rest := by
        rcases List.mem_cons.mp hi with rfl | hrest
        · simp [hj] at hf
        · exact hrest
      obtain ⟨e, he⟩ := ih hrest
      exact ⟨e, by simp [unparse?, hj, he, Except.map]⟩
    · exact ⟨⟨j.name, j.data.length⟩, by simp [unparse?, hj]⟩

/-- A fitting list is written as the bytes of its instructions one after another. -/
theorem unparse?_cons_ok {i : Instruction} {rest : Script} {bytes : Bytes}
    (h : unparse? (i :: rest) = .ok bytes) :
    i.fitsLength = true ∧ ∃ out, unparse? rest = .ok out ∧ bytes = i.encode ++ out := by
  by_cases hf : i.fitsLength = true
  · cases hrest : unparse? rest with
    | error e => simp [unparse?, hf, hrest, Except.map] at h
    | ok out =>
      simp only [unparse?, hf, ite_true, hrest, Except.map, Except.ok.injEq] at h
      exact ⟨hf, out, rfl, h.symm⟩
  · simp [unparse?, hf] at h

/-! ## Reading a written instruction -/

/-- A fitting push is written as its opcode, a length prefix of the width the opcode announces,
and the data, whose length is the announced one. -/
theorem encode_of_push {i : Instruction} (hb : i.value ≤ 0x4e) (hf : i.fitsLength = true) :
    ∃ lenBytes, i.encode = i.value :: (lenBytes ++ i.data) ∧
      lenBytes.length = prefixWidth i.value ∧ i.data.length = announced i.value lenBytes := by
  have hpl := pushLength_of_le hb
  unfold Instruction.fitsLength at hf
  unfold Instruction.encode announced
  rw [show i.opcode.pushLength = Opcode.pushLength ⟨i.value⟩ from rfl, hpl] at hf ⊢
  by_cases h0 : i.value = 0
  · -- `OP_0` carries nothing
    rw [if_pos h0] at hf
    have hd : i.data = [] := by simpa [h0] using hf
    have hw : prefixWidth i.value = 0 := by rw [h0]; rfl
    refine ⟨[], by simp [h0, hd], by simp [hw], ?_⟩
    simp [hd, h0]
  · by_cases hw : prefixWidth i.value = 0
    · -- a direct push: the opcode is the length
      simp only [h0, hw, if_false, if_true, decide_eq_true_eq] at hf ⊢
      exact ⟨[], by simp, by simp, hf⟩
    · -- a prefixed push: the prefix is the length in the opcode's width
      simp only [h0, hw, if_false, decide_eq_true_eq] at hf ⊢
      refine ⟨Bytes.ofNatLE (prefixWidth i.value) i.data.length, by simp, by simp, ?_⟩
      rw [Bytes.leValue_ofNatLE, Nat.mod_eq_of_lt hf]

/-- A fitting opcode that is no push carries no data, `OP_RETURN` apart, and is written as its
byte alone. -/
theorem encode_of_bare {i : Instruction} (hb : 0x4e < i.value) (hf : i.fitsLength = true)
    (hret : i.value ≠ 0x6a) : i.data = [] ∧ i.encode = [i.value] := by
  have hpl : i.opcode.pushLength = .none := pushLength_of_gt hb
  have hd : i.data = [] := by
    unfold Instruction.fitsLength at hf
    rw [hpl] at hf
    simpa [hret, List.isEmpty_iff] using hf
  refine ⟨hd, ?_⟩
  unfold Instruction.encode
  rw [hpl, hd]

/-! ## Reading a whole written script -/

/-- The conditional depth after one more instruction. -/
theorem depthAfter_cons (depth : Nat) (i : Instruction) (s : Script) :
    depthAfter depth (i :: s) = depthAfter (nextDepth i.value depth) s := rfl

section Terminated

/-- Every `OP_RETURN` that stands outside every block, counting from depth `depth`, is the last
instruction. -/
def ReturnsLast (depth : Nat) (s : Script) : Prop :=
  ∀ pre i post, s = pre ++ i :: post → i.value = 0x6a → depthAfter depth pre = 0 → post = []

/-- Every `OP_RETURN` that carries data stands outside every block, counting from depth
`depth`. -/
def ReturnDataOutside (depth : Nat) (s : Script) : Prop :=
  ∀ pre i post, s = pre ++ i :: post → i.value = 0x6a → i.data ≠ [] → depthAfter depth pre = 0

variable {depth : Nat} {i : Instruction} {rest : Script}

theorem ReturnsLast.tail (h : ReturnsLast depth (i :: rest)) :
    ReturnsLast (nextDepth i.value depth) rest := fun pre j post hs hj hd =>
  h (i :: pre) j post (by rw [hs]; rfl) hj (by rw [depthAfter_cons]; exact hd)

theorem ReturnDataOutside.tail (h : ReturnDataOutside depth (i :: rest)) :
    ReturnDataOutside (nextDepth i.value depth) rest := fun pre j post hs hj hdata =>
  h (i :: pre) j post (by rw [hs]; rfl) hj hdata

end Terminated

/-- Reading the bytes of a fitting list gives the list back, when its `OP_RETURN`s are where
reading puts them. The induction follows the list, the depth moving as reading moves it; a
terminating `OP_RETURN` is the last instruction, so its data is the rest of the bytes. -/
theorem parseAt_of_unparse? {s : Script} {depth : Nat} {bytes : Bytes}
    (h : unparse? s = .ok bytes) (hlast : ReturnsLast depth s)
    (hdata : ReturnDataOutside depth s) : parseAt depth bytes = some s := by
  induction s generalizing depth bytes with
  | nil =>
    cases h
    rw [parseAt]
  | cons i rest ih =>
    obtain ⟨hf, out, hout, rfl⟩ := unparse?_cons_ok h
    by_cases hb : i.value ≤ 0x4e
    · -- a push: its prefix and data are cut off again, and the depth stays
      obtain ⟨lenBytes, henc, hlen, hd⟩ := encode_of_push hb hf
      obtain ⟨_, ht⟩ := takePush_append hlen hd out
      have hrest := ih hout hlast.tail hdata.tail
      rw [nextDepth_of_le hb] at hrest
      rw [henc, List.cons_append, parseAt, if_pos hb, ht]
      simp [hrest, Instruction.ofByte_value_data]
    · by_cases hret : i.value = 0x6a ∧ depth = 0
      · -- a terminating `OP_RETURN` is the last instruction and keeps its data
        have hnil : rest = [] := hlast [] i rest rfl hret.1 hret.2
        subst hnil
        cases hout
        rw [(encode_return hret.1).2, List.append_nil, parseAt, if_neg (by decide),
          if_pos ⟨rfl, hret.2⟩, ← hret.1, Instruction.ofByte_value_data]
      · -- a bare opcode: inside a block an `OP_RETURN` has no data either
        have hbare : i.data = [] ∧ i.encode = [i.value] := by
          by_cases hr : i.value = 0x6a
          · have hd : i.data = [] := by
              by_contra hne
              exact hret ⟨hr, hdata [] i rest rfl hr hne⟩
            refine ⟨hd, ?_⟩
            rw [(encode_return hr).2, hd, hr]
          · exact encode_of_bare (UInt8.not_le.mp hb) hf hr
        have hrest := ih hout hlast.tail hdata.tail
        rw [hbare.2, List.cons_append, List.nil_append, parseAt, if_neg hb, if_neg hret]
        simp only [nextDepth] at hrest
        simp [hrest, ← hbare.1, Instruction.ofByte_value_data]

/-- Writing instructions back as bytes fails exactly when some instruction's data does not fit
its opcode's length class (data on an opcode that carries none, `OP_RETURN` apart; a direct push
of another length; a length its prefix of `w` bytes cannot hold, `2 ^ (8 w)` or more), and the
failure names the first such instruction and its length. When every instruction fits, every
`OP_RETURN` outside every block is the last instruction and every `OP_RETURN` with data stands
outside every block, reading the written bytes gives the instructions back. -/
theorem unparse?_fails_iff_misfit_and_parse?_restores (s : Script) :
    ((∃ e, unparse? s = .error e) ↔ ∃ i ∈ s, i.Misfit) ∧
    (∀ e, unparse? s = .error e → ∃ pre i post, s = pre ++ i :: post ∧
      (∀ j ∈ pre, ¬ j.Misfit) ∧ i.Misfit ∧ e = ⟨i.name, i.data.length⟩) ∧
    ((∀ i ∈ s, ¬ i.Misfit) →
      (∀ pre i post, s = pre ++ i :: post → i.value = 0x6a → depthAfter 0 pre = 0 → post = []) →
      (∀ pre i post, s = pre ++ i :: post → i.value = 0x6a → i.data ≠ [] →
        depthAfter 0 pre = 0) →
      ∃ bytes, unparse? s = .ok bytes ∧ parse? bytes = some s) := by
  -- `Misfit` is the failing side of `fitsLength`
  have hfit : ∀ i : Instruction, ¬ i.Misfit ↔ i.fitsLength = true := fun i => by
    rw [← i.fitsLength_eq_false_iff, Bool.not_eq_false]
  refine ⟨⟨fun ⟨e, he⟩ => ?_, fun ⟨i, hi, hm⟩ => ?_⟩, fun e he => ?_, fun hall hlast hdata => ?_⟩
  · obtain ⟨_, i, _, rfl, -, hi, -⟩ := unparse?_error he
    exact ⟨i, by simp, i.fitsLength_eq_false_iff.mp hi⟩
  · exact unparse?_error_of_misfit hi (i.fitsLength_eq_false_iff.mpr hm)
  · obtain ⟨pre, i, post, hs, hpre, hi, rfl⟩ := unparse?_error he
    exact ⟨pre, i, post, hs, fun j hj => (hfit j).mpr (hpre j hj),
      i.fitsLength_eq_false_iff.mp hi, rfl⟩
  · -- a list of fitting instructions is written
    cases hu : unparse? s with
    | error e =>
      obtain ⟨_, i, _, rfl, -, hi, -⟩ := unparse?_error hu
      exact absurd ((hfit i).mp (hall i (by simp))) (by simp [hi])
    | ok bytes => exact ⟨bytes, rfl, parseAt_of_unparse? hu hlast hdata⟩

/-- A non-minimal `OP_PUSHDATA1` inside a block, with a bare `OP_RETURN` there, survives the round
trip. -/
example : parse? [0x63, 0x4c, 0x01, 0x07, 0x6a, 0x68] =
    some [Instruction.ofByte 0x63, Instruction.ofByte 0x4c [0x07], Instruction.ofByte 0x6a,
      Instruction.ofByte 0x68] := by
  simp [parse?, parseAt, takePush, Bytes.leValue]

end Script

end BitcoinScript
