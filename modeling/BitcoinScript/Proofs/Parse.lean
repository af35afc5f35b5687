import Mathlib
import BitcoinScript.Script

/-!
# Reading a script and writing it back

Reading a script (`Script.parse?`) steps from one instruction boundary to the next: over a push
with its length prefix and data, or over one opcode byte, until an `OP_RETURN` outside every
`OP_IF`/`OP_NOTIF` block takes the rest. It fails exactly when a push at a boundary runs past
the end (`Script.Truncated`, said over the bytes and the push length rules alone). What it reads
is written back (`Script.unparse?`) byte for byte, the length prefixes in their own width, so
non-minimal pushes too; the terminating `OP_RETURN` is the last instruction and keeps every byte
after it.
-/

set_option autoImplicit false

namespace BitcoinScript

namespace Bytes

/-- A little-endian length of `width` bytes is below `256 ^ width`. -/
theorem leValue_lt (p : Bytes) : leValue p < 256 ^ p.length := by
  induction p with
  | nil => simp
  | cons b p ih =>
    have hb : b.toNat < 256 := b.toNat_lt
    rw [leValue_cons, List.length_cons, Nat.pow_succ]
    omega

/-- Writing a little-endian value back in its own width gives the same bytes. -/
theorem ofNatLE_leValue (p : Bytes) : ofNatLE p.length (leValue p) = p := by
  induction p with
  | nil => rfl
  | cons b p ih =>
    have hb : b.toNat < 256 := b.toNat_lt
    have hlow : (b.toNat + 256 * leValue p) % 256 = b.toNat := by omega
    have hhigh : (b.toNat + 256 * leValue p) / 256 = leValue p := by omega
    rw [List.length_cons, leValue_cons, ofNatLE, hlow, hhigh, ih]
    simp

end Bytes

namespace Script

/-! ## The push length rules -/

/-- The width of the little-endian length after a push opcode: one, two and four bytes after
`OP_PUSHDATA1`, `OP_PUSHDATA2` and `OP_PUSHDATA4`, none after a direct push. -/
def prefixWidth (b : UInt8) : Nat :=
  if b = 0x4c then 1 else if b = 0x4d then 2 else if b = 0x4e then 4 else 0

/-- The number of data bytes a push announces: the opcode itself for a direct push, its length
prefix otherwise. -/
def announced (b : UInt8) (lenBytes : Bytes) : Nat :=
  if prefixWidth b = 0 then b.toNat else Bytes.leValue lenBytes

/-- The push opcode `b` needs more bytes, for its length prefix and its data, than `rest` has. -/
def PushTruncated (b : UInt8) (rest : Bytes) : Prop :=
  rest.length < prefixWidth b + announced b (rest.take (prefixWidth b))

/-! ## One push -/

theorem takePush_eq_none_iff {b : UInt8} {rest : Bytes} :
    takePush b rest = none ↔ PushTruncated b rest := by
  unfold takePush PushTruncated announced
  simp only [← prefixWidth.eq_1]
  by_cases hw : prefixWidth b = 0
  · simp only [hw, if_true, Nat.zero_add]
    split_ifs <;> simp <;> omega
  · by_cases hl : prefixWidth b ≤ rest.length
    · simp only [hw, if_false, hl, if_true, List.length_drop]
      split_ifs <;> simp <;> omega
    · simp only [hw, if_false, hl, true_iff]
      omega

theorem takePush_split {b : UInt8} {rest data rest' : Bytes} {hr : rest'.length ≤ rest.length}
    (h : takePush b rest = some (data, ⟨rest', hr⟩)) :
    ∃ lenBytes, rest = lenBytes ++ data ++ rest' ∧ lenBytes.length = prefixWidth b ∧
      data.length = announced b lenBytes := by
  unfold takePush at h
  simp only [← prefixWidth.eq_1] at h
  unfold announced
  by_cases hw : prefixWidth b = 0
  · rw [if_pos hw] at h
    by_cases hn : b.toNat ≤ rest.length
    · rw [if_pos hn] at h
      simp only [Option.some.injEq, Prod.mk.injEq, Subtype.mk.injEq] at h
      obtain ⟨rfl, rfl⟩ := h
      refine ⟨[], by simp, by simp [hw], ?_⟩
      simp only [hw, if_true, List.length_take]
      omega
    · rw [if_neg hn] at h
      cases h
  · by_cases hl : prefixWidth b ≤ rest.length
    · rw [if_neg hw, if_pos hl] at h
      by_cases hn : Bytes.leValue (rest.take (prefixWidth b)) ≤ (rest.drop (prefixWidth b)).length
      · rw [if_pos hn] at h
        simp only [Option.some.injEq, Prod.mk.injEq, Subtype.mk.injEq] at h
        obtain ⟨rfl, rfl⟩ := h
        refine ⟨rest.take (prefixWidth b), by simp, by simp; omega, ?_⟩
        simp only [hw, if_false, List.length_take]
        omega
      · rw [if_neg hn] at h
        cases h
    · rw [if_neg hw, if_neg hl] at h
      cases h

theorem takePush_append {b : UInt8} {lenBytes data : Bytes} (hlen : lenBytes.length = prefixWidth b)
    (hdata : data.length = announced b lenBytes) (rest : Bytes) :
    ∃ h, takePush b (lenBytes ++ data ++ rest) = some (data, ⟨rest, h⟩) := by
  refine ⟨by simp; omega, ?_⟩
  unfold takePush
  simp only [← prefixWidth.eq_1]
  unfold announced at hdata
  by_cases hw : prefixWidth b = 0
  · obtain rfl : lenBytes = [] := List.eq_nil_of_length_eq_zero (hlen.trans hw)
    rw [if_pos hw] at hdata
    rw [if_pos hw, if_pos (by simp; omega)]
    simp [← hdata]
  · rw [if_neg hw] at hdata
    have htake : (lenBytes ++ data ++ rest).take (prefixWidth b) = lenBytes := by
      rw [List.append_assoc, List.take_left' hlen]
    have hdrop : (lenBytes ++ data ++ rest).drop (prefixWidth b) = data ++ rest := by
      rw [List.append_assoc, List.drop_left' hlen]
    rw [if_neg hw, if_pos (by simp; omega)]
    simp only [htake, hdrop, ← hdata, List.length_append, Nat.le_add_right, if_true,
      List.take_left', List.drop_left']

/-! ## Instruction boundaries -/

/-- The conditional depth after an opcode: `OP_IF` and `OP_NOTIF` open a block, `OP_ENDIF` closes
one, and the depth never goes below zero. -/
def nextDepth (b : UInt8) (depth : Nat) : Nat :=
  if b = 0x63 ∨ b = 0x64 then depth + 1 else if b = 0x68 then depth - 1 else depth

/-- The conditional depth after a list of instructions. -/
def depthAfter (depth : Nat) (s : Script) : Nat := s.foldl (fun d i => nextDepth i.value d) depth

/-- A script at conditional depth `depth` has a push at an instruction boundary that runs past
its end, before any `OP_RETURN` outside every block: the boundaries are found by stepping over
complete pushes and over the other opcodes one byte at a time. -/
inductive Truncated : Nat → Bytes → Prop
  | here {depth : Nat} {b : UInt8} {rest : Bytes} :
      b ≤ 0x4e → PushTruncated b rest → Truncated depth (b :: rest)
  | push {depth : Nat} {b : UInt8} {lenBytes data rest : Bytes} :
      b ≤ 0x4e → lenBytes.length = prefixWidth b → data.length = announced b lenBytes →
      Truncated depth rest → Truncated depth (b :: (lenBytes ++ data ++ rest))
  | op {depth : Nat} {b : UInt8} {rest : Bytes} :
      0x4e < b → ¬(b = 0x6a ∧ depth = 0) → Truncated (nextDepth b depth) rest →
      Truncated depth (b :: rest)

/-! ## Writing an instruction back -/

theorem eq_iff_toNat {b c : UInt8} : b = c ↔ b.toNat = c.toNat := UInt8.toNat_inj.symm

theorem pushLength_of_le {b : UInt8} (hb : b ≤ 0x4e) : Opcode.pushLength ⟨b⟩ =
    if b = 0 then .none else if prefixWidth b = 0 then .direct b.toNat else .prefixed (prefixWidth b) := by
  have hb' : b.toNat ≤ 78 := UInt8.le_iff_toNat_le.mp hb
  simp only [Opcode.pushLength, prefixWidth, eq_iff_toNat, UInt8.reduceToNat]
  split_ifs <;> first | rfl | omega

theorem pushLength_of_gt {b : UInt8} (hb : 0x4e < b) : Opcode.pushLength ⟨b⟩ = .none := by
  have hb' : 78 < b.toNat := UInt8.lt_iff_toNat_lt.mp hb
  simp only [Opcode.pushLength]
  split_ifs <;> first | rfl | omega

theorem nextDepth_of_le {b : UInt8} (hb : b ≤ 0x4e) (depth : Nat) : nextDepth b depth = depth := by
  have hb' : b.toNat ≤ 78 := UInt8.le_iff_toNat_le.mp hb
  simp only [nextDepth, eq_iff_toNat, UInt8.reduceToNat]
  split_ifs <;> omega

/-- A complete push is written back as the bytes it was read from: the opcode, the length prefix
in its own width, and the data. -/
theorem encode_push {b : UInt8} {lenBytes data : Bytes} (hb : b ≤ 0x4e)
    (hlen : lenBytes.length = prefixWidth b) (hdata : data.length = announced b lenBytes) :
    (Instruction.ofByte b data).fitsLength = true ∧
      (Instruction.ofByte b data).encode = b :: (lenBytes ++ data) := by
  unfold Instruction.fitsLength Instruction.encode Instruction.value
  simp only [Instruction.ofByte, pushLength_of_le hb]
  unfold announced at hdata
  by_cases hw : prefixWidth b = 0
  · obtain rfl : lenBytes = [] := List.eq_nil_of_length_eq_zero (hlen.trans hw)
    rw [if_pos hw] at hdata
    by_cases h0 : b = 0
    · subst h0
      obtain rfl : data = [] := List.eq_nil_of_length_eq_zero hdata
      simp
    · simp [h0, hw, hdata]
  · have h0 : b ≠ 0 := by
      rintro rfl
      exact hw rfl
    rw [if_neg hw] at hdata
    have hfit : data.length < Nat.pow 256 (prefixWidth b) := by
      rw [hdata, ← hlen]
      exact Bytes.leValue_lt lenBytes
    simp only [h0, hw, if_false, hfit, decide_true, true_and]
    rw [hdata, ← hlen, Bytes.ofNatLE_leValue]
    rfl

/-- An opcode that is no push is written as its byte alone. -/
theorem encode_op {b : UInt8} (hb : 0x4e < b) :
    (Instruction.ofByte b).fitsLength = true ∧ (Instruction.ofByte b).encode = [b] := by
  have hpl : (Instruction.ofByte b).opcode.pushLength = .none := pushLength_of_gt hb
  unfold Instruction.fitsLength Instruction.encode
  rw [hpl]
  exact ⟨rfl, rfl⟩

/-- `OP_RETURN` is written as its byte and all the data it holds. -/
theorem encode_return {i : Instruction} (hi : i.value = 0x6a) :
    i.fitsLength = true ∧ i.encode = 0x6a :: i.data := by
  have hgt : 0x4e < i.value := by
    rw [hi]
    decide
  have hpl : i.opcode.pushLength = .none := pushLength_of_gt hgt
  unfold Instruction.fitsLength Instruction.encode
  rw [hpl]
  simp [hi]

theorem unparse?_cons {i : Instruction} {s : Script} {out : Bytes} (hf : i.fitsLength = true)
    (h : unparse? s = .ok out) : unparse? (i :: s) = .ok (i.encode ++ out) := by
  simp [unparse?, hf, h, Except.map]

/-- Bytes written for a script are the bytes written for each of its parts. -/
theorem unparse?_append_ok {a b : Script} {out : Bytes} (h : unparse? (a ++ b) = .ok out) :
    ∃ x y, unparse? a = .ok x ∧ unparse? b = .ok y ∧ out = x ++ y := by
  induction a generalizing out with
  | nil => exact ⟨[], out, rfl, h, rfl⟩
  | cons i a ih =>
    rw [List.cons_append, unparse?] at h
    by_cases hf : i.fitsLength = true
    · rw [if_pos hf] at h
      cases hab : unparse? (a ++ b) with
      | error e =>
        rw [hab] at h
        cases h
      | ok z =>
        rw [hab] at h
        simp only [Except.map, Except.ok.injEq] at h
        obtain ⟨x, y, hx, hy, rfl⟩ := ih hab
        exact ⟨i.encode ++ x, y, unparse?_cons hf hx, hy, by rw [← h, List.append_assoc]⟩
    · rw [if_neg hf] at h
      cases h

/-! ## Reading a whole script -/

theorem parseAt_eq_none_of_truncated {depth : Nat} {bytes : Bytes} (h : Truncated depth bytes) :
    parseAt depth bytes = none := by
  induction h with
  | here hb ht => rw [parseAt, if_pos hb, takePush_eq_none_iff.mpr ht]
  | push hb hlen hdata _ ih =>
    obtain ⟨_, ht⟩ := takePush_append hlen hdata _
    rw [parseAt, if_pos hb, ht]
    simp [ih]
  | op hb hret _ ih =>
    rw [parseAt, if_neg (UInt8.not_le.mpr hb), if_neg hret]
    simp only [nextDepth] at ih
    simp [ih]

theorem truncated_of_parseAt_eq_none {depth : Nat} {bytes : Bytes} (h : parseAt depth bytes = none) :
    Truncated depth bytes := by
  fun_induction parseAt depth bytes with
  | case1 => cases h
  | case2 d b rest hb ht => exact .here hb (takePush_eq_none_iff.mp ht)
  | case3 d b rest hb data rest' hr ht ih =>
    obtain ⟨lenBytes, rfl, hlen, hdata⟩ := takePush_split ht
    exact .push hb hlen hdata (ih (Option.map_eq_none_iff.mp h))
  | case4 => cases h
  | case5 d b rest hb hret depth' ih => exact .op (UInt8.not_le.mp hb) hret (ih (Option.map_eq_none_iff.mp h))

/-- Every instruction read is written back as the bytes it was read from. -/
theorem unparse?_of_parseAt {depth : Nat} {bytes : Bytes} {s : Script}
    (h : parseAt depth bytes = some s) : unparse? s = .ok bytes := by
  fun_induction parseAt depth bytes generalizing s with
  | case1 =>
    cases h
    rfl
  | case2 => cases h
  | case3 d b rest hb data rest' hr ht ih =>
    obtain ⟨s', hs', rfl⟩ := Option.map_eq_some_iff.mp h
    obtain ⟨lenBytes, rfl, hlen, hdata⟩ := takePush_split ht
    obtain ⟨hfit, henc⟩ := encode_push hb hlen hdata
    rw [unparse?_cons hfit (ih hs'), henc]
    simp
  | case4 d b rest hb hret =>
    cases h
    obtain ⟨rfl, -⟩ := hret
    have hvalue : (Instruction.ofByte 0x6a rest).value = 0x6a := rfl
    obtain ⟨hfit, henc⟩ := encode_return hvalue
    rw [unparse?_cons hfit rfl, henc, List.append_nil]
    rfl
  | case5 d b rest hb hret depth' =>
    rename_i ih
    obtain ⟨s', hs', rfl⟩ := Option.map_eq_some_iff.mp h
    obtain ⟨hfit, henc⟩ := encode_op (UInt8.not_le.mp hb)
    rw [unparse?_cons hfit (ih hs'), henc]
    rfl

/-- An `OP_RETURN` read outside every block is the last instruction. -/
theorem parseAt_return_last {depth : Nat} {bytes : Bytes} {s : Script}
    (h : parseAt depth bytes = some s) {pre post : Script} {i : Instruction}
    (hs : s = pre ++ i :: post) (hi : i.value = 0x6a) (hd : depthAfter depth pre = 0) :
    post = [] := by
  fun_induction parseAt depth bytes generalizing s pre with
  | case1 =>
    cases h
    simp at hs
  | case2 => cases h
  | case3 d b rest hb data rest' hr ht ih =>
    obtain ⟨s', hs', rfl⟩ := Option.map_eq_some_iff.mp h
    cases pre with
    | nil =>
      -- a push is no `OP_RETURN`
      obtain ⟨rfl, -⟩ := List.cons.inj hs
      simp only [Instruction.ofByte, Instruction.value] at hi
      subst hi
      exact absurd hb (by decide)
    | cons p pre =>
      obtain ⟨rfl, hs''⟩ := List.cons.inj hs
      have hd' : depthAfter d pre = 0 := by
        rw [depthAfter, List.foldl_cons, ← depthAfter] at hd
        rwa [Instruction.value, Instruction.ofByte, nextDepth_of_le hb] at hd
      exact ih hs' hs'' hd'
  | case4 d b rest hb hret =>
    cases h
    cases pre with
    | nil => exact (List.cons.inj hs).2.symm
    | cons p pre => simp at hs
  | case5 d b rest hb hret depth' =>
    rename_i ih
    obtain ⟨s', hs', rfl⟩ := Option.map_eq_some_iff.mp h
    cases pre with
    | nil =>
      -- an `OP_RETURN` at depth zero would have ended the script
      obtain ⟨rfl, -⟩ := List.cons.inj hs
      exact absurd ⟨hi, hd⟩ hret
    | cons p pre =>
      obtain ⟨rfl, hs''⟩ := List.cons.inj hs
      exact ih hs' hs'' hd

/-- Reading a script fails exactly when a push at an instruction boundary, before any
`OP_RETURN` outside every block, runs past the end. A script that is read is written back byte
for byte, and an `OP_RETURN` outside every block is its last instruction and holds every byte
after its opcode. -/
theorem parse?_fails_iff_truncated_and_unparse?_restores (bytes : Bytes) :
    (parse? bytes = none ↔ Truncated 0 bytes) ∧
      ∀ s, parse? bytes = some s → unparse? s = .ok bytes ∧
        ∀ pre i post, s = pre ++ i :: post → i.value = 0x6a → depthAfter 0 pre = 0 →
          post = [] ∧ ∃ head, unparse? pre = .ok head ∧ bytes = head ++ 0x6a :: i.data := by
  refine ⟨⟨truncated_of_parseAt_eq_none, parseAt_eq_none_of_truncated⟩, fun s hs => ?_⟩
  have hround : unparse? s = .ok bytes := unparse?_of_parseAt hs
  refine ⟨hround, fun pre i post hsplit hi hd => ?_⟩
  have hpost : post = [] := parseAt_return_last hs hsplit hi hd
  subst hsplit hpost
  obtain ⟨head, tail, hpre, hlast, rfl⟩ := unparse?_append_ok hround
  -- the terminating `OP_RETURN` is written as its opcode and its data
  obtain ⟨hfit, henc⟩ := encode_return hi
  rw [unparse?_cons hfit rfl, henc, List.append_nil] at hlast
  cases hlast
  exact ⟨rfl, head, hpre, rfl⟩

/-- A terminating `OP_RETURN` keeps a truncated push after it as data. -/
example : parse? [0x51, 0x6a, 0x4c] = some [Instruction.ofByte 0x51, Instruction.ofByte 0x6a [0x4c]] := by
  simp [parse?, parseAt]

example : Truncated 0 [0x4d, 0x01] := .here (by decide) (by simp [PushTruncated, prefixWidth, announced])

end Script

end BitcoinScript
