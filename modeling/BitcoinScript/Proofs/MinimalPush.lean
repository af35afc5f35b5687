import BitcoinScript.Proofs.Unparse
import BitcoinScript.Proofs.Limits

/-!
# Minimal pushes

Under MINIMALDATA a data push must be minimal (`Instruction.isMinimalPush`): the empty string by
`OP_0`, the numbers 1 to 16 and -1 by their own one-byte opcodes (so never by a data push), other
data up to 75 bytes by the direct push of its length, and longer data by the narrowest length
prefix that holds it. That is exactly the push written shorter than every other push of the same
item (`isMinimalPush_iff_strictly_shortest`).

An instruction places an item when it runs as a push of its inline data or of the number of
`OP_1NEGATE` and `OP_1` to `OP_16` (`Instruction.pushedItem?`, which `perform_of_pushedItem?`
ties to execution). The one-byte numbers have a one-byte push, so no data push of them is minimal
or shortest. Every other item is placed by data pushes only; these are written as opcode, length
prefix and data, so their lengths differ by the prefix widths alone, and the shortest is the one
with the narrowest prefix that fits (`Script.shortestPushCode`).
-/

set_option autoImplicit false

namespace BitcoinScript

namespace Instruction

/-- The item an instruction puts on the stack when it runs, for a push: its data for a data push,
the encoding of its number for `OP_1NEGATE` and `OP_1` to `OP_16`. -/
def pushedItem? (i : Instruction) : Option Bytes :=
  match i.opcode.operation with
  | .pushData => some i.data
  | .pushSmall n => some (Number.encode n)
  | _ => none

end Instruction

/-- The items with a one-byte push of their own: the numbers 1 to 16 and -1. -/
def SmallItem (d : Bytes) : Prop :=
  d = [0x81] ∨ ∃ b : UInt8, 1 ≤ b.toNat ∧ b.toNat ≤ 16 ∧ d = [b]

namespace Script

/-- The opcode of the shortest data push of `len` bytes: `OP_0` for none, the direct push up to
75 bytes, then the narrowest length prefix. -/
def shortestPushCode (len : Nat) : Nat :=
  if len = 0 then 0 else if len ≤ 75 then len else if len ≤ 0xff then 0x4c
  else if len ≤ 0xffff then 0x4d else 0x4e

/-- The data push `v` carries `len` bytes: `OP_0` none, a direct push its own number, a prefixed
push as many as its prefix holds. -/
def PushFits (v len : Nat) : Prop :=
  (v = 0 ∧ len = 0) ∨ (1 ≤ v ∧ v ≤ 75 ∧ len = v) ∨ (v = 0x4c ∧ len < 0x100) ∨
    (v = 0x4d ∧ len < 0x10000) ∨ (v = 0x4e ∧ len < 0x100000000)

/-- The width of the length prefix after the data push `v`. -/
def pushPrefixWidth (v : Nat) : Nat :=
  if v = 0x4c then 1 else if v = 0x4d then 2 else if v = 0x4e then 4 else 0

theorem prefixWidth_eq (b : UInt8) : prefixWidth b = pushPrefixWidth b.toNat := by
  simp only [prefixWidth, pushPrefixWidth, eq_iff_toNat, UInt8.reduceToNat]

theorem pushPrefixWidth_cases (v : Nat) :
    (v = 0x4c ∧ pushPrefixWidth v = 1) ∨ (v = 0x4d ∧ pushPrefixWidth v = 2) ∨
      (v = 0x4e ∧ pushPrefixWidth v = 4) ∨
      (v ≠ 0x4c ∧ v ≠ 0x4d ∧ v ≠ 0x4e ∧ pushPrefixWidth v = 0) := by
  unfold pushPrefixWidth
  split_ifs <;> omega

theorem shortestPushCode_cases (len : Nat) :
    (len = 0 ∧ shortestPushCode len = 0) ∨ (1 ≤ len ∧ len ≤ 75 ∧ shortestPushCode len = len) ∨
      (76 ≤ len ∧ len ≤ 0xff ∧ shortestPushCode len = 0x4c) ∨
      (0x100 ≤ len ∧ len ≤ 0xffff ∧ shortestPushCode len = 0x4d) ∨
      (0x10000 ≤ len ∧ shortestPushCode len = 0x4e) := by
  unfold shortestPushCode
  split_ifs <;> omega

/-- The shortest code carries every length a push can carry. -/
theorem pushFits_shortestPushCode {len : Nat} (h : len < 0x100000000) :
    PushFits (shortestPushCode len) len := by
  unfold PushFits
  rcases shortestPushCode_cases len with ⟨_, hs⟩ | ⟨_, _, hs⟩ | ⟨_, _, hs⟩ | ⟨_, _, hs⟩ | ⟨_, hs⟩ <;>
    omega

/-- Among the data pushes that carry `len` bytes, the shortest code is the one whose prefix is
narrower than that of every other. -/
theorem shortestPushCode_iff {v len : Nat} (hv : v ≤ 0x4e) (hfit : PushFits v len) :
    v = shortestPushCode len ↔ ∀ v', v' ≤ 0x4e → v' ≠ v → PushFits v' len →
      pushPrefixWidth v < pushPrefixWidth v' := by
  unfold PushFits at hfit
  have hc := shortestPushCode_cases len
  have hw := pushPrefixWidth_cases v
  constructor
  · intro heq v' _ hne hfit'
    unfold PushFits at hfit'
    have hw' := pushPrefixWidth_cases v'
    -- by the length class of `len`, which fixes the shortest code
    rcases hc with ⟨_, hs⟩ | ⟨_, _, hs⟩ | ⟨_, _, hs⟩ | ⟨_, _, hs⟩ | ⟨_, hs⟩ <;> omega
  · intro h
    by_contra hne
    -- the shortest code fits as well, and its prefix is no wider than that of `v`
    have hfit' := pushFits_shortestPushCode (show len < 0x100000000 by omega)
    have hlt := h (shortestPushCode len) (by omega) (Ne.symm hne) hfit'
    have hw' := pushPrefixWidth_cases (shortestPushCode len)
    rcases hc with ⟨_, hs⟩ | ⟨_, _, hs⟩ | ⟨_, _, hs⟩ | ⟨_, _, hs⟩ | ⟨_, hs⟩ <;> omega

end Script

namespace Opcode

theorem operation_of_le {op : Opcode} (hb : op.value ≤ 0x4e) : op.operation = .pushData := by
  have hb' : op.value.toNat ≤ 0x4e := UInt8.le_iff_toNat_le.mp hb
  simp only [operation, hb', if_true]

/-- Only the opcodes up to `OP_PUSHDATA4` push inline data. -/
theorem le_of_pushData {op : Opcode} (h : op.operation = .pushData) : op.value ≤ 0x4e := by
  unfold Opcode.operation at h
  dsimp only at h
  rw [UInt8.le_iff_toNat_le]
  split_ifs at h with hle
  · exact hle
  · exact absurd h (operationTable_getD_not_push _).1

/-- `OP_1NEGATE` pushes -1 and `OP_1` to `OP_16` push 1 to 16; no other opcode pushes a small
number. -/
theorem pushSmall_cases {op : Opcode} {n : Int} (h : op.operation = .pushSmall n) :
    (op.value.toNat = 0x4f ∧ n = -1) ∨
      (0x51 ≤ op.value.toNat ∧ op.value.toNat ≤ 0x60 ∧ n = op.value.toNat - 0x50) := by
  unfold Opcode.operation at h
  dsimp only at h
  split_ifs at h
  · simp only [Operation.pushSmall.injEq] at h
    omega
  · simp only [Operation.pushSmall.injEq] at h
    omega
  · exact absurd h ((operationTable_getD_not_push _).2 n)

end Opcode

namespace Number

theorem encode_small_positive :
    ∀ b : UInt8, 0x51 ≤ b.toNat → b.toNat ≤ 0x60 → encode ((b.toNat : Int) - 0x50) = [b - 0x50] := by
  decide +kernel

theorem encode_minus_one : encode (-1) = [0x81] := by decide +kernel

end Number

namespace Instruction

/-- What a push places is what running it pushes, on every machine. -/
theorem perform_of_pushedItem? {i : Instruction} {x : Bytes} (h : i.pushedItem? = some x)
    (m : Machine) : Exec.perform i m = Exec.push x m := by
  unfold pushedItem? at h
  split at h
  · next hop =>
    cases h
    unfold Exec.perform
    rw [hop]
  · next n hop =>
    cases h
    unfold Exec.perform
    rw [hop]
    -- the small numbers are their own 32-bit clamps
    have hclamp : Number.clampI32 n = n := by
      have := Opcode.natAbs_le_of_pushSmall hop
      unfold Number.clampI32 Number.maxI32 Number.minI32
      split_ifs <;> omega
    show Exec.onData (Stack.pushNum n) m = Exec.onData (Stack.push (Number.encode n)) m
    unfold Stack.pushNum
    cases m.dstack.afterGenesis <;> simp [hclamp, bind, EStateM.bind, get, getThe,
      MonadStateOf.get, EStateM.get, Exec.onData]
  · cases h

/-- A push of a small number places a small item. -/
theorem smallItem_of_pushSmall {j : Instruction} {n : Int} (hop : j.opcode.operation = .pushSmall n) :
    SmallItem (Number.encode n) := by
  rcases Opcode.pushSmall_cases hop with ⟨-, rfl⟩ | ⟨hlo, hhi, rfl⟩
  · exact .inl Number.encode_minus_one
  · have hle : (0x50 : UInt8) ≤ j.opcode.value := UInt8.le_iff_toNat_le.mpr (by simp; omega)
    refine .inr ⟨j.opcode.value - 0x50, ?_, ?_, Number.encode_small_positive j.opcode.value hlo hhi⟩ <;>
      rw [UInt8.toNat_sub_of_le _ _ hle] <;> simp <;> omega

/-- An item that is not small is placed by data pushes only, as their data. -/
theorem dataPush_of_pushedItem? {j : Instruction} {d : Bytes} (hs : ¬ SmallItem d)
    (h : j.pushedItem? = some d) : j.opcode.operation = .pushData ∧ j.data = d := by
  unfold pushedItem? at h
  split at h
  · next hop => exact ⟨hop, Option.some.inj h⟩
  · next n hop =>
    cases h
    exact absurd (smallItem_of_pushSmall hop) hs
  · cases h

/-- A fitting data push is written as its opcode, a prefix of its opcode's width and its data. -/
theorem length_encode_of_push {i : Instruction} (hb : i.value ≤ 0x4e) (hf : i.fitsLength = true) :
    i.encode.length = 1 + Script.prefixWidth i.value + i.data.length := by
  obtain ⟨lenBytes, henc, hlen, -⟩ := Script.encode_of_push hb hf
  rw [henc, List.length_cons, List.length_append, hlen]
  omega

/-- A data push fits when its data has the length its opcode announces or its prefix holds. -/
theorem fitsLength_iff_of_push {i : Instruction} (hb : i.value ≤ 0x4e) :
    i.fitsLength = true ↔ Script.PushFits i.value.toNat i.data.length := by
  have hb' : i.value.toNat ≤ 0x4e := UInt8.le_iff_toNat_le.mp hb
  unfold fitsLength Script.PushFits
  rw [show i.opcode.pushLength = Opcode.pushLength ⟨i.value⟩ from rfl, Script.pushLength_of_le hb,
    Script.prefixWidth_eq]
  simp only [Script.eq_iff_toNat, UInt8.reduceToNat]
  have hw := Script.pushPrefixWidth_cases i.value.toNat
  split_ifs with h0 hw0
  · -- `OP_0` carries nothing
    simp only [Bool.or_eq_true, decide_eq_true_eq, List.isEmpty_iff_length_eq_zero]
    omega
  · -- a direct push carries its own number of bytes
    simp only [decide_eq_true_eq]
    omega
  · -- a prefixed push carries as many bytes as its prefix holds
    rcases hw with ⟨hv, hw⟩ | ⟨hv, hw⟩ | ⟨hv, hw⟩ | ⟨-, -, -, hw⟩ <;>
      simp only [hw, decide_eq_true_eq, Nat.pow_eq] <;> omega

/-- A one-byte number pushed by a data push is never minimal: it has an opcode of its own. -/
theorem isMinimalPush_of_small {i : Instruction} (hb : i.value ≤ 0x4e) (hs : SmallItem i.data) :
    i.isMinimalPush = false := by
  have hb' : i.value.toNat ≤ 0x4e := UInt8.le_iff_toNat_le.mp hb
  unfold isMinimalPush
  rcases hs with hd | ⟨b, hlo, hhi, hd⟩
  · simp only [hd]
    simp
    omega
  · simp only [hd, hlo, hhi, and_self, if_true]
    simp
    omega

/-- Any other data push is minimal exactly when it has the code of the shortest push of its
length. -/
theorem isMinimalPush_iff_shortest {i : Instruction} (hb : i.value ≤ 0x4e)
    (hf : i.fitsLength = true) (hs : ¬ SmallItem i.data) :
    i.isMinimalPush = true ↔ i.value.toNat = Script.shortestPushCode i.data.length := by
  have hfit := (fitsLength_iff_of_push hb).mp hf
  unfold Script.PushFits at hfit
  have hc := Script.shortestPushCode_cases i.data.length
  unfold isMinimalPush
  rcases hd : i.data with _ | ⟨b, _ | ⟨c, rest⟩⟩
  · simp [Script.shortestPushCode]
  · -- a single byte that is no small number has the direct push
    have hsmall : ¬ (1 ≤ b.toNat ∧ b.toNat ≤ 16) := fun h => hs (.inr ⟨b, h.1, h.2, hd⟩)
    have hsign : b ≠ 0x81 := fun h => hs (.inl (by rw [hd, h]))
    simp [hsmall, hsign, Script.shortestPushCode]
  · rw [hd] at hfit hc
    simp only
    simp only [List.length_cons] at hfit hc ⊢
    split_ifs <;> simp <;> omega

theorem eq_of_value_data {i j : Instruction} (hv : i.value = j.value) (hd : i.data = j.data) :
    i = j := by
  obtain ⟨⟨v⟩, d⟩ := i
  obtain ⟨⟨w⟩, e⟩ := j
  simp only [value] at hv
  simp only at hd
  rw [hv, hd]

theorem oneBytePush_spec : ∀ b : UInt8, 1 ≤ b.toNat → b.toNat ≤ 16 →
    let j : Instruction := ⟨⟨b + 0x50⟩, []⟩
    0x4e < j.value ∧ j.fitsLength = true ∧ j.pushedItem? = some [b] ∧ j.encode.length = 1 := by
  decide +kernel

/-- A small item has a one-byte push of its own, which is no data push. -/
theorem exists_oneByte_push {d : Bytes} (hs : SmallItem d) :
    ∃ j : Instruction, 0x4e < j.value ∧ j.fitsLength = true ∧ j.pushedItem? = some d ∧
      j.encode.length = 1 := by
  rcases hs with rfl | ⟨b, hlo, hhi, rfl⟩
  · exact ⟨⟨⟨0x4f⟩, []⟩, by decide +kernel⟩
  · exact ⟨⟨⟨b + 0x50⟩, []⟩, oneBytePush_spec b hlo hhi⟩

end Instruction

/-- MINIMALDATA accepts exactly the strictly shortest push. An instruction places the item that
running it pushes: its data for a data push, its number for `OP_1NEGATE` and `OP_1` to `OP_16`.
A data push whose data fits its opcode's length class is minimal exactly when it is written
shorter than every other instruction that places the same item: every other data push of the
same data, `OP_0` for the empty string, `OP_1NEGATE` for `81` and `OP_1` to `OP_16` for `01` to
`10`. -/
theorem isMinimalPush_iff_strictly_shortest :
    (∀ (j : Instruction) (x : Bytes), j.pushedItem? = some x →
      ∀ m, Exec.perform j m = Exec.push x m) ∧
    ∀ i : Instruction, i.opcode.isDataPush = true → i.fitsLength = true →
      (i.isMinimalPush = true ↔ ∀ j : Instruction, j ≠ i → j.fitsLength = true →
        j.pushedItem? = some i.data → i.encode.length < j.encode.length) := by
  refine ⟨fun j x h => Instruction.perform_of_pushedItem? h, fun i hpush hf => ?_⟩
  have hb : i.value ≤ 0x4e := of_decide_eq_true hpush
  have hb' : i.value.toNat ≤ 0x4e := UInt8.le_iff_toNat_le.mp hb
  have hlen := Instruction.length_encode_of_push hb hf
  rw [Script.prefixWidth_eq] at hlen
  by_cases hs : SmallItem i.data
  · -- the number's own one-byte push is shorter, and `i` is not minimal
    rw [Instruction.isMinimalPush_of_small hb hs]
    obtain ⟨j, hjb, hfj, hitem, hjlen⟩ := Instruction.exists_oneByte_push hs
    have hjb' : 0x4e < j.value.toNat := UInt8.lt_iff_toNat_lt.mp hjb
    have hne : j ≠ i := fun h => by
      rw [h] at hjb'
      omega
    have hlong : 2 ≤ i.encode.length := by
      rcases hs with hd | ⟨b, -, -, hd⟩ <;> rw [hlen, hd] <;> simp
    simp only [Bool.false_eq_true, false_iff, not_forall]
    exact ⟨j, hne, hfj, hitem, by omega⟩
  · -- only data pushes of the same data compete, and they differ in their prefixes alone
    rw [Instruction.isMinimalPush_iff_shortest hb hf hs,
      Script.shortestPushCode_iff hb' ((Instruction.fitsLength_iff_of_push hb).mp hf)]
    constructor
    · intro h j hne hfj hitem
      obtain ⟨hop, hdata⟩ := Instruction.dataPush_of_pushedItem? hs hitem
      have hjb : j.value ≤ 0x4e := Opcode.le_of_pushData hop
      have hjv : j.value.toNat ≠ i.value.toNat := fun hv =>
        hne (Instruction.eq_of_value_data (UInt8.toNat_inj.mp hv) hdata)
      have hjfit := (Instruction.fitsLength_iff_of_push hjb).mp hfj
      rw [hdata] at hjfit
      have hwider := h j.value.toNat (UInt8.le_iff_toNat_le.mp hjb) hjv hjfit
      have hjlen := Instruction.length_encode_of_push hjb hfj
      rw [Script.prefixWidth_eq, hdata] at hjlen
      omega
    · intro h v' hv' hne hfit'
      -- the data push with code `v'` of the same data is longer
      have hjv : (⟨⟨v'.toUInt8⟩, i.data⟩ : Instruction).value.toNat = v' := by
        simp [Instruction.value]
        omega
      have hjb : (⟨⟨v'.toUInt8⟩, i.data⟩ : Instruction).value ≤ 0x4e := by
        rw [UInt8.le_iff_toNat_le, hjv]
        exact hv'
      have hfj := (Instruction.fitsLength_iff_of_push hjb).mpr (by rw [hjv]; exact hfit')
      have hitem : (⟨⟨v'.toUInt8⟩, i.data⟩ : Instruction).pushedItem? = some i.data := by
        simp only [Instruction.pushedItem?, Opcode.operation_of_le hjb]
      have hjne : (⟨⟨v'.toUInt8⟩, i.data⟩ : Instruction) ≠ i := fun h => hne (by rw [← hjv, h])
      have hlt := h _ hjne hfj hitem
      rw [hlen, Instruction.length_encode_of_push hjb hfj, Script.prefixWidth_eq, hjv] at hlt
      simp only at hlt
      omega

end BitcoinScript
