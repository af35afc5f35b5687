import BitcoinScript.Proofs.Multisig

/-!
# The shift opcodes are fixed-width bit shifts

`OP_LSHIFT` and `OP_RSHIFT` read an item as a big-endian string of `8 * length` bits and shift it
by a popped amount, keeping the width. The byte loops of `Bytes.shiftLeft` and `Bytes.shiftRight`
build each output byte from two source bytes, a byte offset and a bit offset apart. Each output
bit is traced back here to the one source bit it copies (`Bytes.testBit_getD_shiftLeft`,
`Bytes.testBit_getD_shiftRight`), and a big-endian string is determined by its bits
(`Bytes.beValue_eq_of_testBit`). So the left shift multiplies by `2 ^ n` modulo the width, the
right shift divides by `2 ^ n` (`Bytes.beValue_shiftLeft`, `Bytes.beValue_shiftRight`), and a shift
by at least the width clears the string: the handler's clamp of amounts beyond 64 bits to the
largest machine word changes nothing.
-/

set_option autoImplicit false

namespace BitcoinScript

namespace Bytes

/-! ## The bits of a big-endian string -/

theorem testBit_toNat_of_le (a : UInt8) {k : Nat} (h : 8 ≤ k) : a.toNat.testBit k = false :=
  Nat.testBit_lt_two_pow (lt_of_lt_of_le a.toNat_lt (Nat.pow_le_pow_right (by decide) h))

/-- Bit `j` of a little-endian value is bit `j % 8` of byte `j / 8`. -/
theorem testBit_leValue (l : Bytes) (j : Nat) :
    (leValue l).testBit j =
      (decide (j < 8 * l.length) && (l.getD (j / 8) 0).toNat.testBit (j % 8)) := by
  induction l generalizing j with
  | nil => simp
  | cons b l ih =>
    rw [leValue_cons, Nat.add_comm, show (256 : Nat) = 2 ^ 8 from rfl,
      Nat.testBit_two_pow_mul_add _ b.toNat_lt]
    by_cases hj : j < 8
    · have h8 : j / 8 = 0 := by omega
      simp [hj, h8, Nat.mod_eq_of_lt hj]
      omega
    · -- past the first byte, the bits are those of the rest, eight places down
      have h8 : j / 8 = (j - 8) / 8 + 1 := by omega
      have hm : (j - 8) % 8 = j % 8 := by omega
      rw [if_neg hj, ih, h8, hm, List.getD_cons_succ, List.length_cons]
      congr 1
      simp only [decide_eq_decide]
      omega

theorem beValue_eq_leValue_reverse (l : Bytes) : beValue l = leValue l.reverse := by
  suffices h : ∀ a, l.foldl (fun acc b => 256 * acc + b.toNat) a =
      a * 256 ^ l.length + leValue l.reverse from by
    simpa [beValue] using h 0
  induction l with
  | nil => simp
  | cons b l ih =>
    intro a
    rw [List.foldl_cons, ih, List.reverse_cons, leValue_append, List.length_cons,
      List.length_reverse]
    simp [Nat.pow_succ]
    ring

/-- Bit `j` of a big-endian value is bit `j % 8` of byte `j / 8` counted from the end. -/
theorem testBit_beValue (l : Bytes) (j : Nat) :
    (beValue l).testBit j =
      (decide (j < 8 * l.length) && (l.getD (l.length - 1 - j / 8) 0).toNat.testBit (j % 8)) := by
  rw [beValue_eq_leValue_reverse, testBit_leValue, List.length_reverse]
  by_cases hj : j < 8 * l.length
  · simp only [hj, decide_true, Bool.true_and, List.getD_eq_getElem?_getD,
      List.getElem?_reverse (show j / 8 < l.length by omega)]
  · simp [hj]

theorem beValue_lt (l : Bytes) : beValue l < 2 ^ (8 * l.length) := by
  rw [beValue_eq_leValue_reverse, Nat.pow_mul, ← List.length_reverse]
  exact leValue_lt _

/-- A byte string is the big-endian string of a value below `2 ^ (8 * length)` when bit `b` of
its byte `i` is the value's bit `b` of that byte's place. -/
theorem beValue_eq_of_testBit {l : Bytes} {v : Nat} (hv : v < 2 ^ (8 * l.length))
    (h : ∀ i < l.length, ∀ b < 8,
      (l.getD i 0).toNat.testBit b = v.testBit (8 * (l.length - 1 - i) + b)) :
    beValue l = v := by
  apply Nat.eq_of_testBit_eq
  intro j
  rw [testBit_beValue]
  by_cases hj : j < 8 * l.length
  · have hi : l.length - 1 - j / 8 < l.length := by omega
    have hplace : j = 8 * (l.length - 1 - (l.length - 1 - j / 8)) + j % 8 := by omega
    rw [decide_eq_true hj, Bool.true_and, h _ hi _ (Nat.mod_lt _ (by decide)), ← hplace]
  · rw [decide_eq_false hj, Bool.false_and, Nat.testBit_lt_two_pow
      (lt_of_lt_of_le hv (Nat.pow_le_pow_right (by decide) (by omega)))]

/-! ## One byte of a shift -/

theorem toNat_ofNat_of_lt {r : Nat} (h : r < 256) : (UInt8.ofNat r).toNat = r := by
  simp [UInt8.toNat_ofNat', Nat.mod_eq_of_lt h]

theorem testBit_uint8_shiftLeft (a : UInt8) {r : Nat} (hr : r < 8) {b : Nat} (hb : b < 8) :
    (a <<< UInt8.ofNat r).toNat.testBit b = (decide (r ≤ b) && a.toNat.testBit (b - r)) := by
  rw [UInt8.toNat_shiftLeft, toNat_ofNat_of_lt (by omega), Nat.mod_eq_of_lt hr,
    Nat.testBit_mod_two_pow, Nat.shiftLeft_eq, Nat.testBit_mul_two_pow]
  simp [hb]

theorem testBit_uint8_shiftRight (a : UInt8) {r : Nat} (hr : r < 8) (b : Nat) :
    (a >>> UInt8.ofNat r).toNat.testBit b = a.toNat.testBit (r + b) := by
  rw [UInt8.toNat_shiftRight, toNat_ofNat_of_lt (by omega), Nat.mod_eq_of_lt hr,
    Nat.testBit_shiftRight]

theorem eight_sub_ofNat {r : Nat} (h : r ≤ 8) :
    (8 : UInt8) - UInt8.ofNat r = UInt8.ofNat (8 - r) := by
  interval_cases r <;> rfl

theorem ofNat_pos_iff {r : Nat} (h : r < 256) : 0 < UInt8.ofNat r ↔ 0 < r := by
  rw [UInt8.lt_iff_toNat_lt, toNat_ofNat_of_lt h, UInt8.toNat_zero]

theorem byteOr0_toArray (x : Bytes) (k : Nat) : byteOr0 x.toArray k = x.getD k 0 := by
  simp only [byteOr0, Array.getD, List.getD_eq_getElem?_getD, List.size_toArray]
  split <;> simp_all

/-- Byte `i` of a left shift: the byte `n / 8` places on, shifted up by `n % 8` bits, with the
top bits of the byte after it carried in. -/
theorem getD_shiftLeft (x : Bytes) (n : Nat) {i : Nat} (hi : i < x.length) :
    (shiftLeft x n).getD i 0 =
      if i + n / 8 < x.length then
        if 0 < n % 8 ∧ i + n / 8 + 1 < x.length then
          x.getD (i + n / 8) 0 <<< UInt8.ofNat (n % 8) |||
            x.getD (i + n / 8 + 1) 0 >>> UInt8.ofNat (8 - n % 8)
        else x.getD (i + n / 8) 0 <<< UInt8.ofNat (n % 8)
      else 0 := by
  simp [shiftLeft, List.getD_eq_getElem?_getD, hi, byteOr0_toArray,
    ofNat_pos_iff (show n % 8 < 256 by omega), eight_sub_ofNat (show n % 8 ≤ 8 by omega)]

/-- Byte `i` of a right shift: the byte `n / 8` places back, shifted down by `n % 8` bits, with the
low bits of the byte before it carried in. -/
theorem getD_shiftRight (x : Bytes) (n : Nat) {i : Nat} (hi : i < x.length) :
    (shiftRight x n).getD i 0 =
      if n / 8 ≤ i then
        if 0 < n % 8 ∧ 0 < i - n / 8 then
          x.getD (i - n / 8) 0 >>> UInt8.ofNat (n % 8) |||
            x.getD (i - n / 8 - 1) 0 <<< UInt8.ofNat (8 - n % 8)
        else x.getD (i - n / 8) 0 >>> UInt8.ofNat (n % 8)
      else 0 := by
  simp [shiftRight, List.getD_eq_getElem?_getD, hi, byteOr0_toArray,
    ofNat_pos_iff (show n % 8 < 256 by omega), eight_sub_ofNat (show n % 8 ≤ 8 by omega)]

/-- Bit `b` of byte `i` of a left shift sits at place `j = 8 * (length - 1 - i) + b` and copies
the source bit at place `j - n`, or is zero when `j < n`. -/
theorem testBit_getD_shiftLeft (x : Bytes) (n : Nat) {i b : Nat} (hi : i < x.length)
    (hb : b < 8) :
    ((shiftLeft x n).getD i 0).toNat.testBit b =
      (decide (n ≤ 8 * (x.length - 1 - i) + b) &&
        (beValue x).testBit (8 * (x.length - 1 - i) + b - n)) := by
  have hr : n % 8 < 8 := Nat.mod_lt _ (by decide)
  rw [getD_shiftLeft x n hi, testBit_beValue]
  by_cases hsrc : i + n / 8 < x.length
  · rw [if_pos hsrc]
    by_cases hhigh : n % 8 ≤ b
    · -- the bit comes from the byte `n / 8` places on, shifted up
      have hidx : x.length - 1 - (8 * (x.length - 1 - i) + b - n) / 8 = i + n / 8 := by omega
      have hbit : (8 * (x.length - 1 - i) + b - n) % 8 = b - n % 8 := by omega
      have hin : n ≤ 8 * (x.length - 1 - i) + b := by omega
      have hwidth : 8 * (x.length - 1 - i) + b - n < 8 * x.length := by omega
      have hA : (x.getD (i + n / 8) 0 <<< UInt8.ofNat (n % 8)).toNat.testBit b =
          (x.getD (i + n / 8) 0).toNat.testBit (b - n % 8) := by
        rw [testBit_uint8_shiftLeft _ hr hb, decide_eq_true hhigh, Bool.true_and]
      rw [hidx, hbit]
      split
      · have hB : (x.getD (i + n / 8 + 1) 0 >>> UInt8.ofNat (8 - n % 8)).toNat.testBit b =
            false := by
          rw [testBit_uint8_shiftRight _ (by omega), testBit_toNat_of_le _ (by omega)]
        rw [UInt8.toNat_or, Nat.testBit_or, hA, hB, Bool.or_false]
        simp only [hin, hwidth, decide_true, Bool.true_and]
      · rw [hA]
        simp only [hin, hwidth, decide_true, Bool.true_and]
    · -- the bit comes from the byte after that one, shifted down
      have hA : (x.getD (i + n / 8) 0 <<< UInt8.ofNat (n % 8)).toNat.testBit b = false := by
        rw [testBit_uint8_shiftLeft _ hr hb, decide_eq_false hhigh, Bool.false_and]
      split
      · have hidx : x.length - 1 - (8 * (x.length - 1 - i) + b - n) / 8 = i + n / 8 + 1 := by
          omega
        have hbit : (8 * (x.length - 1 - i) + b - n) % 8 = 8 - n % 8 + b := by omega
        have hin : n ≤ 8 * (x.length - 1 - i) + b := by omega
        have hwidth : 8 * (x.length - 1 - i) + b - n < 8 * x.length := by omega
        rw [UInt8.toNat_or, Nat.testBit_or, hA, Bool.false_or,
          testBit_uint8_shiftRight _ (by omega), hidx, hbit]
        simp only [hin, hwidth, decide_true, Bool.true_and]
      · -- the last source byte has no byte after it: the bit was shifted in as zero
        have hlt : ¬ n ≤ 8 * (x.length - 1 - i) + b := by omega
        rw [hA]
        simp only [hlt, decide_false, Bool.false_and]
  · have hlt : ¬ n ≤ 8 * (x.length - 1 - i) + b := by omega
    simp [hsrc, hlt]

/-- Bit `b` of byte `i` of a right shift sits at place `j = 8 * (length - 1 - i) + b` and copies
the source bit at place `j + n`. -/
theorem testBit_getD_shiftRight (x : Bytes) (n : Nat) {i b : Nat} (hi : i < x.length)
    (hb : b < 8) :
    ((shiftRight x n).getD i 0).toNat.testBit b =
      (beValue x).testBit (8 * (x.length - 1 - i) + b + n) := by
  have hr : n % 8 < 8 := Nat.mod_lt _ (by decide)
  rw [getD_shiftRight x n hi, testBit_beValue]
  by_cases hsrc : n / 8 ≤ i
  · rw [if_pos hsrc]
    by_cases hlow : b + n % 8 < 8
    · -- the bit comes from the byte `n / 8` places back, shifted down
      have hidx : x.length - 1 - (8 * (x.length - 1 - i) + b + n) / 8 = i - n / 8 := by omega
      have hbit : (8 * (x.length - 1 - i) + b + n) % 8 = n % 8 + b := by omega
      have hwidth : 8 * (x.length - 1 - i) + b + n < 8 * x.length := by omega
      have hA : (x.getD (i - n / 8) 0 >>> UInt8.ofNat (n % 8)).toNat.testBit b =
          (x.getD (i - n / 8) 0).toNat.testBit (n % 8 + b) :=
        testBit_uint8_shiftRight _ hr b
      rw [hidx, hbit]
      split
      · have hB : (x.getD (i - n / 8 - 1) 0 <<< UInt8.ofNat (8 - n % 8)).toNat.testBit b =
            false := by
          rw [testBit_uint8_shiftLeft _ (by omega) hb, decide_eq_false (by omega), Bool.false_and]
        rw [UInt8.toNat_or, Nat.testBit_or, hA, hB, Bool.or_false]
        simp only [hwidth, decide_true, Bool.true_and]
      · rw [hA]
        simp only [hwidth, decide_true, Bool.true_and]
    · -- the bit comes from the byte before that one, shifted up
      have hA : (x.getD (i - n / 8) 0 >>> UInt8.ofNat (n % 8)).toNat.testBit b = false := by
        rw [testBit_uint8_shiftRight _ hr b, testBit_toNat_of_le _ (by omega)]
      split
      · have hidx : x.length - 1 - (8 * (x.length - 1 - i) + b + n) / 8 = i - n / 8 - 1 := by
          omega
        have hbit : (8 * (x.length - 1 - i) + b + n) % 8 = b - (8 - n % 8) := by omega
        have hwidth : 8 * (x.length - 1 - i) + b + n < 8 * x.length := by omega
        rw [UInt8.toNat_or, Nat.testBit_or, hA, Bool.false_or,
          testBit_uint8_shiftLeft _ (by omega) hb, decide_eq_true (by omega), Bool.true_and, hidx,
          hbit]
        simp only [hwidth, decide_true, Bool.true_and]
      · -- the first source byte has no byte before it: the bit was shifted in as zero
        have hwidth : ¬ 8 * (x.length - 1 - i) + b + n < 8 * x.length := by omega
        rw [hA]
        simp only [hwidth, decide_false, Bool.false_and]
  · have hwidth : ¬ 8 * (x.length - 1 - i) + b + n < 8 * x.length := by omega
    simp [hsrc, hwidth]

/-! ## The values of the shifts -/

/-- The left shift multiplies by `2 ^ n` and drops what leaves the width. -/
theorem beValue_shiftLeft (x : Bytes) (n : Nat) :
    beValue (shiftLeft x n) = beValue x * 2 ^ n % 2 ^ (8 * x.length) := by
  apply beValue_eq_of_testBit
  · rw [length_shiftLeft]
    exact Nat.mod_lt _ (Nat.two_pow_pos _)
  intro i hi b hb
  rw [length_shiftLeft] at hi ⊢
  rw [testBit_getD_shiftLeft x n hi hb, Nat.testBit_mod_two_pow, Nat.testBit_mul_two_pow,
    decide_eq_true (show 8 * (x.length - 1 - i) + b < 8 * x.length by omega), Bool.true_and]

/-- The right shift divides by `2 ^ n`, rounding down. -/
theorem beValue_shiftRight (x : Bytes) (n : Nat) :
    beValue (shiftRight x n) = beValue x / 2 ^ n := by
  apply beValue_eq_of_testBit
  · rw [length_shiftRight]
    exact lt_of_le_of_lt (Nat.div_le_self _ _) (beValue_lt x)
  intro i hi b hb
  rw [length_shiftRight] at hi ⊢
  rw [testBit_getD_shiftRight x n hi hb, Nat.testBit_div_two_pow]

example : shiftLeft [0x01, 0x80] 1 = [0x03, 0x00] := by decide

example : shiftRight [0x01, 0x80] 9 = [0x00, 0x00] := by decide

/-- A string whose every byte reads zero is all zeros. -/
theorem eq_replicate_zero_of_getD {y : Bytes} (h : ∀ i < y.length, y.getD i 0 = 0) :
    y = List.replicate y.length 0 := by
  rw [List.eq_replicate_iff]
  refine ⟨rfl, fun c hc => ?_⟩
  obtain ⟨i, hi, rfl⟩ := List.getElem_of_mem hc
  rw [← List.getD_eq_getElem _ 0 hi]
  exact h i hi

/-- A shift by at least the width clears the string. -/
theorem shiftLeft_of_width_le (x : Bytes) {n : Nat} (h : 8 * x.length ≤ n) :
    shiftLeft x n = List.replicate x.length 0 := by
  rw [← length_shiftLeft x n]
  refine eq_replicate_zero_of_getD fun i hi => ?_
  rw [length_shiftLeft] at hi
  rw [getD_shiftLeft x n hi, if_neg (by omega)]

theorem shiftRight_of_width_le (x : Bytes) {n : Nat} (h : 8 * x.length ≤ n) :
    shiftRight x n = List.replicate x.length 0 := by
  rw [← length_shiftRight x n]
  refine eq_replicate_zero_of_getD fun i hi => ?_
  rw [length_shiftRight] at hi
  rw [getD_shiftRight x n hi, if_neg (by omega)]

end Bytes

/-! ## The opcodes -/

namespace Exec

theorem perform_of_shiftLeft {op : Instruction} (hop : op.opcode.operation = .shiftLeft) :
    perform op = shift Bytes.shiftLeft := by
  unfold perform
  rw [hop]

theorem perform_of_shiftRight {op : Instruction} (hop : op.opcode.operation = .shiftRight) :
    perform op = shift Bytes.shiftRight := by
  unfold perform
  rw [hop]

/-- A push puts the item on the data stack and changes nothing else but the transcript. -/
theorem push_run (y : Bytes) (m : Machine) :
    ∃ m', push y m = .ok () m' ∧ m' =
      { m with
        dstack := { m.dstack with items := y :: m.dstack.items, events := [] }
        log := m'.log } := by
  simp only [push, onData, Stack.push]
  exact ⟨_, rfl, rfl⟩

/-- On an amount `n` above an item `x`, a shift handler pops both; it then refuses a negative
amount and otherwise pushes `f x n`. -/
theorem shift_run (f : Bytes → Nat → Bytes) {m : Machine} {a x : Bytes} {rest : List Bytes}
    {n : Int} (hstack : m.dstack.items = a :: x :: rest)
    (hn : Number.decode? a m.dstack.minimal m.dstack.maxNumLen = .ok n) :
    ∃ m', m' = { m with dstack := { m.dstack with items := rest, events := [] }, log := m'.log } ∧
      shift f m =
        if n < 0 then .error (.numberTooSmall .shiftNegative) m' else push (f x n.toNat) m' := by
  obtain ⟨m₁, h₁, hm₁⟩ := onData_popNum_run hstack hn
  have h₁' : popNum m = .ok n m₁ := h₁
  have hstack₁ : m₁.dstack.items = x :: rest := by rw [hm₁]
  obtain ⟨m₂, h₂, hm₂⟩ := onData_pop_run hstack₁
  have h₂' : pop m₁ = .ok x m₂ := h₂
  refine ⟨m₂, by rw [hm₂, hm₁], ?_⟩
  unfold shift
  rw [bind_run_of_ok h₁', bind_run_of_ok h₂']
  split
  · rfl
  · rfl

/-- What a shift opcode does to an amount `n`, read by the stack's number rule, above an item `x`:
a negative amount fails with `NumberTooSmall`, any other is popped with the item and `f x n` is
pushed in their place, nothing else changing but the transcript. -/
def ShiftsBy (op : Instruction) (f : Bytes → Nat → Bytes) : Prop :=
  ∀ (m : Machine) (a x : Bytes) (rest : List Bytes) (n : Int),
    m.dstack.items = a :: x :: rest → Number.decode? a m.dstack.minimal m.dstack.maxNumLen = .ok n →
    (n < 0 → ∃ m', perform op m = .error (.numberTooSmall .shiftNegative) m') ∧
    (0 ≤ n → ∃ m', perform op m = .ok () m' ∧
      m' = { m with
        dstack := { m.dstack with items := f x n.toNat :: rest, events := [] }
        log := m'.log })

theorem shiftsBy_of_perform {op : Instruction} {f : Bytes → Nat → Bytes}
    (hop : perform op = shift f) : ShiftsBy op f := by
  intro m a x rest n hstack hn
  obtain ⟨m₁, hm₁, hrun⟩ := shift_run f hstack hn
  rw [hop, hrun]
  refine ⟨fun hneg => ⟨m₁, if_pos hneg⟩, fun hnonneg => ?_⟩
  obtain ⟨m₂, hpush, hm₂⟩ := push_run (f x n.toNat) m₁
  refine ⟨m₂, by rw [if_neg (by omega), hpush], ?_⟩
  rw [hm₂, hm₁]

end Exec

/-- `OP_LSHIFT` and `OP_RSHIFT` are big-endian bit shifts of fixed width. Read as a natural number
of `8 * length` bits, an item shifted left by `n` keeps its length and has the value
`x * 2 ^ n mod 2 ^ (8 * length)`; shifted right it keeps its length and has the value
`x / 2 ^ n`. Any two amounts at least the width give the same, cleared string, so an amount
beyond 64 bits, clamped by the handler to the largest machine word, is shifted by its exact
value. Each opcode pops a non-negative amount and an item and pushes that shift of the item by
the exact amount, and fails with `NumberTooSmall` on a negative amount. -/
theorem shift_opcodes_are_fixed_width_bit_shifts :
    (∀ (x : Bytes) (n : Nat), (Bytes.shiftLeft x n).length = x.length ∧
      Bytes.beValue (Bytes.shiftLeft x n) = Bytes.beValue x * 2 ^ n % 2 ^ (8 * x.length)) ∧
    (∀ (x : Bytes) (n : Nat), (Bytes.shiftRight x n).length = x.length ∧
      Bytes.beValue (Bytes.shiftRight x n) = Bytes.beValue x / 2 ^ n) ∧
    (∀ (x : Bytes) (n k : Nat), 8 * x.length ≤ n → 8 * x.length ≤ k →
      Bytes.shiftLeft x n = Bytes.shiftLeft x k ∧ Bytes.shiftRight x n = Bytes.shiftRight x k) ∧
    (∀ op : Instruction, op.opcode.operation = .shiftLeft → Exec.ShiftsBy op Bytes.shiftLeft) ∧
    (∀ op : Instruction, op.opcode.operation = .shiftRight → Exec.ShiftsBy op Bytes.shiftRight) := by
  refine ⟨fun x n => ⟨Bytes.length_shiftLeft x n, Bytes.beValue_shiftLeft x n⟩,
    fun x n => ⟨Bytes.length_shiftRight x n, Bytes.beValue_shiftRight x n⟩,
    fun x n k hn hk => ?_,
    fun op hop => Exec.shiftsBy_of_perform (Exec.perform_of_shiftLeft hop),
    fun op hop => Exec.shiftsBy_of_perform (Exec.perform_of_shiftRight hop)⟩
  rw [Bytes.shiftLeft_of_width_le x hn, Bytes.shiftLeft_of_width_le x hk,
    Bytes.shiftRight_of_width_le x hn, Bytes.shiftRight_of_width_le x hk]
  exact ⟨rfl, rfl⟩

end BitcoinScript
