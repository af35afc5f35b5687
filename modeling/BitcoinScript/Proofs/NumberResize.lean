import BitcoinScript.Proofs.Shift
import BitcoinScript.Proofs.Minimize

/-!
# Resizing numbers: `OP_NUM2BIN` and `OP_BIN2NUM`

`OP_NUM2BIN` writes a number in a requested number of bytes: it minimises the item and pads it
with zero bytes, moving the sign bit from the last byte of the magnitude to a new last byte
(`Number.widen`). `OP_BIN2NUM` minimises an item. The two are inverse re-encodings: padding keeps
the number (`Number.value_widen`), and the minimiser writes the number an item denotes
(`Number.minimallyEncode_eq_encode_value`), so minimising a padded item gives back the minimal
encoding of the original one.
-/

set_option autoImplicit false

namespace BitcoinScript

namespace Number

theorem sign_low : ∀ x : UInt8, x &&& 0x80 &&& 0x7f = 0 := by decide +kernel

theorem sign_high : ∀ x : UInt8, x &&& 0x80 &&& 0x80 = x &&& 0x80 := by decide +kernel

/-- Padding keeps the number: the zero bytes add nothing to the magnitude, and the sign bit moves
to the new last byte, which carries nothing else. -/
theorem value_widen (num : Bytes) (size : Nat) : value (widen num size) = value num := by
  unfold widen
  split
  · rcases List.eq_nil_or_concat num with rfl | ⟨init, last, rfl⟩
    · simp only [List.getLast?_nil, List.nil_append, List.length_nil]
      rw [value_of_bare_sign _ (by decide), if_pos (by decide), Bytes.leValue_replicate_zero]
      rfl
    · simp only [List.concat_eq_append, List.getLast?_concat, List.dropLast_concat]
      rw [value_of_bare_sign _ (sign_low last), sign_high, Bytes.leValue_append,
        Bytes.leValue_replicate_zero, Nat.mul_zero, Nat.add_zero, value_concat]
  · rfl

/-- Minus five in four bytes: the sign moves past two zero bytes. -/
example : widen [0x85] 4 = [0x05, 0x00, 0x00, 0x80] := by decide

/-- The minimiser writes the number the item denotes. -/
theorem minimallyEncode_eq_encode_value (d : Bytes) : minimallyEncode d = encode (value d) := by
  obtain ⟨hmin, hval⟩ := minimallyEncode_minimal_value d
  rw [← hval, encode_value hmin]

end Number

namespace Exec

theorem perform_of_num2bin {op : Instruction} (hop : op.opcode.operation = .num2bin) :
    perform op = (do
      let size ← popNum
      let data ← pop
      let m ← get
      if size < 0 then throw (.numberTooSmall .sizeNegative)
      if size > m.limits.maxElementSize then throw (.numberTooBig .sizeBeyondMax)
      let num := Number.minimallyEncode data
      if num.length > size then throw (.numberTooSmall .cannotFit)
      push (Number.widen num size.toNat)) := by
  unfold perform
  rw [hop]

theorem perform_of_bin2num {op : Instruction} (hop : op.opcode.operation = .bin2num) :
    perform op = (do
      let data ← pop
      let m ← get
      let num := Number.minimallyEncode data
      if num.length > m.limits.maxNumLen then throw (.numberTooBig .beyondMaxLength)
      push num) := by
  unfold perform
  rw [hop]

/-- On a size `s` in range above an item `d`, `OP_NUM2BIN` pops both; it then refuses a size the
minimal encoding of `d` does not fit in, and otherwise pushes that encoding padded to `s` bytes. -/
theorem num2bin_run {op : Instruction} (hop : op.opcode.operation = .num2bin) {m : Machine}
    {a d : Bytes} {rest : List Bytes} {s : Int} (hstack : m.dstack.items = a :: d :: rest)
    (hs : Number.decode? a m.dstack.minimal m.dstack.maxNumLen = .ok s) (hlow : 0 ≤ s)
    (hhigh : s ≤ m.limits.maxElementSize) :
    ∃ m', m' = { m with dstack := { m.dstack with items := rest, events := [] }, log := m'.log } ∧
      perform op m = if s < (Number.minimallyEncode d).length
        then .error (.numberTooSmall .cannotFit) m'
        else push (Number.widen (Number.minimallyEncode d) s.toNat) m' := by
  obtain ⟨m₁, h₁, hm₁⟩ := onData_popNum_run hstack hs
  have h₁' : popNum m = .ok s m₁ := h₁
  have hstack₁ : m₁.dstack.items = d :: rest := by rw [hm₁]
  obtain ⟨m₂, h₂, hm₂⟩ := onData_pop_run hstack₁
  have h₂' : pop m₁ = .ok d m₂ := h₂
  have hlim : m₂.limits = m.limits := by rw [hm₂, hm₁]
  refine ⟨m₂, by rw [hm₂, hm₁], ?_⟩
  rw [perform_of_num2bin hop, bind_run_of_ok h₁', bind_run_of_ok h₂']
  simp only [get_bind_run, hlim]
  -- the size is in range, so only the fit is left to decide
  rw [if_neg (not_lt.mpr hlow), if_neg (not_lt.mpr hhigh), run_ite]
  rfl

/-- On an item `e`, `OP_BIN2NUM` pops it; it then refuses a minimal encoding beyond the number
length limit, and otherwise pushes it. -/
theorem bin2num_run {op : Instruction} (hop : op.opcode.operation = .bin2num) {m : Machine}
    {e : Bytes} {rest : List Bytes} (hstack : m.dstack.items = e :: rest) :
    ∃ m', m' = { m with dstack := { m.dstack with items := rest, events := [] }, log := m'.log } ∧
      perform op m = if m.limits.maxNumLen < (Number.minimallyEncode e).length
        then .error (.numberTooBig .beyondMaxLength) m'
        else push (Number.minimallyEncode e) m' := by
  obtain ⟨m₁, h₁, hm₁⟩ := onData_pop_run hstack
  have h₁' : pop m = .ok e m₁ := h₁
  have hlim : m₁.limits = m.limits := by rw [hm₁]
  refine ⟨m₁, hm₁, ?_⟩
  rw [perform_of_bin2num hop, bind_run_of_ok h₁']
  simp only [get_bind_run, hlim]
  rw [run_ite]
  rfl

/-- What `OP_NUM2BIN` does to a size `s`, read by the stack's number rule and between zero and the
element limit, above an item `d`: when the minimal encoding of `d` fits in `s` bytes, the two are
replaced by a string of exactly `s` bytes that denotes the number `d` denotes, nothing else
changing but the transcript; otherwise the opcode fails with `NumberTooSmall`. -/
def PadsNumbers (op : Instruction) : Prop :=
  ∀ (m : Machine) (a d : Bytes) (rest : List Bytes) (s : Int),
    m.dstack.items = a :: d :: rest → Number.decode? a m.dstack.minimal m.dstack.maxNumLen = .ok s →
    0 ≤ s → s ≤ m.limits.maxElementSize →
    ((Number.minimallyEncode d).length ≤ s → ∃ m' w, perform op m = .ok () m' ∧
      m' = { m with
        dstack := { m.dstack with items := w :: rest, events := [] }
        log := m'.log } ∧
      w.length = s.toNat ∧ Number.value w = Number.value d) ∧
    (s < (Number.minimallyEncode d).length →
      ∃ m', perform op m = .error (.numberTooSmall .cannotFit) m')

/-- What `OP_BIN2NUM` does to an item `e`: when the minimal encoding of the number `e` denotes is
within the number length limit, `e` is replaced by it, nothing else changing but the transcript;
otherwise the opcode fails with `NumberTooBig`. -/
def MinimizesNumbers (op : Instruction) : Prop :=
  ∀ (m : Machine) (e : Bytes) (rest : List Bytes), m.dstack.items = e :: rest →
    ((Number.encode (Number.value e)).length ≤ m.limits.maxNumLen → ∃ m', perform op m = .ok () m' ∧
      m' = { m with
        dstack := { m.dstack with items := Number.encode (Number.value e) :: rest, events := [] }
        log := m'.log }) ∧
    (m.limits.maxNumLen < (Number.encode (Number.value e)).length →
      ∃ m', perform op m = .error (.numberTooBig .beyondMaxLength) m')

theorem padsNumbers_of_num2bin {op : Instruction} (hop : op.opcode.operation = .num2bin) :
    PadsNumbers op := by
  intro m a d rest s hstack hs hlow hhigh
  obtain ⟨m₁, hm₁, hrun⟩ := num2bin_run hop hstack hs hlow hhigh
  refine ⟨fun hfit => ?_, fun hfit => ⟨m₁, by rw [hrun, if_pos hfit]⟩⟩
  obtain ⟨m₂, hpush, hm₂⟩ := push_run (Number.widen (Number.minimallyEncode d) s.toNat) m₁
  refine ⟨m₂, _, by rw [hrun, if_neg (not_lt.mpr hfit), hpush], by rw [hm₂, hm₁],
    Number.length_widen (by omega), ?_⟩
  rw [Number.value_widen, (Number.minimallyEncode_minimal_value d).2]

theorem minimizesNumbers_of_bin2num {op : Instruction} (hop : op.opcode.operation = .bin2num) :
    MinimizesNumbers op := by
  intro m e rest hstack
  obtain ⟨m₁, hm₁, hrun⟩ := bin2num_run hop hstack
  rw [← Number.minimallyEncode_eq_encode_value]
  refine ⟨fun hfit => ?_, fun hfit => ⟨m₁, by rw [hrun, if_pos hfit]⟩⟩
  obtain ⟨m₂, hpush, hm₂⟩ := push_run (Number.minimallyEncode e) m₁
  exact ⟨m₂, by rw [hrun, if_neg (not_lt.mpr hfit), hpush], by rw [hm₂, hm₁]⟩

end Exec

/-- `OP_NUM2BIN` and `OP_BIN2NUM` are inverse re-encodings. For a size `s` between zero and the
element limit above an item `d`, `OP_NUM2BIN` writes the number `d` denotes in exactly `s` bytes
when its minimal encoding fits, and fails with `NumberTooSmall` otherwise. For any item `e`,
`OP_BIN2NUM` writes the minimal encoding of the number `e` denotes, within the number length
limit, and fails with `NumberTooBig` beyond it. So `OP_BIN2NUM` on the result of `OP_NUM2BIN`
leaves the minimal encoding of `d` above the rest of the stack, or fails with `NumberTooBig` when
that encoding is longer than the limit. -/
theorem num2bin_and_bin2num_are_inverse_reencodings :
    (∀ op : Instruction, op.opcode.operation = .num2bin → Exec.PadsNumbers op) ∧
    (∀ op : Instruction, op.opcode.operation = .bin2num → Exec.MinimizesNumbers op) ∧
    (∀ op₁ op₂ : Instruction, op₁.opcode.operation = .num2bin → op₂.opcode.operation = .bin2num →
      ∀ (m : Machine) (a d : Bytes) (rest : List Bytes) (s : Int),
        m.dstack.items = a :: d :: rest →
        Number.decode? a m.dstack.minimal m.dstack.maxNumLen = .ok s →
        0 ≤ s → s ≤ m.limits.maxElementSize → (Number.minimallyEncode d).length ≤ s →
        ∃ m₁, Exec.perform op₁ m = .ok () m₁ ∧
          ((Number.minimallyEncode d).length ≤ m.limits.maxNumLen →
            ∃ m₂, Exec.perform op₂ m₁ = .ok () m₂ ∧
              m₂.dstack.items = Number.minimallyEncode d :: rest) ∧
          (m.limits.maxNumLen < (Number.minimallyEncode d).length →
            ∃ m₂, Exec.perform op₂ m₁ = .error (.numberTooBig .beyondMaxLength) m₂)) := by
  refine ⟨fun op hop => Exec.padsNumbers_of_num2bin hop,
    fun op hop => Exec.minimizesNumbers_of_bin2num hop, ?_⟩
  intro op₁ op₂ hop₁ hop₂ m a d rest s hstack hs hlow hhigh hfit
  obtain ⟨m₁, w, hrun₁, hm₁, -, hval⟩ :=
    (Exec.padsNumbers_of_num2bin hop₁ m a d rest s hstack hs hlow hhigh).1 hfit
  have hstack₁ : m₁.dstack.items = w :: rest := by rw [hm₁]
  have hlim : m₁.limits = m.limits := by rw [hm₁]
  -- the padded item denotes the number `d` denotes, so it minimises to the same bytes
  have henc : Number.encode (Number.value w) = Number.minimallyEncode d := by
    rw [hval, Number.minimallyEncode_eq_encode_value]
  obtain ⟨hok, herr⟩ := Exec.minimizesNumbers_of_bin2num hop₂ m₁ w rest hstack₁
  rw [henc, hlim] at hok herr
  refine ⟨m₁, hrun₁, fun hle => ?_, herr⟩
  obtain ⟨m₂, hrun₂, hm₂⟩ := hok hle
  exact ⟨m₂, hrun₂, by rw [hm₂]⟩

/-- Two steps of `OP_2 OP_4 OP_NUM2BIN OP_BIN2NUM` leave the size `4` above the number `2`, with
`OP_NUM2BIN` next; there the two opcodes pad `2` to four bytes and bring it back to one. -/
theorem num2bin_and_bin2num_are_inverse_reencodings_twoInFour :
    ∃ m₀ m₁ m₂ : Machine,
      Machine.new? [] [0x52, 0x54, 0x80, 0x81] ⟨0⟩ Checker.acceptAll = .ok m₀ ∧
      Exec.step m₀ = .ok false m₁ ∧ Exec.step m₁ = .ok false m₂ ∧
      m₂.current? = some (.ofByte 0x80) ∧ m₂.dstack.items = [[4], [2]] ∧
      ∃ m₃ m₄ : Machine, Exec.perform (.ofByte 0x80) m₂ = .ok () m₃ ∧
        Exec.perform (.ofByte 0x81) m₃ = .ok () m₄ ∧ m₄.dstack.items = [[2]] := by
  have hu : Script.parse? [] = some [] := by simp [Script.parse?, Script.parseAt]
  have hl : Script.parse? [0x52, 0x54, 0x80, 0x81] =
      some [.ofByte 0x52, .ofByte 0x54, .ofByte 0x80, .ofByte 0x81] := by
    simp [Script.parse?, Script.parseAt]
  obtain ⟨m₀, hnew⟩ : ∃ m, Machine.new? [] [0x52, 0x54, 0x80, 0x81] ⟨0⟩ Checker.acceptAll =
      .ok m := by
    simp only [Machine.new?, hu, hl]
    exact ⟨_, rfl⟩
  obtain ⟨u, l, hu', hl', -, -, hm₀⟩ := Machine.new?_ok hnew
  rw [hu, Option.some.injEq] at hu'
  rw [hl, Option.some.injEq] at hl'
  subst hu' hl'
  -- the pushed items are encodings of small numbers, which only the kernel evaluates
  obtain ⟨m₁, m₂, h₀, h₁, hcur, hstack, hmin, hlen, hlim⟩ : ∃ m₁ m₂ : Machine,
      Exec.step m₀ = .ok false m₁ ∧ Exec.step m₁ = .ok false m₂ ∧
      m₂.current? = some (.ofByte 0x80) ∧ m₂.dstack.items = [[4], [2]] ∧
      m₂.dstack.minimal = false ∧ m₂.dstack.maxNumLen = 4 ∧ m₂.limits = Limits.beforeGenesis := by
    subst hm₀
    exact ⟨_, _, rfl, rfl, rfl, by decide +kernel, rfl, rfl, rfl⟩
  obtain ⟨m₃, h₃, hround, -⟩ := num2bin_and_bin2num_are_inverse_reencodings.2.2 (.ofByte 0x80)
    (.ofByte 0x81) rfl rfl m₂ [4] [2] [] 4 hstack (by rw [hmin, hlen]; decide +kernel) (by decide)
    (by rw [hlim]; decide) (by decide +kernel)
  obtain ⟨m₄, h₄, hitems⟩ := hround (by rw [hlim]; decide +kernel)
  exact ⟨m₀, m₁, m₂, hnew, h₀, h₁, hcur, hstack, m₃, m₄, h₃, h₄, by rw [hitems]; decide +kernel⟩

end BitcoinScript
