import Mathlib
import BitcoinScript.Number

/-!
# Script numbers: the minimal encodings are the integers

A script number is written as its magnitude in little-endian bytes, the sign in the high bit of
the last byte, with a byte of its own when the magnitude's top byte has that bit taken
(`Number.encode`). The magnitude has no high zero byte (`Number.magnitudeLE`), so it is the one
byte string of its value without one (`Number.magnitudeLE_leValue`). From this the codec is a
bijection between the integers and the minimal strings (`Number.isMinimal`): the encoding of a
number is minimal and reads back as the number, and a minimal string is the encoding of the
number it reads as.
-/

set_option autoImplicit false

namespace BitcoinScript

namespace Bytes

theorem leValue_append (a b : Bytes) : leValue (a ++ b) = leValue a + 256 ^ a.length * leValue b := by
  induction a with
  | nil => simp
  | cons x a ih =>
    rw [List.cons_append, leValue_cons, leValue_cons, ih, List.length_cons, Nat.pow_succ]
    ring

/-- A high zero byte adds nothing to a little-endian value. -/
theorem leValue_append_zero (a : Bytes) : leValue (a ++ [0]) = leValue a := by
  rw [leValue_append]
  simp

end Bytes

namespace Number

/-! ## The sign byte

Each of these is a fact about the 256 bytes, checked over all of them. -/

theorem low_of_high_clear : ∀ x : UInt8, x &&& 0x80 = 0 → x &&& 0x7f = x := by decide +kernel
theorem low_or_high_of_high_set : ∀ x : UInt8, x &&& 0x80 ≠ 0 → (x &&& 0x7f) ||| 0x80 = x := by
  decide +kernel
theorem eq_zero_of_low_clear : ∀ x : UInt8, x &&& 0x7f = 0 → x &&& 0x80 = 0 → x = 0 := by
  decide +kernel
theorem eq_sign_of_low_clear : ∀ x : UInt8, x &&& 0x7f = 0 → x &&& 0x80 ≠ 0 → x = 0x80 := by
  decide +kernel
theorem or_high_low : ∀ x : UInt8, x &&& 0x80 = 0 → (x ||| 0x80) &&& 0x7f = x := by decide +kernel
theorem or_high_high : ∀ x : UInt8, (x ||| 0x80) &&& 0x80 ≠ 0 := by decide +kernel
theorem low_high : ∀ x : UInt8, (x &&& 0x7f) &&& 0x80 = 0 := by decide +kernel

/-! ## Magnitudes -/

theorem magnitudeLE_zero : magnitudeLE 0 = [] := by
  rw [magnitudeLE, if_pos rfl]

theorem toNat_toUInt8_mod (n : Nat) : ((n % 256).toUInt8).toNat = n % 256 := by
  simp [Nat.toUInt8, UInt8.toNat_ofNat', Nat.mod_mod_of_dvd]

@[simp] theorem leValue_magnitudeLE (n : Nat) : Bytes.leValue (magnitudeLE n) = n := by
  fun_induction magnitudeLE n with
  | case1 => rfl
  | case2 n hn ih =>
    rw [Bytes.leValue_cons, ih, toNat_toUInt8_mod]
    omega

theorem magnitudeLE_eq_nil_iff {n : Nat} : magnitudeLE n = [] ↔ n = 0 := by
  constructor
  · intro h
    have := leValue_magnitudeLE n
    rw [h] at this
    exact this.symm
  · rintro rfl
    exact magnitudeLE_zero

/-- A magnitude has no high zero byte. -/
theorem getLast?_magnitudeLE_ne_zero (n : Nat) : (magnitudeLE n).getLast? ≠ some 0 := by
  fun_induction magnitudeLE n with
  | case1 => simp
  | case2 n hn ih =>
    by_cases hhigh : n / 256 = 0
    · rw [hhigh, magnitudeLE_zero]
      intro h
      simp only [List.getLast?_singleton, Option.some.injEq] at h
      have := congrArg UInt8.toNat h
      rw [toNat_toUInt8_mod] at this
      simp at this
      omega
    · have hne : magnitudeLE (n / 256) ≠ [] := fun h => hhigh (magnitudeLE_eq_nil_iff.mp h)
      obtain ⟨x, l, hl⟩ := List.exists_cons_of_ne_nil hne
      rw [hl, List.getLast?_cons_cons, ← hl]
      exact ih

/-- Bytes with no high zero byte are the magnitude of their value. -/
theorem magnitudeLE_leValue (m : Bytes) (hm : m.getLast? ≠ some 0) :
    magnitudeLE (Bytes.leValue m) = m := by
  induction m with
  | nil => exact magnitudeLE_zero
  | cons b m ih =>
    have hb : b.toNat < 256 := b.toNat_lt
    -- one magnitude step peels off the low byte
    have step : ∀ k, b.toNat + 256 * k ≠ 0 → magnitudeLE (b.toNat + 256 * k) = b :: magnitudeLE k := by
      intro k hk
      rw [magnitudeLE, if_neg hk]
      congr 1
      · apply UInt8.toNat_inj.mp
        rw [toNat_toUInt8_mod]
        omega
      · congr 1
        omega
    rw [Bytes.leValue_cons]
    cases m with
    | nil =>
      have hb0 : b ≠ 0 := fun h => hm (by rw [h]; rfl)
      have hb0' : b.toNat ≠ 0 := fun h => hb0 (UInt8.toNat_inj.mp h)
      rw [step _ (by simpa using hb0'), Bytes.leValue_nil, magnitudeLE_zero]
    | cons c m =>
      rw [List.getLast?_cons_cons] at hm
      have hrest := ih hm
      have hv : Bytes.leValue (c :: m) ≠ 0 := by
        intro h
        rw [h, magnitudeLE_zero] at hrest
        cases hrest
      rw [step _ (by omega), hrest]

/-- Bytes whose top byte is not zero are the magnitude of their value, which is not zero. -/
theorem magnitude_of_top (init : Bytes) {top : UInt8} (htop : top ≠ 0) :
    magnitudeLE (Bytes.leValue (init ++ [top])) = init ++ [top] ∧ Bytes.leValue (init ++ [top]) ≠ 0 := by
  have hmag := magnitudeLE_leValue (init ++ [top])
    (by rw [List.getLast?_concat]; exact fun h => htop (Option.some.inj h))
  refine ⟨hmag, fun h0 => ?_⟩
  rw [h0, magnitudeLE_zero] at hmag
  simp at hmag

/-! ## The encoder and the decoder by cases -/

theorem encode_zero : encode 0 = [] := by
  simp [encode, magnitudeLE_zero]

theorem value_nil : value [] = 0 := rfl

theorem encode_of_magnitude {n : Int} {init : Bytes} {top : UInt8}
    (h : magnitudeLE n.natAbs = init ++ [top]) :
    encode n = if top &&& 0x80 ≠ 0 then init ++ [top] ++ [if n < 0 then 0x80 else 0]
      else if n < 0 then init ++ [top ||| 0x80] else init ++ [top] := by
  simp only [encode, h, List.getLast?_concat, List.dropLast_concat]

/-- A nonzero number is written from its magnitude, whose top byte is not zero. -/
theorem encode_cases {n : Int} (hn : n ≠ 0) :
    ∃ init top, Bytes.leValue (init ++ [top]) = n.natAbs ∧ top ≠ 0 ∧
      encode n = if top &&& 0x80 ≠ 0 then init ++ [top] ++ [if n < 0 then 0x80 else 0]
        else if n < 0 then init ++ [top ||| 0x80] else init ++ [top] := by
  have hne : magnitudeLE n.natAbs ≠ [] := fun h => hn (Int.natAbs_eq_zero.mp (magnitudeLE_eq_nil_iff.mp h))
  obtain ⟨init, top, hmag⟩ : ∃ init top, magnitudeLE n.natAbs = init ++ [top] := by
    rcases List.eq_nil_or_concat (magnitudeLE n.natAbs) with h | ⟨init, top, h⟩
    · exact absurd h hne
    · exact ⟨init, top, by rw [h, List.concat_eq_append]⟩
  have htop : top ≠ 0 := by
    rintro rfl
    have := getLast?_magnitudeLE_ne_zero n.natAbs
    rw [hmag, List.getLast?_concat] at this
    exact this rfl
  refine ⟨init, top, ?_, htop, encode_of_magnitude hmag⟩
  rw [← hmag, leValue_magnitudeLE]

theorem value_concat (init : Bytes) (last : UInt8) :
    value (init ++ [last]) = if last &&& 0x80 = 0 then (Bytes.leValue (init ++ [last &&& 0x7f]) : Int)
      else -(Bytes.leValue (init ++ [last &&& 0x7f]) : Int) := by
  simp only [value, List.getLast?_concat, List.dropLast_concat]

/-- A minimal string is empty, ends in a byte with magnitude bits, or ends in a sign byte after a
byte whose high bit is taken. -/
theorem minimal_cases {d : Bytes} (h : isMinimal d = true) :
    d = [] ∨ (∃ init last, d = init ++ [last] ∧ last &&& 0x7f ≠ 0) ∨
      ∃ init prev last, d = init ++ [prev] ++ [last] ∧ prev &&& 0x80 ≠ 0 ∧ last &&& 0x7f = 0 := by
  rcases List.eq_nil_or_concat d with rfl | ⟨init, last, rfl⟩
  · exact .inl rfl
  rw [List.concat_eq_append] at h ⊢
  by_cases hlow : last &&& 0x7f = 0
  · simp only [isMinimal, List.getLast?_concat, List.dropLast_concat, hlow, if_true] at h
    rcases List.eq_nil_or_concat init with rfl | ⟨init', prev, rfl⟩
    · simp at h
    · rw [List.concat_eq_append, List.getLast?_concat] at h
      rw [List.concat_eq_append]
      exact .inr (.inr ⟨init', prev, last, rfl, of_decide_eq_true h, hlow⟩)
  · exact .inr (.inl ⟨init, last, rfl, hlow⟩)

/-! ## The codec is a bijection -/

/-- Decoding a number of the right size reads its value. -/
theorem value_encode (n : Int) : value (encode n) = n := by
  by_cases hn : n = 0
  · rw [hn, encode_zero, value_nil]
  obtain ⟨init, top, hmag, -, henc⟩ := encode_cases hn
  rw [henc]
  by_cases hhigh : top &&& 0x80 = 0
  · -- the sign goes into the top byte of the magnitude
    rw [if_neg (not_not.mpr hhigh)]
    by_cases hneg : n < 0
    · rw [if_pos hneg, value_concat, if_neg (or_high_high top), or_high_low top hhigh, hmag]
      omega
    · rw [if_neg hneg, value_concat, if_pos hhigh, low_of_high_clear top hhigh, hmag]
      omega
  · -- the sign takes a byte of its own
    rw [if_pos hhigh]
    by_cases hneg : n < 0
    · rw [if_pos hneg, value_concat, if_neg (by decide), show (0x80 : UInt8) &&& 0x7f = 0 by decide,
        Bytes.leValue_append_zero, hmag]
      omega
    · rw [if_neg hneg, value_concat, if_pos (by decide), show (0 : UInt8) &&& 0x7f = 0 by decide,
        Bytes.leValue_append_zero, hmag]
      omega

theorem isMinimal_encode (n : Int) : isMinimal (encode n) = true := by
  by_cases hn : n = 0
  · rw [hn, encode_zero]
    rfl
  obtain ⟨init, top, -, htop, henc⟩ := encode_cases hn
  rw [henc]
  by_cases hhigh : top &&& 0x80 = 0
  · -- the last byte carries the top of the magnitude, which is not zero
    have hlow : top &&& 0x7f ≠ 0 := by rwa [low_of_high_clear top hhigh]
    rw [if_neg (not_not.mpr hhigh)]
    split_ifs
    · simp [isMinimal, or_high_low top hhigh, htop]
    · simp [isMinimal, hlow]
  · -- the last byte is only the sign, after a byte whose high bit is taken
    rw [if_pos hhigh]
    split_ifs <;> simp [isMinimal, hhigh]

/-- A minimal string is the encoding of its value. -/
theorem encode_value {d : Bytes} (h : isMinimal d = true) : encode (value d) = d := by
  rcases minimal_cases h with rfl | ⟨init, last, rfl, hlow⟩ | ⟨init, prev, last, rfl, hprev, hlow⟩
  · rw [value_nil, encode_zero]
  · -- the last byte without its sign is the top of the magnitude
    obtain ⟨hmag, hpos⟩ := magnitude_of_top init hlow
    rw [value_concat]
    by_cases hs : last &&& 0x80 = 0
    · rw [if_pos hs, encode_of_magnitude (by rw [Int.natAbs_natCast]; exact hmag),
        if_neg (not_not.mpr (low_high last)), if_neg (by omega), low_of_high_clear last hs]
    · rw [if_neg hs, encode_of_magnitude (by rw [Int.natAbs_neg, Int.natAbs_natCast]; exact hmag),
        if_neg (not_not.mpr (low_high last)), if_pos (by omega), low_or_high_of_high_set last hs]
  · -- the last byte is only the sign, and the byte before it is the top of the magnitude
    have hprev0 : prev ≠ 0 := by
      rintro rfl
      exact hprev (by decide)
    obtain ⟨hmag, hpos⟩ := magnitude_of_top init hprev0
    rw [value_concat, hlow, Bytes.leValue_append_zero]
    by_cases hs : last &&& 0x80 = 0
    · rw [if_pos hs, encode_of_magnitude (by rw [Int.natAbs_natCast]; exact hmag), if_pos hprev,
        if_neg (by omega), eq_zero_of_low_clear last hlow hs]
    · rw [if_neg hs, encode_of_magnitude (by rw [Int.natAbs_neg, Int.natAbs_natCast]; exact hmag),
        if_pos hprev, if_pos (by omega), eq_sign_of_low_clear last hlow hs]

theorem decode?_eq_ok_iff {d : Bytes} {requireMinimal : Bool} {maxSize : Nat} {n : Int} :
    decode? d requireMinimal maxSize = .ok n ↔
      d.length ≤ maxSize ∧ (requireMinimal = true → isMinimal d = true) ∧ n = value d := by
  unfold decode?
  by_cases hlen : d.length > maxSize
  · simp only [hlen, if_true, reduceCtorEq, false_iff]
    omega
  by_cases hmin : requireMinimal = true ∧ ¬isMinimal d = true
  · rw [if_neg hlen, if_pos hmin]
    simp only [reduceCtorEq, false_iff, not_and]
    exact fun _ h => absurd (h hmin.1) hmin.2
  · simp only [hlen, hmin, if_false, Except.ok.injEq]
    constructor
    · rintro rfl
      exact ⟨by omega, fun hr => by simpa [hr] using hmin, rfl⟩
    · rintro ⟨-, -, rfl⟩
      rfl

/-- The minimal encodings are exactly the integers: every integer's encoding is minimal and
decodes back to it under any size bound it fits, every minimal string decodes to a number whose
encoding is the string, and a minimal read succeeds exactly on the minimal strings that fit. -/
theorem minimal_encodings_biject_integers :
    (∀ n : Int, isMinimal (encode n) = true ∧
      ∀ k, (encode n).length ≤ k → decode? (encode n) true k = .ok n) ∧
    (∀ (d : Bytes) (requireMinimal : Bool) (k : Nat), isMinimal d = true → d.length ≤ k →
      ∃ n, decode? d requireMinimal k = .ok n ∧ encode n = d) ∧
    (∀ (d : Bytes) (k : Nat), (∃ n, decode? d true k = .ok n) ↔ d.length ≤ k ∧ isMinimal d = true) := by
  refine ⟨fun n => ⟨isMinimal_encode n, fun k hk => ?_⟩, fun d rm k hmin hk => ?_, fun d k => ?_⟩
  · exact decode?_eq_ok_iff.mpr ⟨hk, fun _ => isMinimal_encode n, (value_encode n).symm⟩
  · exact ⟨value d, decode?_eq_ok_iff.mpr ⟨hk, fun _ => hmin, rfl⟩, encode_value hmin⟩
  · constructor
    · rintro ⟨n, hn⟩
      obtain ⟨hk, hmin, -⟩ := decode?_eq_ok_iff.mp hn
      exact ⟨hk, hmin rfl⟩
    · rintro ⟨hk, hmin⟩
      exact ⟨value d, decode?_eq_ok_iff.mpr ⟨hk, fun _ => hmin, rfl⟩⟩

end Number

end BitcoinScript
