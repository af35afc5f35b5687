import BitcoinScript.Proofs.NumberCodec

/-!
# The byte-level minimiser is decoding followed by encoding

`Number.minimallyEncode` never goes through an integer: it strips the high zero bytes of the
magnitude and puts the sign back, into the new top byte when its high bit is free and into a
byte of its own otherwise. It still agrees with reading the string as a number and writing that
number back (`Number.minimallyEncode_reencodes_value`). The argument is the uniqueness of minimal
strings: the minimiser's output is minimal and denotes the number its input denotes, and the one
minimal string of a number is its encoding (`Number.encode_value`). Idempotence and the fixed
points follow from the same two facts.
-/

set_option autoImplicit false

namespace BitcoinScript

namespace Bytes

theorem leValue_replicate_zero (k : Nat) : leValue (List.replicate k 0) = 0 := by
  induction k with
  | zero => rfl
  | succ k ih => simp [List.replicate_succ, ih]

end Bytes

namespace Number

/-! ## Stripping high zero bytes -/

/-- A string is its stripped magnitude followed by zero bytes. -/
theorem stripHighZeros_append_zeros (b : Bytes) :
    ∃ k, b = stripHighZeros b ++ List.replicate k 0 := by
  have hsplit : b.reverse.takeWhile (· == 0) ++ b.reverse.dropWhile (· == 0) = b.reverse :=
    List.takeWhile_append_dropWhile
  have hzeros : ∀ x ∈ b.reverse.takeWhile (· == 0), x = 0 := fun x hx => by
    simpa using List.mem_takeWhile_imp hx
  refine ⟨(b.reverse.takeWhile (· == 0)).length, ?_⟩
  rw [List.eq_replicate_iff.mpr ⟨rfl, hzeros⟩] at hsplit
  calc b = (List.replicate _ 0 ++ b.reverse.dropWhile (· == 0)).reverse := by
        rw [hsplit, List.reverse_reverse]
    _ = stripHighZeros b ++ List.replicate _ 0 := by
        rw [List.reverse_append, List.reverse_replicate]
        rfl

@[simp] theorem leValue_stripHighZeros (b : Bytes) :
    Bytes.leValue (stripHighZeros b) = Bytes.leValue b := by
  obtain ⟨k, hk⟩ := stripHighZeros_append_zeros b
  conv_rhs => rw [hk]
  rw [Bytes.leValue_append, Bytes.leValue_replicate_zero]
  simp

/-- A stripped magnitude has no high zero byte. -/
theorem getLast?_stripHighZeros_ne_zero (b : Bytes) : (stripHighZeros b).getLast? ≠ some 0 := by
  intro h
  rw [stripHighZeros, List.getLast?_reverse] at h
  -- the first byte the scan keeps is the first that is not zero
  have hne : b.reverse.dropWhile (· == 0) ≠ [] := by
    intro hnil
    rw [hnil] at h
    cases h
  have hhead := List.head_dropWhile_not (· == (0 : UInt8)) hne
  rw [List.head?_eq_some_head hne, Option.some.injEq] at h
  rw [h] at hhead
  exact absurd hhead (by decide)

/-! ## The sign byte -/

/-- A last byte without magnitude bits is a bare sign, so the string denotes the magnitude of
the bytes before it. -/
theorem value_of_bare_sign (init : Bytes) {last : UInt8} (h : last &&& 0x7f = 0) :
    value (init ++ [last]) =
      if last &&& 0x80 = 0 then (Bytes.leValue init : Int) else -(Bytes.leValue init : Int) := by
  rw [value_concat, h, Bytes.leValue_append_zero]

theorem or_bare_sign_low {top last : UInt8} (htop : top &&& 0x80 = 0) (hlast : last &&& 0x7f = 0) :
    (top ||| last) &&& 0x7f = top := by
  by_cases hs : last &&& 0x80 = 0
  · rw [eq_zero_of_low_clear last hlast hs, UInt8.or_zero, low_of_high_clear top htop]
  · rw [eq_sign_of_low_clear last hlast hs, or_high_low top htop]

theorem or_bare_sign_high {top last : UInt8} (htop : top &&& 0x80 = 0) (hlast : last &&& 0x7f = 0) :
    ((top ||| last) &&& 0x80 = 0) ↔ (last &&& 0x80 = 0) := by
  by_cases hs : last &&& 0x80 = 0
  · rw [eq_zero_of_low_clear last hlast hs, UInt8.or_zero]
    exact ⟨fun _ => by decide, fun _ => htop⟩
  · rw [eq_sign_of_low_clear last hlast hs]
    exact ⟨fun h => absurd h (or_high_high top), fun h => absurd h (by decide)⟩

/-! ## The minimiser -/

/-- The minimiser's output is minimal and denotes the number its input denotes. -/
theorem minimallyEncode_minimal_value (d : Bytes) :
    isMinimal (minimallyEncode d) = true ∧ value (minimallyEncode d) = value d := by
  rcases List.eq_nil_or_concat d with rfl | ⟨init, last, rfl⟩
  · exact ⟨rfl, rfl⟩
  rw [List.concat_eq_append]
  by_cases hlow : last &&& 0x7f = 0
  case neg =>
    -- the last byte carries magnitude bits: the string is kept as it is
    have hkeep : minimallyEncode (init ++ [last]) = init ++ [last] := by
      simp [minimallyEncode, hlow]
    rw [hkeep]
    exact ⟨by simp [isMinimal, hlow], rfl⟩
  case pos =>
    have hval := value_of_bare_sign init hlow
    rcases List.eq_nil_or_concat (stripHighZeros init) with hcore | ⟨core, top, hcore⟩
    · -- only zero bytes below the sign: the number is zero
      have hzero : Bytes.leValue init = 0 := by
        rw [← leValue_stripHighZeros, hcore, Bytes.leValue_nil]
      have hnil : minimallyEncode (init ++ [last]) = [] := by
        simp [minimallyEncode, hlow, hcore]
      rw [hnil, hval, hzero]
      exact ⟨rfl, by simp [value_nil]⟩
    rw [List.concat_eq_append] at hcore
    have hmag : Bytes.leValue (core ++ [top]) = Bytes.leValue init := by
      rw [← hcore, leValue_stripHighZeros]
    have htop : top ≠ 0 := fun h0 =>
      getLast?_stripHighZeros_ne_zero init (by rw [hcore, h0, List.getLast?_concat])
    by_cases hhigh : top &&& 0x80 = 0
    · -- the sign moves down into the top byte of the stripped magnitude
      have hout : minimallyEncode (init ++ [last]) = core ++ [top ||| last] := by
        simp [minimallyEncode, hlow, hcore, hhigh]
      have hsign := or_bare_sign_high hhigh hlow
      rw [hout, value_concat, or_bare_sign_low hhigh hlow, hmag, hval]
      refine ⟨by simp [isMinimal, or_bare_sign_low hhigh hlow, htop], ?_⟩
      by_cases hs : last &&& 0x80 = 0
      · rw [if_pos (hsign.mpr hs), if_pos hs]
      · rw [if_neg (mt hsign.mp hs), if_neg hs]
    · -- the top byte's high bit is taken: the sign keeps a byte of its own
      have hout : minimallyEncode (init ++ [last]) = core ++ [top] ++ [last] := by
        simp [minimallyEncode, hlow, hcore, hhigh]
      rw [hout, value_of_bare_sign _ hlow, hmag, hval]
      exact ⟨by simp [isMinimal, hlow, hhigh], rfl⟩

/-- The byte-level minimiser agrees with reading the string as a number, with no size limit
beyond its own length and no minimality required, and writing the number back. So it keeps the
number, its output is minimal, a second pass changes nothing, and it keeps a string exactly when
the string is minimal. -/
theorem minimallyEncode_reencodes_value (d : Bytes) :
    (decode? d false d.length).map encode = .ok (minimallyEncode d) ∧
      value (minimallyEncode d) = value d ∧ isMinimal (minimallyEncode d) = true ∧
      minimallyEncode (minimallyEncode d) = minimallyEncode d ∧
      (minimallyEncode d = d ↔ isMinimal d = true) := by
  obtain ⟨hmin, hval⟩ := minimallyEncode_minimal_value d
  -- a minimal string is the encoding of its value, so the output is the encoding of `value d`
  have hreenc : minimallyEncode d = encode (value d) := by
    rw [← hval, encode_value hmin]
  have hfix : ∀ e, isMinimal e = true → minimallyEncode e = e := fun e he => by
    obtain ⟨hme, hve⟩ := minimallyEncode_minimal_value e
    rw [← encode_value hme, hve, encode_value he]
  have hdecode : decode? d false d.length = .ok (value d) :=
    decode?_eq_ok_iff.mpr ⟨le_refl _, fun h => absurd h Bool.false_ne_true, rfl⟩
  refine ⟨by rw [hdecode, hreenc]; rfl, hval, hmin, hfix _ hmin, ⟨fun h => ?_, hfix d⟩⟩
  rw [← h]
  exact hmin

/-- A negative number padded with zero bytes loses the padding and keeps its sign. -/
example : minimallyEncode [0x05, 0x00, 0x00, 0x80] = [0x85] := by decide

end Number

end BitcoinScript
