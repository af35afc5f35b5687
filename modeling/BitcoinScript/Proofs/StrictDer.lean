import BitcoinScript.Proofs.Bounds

/-!
# The strict DER check accepts exactly the DER layout

`Signature.strictDer` is a hand-written parser: a dozen ordered checks, each reading a byte at
an offset that the length of R, itself a byte of the signature, decides. It accepts exactly the
bodies laid out as strict DER (`Signature.DerLayout`): a sequence tag and the length of the
rest, then R and S, each an integer tag, a one-byte length and a strict integer, at most
seventy-two bytes in all. It then locates S at offset `6 + |R|`. A strict integer is not
empty, its first byte is below `0x80`, and it starts with a zero byte only when that byte is
the whole integer or the next byte is at least `0x80` (`Signature.derInt_iff`). So a lone zero
byte is a strict integer, the DER encoding of zero.

The check reads the signature through `byteAt`, which answers zero past the end. Every read is
guarded by the checks before it: with any other byte source that agrees on the signature, the
check answers the same (`Signature.strictDerReading_congr`).
-/

set_option autoImplicit false

namespace BitcoinScript

namespace Signature

/-! ## The layout -/

theorem high_bit_clear_iff : ∀ b : UInt8, b.toNat &&& 0x80 = 0 ↔ b < 0x80 := by decide +kernel

/-- The strict integer rule in plain terms. -/
theorem derInt_iff (x : Bytes) :
    DerInt x ↔ x ≠ [] ∧ x.headD 0 < 0x80 ∧ (x.headD 0 = 0 → x.length = 1 ∨ 0x80 ≤ x.getD 1 0) := by
  constructor
  · intro h
    refine ⟨h.ne_nil, (high_bit_clear_iff _).mp h.nonneg, fun h0 => ?_⟩
    have hpos : 0 < x.length := List.length_pos_iff.mpr h.ne_nil
    by_cases hone : x.length = 1
    · exact .inl hone
    · -- a longer integer may start with zero only before a byte with its high bit set
      refine .inr (UInt8.le_iff_toNat_le.mpr (Nat.le_of_not_lt fun hlow => h.no_padding
        ⟨by omega, by rw [h0]; rfl, (high_bit_clear_iff _).mpr (UInt8.lt_iff_toNat_lt.mpr hlow)⟩))
  · rintro ⟨hne, hlow, hpad⟩
    refine ⟨hne, (high_bit_clear_iff _).mpr hlow, fun ⟨hlong, h0, hnext⟩ => ?_⟩
    rcases hpad (UInt8.toNat_inj.mp h0) with hone | hhigh
    · omega
    · have hlow := UInt8.lt_iff_toNat_lt.mp ((high_bit_clear_iff _).mp hnext)
      have := UInt8.le_iff_toNat_le.mp hhigh
      omega

/-- The strict DER layout of a signature body with integers `R` and `S`: the sequence tag and the
length of the rest, then for each integer its tag, its length in one byte and its bytes; at most
seventy-two bytes, and both integers strict. -/
structure DerLayout (sig R S : Bytes) : Prop where
  shape : sig = 0x30 :: (sig.length - 2).toUInt8 :: 0x02 :: R.length.toUInt8 ::
    (R ++ 0x02 :: S.length.toUInt8 :: S)
  short : sig.length ≤ 72
  intR : DerInt R
  intS : DerInt S

theorem toNat_toUInt8_of_lt {n : Nat} (h : n < 256) : n.toUInt8.toNat = n := by
  simp [Nat.toUInt8, UInt8.toNat_ofNat', Nat.mod_eq_of_lt h]

/-- A length byte is the byte of its value. -/
theorem eq_toUInt8_of_toNat {b : UInt8} {n : Nat} (h : b.toNat = n) : b = n.toUInt8 :=
  UInt8.toNat_inj.mp (by rw [h, toNat_toUInt8_of_lt (h ▸ b.toNat_lt)])

theorem length_layout (l lr ls : UInt8) (R S : Bytes) :
    (0x30 :: l :: 0x02 :: lr :: (R ++ 0x02 :: ls :: S)).length = R.length + S.length + 6 := by
  simp only [List.length_cons, List.length_append]
  omega

theorem drop_body (l lr ls : UInt8) (R S : Bytes) :
    (0x30 :: l :: 0x02 :: lr :: (R ++ 0x02 :: ls :: S)).drop (6 + R.length) = S := by
  rw [show 6 + R.length = 4 + (R.length + 2) by omega, drop_cons_four, List.drop_append,
    List.drop_eq_nil_of_le (by omega)]
  simp

/-! ## Strict bodies pass -/

theorem byteAt_four_of_ne_nil {x₀ x₁ x₂ x₃ : UInt8} {R t : Bytes} (hR : R ≠ []) :
    byteAt (x₀ :: x₁ :: x₂ :: x₃ :: (R ++ t)) 4 = (R.headD 0).toNat := by
  obtain ⟨r, R', rfl⟩ := List.exists_cons_of_ne_nil hR
  rfl

theorem byteAt_five_of_long {x₀ x₁ x₂ x₃ : UInt8} {R t : Bytes} (hR : 1 < R.length) :
    byteAt (x₀ :: x₁ :: x₂ :: x₃ :: (R ++ t)) 5 = (R.getD 1 0).toNat := by
  match R, hR with
  | _ :: _ :: _, _ => rfl

/-- A body laid out as strict DER passes the check, which locates S after R. -/
theorem strictDer_of_shape {l lr ls : UInt8} {R S : Bytes}
    (hl : l.toNat = R.length + S.length + 4) (hlr : lr.toNat = R.length)
    (hls : ls.toNat = S.length) (hsmall : R.length + S.length + 6 ≤ 72) (hR : DerInt R)
    (hS : DerInt S) :
    strictDer (0x30 :: l :: 0x02 :: lr :: (R ++ 0x02 :: ls :: S)) =
      .ok (6 + R.length, S.length) := by
  have hRpos : 0 < R.length := List.length_pos_iff.mpr hR.ne_nil
  have hSpos : 0 < S.length := List.length_pos_iff.mpr hS.ne_nil
  generalize hbody : 0x30 :: l :: 0x02 :: lr :: (R ++ 0x02 :: ls :: S) = body
  -- the bytes each check reads, located in the layout
  have hlen : body.length = R.length + S.length + 6 := by
    subst hbody
    exact length_layout l lr ls R S
  have b₁ : byteAt body 1 = l.toNat := by subst hbody; rfl
  have b₃ : byteAt body 3 = R.length := by subst hbody; exact hlr
  have b₄ : byteAt body 4 = (R.headD 0).toNat := by subst hbody; exact byteAt_four_of_ne_nil hR.ne_nil
  have bT : byteAt body (4 + R.length) = 2 := by subst hbody; exact byteAt_after_body _ _ _ _ R _ 0
  have bL : byteAt body (4 + R.length + 1) = S.length := by
    subst hbody
    exact (byteAt_after_body _ _ _ _ R _ 1).trans hls
  have bS₀ : byteAt body (4 + R.length + 1 + 1) = (S.headD 0).toNat := by
    subst hbody
    rw [show 4 + R.length + 1 + 1 = 4 + R.length + 2 by omega, byteAt_after_body]
    obtain ⟨s, S', rfl⟩ := List.exists_cons_of_ne_nil hS.ne_nil
    rfl
  have bS₁ : byteAt body (4 + R.length + 1 + 1 + 1) = (S.getD 1 0).toNat := by
    subst hbody
    rw [show 4 + R.length + 1 + 1 + 1 = 4 + R.length + 3 by omega, byteAt_after_body]
    rfl
  unfold strictDer
  dsimp only
  rw [hlen, b₃, bT, bL, bS₀, bS₁, b₄, b₁]
  simp only [ite_error_eq_ok]
  refine ⟨by omega, by omega, by subst hbody; exact not_not.mpr rfl, by omega, by omega, by omega,
    by omega, by subst hbody; exact not_not.mpr rfl, by omega, not_not.mpr hR.nonneg, ?_,
    not_not.mpr rfl, by omega, not_not.mpr hS.nonneg, hS.no_padding, ?_⟩
  · rintro ⟨hlong, hzero, hnext⟩
    subst hbody
    exact hR.no_padding ⟨hlong, hzero, by rwa [byteAt_five_of_long hlong] at hnext⟩
  · congr 2
    omega

/-! ## Every read is guarded -/

/-- The strict DER check over any source of bytes: `len` is the length of the body and `byte i`
its byte at `i`. The check on a body is this one reading the body (`strictDer_eq_reading`). -/
def strictDerReading (len : Nat) (byte : Nat → Nat) : Except DerError (Nat × Nat) :=
  let lenR := byte 3
  let sTypeOffset := 4 + lenR
  let sLenOffset := sTypeOffset + 1
  let lenS := byte sLenOffset
  let sOffset := sLenOffset + 1
  if len < 8 then .error .tooShort
  else if len > 72 then .error .tooLong
  else if byte 0 ≠ 0x30 then .error .invalidSequenceId
  else if byte 1 ≠ len - 2 then .error .invalidDataLength
  else if sTypeOffset ≥ len then .error .missingTypeIdS
  else if sLenOffset ≥ len then .error .missingLengthS
  else if sOffset + lenS ≠ len then .error .invalidLengthS
  else if byte 2 ≠ 0x02 then .error .invalidIntegerIdR
  else if lenR = 0 then .error .zeroLengthR
  else if byte 4 &&& 0x80 ≠ 0 then .error .negativeR
  else if lenR > 1 ∧ byte 4 = 0 ∧ byte 5 &&& 0x80 = 0 then .error .tooMuchPaddingR
  else if byte sTypeOffset ≠ 0x02 then .error .invalidIntegerIdS
  else if lenS = 0 then .error .zeroLengthS
  else if byte sOffset &&& 0x80 ≠ 0 then .error .negativeS
  else if lenS > 1 ∧ byte sOffset = 0 ∧ byte (sOffset + 1) &&& 0x80 = 0 then
    .error .tooMuchPaddingS
  else .ok (sOffset, lenS)

theorem strictDer_eq_reading (sig : Bytes) :
    strictDer sig = strictDerReading sig.length (byteAt sig) := rfl

/-- Two byte sources that agree below `len` give the same answer: each check reads only where the
checks before it have made sure a byte is. -/
theorem strictDerReading_congr {len : Nat} {r₁ r₂ : Nat → Nat} (h : ∀ i < len, r₁ i = r₂ i) :
    strictDerReading len r₁ = strictDerReading len r₂ := by
  unfold strictDerReading
  dsimp only
  by_cases hshort : len < 8
  · rw [if_pos hshort, if_pos hshort]
  rw [if_neg hshort, if_neg hshort]
  -- the header and the first two bytes of R lie within the eight bytes every candidate has
  rw [h 0 (by omega), h 1 (by omega), h 2 (by omega), h 3 (by omega), h 4 (by omega),
    h 5 (by omega)]
  -- the tag and the length of S are read once they are known to be inside
  by_cases htype : 4 + r₂ 3 ≥ len
  · rw [if_pos htype, if_pos htype]
  rw [if_neg htype, if_neg htype, h (4 + r₂ 3) (by omega)]
  by_cases hlen : 4 + r₂ 3 + 1 ≥ len
  · rw [if_pos hlen, if_pos hlen]
  rw [if_neg hlen, if_neg hlen, h (4 + r₂ 3 + 1) (by omega)]
  -- from here on S is known to end at the end of the body
  by_cases hend : 4 + r₂ 3 + 1 + 1 + r₂ (4 + r₂ 3 + 1) ≠ len
  · rw [if_pos hend, if_pos hend]
  rw [if_neg hend, if_neg hend]
  by_cases hzero : r₂ (4 + r₂ 3 + 1) = 0
  · rw [if_pos hzero, if_pos hzero]
  rw [if_neg hzero, if_neg hzero, h (4 + r₂ 3 + 1 + 1) (by omega)]
  -- the second byte of S matters only when S has one
  by_cases hone : r₂ (4 + r₂ 3 + 1) > 1
  · rw [h (4 + r₂ 3 + 1 + 1 + 1) (by omega)]
  · simp only [hone, false_and, if_false]

/-! ## Exactly the layout -/

theorem strictDer_eq_ok_iff (sig : Bytes) (p : Nat × Nat) :
    strictDer sig = .ok p ↔
      ∃ R S, DerLayout sig R S ∧ p = (6 + R.length, S.length) ∧ (sig.drop p.1).take p.2 = S := by
  constructor
  · intro h
    obtain ⟨l, lr, ls, R, S, rfl, hl, hlr, hls, hsmall, hR, hS⟩ := strictDer_shape h
    have hlen := length_layout l lr ls R S
    have hp : p = (6 + R.length, S.length) := by
      rw [strictDer_of_shape hl hlr hls hsmall hR hS] at h
      exact (Except.ok.inj h).symm
    refine ⟨R, S, ⟨?_, by omega, hR, hS⟩, hp, ?_⟩
    · rw [hlen, ← eq_toUInt8_of_toNat (show l.toNat = R.length + S.length + 6 - 2 by omega),
        ← eq_toUInt8_of_toNat hlr, ← eq_toUInt8_of_toNat hls]
    · rw [hp, drop_body, List.take_length]
  · rintro ⟨R, S, hlay, rfl, -⟩
    have hlen : sig.length = R.length + S.length + 6 :=
      (congrArg List.length hlay.shape).trans (length_layout _ _ _ R S)
    have hshort := hlay.short
    have hRlen : R.length < 256 := by omega
    have hSlen : S.length < 256 := by omega
    rw [hlay.shape]
    exact strictDer_of_shape (by rw [toNat_toUInt8_of_lt (by omega)]; omega)
      (toNat_toUInt8_of_lt hRlen) (toNat_toUInt8_of_lt hSlen) (by omega) hlay.intR hlay.intS

/-- The check accepts exactly the strict DER layout. A body passes it exactly when it is a
sequence tag, the length of the rest, and two integers R and S, each a tag, a one-byte length
and its bytes, with the body at most seventy-two bytes and both integers strict: not empty,
the first byte below `0x80`, and a leading zero byte only when it is the whole integer or the
next byte is at least `0x80`. The check then answers the offset `6 + |R|` and the length `|S|`,
which slice S out of the body. The check reads the body only where it is: any byte source that
agrees with the body gives the same answer. -/
theorem strictDer_accepts_exactly_der_layout :
    (∀ x : Bytes,
      DerInt x ↔ x ≠ [] ∧ x.headD 0 < 0x80 ∧ (x.headD 0 = 0 → x.length = 1 ∨ 0x80 ≤ x.getD 1 0)) ∧
    (∀ (sig : Bytes) (p : Nat × Nat), strictDer sig = .ok p ↔
      ∃ R S, DerLayout sig R S ∧ p = (6 + R.length, S.length) ∧ (sig.drop p.1).take p.2 = S) ∧
    (∀ (sig : Bytes) (read : Nat → Nat), (∀ i < sig.length, read i = byteAt sig i) →
      strictDerReading sig.length read = strictDer sig) :=
  ⟨derInt_iff, strictDer_eq_ok_iff, fun sig _ h => (strictDerReading_congr h).trans
    (strictDer_eq_reading sig).symm⟩

/-- A lone zero byte passes as R: the body `30 06 02 01 00 02 01 01`, whose R is the single byte
`00` with no second byte, is accepted. -/
theorem strictDer_accepts_lone_zero_R :
    strictDer [0x30, 0x06, 0x02, 0x01, 0x00, 0x02, 0x01, 0x01] = .ok (7, 1) ∧
      (([0x30, 0x06, 0x02, 0x01, 0x00, 0x02, 0x01, 0x01] : Bytes).drop 4).take 1 = [0x00] := by
  decide

end Signature

end BitcoinScript
