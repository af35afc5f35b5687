import BitcoinScript.Proofs.Step

/-!
# Strict and lax DER read a strict signature alike

A signature body that passes the strict DER check (`Signature.strictDer`) is read by both DER
readers, and the two readings agree, or both are degenerate: a zero component, which no
verification accepts.

The check is read back into the shape of the body (`Signature.strictDer_shape`): a sequence tag,
its length, and two integers, each a tag, a short length and a body that is not negative and has
no superfluous leading zero. On that shape the strict reader takes each body without its one
allowed leading zero, the lax reader takes it without all leading zeros, and these are the same
bytes (`Signature.DerInt.digits_eq`).
-/

set_option autoImplicit false

namespace BitcoinScript

/-- A signature with a zero component, which never verifies. -/
def Secp256k1.Signature.Degenerate (s : Secp256k1.Signature) : Prop := s.r = 0 ∨ s.s = 0

namespace Signature

/-! ## The shape of a strict DER body -/

/-- The body of a strict DER integer: not empty, not negative, and without a superfluous leading
zero. -/
structure DerInt (x : Bytes) : Prop where
  ne_nil : x ≠ []
  nonneg : (x.headD 0).toNat &&& 0x80 = 0
  no_padding : ¬(1 < x.length ∧ (x.headD 0).toNat = 0 ∧ (x.getD 1 0).toNat &&& 0x80 = 0)

/-- A check that refuses or goes on. -/
theorem ite_error_eq_ok {α ε : Type} {c : Prop} [Decidable c] {e : ε} {y : Except ε α} {a : α} :
    (if c then .error e else y) = .ok a ↔ ¬c ∧ y = .ok a := by
  split <;> simp_all

theorem getD_append_length_add (A l : Bytes) (k : Nat) :
    (A ++ l).getD (A.length + k) 0 = l.getD k 0 := by
  simp [List.getD_eq_getElem?_getD, List.getElem?_append_right]

theorem getD_cons_four (x₀ x₁ x₂ x₃ : UInt8) (l : Bytes) (k : Nat) :
    (x₀ :: x₁ :: x₂ :: x₃ :: l).getD (4 + k) 0 = l.getD k 0 := by
  rw [Nat.add_comm]
  rfl

theorem drop_cons_four (x₀ x₁ x₂ x₃ : UInt8) (l : Bytes) (k : Nat) :
    (x₀ :: x₁ :: x₂ :: x₃ :: l).drop (4 + k) = l.drop k := by
  rw [Nat.add_comm]
  rfl

theorem byteAt_append_length_add (A l : Bytes) (k : Nat) :
    byteAt (A ++ l) (A.length + k) = byteAt l k :=
  congrArg UInt8.toNat (getD_append_length_add A l k)

theorem byteAt_cons_four (x₀ x₁ x₂ x₃ : UInt8) (l : Bytes) (k : Nat) :
    byteAt (x₀ :: x₁ :: x₂ :: x₃ :: l) (4 + k) = byteAt l k :=
  congrArg UInt8.toNat (getD_cons_four x₀ x₁ x₂ x₃ l k)

/-- The bytes after the header and the body of R. -/
theorem byteAt_after_body (x₀ x₁ x₂ x₃ : UInt8) (R t : Bytes) (k : Nat) :
    byteAt (x₀ :: x₁ :: x₂ :: x₃ :: (R ++ t)) (4 + R.length + k) = byteAt t k := by
  rw [Nat.add_assoc, byteAt_cons_four, byteAt_append_length_add]

/-- A list that is long enough splits around two items. -/
theorem exists_split_two {t : Bytes} {k : Nat} (h : k + 2 ≤ t.length) :
    ∃ y₀ y₁ S, t = t.take k ++ y₀ :: y₁ :: S := by
  match hd : t.drop k with
  | y₀ :: y₁ :: S => exact ⟨y₀, y₁, S, by rw [← hd, List.take_append_drop]⟩
  | [] =>
    have := congrArg List.length hd
    simp only [List.length_drop, List.length_nil] at this
    omega
  | [_] =>
    have := congrArg List.length hd
    simp only [List.length_drop, List.length_singleton] at this
    omega

/-- A body that passes the strict DER check is a sequence of two integers, each with a short
length. -/
theorem strictDer_shape {body : Bytes} {p : Nat × Nat} (h : strictDer body = .ok p) :
    ∃ l lr ls R S, body = 0x30 :: l :: 0x02 :: lr :: (R ++ 0x02 :: ls :: S) ∧
      l.toNat = R.length + S.length + 4 ∧ lr.toNat = R.length ∧ ls.toNat = S.length ∧
      R.length + S.length + 6 ≤ 72 ∧ DerInt R ∧ DerInt S := by
  unfold strictDer at h
  simp only [ite_error_eq_ok] at h
  obtain ⟨hshort, hlong, hseq, hlen, hsType, hsLen, hsEnd, hrType, hrZero, hrNeg, hrPad, hsType',
    hsZero, hsNeg, hsPad, -⟩ := h
  -- the four bytes of the header
  rcases body with _ | ⟨x₀, _ | ⟨x₁, _ | ⟨x₂, _ | ⟨x₃, t⟩⟩⟩⟩
  all_goals try (simp only [List.length_nil, List.length_cons] at hshort; omega)
  have h₀ : byteAt (x₀ :: x₁ :: x₂ :: x₃ :: t) 0 = x₀.toNat := rfl
  have h₁ : byteAt (x₀ :: x₁ :: x₂ :: x₃ :: t) 1 = x₁.toNat := rfl
  have h₂ : byteAt (x₀ :: x₁ :: x₂ :: x₃ :: t) 2 = x₂.toNat := rfl
  have h₃ : byteAt (x₀ :: x₁ :: x₂ :: x₃ :: t) 3 = x₃.toNat := rfl
  have h₄ : byteAt (x₀ :: x₁ :: x₂ :: x₃ :: t) 4 = byteAt t 0 := rfl
  have h₅ : byteAt (x₀ :: x₁ :: x₂ :: x₃ :: t) 5 = byteAt t 1 := rfl
  simp only [List.length_cons, h₀, h₁, h₂, h₃, h₄, h₅] at *
  -- R runs up to the second tag, and the tag, the length of S and S follow
  have hk : x₃.toNat + 2 ≤ t.length := by omega
  obtain ⟨y₀, y₁, S, ht⟩ := exists_split_two hk
  have hRlen : (t.take x₃.toNat).length = x₃.toNat := by
    rw [List.length_take]
    omega
  generalize t.take x₃.toNat = R at ht hRlen
  subst ht
  have e₀ : byteAt (x₀ :: x₁ :: x₂ :: x₃ :: (R ++ y₀ :: y₁ :: S)) (4 + x₃.toNat) = y₀.toNat := by
    rw [← hRlen]
    exact byteAt_after_body x₀ x₁ x₂ x₃ R _ 0
  have e₁ : byteAt (x₀ :: x₁ :: x₂ :: x₃ :: (R ++ y₀ :: y₁ :: S)) (4 + x₃.toNat + 1) = y₁.toNat := by
    rw [← hRlen]
    exact byteAt_after_body x₀ x₁ x₂ x₃ R _ 1
  have e₂ : byteAt (x₀ :: x₁ :: x₂ :: x₃ :: (R ++ y₀ :: y₁ :: S)) (4 + x₃.toNat + 1 + 1) =
      byteAt S 0 := by
    rw [← hRlen]
    exact byteAt_after_body x₀ x₁ x₂ x₃ R _ 2
  have e₃ : byteAt (x₀ :: x₁ :: x₂ :: x₃ :: (R ++ y₀ :: y₁ :: S)) (4 + x₃.toNat + 1 + 1 + 1) =
      byteAt S 1 := by
    rw [← hRlen]
    exact byteAt_after_body x₀ x₁ x₂ x₃ R _ 3
  simp only [e₀, e₁, e₂, e₃] at *
  simp only [List.length_append, List.length_cons] at hshort hlong hlen hsEnd
  -- the tags are the DER tags, and both integers have a first byte
  have hx₀ : x₀ = 0x30 := UInt8.toNat_inj.mp (by simpa using hseq)
  have hx₂ : x₂ = 0x02 := UInt8.toNat_inj.mp (by simpa using hrType)
  have hy₀ : y₀ = 0x02 := UInt8.toNat_inj.mp (by simpa using hsType')
  subst hx₀ hx₂ hy₀
  obtain ⟨r, R', rfl⟩ : ∃ r R', R = r :: R' := by
    cases R with
    | nil => simp only [List.length_nil] at hRlen; omega
    | cons r R' => exact ⟨r, R', rfl⟩
  obtain ⟨u, S', rfl⟩ : ∃ u S', S = u :: S' := by
    cases S with
    | nil => simp only [List.length_nil] at hsEnd; omega
    | cons u S' => exact ⟨u, S', rfl⟩
  simp only [List.length_cons] at hRlen hshort hlong hlen hsEnd
  have hr₀ : byteAt ((r :: R') ++ 2 :: y₁ :: u :: S') 0 = r.toNat := rfl
  have hu₀ : byteAt (u :: S') 0 = u.toNat := rfl
  rw [hr₀] at hrNeg hrPad
  rw [hu₀] at hsNeg hsPad
  refine ⟨x₁, x₃, y₁, r :: R', u :: S', rfl, ?_, hRlen.symm, ?_, ?_, ⟨List.cons_ne_nil _ _, ?_, ?_⟩,
    ⟨List.cons_ne_nil _ _, ?_, ?_⟩⟩
  · simp only [List.length_cons]
    omega
  · simp only [List.length_cons]
    omega
  · simp only [List.length_cons]
    omega
  · simpa using hrNeg
  · rintro ⟨hlong', hzero, hhigh⟩
    cases R' with
    | nil => simp at hlong'
    | cons r' R'' =>
      simp only [List.length_cons] at hRlen
      exact hrPad ⟨by omega, hzero, hhigh⟩
  · simpa using hsNeg
  · rintro ⟨hlong', hzero, hhigh⟩
    simp only [List.length_cons] at hlong'
    exact hsPad ⟨by omega, hzero, hhigh⟩

/-! ## Both readers on a strict body -/

theorem and_high_bit_eq_zero {a : Nat} (h : a < 128) : a &&& 0x80 = 0 := by
  apply Nat.eq_of_testBit_eq
  intro i
  rw [Nat.testBit_and, Nat.zero_testBit, show (0x80 : Nat) = 2 ^ 7 from rfl, Nat.testBit_two_pow]
  by_cases hi : 7 = i
  · subst hi
    simp [Nat.testBit_lt_two_pow (show a < 2 ^ 7 from h)]
  · simp [hi]

theorem UInt8.and_high_bit_eq_zero_iff {b : UInt8} : b &&& 0x80 = 0 ↔ b.toNat &&& 0x80 = 0 := by
  rw [← UInt8.toNat_inj, UInt8.toNat_and]
  rfl

/-- The strict reader drops the one allowed leading zero of an integer, the lax reader all leading
zeros: on a strict integer these are the same bytes. -/
theorem DerInt.digits_eq {x : Bytes} (hx : DerInt x) :
    (if x.headD 0 = 0 then x.drop 1 else x) = Secp256k1.Signature.stripZeros x := by
  obtain ⟨a, rest, rfl⟩ := List.exists_cons_of_ne_nil hx.ne_nil
  unfold Secp256k1.Signature.stripZeros
  by_cases ha : a = 0
  · subst ha
    cases rest with
    | nil => rfl
    | cons b rest =>
      -- a zero is allowed only before a byte with its high bit set, which is not zero
      have hb : b ≠ 0 := by
        rintro rfl
        exact hx.no_padding ⟨by simp, rfl, by simp⟩
      simp [hb]
  · simp [ha]

theorem readLength?_short {b : UInt8} {rest : Bytes} (hb : b.toNat < 128) :
    Secp256k1.Signature.readLength? (b :: rest) = some (b.toNat, rest) := by
  have hff : b ≠ 0xff := by
    rintro rfl
    exact absurd hb (by decide)
  have hhigh : b &&& 0x80 = 0 := UInt8.and_high_bit_eq_zero_iff.mpr (and_high_bit_eq_zero hb)
  simp [Secp256k1.Signature.readLength?, hff, hhigh]

/-- A strict integer is read as the scalar of its digits. -/
theorem readInteger?_der {lr : UInt8} {R rest : Bytes} (hlr : lr.toNat = R.length)
    (hsmall : R.length < 128) (hR : DerInt R) :
    Secp256k1.Signature.readInteger? (0x02 :: lr :: (R ++ rest)) =
      some (Secp256k1.Signature.scalarOf (Secp256k1.Signature.stripZeros R), rest) := by
  unfold Secp256k1.Signature.readInteger?
  have hne : R.length ≠ 0 := fun h => hR.ne_nil (List.eq_nil_of_length_eq_zero h)
  have hpad : ¬(R.headD 0 = 0 ∧ R.length > 1 ∧ R.getD 1 0 &&& 0x80 = 0) := fun ⟨h₀, h₁, h₂⟩ =>
    hR.no_padding ⟨h₁, by rw [h₀]; rfl, UInt8.and_high_bit_eq_zero_iff.mp h₂⟩
  have hff : ¬(R.headD 0 = 0xff ∧ R.length > 1 ∧ R.getD 1 0 &&& 0x80 = 0x80) := fun ⟨h₀, _⟩ => by
    have hnonneg := hR.nonneg
    rw [h₀] at hnonneg
    exact absurd hnonneg (by decide)
  have hneg : ¬(R.headD 0 &&& 0x80 ≠ 0) := not_not.mpr (UInt8.and_high_bit_eq_zero_iff.mpr hR.nonneg)
  simp only [readLength?_short (hlr ▸ hsmall), hlr, Option.bind_eq_bind, Option.bind_some,
    List.take_left', List.drop_left']
  have hfits : ¬(R.length = 0 ∨ R.length > (R ++ rest).length) := by
    simp only [List.length_append]
    omega
  rw [if_neg hfits, if_neg hpad, if_neg hff, if_neg hneg, hR.digits_eq]

/-- A strict body is read by the strict reader as the scalars of its two integers. -/
theorem parseDer?_der {l lr ls : UInt8} {R S : Bytes} (hl : l.toNat = R.length + S.length + 4)
    (hlr : lr.toNat = R.length) (hls : ls.toNat = S.length) (hsmall : R.length + S.length + 6 ≤ 72)
    (hR : DerInt R) (hS : DerInt S) :
    Secp256k1.Signature.parseDer? (0x30 :: l :: 0x02 :: lr :: (R ++ 0x02 :: ls :: S)) =
      some ⟨Secp256k1.Signature.scalarOf (Secp256k1.Signature.stripZeros R),
        Secp256k1.Signature.scalarOf (Secp256k1.Signature.stripZeros S)⟩ := by
  have hS' : Secp256k1.Signature.readInteger? (0x02 :: ls :: (S ++ [])) =
      some (Secp256k1.Signature.scalarOf (Secp256k1.Signature.stripZeros S), []) :=
    readInteger?_der hls (by omega) hS
  rw [List.append_nil] at hS'
  have hlen : ¬(l.toNat ≠ (0x02 :: lr :: (R ++ 0x02 :: ls :: S)).length) := by
    simp only [List.length_cons, List.length_append]
    omega
  unfold Secp256k1.Signature.parseDer?
  simp only [readLength?_short (show l.toNat < 128 by omega), Option.bind_eq_bind,
    Option.bind_some]
  rw [if_neg hlen, readInteger?_der hlr (by omega) hR]
  simp only [Option.bind_some, hS']
  rfl

/-- A short length at `pos` is read as itself by the lax reader. -/
theorem laxLength?_short {input : Bytes} {pos : Nat} (hpos : pos < input.length)
    (hb : (input.getD pos 0).toNat < 128) :
    Secp256k1.Signature.laxLength? input pos = some ((input.getD pos 0).toNat, pos + 1) := by
  unfold Secp256k1.Signature.laxLength?
  rw [if_neg (by omega), if_neg (not_not.mpr (and_high_bit_eq_zero hb))]

theorem parseDerLax?_der {l lr ls : UInt8} {R S : Bytes} (hl : l.toNat = R.length + S.length + 4)
    (hlr : lr.toNat = R.length) (hls : ls.toNat = S.length) (hsmall : R.length + S.length + 6 ≤ 72) :
    Secp256k1.Signature.parseDerLax? (0x30 :: l :: 0x02 :: lr :: (R ++ 0x02 :: ls :: S)) =
      let r := Secp256k1.Signature.stripZeros R
      let s := Secp256k1.Signature.stripZeros S
      some (if r.length > 32 ∨ s.length > 32 then Secp256k1.Signature.zero
        else if Bytes.beValue r ≥ Secp256k1.n ∨ Bytes.beValue s ≥ Secp256k1.n then
          Secp256k1.Signature.zero
        else ⟨Bytes.beValue r, Bytes.beValue s⟩) := by
  generalize hinput : 0x30 :: l :: 0x02 :: lr :: (R ++ 0x02 :: ls :: S) = input
  have hlen : input.length = R.length + S.length + 6 := by
    subst hinput
    simp only [List.length_cons, List.length_append]
    omega
  have h₀ : input.getD 0 0 = 0x30 := by subst hinput; rfl
  have h₁ : input.getD 1 0 = l := by subst hinput; rfl
  have h₂ : input.getD 2 0 = 0x02 := by subst hinput; rfl
  have h₃ : input.getD 3 0 = lr := by subst hinput; rfl
  have h₄ : input.getD (4 + R.length) 0 = 0x02 := by
    subst hinput
    rw [← Nat.add_zero R.length, getD_cons_four, getD_append_length_add]
    rfl
  have h₅ : input.getD (4 + R.length + 1) 0 = ls := by
    subst hinput
    rw [Nat.add_assoc, getD_cons_four, getD_append_length_add]
    rfl
  have hRbytes : (input.drop 4).take R.length = R := by
    subst hinput
    simp
  have hSbytes : (input.drop (4 + R.length + 1 + 1)).take S.length = S := by
    subst hinput
    rw [Nat.add_assoc, Nat.add_assoc, drop_cons_four, List.drop_append,
      List.drop_eq_nil_of_le (by omega)]
    simp
  have hL₁ : Secp256k1.Signature.laxLength? input 3 = some (R.length, 4) := by
    rw [laxLength?_short (by omega) (by rw [h₃]; omega), h₃, hlr]
  have hL₂ : Secp256k1.Signature.laxLength? input (4 + R.length + 1) =
      some (S.length, 4 + R.length + 1 + 1) := by
    rw [laxLength?_short (by omega) (by rw [h₅]; omega), h₅, hls]
  unfold Secp256k1.Signature.parseDerLax?
  simp [-List.getD_eq_getElem?_getD, hlen, h₀, h₁, h₂, h₄, hL₁, hL₂, hRbytes, hSbytes,
    and_high_bit_eq_zero (show l.toNat < 128 by omega)]
  -- what is left is that the lengths fit, and the reading itself
  refine ⟨by omega, by omega, by omega, ?_⟩
  split_ifs <;> rfl

theorem scalarOf_of_long {b : Bytes} (h : b.length > 32) : Secp256k1.Signature.scalarOf b = 0 := by
  simp [Secp256k1.Signature.scalarOf, h]

theorem scalarOf_of_large {b : Bytes} (h : Bytes.beValue b ≥ Secp256k1.n) :
    Secp256k1.Signature.scalarOf b = 0 := by
  simp [Secp256k1.Signature.scalarOf, h]

theorem scalarOf_of_fits {b : Bytes} (hlen : ¬b.length > 32) (hv : ¬Bytes.beValue b ≥ Secp256k1.n) :
    Secp256k1.Signature.scalarOf b = Bytes.beValue b := by
  simp only [Secp256k1.Signature.scalarOf, if_neg hlen, if_neg hv]

/-- The strict reader reads each integer as a scalar of its own, the lax one falls back to the
zero signature as soon as one of them does not fit: the readings agree, or both have a zero
component. -/
theorem scalars_agree (r s : Bytes) :
    let lax : Secp256k1.Signature :=
      if r.length > 32 ∨ s.length > 32 then Secp256k1.Signature.zero
      else if Bytes.beValue r ≥ Secp256k1.n ∨ Bytes.beValue s ≥ Secp256k1.n then
        Secp256k1.Signature.zero
      else ⟨Bytes.beValue r, Bytes.beValue s⟩
    (⟨Secp256k1.Signature.scalarOf r, Secp256k1.Signature.scalarOf s⟩ : Secp256k1.Signature) = lax ∨
      (Secp256k1.Signature.Degenerate ⟨Secp256k1.Signature.scalarOf r,
        Secp256k1.Signature.scalarOf s⟩ ∧ lax.Degenerate) := by
  intro lax
  by_cases hlong : r.length > 32 ∨ s.length > 32
  · refine Or.inr ⟨?_, by simp only [lax, if_pos hlong]; exact Or.inl rfl⟩
    rcases hlong with h | h
    · exact Or.inl (scalarOf_of_long h)
    · exact Or.inr (scalarOf_of_long h)
  obtain ⟨hr, hs⟩ := not_or.mp hlong
  by_cases hlarge : Bytes.beValue r ≥ Secp256k1.n ∨ Bytes.beValue s ≥ Secp256k1.n
  · refine Or.inr ⟨?_, by simp only [lax, if_neg hlong, if_pos hlarge]; exact Or.inl rfl⟩
    rcases hlarge with h | h
    · exact Or.inl (scalarOf_of_large h)
    · exact Or.inr (scalarOf_of_large h)
  obtain ⟨hr', hs'⟩ := not_or.mp hlarge
  left
  simp only [lax, if_neg hlong, if_neg hlarge, scalarOf_of_fits hr hr', scalarOf_of_fits hs hs']

end Signature

/-- Both DER readers read a body that passes the strict check, and their readings agree or
both have a zero component. -/
theorem Signature.der_readings_agree {body : Bytes} {p : Nat × Nat}
    (h : Signature.strictDer body = .ok p) :
    ∃ s₁ s₂, Secp256k1.Signature.parseDer? body = some s₁ ∧
      Secp256k1.Signature.parseDerLax? body = some s₂ ∧
      (s₁ = s₂ ∨ (s₁.Degenerate ∧ s₂.Degenerate)) := by
  obtain ⟨l, lr, ls, R, S, rfl, hl, hlr, hls, hsmall, hR, hS⟩ := strictDer_shape h
  exact ⟨_, _, parseDer?_der hl hlr hls hsmall hR hS, parseDerLax?_der hl hlr hls hsmall,
    scalars_agree _ _⟩

end BitcoinScript
