import BitcoinScript.Proofs.Counter
import BitcoinScript.Proofs.NumberCodec
import BitcoinScript.Proofs.Conditional

/-!
# Resource limits

Every machine a run reaches keeps the limits of its rules: each item of either stack is at most
the element limit long, the two stacks together hold at most the stack limit, and the operation
count of the current script is at most the operation limit (`reachable_withinLimits`).

The element bound is the one that every opcode has to keep by itself. Most opcodes only move
items around; the others push something new, and each push is short enough for its own reason:
inline data and `OP_CAT` are checked against the limit, `OP_SPLIT`, `OP_BIN2NUM` and the bitwise
opcodes shorten what they popped, `OP_NUM2BIN` pads to a checked size, hashes have a fixed width,
and a number pushed after arithmetic on popped numbers is a few bytes longer than its operands
(clamped to 32 bits before genesis). `Exec.Bounded` is the rule set that carries such facts
about popped values to the pushes that use them.

The depth bound and the count bound are checked: the depth at the end of every step and the count
at every counted opcode. They hold across the paths with no check: an early return moves to the
next script straight after `OP_RETURN`, which pushes nothing, and the P2SH stage replaces the data
stack by the stack saved after the unlocking script, which the depth check bounded then.
-/

set_option autoImplicit false

namespace BitcoinScript

/-! ## How long a pushed item is -/

namespace Number

theorem length_magnitudeLE_le {n k : Nat} (h : n < 256 ^ k) : (magnitudeLE n).length ≤ k := by
  induction k generalizing n with
  | zero =>
    obtain rfl : n = 0 := by simpa using h
    simp [magnitudeLE_zero]
  | succ k ih =>
    rw [magnitudeLE]
    split
    · simp
    · have : n / 256 < 256 ^ k := by
        rw [Nat.div_lt_iff_lt_mul (by norm_num), ← pow_succ]
        exact h
      simpa using ih this

/-- An integer below `256 ^ k` in magnitude takes at most `k + 1` bytes: its magnitude, and a
byte of its own for the sign when the top byte has no room for it. -/
theorem length_encode_le {n : Int} {k : Nat} (h : n.natAbs < 256 ^ k) :
    (encode n).length ≤ k + 1 := by
  have hm := length_magnitudeLE_le h
  unfold encode
  dsimp only
  cases hl : (magnitudeLE n.natAbs).getLast? with
  | none => simp
  | some top =>
    dsimp only
    split
    · simp only [List.length_append, List.length_singleton]
      omega
    · split
      · simp only [List.length_append, List.length_dropLast, List.length_singleton]
        omega
      · omega

/-- A string of `k` bytes denotes a number below `256 ^ k` in magnitude. -/
theorem natAbs_value_lt (bytes : Bytes) : (value bytes).natAbs < 256 ^ bytes.length := by
  unfold value
  split
  · simp
  · rename_i last hlast
    have hne : bytes ≠ [] := fun h => by simp [h] at hlast
    have hlen : (bytes.dropLast ++ [last &&& 0x7f]).length = bytes.length := by
      have := List.length_pos_iff.mpr hne
      simp only [List.length_append, List.length_dropLast, List.length_singleton]
      omega
    have hlt := Bytes.leValue_lt (bytes.dropLast ++ [last &&& 0x7f])
    rw [hlen] at hlt
    split <;> simpa using hlt

/-- A number read under a size bound is below `256` to the bound in magnitude. -/
theorem natAbs_lt_of_decode? {bytes : Bytes} {requireMinimal : Bool} {maxSize : Nat} {n : Int}
    (h : decode? bytes requireMinimal maxSize = .ok n) : n.natAbs < 256 ^ maxSize := by
  unfold decode? at h
  split at h
  · cases h
  · split at h
    · cases h
    · cases h
      calc (value bytes).natAbs < 256 ^ bytes.length := natAbs_value_lt bytes
        _ ≤ 256 ^ maxSize := Nat.pow_le_pow_right (by norm_num) (by omega)

/-- Minimal rewriting never lengthens. -/
theorem length_minimallyEncode_le (bytes : Bytes) :
    (minimallyEncode bytes).length ≤ bytes.length := by
  have hcore : (stripHighZeros bytes.dropLast).length ≤ bytes.length - 1 := by
    simpa [stripHighZeros] using List.length_dropWhile_le _ bytes.dropLast.reverse
  unfold minimallyEncode
  split
  · simp
  · rename_i last hlast
    have hpos : 0 < bytes.length :=
      List.length_pos_iff.mpr fun h => by simp [h] at hlast
    split
    · exact le_refl _
    · dsimp only
      split
      · simp
      · split
        · simp only [List.length_append, List.length_singleton]
          omega
        · simp only [List.length_append, List.length_dropLast, List.length_singleton]
          omega

/-- Padding a number that fits gives exactly the requested size. -/
theorem length_widen {num : Bytes} {size : Nat} (h : num.length ≤ size) :
    (widen num size).length = size := by
  unfold widen
  split
  · cases hl : num.getLast? with
    | none =>
      simp only [List.length_append, List.length_nil, List.length_replicate,
        List.length_singleton]
      omega
    | some last =>
      have hpos : 0 < num.length := List.length_pos_iff.mpr fun h => by simp [h] at hl
      simp only [List.length_append, List.length_dropLast, List.length_singleton,
        List.length_replicate]
      omega
  · omega

end Number

@[simp] theorem Sha256.length_hash (x : Bytes) : (Sha256.hash x).length = 32 := by
  simp [Sha256.hash, Sha256.wordBytes]

@[simp] theorem Ripemd160.length_hash (x : Bytes) : (Ripemd160.hash x).length = 20 := by
  simp [Ripemd160.hash, Ripemd160.wordBytes]

@[simp] theorem Sha1.length_hash (x : Bytes) : (Sha1.hash x).length = 20 := by
  simp [Sha1.hash, Sha256.wordBytes]

@[simp] theorem length_hash160 (x : Bytes) : (hash160 x).length = 20 := by
  simp [hash160]

@[simp] theorem length_sha256d (x : Bytes) : (sha256d x).length = 32 := by
  simp [sha256d]

@[simp] theorem Bytes.length_shiftLeft (data : Bytes) (n : Nat) :
    (Bytes.shiftLeft data n).length = data.length := by
  simp [Bytes.shiftLeft]

@[simp] theorem Bytes.length_shiftRight (data : Bytes) (n : Nat) :
    (Bytes.shiftRight data n).length = data.length := by
  simp [Bytes.shiftRight]

/-! ## Stack primitives keep items short -/

namespace Stack

/-- Every item of the stack is at most `E` bytes long. -/
def Fits (E : Nat) (s : Stack) : Prop := ∀ x ∈ s.items, x.length ≤ E

/-- A stack primitive that, on a stack of items at most `E` bytes long under the number rule `ρ`,
succeeds only with such a stack again and with an answer satisfying `R`. -/
structure Bounded {α : Type} (E : Nat) (ρ : NumberRule) (R : α → Prop) (x : StackM α) : Prop where
  ok : ∀ s a s', s.Fits E → s.numberRule = ρ → x s = .ok a s' →
    s'.Fits E ∧ s'.numberRule = ρ ∧ R a

theorem KeepsRule.rule_of_ok {α : Type} {x : StackM α} (h : KeepsRule x) {s s' : Stack} {a : α}
    (hx : x s = .ok a s') : s'.numberRule = s.numberRule := by
  have := h.final s
  rwa [hx] at this

section Rules

variable {E : Nat} {ρ : NumberRule} {α β : Type}

/-- A primitive that keeps the number rule is bounded once its successful runs keep the items
short. -/
theorem Bounded.intro {R : α → Prop} {x : StackM α} (hr : KeepsRule x)
    (h : ∀ s a s', s.Fits E → x s = .ok a s' → s'.Fits E ∧ R a) : Bounded E ρ R x :=
  ⟨fun s a s' hs hρ hx => ⟨(h s a s' hs hx).1, (hr.rule_of_ok hx).trans hρ, (h s a s' hs hx).2⟩⟩

theorem Bounded.pure {R : α → Prop} {a : α} (h : R a) : Bounded E ρ R (pure a) :=
  ⟨fun _ _ _ hs hρ hx => by cases hx; exact ⟨hs, hρ, h⟩⟩

theorem Bounded.throw {R : α → Prop} (e : StackError) : Bounded E ρ R (throw e) :=
  ⟨fun _ _ _ _ _ hx => by cases hx⟩

theorem Bounded.throw_bind {S : β → Prop} {f : α → StackM β} (e : StackError) :
    Bounded E ρ S (MonadExcept.throw e >>= f) :=
  ⟨fun _ _ _ _ _ hx => by cases hx⟩

theorem Bounded.bind {R : α → Prop} {S : β → Prop} {x : StackM α} {f : α → StackM β}
    (hx : Bounded E ρ R x) (hf : ∀ a, R a → Bounded E ρ S (f a)) : Bounded E ρ S (x >>= f) := by
  refine ⟨fun s b s₂ hs hρ h => ?_⟩
  simp only [Bind.bind, EStateM.bind] at h
  cases hrun : x s with
  | ok a s₁ =>
    rw [hrun] at h
    obtain ⟨hs₁, hρ₁, ha⟩ := hx.ok s a s₁ hs hρ hrun
    exact (hf a ha).ok s₁ b s₂ hs₁ hρ₁ h
  | error e s₁ =>
    rw [hrun] at h
    cases h

theorem Bounded.map {R : α → Prop} {S : β → Prop} {x : StackM α} (f : α → β)
    (hx : Bounded E ρ R x) (hf : ∀ a, R a → S (f a)) : Bounded E ρ S (f <$> x) := by
  refine ⟨fun s b s₂ hs hρ h => ?_⟩
  simp only [Functor.map, EStateM.map] at h
  cases hrun : x s with
  | ok a s₁ =>
    rw [hrun] at h
    cases h
    obtain ⟨hs₁, hρ₁, ha⟩ := hx.ok s a _ hs hρ hrun
    exact ⟨hs₁, hρ₁, hf a ha⟩
  | error e s₁ =>
    rw [hrun] at h
    cases h

/-- The rule for `let s ← get`: what follows may use that the stack read is bounded. -/
theorem Bounded.get_bind {R : α → Prop} {k : Stack → StackM α}
    (hk : ∀ s, s.Fits E → s.numberRule = ρ → Bounded E ρ R (k s)) : Bounded E ρ R (get >>= k) :=
  ⟨fun s a s₂ hs hρ h => (hk s hs hρ).ok s a s₂ hs hρ h⟩

theorem Bounded.ite {R : α → Prop} {c : Prop} [Decidable c] {x y : StackM α}
    (hx : c → Bounded E ρ R x) (hy : ¬c → Bounded E ρ R y) : Bounded E ρ R (if c then x else y) := by
  split
  · exact hx ‹_›
  · exact hy ‹_›

theorem Bounded.modify {f : Stack → Stack} (hr : ∀ s, (f s).numberRule = s.numberRule)
    (hf : ∀ s, s.Fits E → (f s).Fits E) : Bounded E ρ (fun _ => True) (modify f : StackM PUnit) :=
  ⟨fun s _ _ hs hρ h => by cases h; exact ⟨hf s hs, (hr s).trans hρ, trivial⟩⟩

theorem Bounded.forIn {γ : Type} (l : List γ) (init : β) (f : γ → β → StackM (ForInStep β))
    (hf : ∀ a r, Bounded E ρ (fun _ => True) (f a r)) :
    Bounded E ρ (fun _ => True) (forIn l init f) := by
  induction l generalizing init with
  | nil => exact Bounded.pure trivial
  | cons a l ih =>
    rw [List.forIn_cons]
    refine Bounded.bind (hf a init) fun step _ => ?_
    cases step with
    | done r => exact Bounded.pure trivial
    | yield r => exact ih r

end Rules

/-! ### The primitives -/

section Primitives

variable {E : Nat} {ρ : NumberRule}

theorem bounded_require (n : Nat) : Bounded E ρ (fun _ => True) (require n) := by
  refine Bounded.intro (keepsRule_require n) fun s a s' hs h => ?_
  simp only [require] at h
  split at h
  · cases h
    exact ⟨hs, trivial⟩
  · cases h

theorem bounded_last : Bounded E ρ (fun x => x.length ≤ E) last := by
  refine Bounded.intro keepsRule_last fun s a s' hs h => ?_
  simp only [last] at h
  cases hit : s.items with
  | nil => simp [hit] at h
  | cons x rest =>
    simp only [hit, EStateM.Result.ok.injEq] at h
    obtain ⟨rfl, rfl⟩ := h
    exact ⟨hs, hs _ (by simp [hit])⟩

theorem bounded_top (i : Nat) : Bounded E ρ (fun x => x.length ≤ E) (top i) := by
  refine Bounded.intro (keepsRule_top i) fun s a s' hs h => ?_
  simp only [top] at h
  cases hx : s.items[i]? with
  | none => simp [hx] at h
  | some x =>
    simp only [hx, EStateM.Result.ok.injEq] at h
    obtain ⟨rfl, rfl⟩ := h
    exact ⟨hs, hs _ (List.mem_of_getElem? hx)⟩

theorem bounded_pop : Bounded E ρ (fun x => x.length ≤ E) pop := by
  refine Bounded.intro keepsRule_pop fun s a s' hs h => ?_
  simp only [pop] at h
  cases hit : s.items with
  | nil => simp [hit] at h
  | cons x rest =>
    simp only [hit, EStateM.Result.ok.injEq] at h
    obtain ⟨rfl, rfl⟩ := h
    have hmem : ∀ y ∈ x :: rest, y.length ≤ E := hit ▸ hs
    exact ⟨fun y hy => hmem y (List.mem_cons_of_mem x hy), hmem x List.mem_cons_self⟩

theorem bounded_push {x : Bytes} (hx : x.length ≤ E) : Bounded E ρ (fun _ => True) (push x) := by
  refine Bounded.intro (keepsRule_push x) fun s a s' hs h => ?_
  cases h
  refine ⟨fun y hy => ?_, trivial⟩
  rcases List.mem_cons.mp hy with rfl | hy
  · exact hx
  · exact hs y hy

theorem bounded_remove (i : Nat) : Bounded E ρ (fun x => x.length ≤ E) (remove i) := by
  refine Bounded.intro (keepsRule_remove i) fun s a s' hs h => ?_
  simp only [remove] at h
  cases hx : s.items[i]? with
  | none => simp [hx] at h
  | some x =>
    simp only [hx, EStateM.Result.ok.injEq] at h
    obtain ⟨rfl, rfl⟩ := h
    exact ⟨fun y hy => hs y (List.mem_of_mem_eraseIdx hy), hs _ (List.mem_of_getElem? hx)⟩

theorem bounded_tuck : Bounded E ρ (fun _ => True) tuck := by
  refine Bounded.intro keepsRule_tuck fun s a s' hs h => ?_
  simp only [tuck] at h
  split at h
  · rename_i hitems
    cases h
    refine ⟨fun z hz => hs z ?_, trivial⟩
    rw [hitems]
    simp only [List.mem_cons] at hz ⊢
    tauto
  · cases h

/-- A number read under a size bound is below `256` to the bound in magnitude. -/
theorem bounded_decodeNumber (bytes : Bytes) (maxSize : Nat) :
    Bounded E ρ (fun n => n.natAbs < 256 ^ maxSize) (decodeNumber bytes maxSize) := by
  refine Bounded.intro (keepsRule_decodeNumber bytes maxSize) fun s a s' hs h => ?_
  simp only [decodeNumber] at h
  split at h
  · rename_i n hdec
    cases h
    exact ⟨hs, Number.natAbs_lt_of_decode? hdec⟩
  · cases h

theorem bounded_pushAll {xs : List Bytes} (hxs : ∀ x ∈ xs, x.length ≤ E) :
    Bounded E ρ (fun _ => True) (pushAll xs) := by
  induction xs with
  | nil => exact Bounded.pure trivial
  | cons x xs ih =>
    exact Bounded.bind (bounded_push (hxs x List.mem_cons_self)) fun _ _ =>
      ih fun y hy => hxs y (List.mem_cons_of_mem x hy)

theorem bounded_popNum : Bounded E ρ (fun n => n.natAbs < 256 ^ ρ.maxNumLen) popNum :=
  Bounded.get_bind fun s _ hρ => Bounded.bind bounded_pop fun x _ => by
    rw [← hρ]
    exact bounded_decodeNumber x s.maxNumLen

theorem bounded_peekNum (i maxSize : Nat) :
    Bounded E ρ (fun n => n.natAbs < 256 ^ maxSize) (peekNum i maxSize) :=
  Bounded.bind (bounded_top i) fun x _ => bounded_decodeNumber x maxSize

/-- A number is pushed within the bound when its encoding, clamped before genesis, is. -/
theorem bounded_pushNum {n : Int}
    (hn : (Number.encode (if ρ.afterGenesis then n else Number.clampI32 n)).length ≤ E) :
    Bounded E ρ (fun _ => True) (pushNum n) :=
  Bounded.get_bind fun s _ hρ => bounded_push (by
    have : s.afterGenesis = ρ.afterGenesis := by rw [← hρ]; rfl
    rw [this]
    exact hn)

theorem bounded_pushBool (hE : 1 ≤ E) (v : Bool) : Bounded E ρ (fun _ => True) (pushBool v) :=
  bounded_push (by cases v <;> simp [hE])

theorem bounded_popBool : Bounded E ρ (fun _ => True) popBool :=
  Bounded.bind bounded_pop fun _ _ => Bounded.pure trivial

theorem bounded_drop (n : Nat) : Bounded E ρ (fun _ => True) (drop n) := by
  unfold drop
  refine Bounded.bind (bounded_require n) fun _ _ => ?_
  rw [Std.Legacy.Range.forIn_eq_forIn_range']
  refine Bounded.bind (Bounded.forIn _ _ _ fun _ _ => ?_) fun _ _ => Bounded.pure trivial
  have hdiscard : Bounded E ρ (fun _ => True) (discard pop) :=
    Bounded.map _ bounded_pop fun _ _ => trivial
  exact Bounded.bind hdiscard fun _ _ => Bounded.pure trivial

theorem bounded_dup (n : Nat) : Bounded E ρ (fun _ => True) (dup n) :=
  Bounded.bind (bounded_require n) fun _ _ => Bounded.get_bind fun _ hs _ =>
    bounded_pushAll fun x hx => hs x (List.mem_of_mem_take (List.mem_reverse.mp hx))

/-- A copy pushes only items it reads off the stack, so it keeps them short. -/
theorem bounded_copyUp (i k : Nat) : Bounded E ρ (fun _ => True) (copyUp i k) := by
  induction k generalizing i with
  | zero => exact Bounded.pure trivial
  | succ k ih =>
    refine Bounded.get_bind fun s hs _ => ?_
    split
    · rename_i x hx
      have hmem : x ∈ s.items := by
        simpa [toList] using List.mem_of_getElem? hx
      exact Bounded.bind (bounded_push (hs x hmem)) fun _ _ => ih (i + 1)
    · exact Bounded.throw _

theorem bounded_over (n : Nat) : Bounded E ρ (fun _ => True) («over» n) :=
  Bounded.bind (bounded_require _) fun _ _ => Bounded.get_bind fun _ _ _ => bounded_copyUp _ _

/-- Moving a block of items around keeps them short. -/
theorem fits_of_subset {E : Nat} {s s' : Stack} (hs : s.Fits E) (h : ∀ x ∈ s'.items, x ∈ s.items) :
    s'.Fits E :=
  fun x hx => hs x (h x hx)

/-- Turning the top `k` items round, as `OP_ROT` and `OP_SWAP` do, keeps the same items. -/
theorem mem_of_mem_turned {l : List Bytes} {j k : Nat} {x : Bytes}
    (hx : x ∈ (l.take k).drop j ++ (l.take k).take j ++ l.drop k) : x ∈ l := by
  simp only [List.mem_append] at hx
  rcases hx with (hx | hx) | hx
  · exact List.mem_of_mem_take (List.mem_of_mem_drop hx)
  · exact List.mem_of_mem_take (List.mem_of_mem_take hx)
  · exact List.mem_of_mem_drop hx

theorem bounded_turnTop (k n : Nat) (p : StackPanic) :
    Bounded E ρ (fun _ => True) (turnTop k n p) := by
  refine Bounded.bind (bounded_require _) fun _ _ => ?_
  refine Bounded.ite (fun _ => Bounded.throw_bind _) fun _ => ?_
  exact Bounded.modify (fun _ => rfl) fun _ hs => fits_of_subset hs fun _ hx => mem_of_mem_turned hx

theorem bounded_rot (n : Nat) : Bounded E ρ (fun _ => True) (rot n) := bounded_turnTop 3 n _

theorem bounded_swap (n : Nat) : Bounded E ρ (fun _ => True) (swap n) := bounded_turnTop 2 n _

theorem bounded_nip : Bounded E ρ (fun _ => True) nip :=
  Bounded.map _ (bounded_remove 1) fun _ _ => trivial

theorem bounded_pick (n : Int) : Bounded E ρ (fun _ => True) (pick n) := by
  unfold pick
  refine Bounded.ite (fun _ => Bounded.throw_bind _) fun _ => ?_
  exact Bounded.bind (bounded_top _) fun _ hx => bounded_push hx

theorem bounded_roll (n : Int) : Bounded E ρ (fun _ => True) (roll n) := by
  unfold roll
  refine Bounded.ite (fun _ => Bounded.throw_bind _) fun _ => ?_
  exact Bounded.bind (bounded_remove _) fun _ hx => bounded_push hx

end Primitives

end Stack

/-! ## Opcodes keep items short -/

/-- The bounds under which every number an opcode pushes fits: items of at most `E` bytes, with
room for a hash and for a clamped 32-bit number, and after genesis for a product of two operands
of the stack's number length. -/
structure NumberRule.Sane (E : Nat) (ρ : NumberRule) : Prop where
  hash : 32 ≤ E
  small : E < 256 ^ 4
  product : ρ.afterGenesis = true → 2 * ρ.maxNumLen + 2 ≤ E

theorem Number.natAbs_clampI32_lt (n : Int) : (Number.clampI32 n).natAbs < 256 ^ 4 := by
  unfold Number.clampI32 Number.maxI32 Number.minI32
  split_ifs <;> omega

/-- No entry of the table of the opcodes from `0x61` on pushes, neither inline data nor a small
number. -/
theorem Opcode.operationTable_getD_not_push (i : Nat) :
    Opcode.operationTable.getD i .invalid ≠ .pushData ∧
      ∀ n, Opcode.operationTable.getD i .invalid ≠ .pushSmall n := by
  rw [List.getD_eq_getElem?_getD]
  cases hx : Opcode.operationTable[i]? with
  | none => simp
  | some o =>
    have hmem := List.mem_of_getElem? hx
    simp only [Option.getD_some]
    constructor
    · rintro rfl
      simp [Opcode.operationTable] at hmem
    · rintro n rfl
      simp [Opcode.operationTable] at hmem

/-- The small numbers pushed by OP_1NEGATE and OP_1 to OP_16. -/
theorem Opcode.natAbs_le_of_pushSmall {op : Opcode} {n : Int} (h : op.operation = .pushSmall n) :
    n.natAbs ≤ 16 := by
  unfold Opcode.operation at h
  dsimp only at h
  split_ifs at h
  · simp only [Operation.pushSmall.injEq] at h
    omega
  · simp only [Operation.pushSmall.injEq] at h
    omega
  · exact absurd h ((Opcode.operationTable_getD_not_push _).2 n)

/-- A sum of two operands of `N` bytes (or of one and a constant no larger) takes at most
`2 * N + 1` bytes. -/
theorem lt_pow_of_le_add {N a b r : Nat} (ha : a < 256 ^ N) (hb : b ≤ 256 ^ N) (h : r ≤ a + b) :
    r < 256 ^ (2 * N + 1) := by
  have : 256 ^ N ≤ 256 ^ (2 * N) := Nat.pow_le_pow_right (by norm_num) (by omega)
  rw [pow_succ]
  omega

/-- A product of two operands of `N` bytes takes at most `2 * N` bytes. -/
theorem lt_pow_of_le_mul {N a b r : Nat} (ha : a < 256 ^ N) (hb : b < 256 ^ N) (h : r ≤ a * b) :
    r < 256 ^ (2 * N + 1) := by
  have : a * b < 256 ^ (2 * N) := by
    rw [two_mul, pow_add]
    exact Nat.mul_lt_mul'' ha hb
  rw [pow_succ]
  omega

section Push

variable {E : Nat} {ρ : NumberRule}

/-- A number below `256 ^ 4` in magnitude is pushed in at most five bytes. -/
theorem NumberRule.Sane.pushes_small (hs : ρ.Sane E) {n : Int} (hn : n.natAbs < 256 ^ 4) :
    (Number.encode (if ρ.afterGenesis then n else Number.clampI32 n)).length ≤ E := by
  have h5 : ∀ k : Int, k.natAbs < 256 ^ 4 → (Number.encode k).length ≤ E := fun k hk =>
    (Number.length_encode_le hk).trans (by have := hs.hash; omega)
  split
  · exact h5 n hn
  · exact h5 _ (Number.natAbs_clampI32_lt n)

/-- A number below `256` to twice the number length, plus one, in magnitude is pushed within the
bound: every result of arithmetic on two operands is one. -/
theorem NumberRule.Sane.pushes_result (hs : ρ.Sane E) {n : Int}
    (hn : n.natAbs < 256 ^ (2 * ρ.maxNumLen + 1)) :
    (Number.encode (if ρ.afterGenesis then n else Number.clampI32 n)).length ≤ E := by
  split
  · rename_i hg
    exact (Number.length_encode_le hn).trans (hs.product hg)
  · exact (Number.length_encode_le (Number.natAbs_clampI32_lt n)).trans (by have := hs.hash; omega)

end Push

namespace Machine

/-- The element bound on a machine: both stacks hold items of at most `E` bytes, `E` is the
element limit, and the data stack reads and pushes numbers under the rule `ρ`. -/
structure ItemsFit (E : Nat) (ρ : NumberRule) (m : Machine) : Prop where
  data : m.dstack.Fits E
  alt : m.astack.Fits E
  limit : m.limits.maxElementSize = E
  rule : m.dstack.numberRule = ρ

theorem ItemsFit.congr {E : Nat} {ρ : NumberRule} {m m' : Machine} (hm : m.ItemsFit E ρ)
    (hd : m'.dstack = m.dstack) (ha : m'.astack = m.astack) (hl : m'.limits = m.limits) :
    m'.ItemsFit E ρ :=
  ⟨hd ▸ hm.data, ha ▸ hm.alt, hl ▸ hm.limit, hd ▸ hm.rule⟩

end Machine

namespace Exec

/-- `x` keeps `I` and answers with `R`: every successful run from a machine satisfying `I` ends
in one satisfying `I`, with an answer satisfying `R`. Nothing is asked of a failure. -/
structure Bounded {α : Type} (I : Machine → Prop) (R : α → Prop) (x : Exec α) : Prop where
  ok : ∀ m a m', I m → x m = .ok a m' → I m' ∧ R a

section Rules

variable {I : Machine → Prop} {α β : Type}

theorem Bounded.pure {R : α → Prop} {a : α} (h : R a) : Bounded I R (pure a) :=
  ⟨fun _ _ _ hm hx => by cases hx; exact ⟨hm, h⟩⟩

theorem Bounded.throw {R : α → Prop} (e : ScriptError) : Bounded I R (throw e : Exec α) :=
  ⟨fun _ _ _ _ hx => by cases hx⟩

theorem Bounded.throw_bind {S : β → Prop} {f : α → Exec β} (e : ScriptError) :
    Bounded I S (MonadExcept.throw e >>= f) :=
  ⟨fun _ _ _ _ hx => by cases hx⟩

theorem Bounded.pure_bind {S : β → Prop} {a : α} {f : α → Exec β} (h : Bounded I S (f a)) :
    Bounded I S (Pure.pure a >>= f) :=
  ⟨fun m b m' hm hx => h.ok m b m' hm hx⟩

theorem Bounded.bind {R : α → Prop} {S : β → Prop} {x : Exec α} {f : α → Exec β}
    (hx : Bounded I R x) (hf : ∀ a, R a → Bounded I S (f a)) : Bounded I S (x >>= f) := by
  refine ⟨fun m b m₂ hm h => ?_⟩
  obtain ⟨a, m₁, h₁, h₂⟩ := bind_eq_ok.mp h
  obtain ⟨hm₁, ha⟩ := hx.ok m a m₁ hm h₁
  exact (hf a ha).ok m₁ b m₂ hm₁ h₂

/-- The rule for `let m ← get`: what follows may use that the machine read satisfies `I`. -/
theorem Bounded.get_bind {R : α → Prop} {k : Machine → Exec α}
    (hk : ∀ m, I m → Bounded I R (k m)) : Bounded I R (get >>= k) :=
  ⟨fun m a m₂ hm h => (hk m hm).ok m a m₂ hm h⟩

theorem Bounded.ite {R : α → Prop} {c : Prop} [Decidable c] {x y : Exec α}
    (hx : c → Bounded I R x) (hy : ¬c → Bounded I R y) : Bounded I R (if c then x else y) := by
  split
  · exact hx ‹_›
  · exact hy ‹_›

theorem Bounded.set {s : Machine} (hs : I s) : Bounded I (fun _ => True) (set s : Exec PUnit) :=
  ⟨fun _ _ _ _ h => by cases h; exact ⟨hs, trivial⟩⟩

theorem Bounded.modify {f : Machine → Machine} (hf : ∀ m, I m → I (f m)) :
    Bounded I (fun _ => True) (modify f : Exec PUnit) :=
  ⟨fun m _ _ hm h => by cases h; exact ⟨hf m hm, trivial⟩⟩

theorem Bounded.lift {R : α → Prop} {x : Except ScriptError α} (h : ∀ a, x = .ok a → R a) :
    Bounded I R (lift x) := by
  cases x with
  | error e => exact Bounded.throw e
  | ok a => exact Bounded.pure (h a rfl)

end Rules

section Items

variable {E : Nat} {ρ : NumberRule}

theorem bounded_onData {α : Type} {R : α → Prop} {op : StackM α} (hop : Stack.Bounded E ρ R op) :
    Bounded (Machine.ItemsFit E ρ) R (onData op) := by
  refine ⟨fun m a m' hm h => ?_⟩
  simp only [onData] at h
  cases hs : op { m.dstack with events := [] } with
  | ok a' s =>
    simp only [hs, EStateM.Result.ok.injEq] at h
    obtain ⟨rfl, rfl⟩ := h
    obtain ⟨hfits, hρ, hR⟩ := hop.ok { m.dstack with events := [] } a' s hm.data hm.rule hs
    exact ⟨⟨hfits, hm.alt, hm.limit, hρ⟩, hR⟩
  | error e s => simp [hs] at h

theorem bounded_onAlt_push {x : Bytes} (hx : x.length ≤ E) :
    Bounded (Machine.ItemsFit E ρ) (fun _ => True) (onAlt (Stack.push x)) := by
  refine ⟨fun m a m' hm h => ?_⟩
  simp only [onAlt, Stack.push, EStateM.Result.ok.injEq] at h
  obtain ⟨-, rfl⟩ := h
  refine ⟨⟨hm.data, fun y hy => ?_, hm.limit, hm.rule⟩, trivial⟩
  rcases List.mem_cons.mp hy with rfl | hy
  · exact hx
  · exact hm.alt y hy

theorem bounded_pop : Bounded (Machine.ItemsFit E ρ) (fun x => x.length ≤ E) pop :=
  bounded_onData Stack.bounded_pop

theorem bounded_push {x : Bytes} (hx : x.length ≤ E) :
    Bounded (Machine.ItemsFit E ρ) (fun _ => True) (push x) :=
  bounded_onData (Stack.bounded_push hx)

theorem bounded_popNum :
    Bounded (Machine.ItemsFit E ρ) (fun n => n.natAbs < 256 ^ ρ.maxNumLen) popNum :=
  bounded_onData Stack.bounded_popNum

theorem bounded_pushNum {n : Int}
    (hn : (Number.encode (if ρ.afterGenesis then n else Number.clampI32 n)).length ≤ E) :
    Bounded (Machine.ItemsFit E ρ) (fun _ => True) (pushNum n) :=
  bounded_onData (Stack.bounded_pushNum hn)

theorem bounded_pushBool (hs : ρ.Sane E) (v : Bool) :
    Bounded (Machine.ItemsFit E ρ) (fun _ => True) (pushBool v) :=
  bounded_onData (Stack.bounded_pushBool (by have := hs.hash; omega) v)

theorem bounded_popIndex : Bounded (Machine.ItemsFit E ρ) (fun _ => True) popIndex := by
  unfold popIndex
  refine bounded_popNum.bind fun n _ => ?_
  split
  · exact Bounded.pure trivial
  · exact Bounded.throw _

theorem bounded_popItems (n : Nat) :
    Bounded (Machine.ItemsFit E ρ) (fun _ => True) (popItems n) := by
  induction n with
  | zero => exact Bounded.pure trivial
  | succ n ih =>
    exact bounded_pop.bind fun _ _ => ih.bind fun _ _ => Bounded.pure trivial

/-- Arithmetic on two popped numbers pushes a result within the bound, when every result of the
operation is no longer than a product of the operands. -/
theorem bounded_binary (hs : ρ.Sane E) {f : Int → Int → Except ScriptError Int}
    (hf : ∀ a b r, a.natAbs < 256 ^ ρ.maxNumLen → b.natAbs < 256 ^ ρ.maxNumLen → f a b = .ok r →
      r.natAbs < 256 ^ (2 * ρ.maxNumLen + 1)) :
    Bounded (Machine.ItemsFit E ρ) (fun _ => True) (binary f) := by
  unfold binary
  refine bounded_popNum.bind fun b hb => bounded_popNum.bind fun a ha => ?_
  have hr : Bounded (Machine.ItemsFit E ρ) (fun r => r.natAbs < 256 ^ (2 * ρ.maxNumLen + 1))
      (lift (f a b)) := Bounded.lift fun r hr => hf a b r ha hb hr
  exact hr.bind fun r hr => bounded_pushNum (hs.pushes_result hr)

theorem bounded_compare (hs : ρ.Sane E) (f : Int → Int → Bool) :
    Bounded (Machine.ItemsFit E ρ) (fun _ => True) (compare f) :=
  bounded_popNum.bind fun _ _ => bounded_popNum.bind fun _ _ => bounded_pushBool hs _

theorem bounded_bitwise (op : Instruction) (f : UInt8 → UInt8 → UInt8) :
    Bounded (Machine.ItemsFit E ρ) (fun _ => True) (bitwise op f) := by
  unfold bitwise
  refine bounded_pop.bind fun b _ => bounded_pop.bind fun a ha => ?_
  refine Bounded.ite (fun _ => Bounded.throw_bind _) fun _ => bounded_push ?_
  rw [List.length_zipWith]
  omega

theorem bounded_shift {f : Bytes → Nat → Bytes} (hf : ∀ data n, (f data n).length = data.length) :
    Bounded (Machine.ItemsFit E ρ) (fun _ => True) (shift f) := by
  unfold shift
  refine bounded_popNum.bind fun n _ => bounded_pop.bind fun data hdata => ?_
  exact Bounded.ite (fun _ => Bounded.throw_bind _) fun _ => bounded_push ((hf _ _).trans_le hdata)

theorem bounded_hashTop (hs : ρ.Sane E) {f : Bytes → Bytes} (hf : ∀ x, (f x).length ≤ 32) :
    Bounded (Machine.ItemsFit E ρ) (fun _ => True) (hashTop f) :=
  bounded_pop.bind fun x _ => bounded_push ((hf x).trans hs.hash)

theorem bounded_lockTimeIsNop (op : Instruction) (enabled : Bool) :
    Bounded (Machine.ItemsFit E ρ) (fun _ => True) (lockTimeIsNop op enabled) := by
  unfold lockTimeIsNop
  exact Bounded.get_bind fun _ _ => Bounded.ite (fun _ => Bounded.pure trivial) fun _ =>
    Bounded.ite (fun _ => Bounded.throw_bind _) fun _ => Bounded.pure trivial

theorem bounded_popCondition : Bounded (Machine.ItemsFit E ρ) (fun _ => True) popCondition := by
  unfold popCondition
  refine Bounded.get_bind fun _ _ => Bounded.ite (fun _ => bounded_onData Stack.bounded_popBool)
    fun _ => bounded_pop.bind fun x _ => ?_
  split
  · exact Bounded.pure trivial
  · exact Bounded.pure trivial
  · exact Bounded.throw _

/-- The block opcodes write only the open blocks. -/
theorem bounded_openBranch (op : Instruction) (negate : Bool) :
    Bounded (Machine.ItemsFit E ρ) (fun _ => True) (openBranch op negate) := by
  unfold openBranch
  have hopen : ∀ b : Branch, Bounded (Machine.ItemsFit E ρ) (fun _ => True)
      (pure b >>= fun b => modify fun m : Machine =>
        { m with branches := b :: m.branches, elseSeen := false :: m.elseSeen }) :=
    fun _ => Bounded.pure_bind (Bounded.modify fun _ hm => hm.congr rfl rfl rfl)
  refine Bounded.get_bind fun _ _ => Bounded.ite (fun _ => Bounded.ite (fun _ => ?_) fun _ => hopen _)
    fun _ => hopen _
  exact bounded_popCondition.bind fun _ _ => hopen _

theorem bounded_flipBranch : Bounded (Machine.ItemsFit E ρ) (fun _ => True) flipBranch := by
  unfold flipBranch
  refine Bounded.get_bind fun m hm => ?_
  split
  · exact Bounded.ite (fun _ => Bounded.throw_bind _) fun _ => Bounded.set (hm.congr rfl rfl rfl)
  · exact Bounded.throw _

theorem bounded_closeBranch : Bounded (Machine.ItemsFit E ρ) (fun _ => True) closeBranch := by
  unfold closeBranch
  refine Bounded.get_bind fun m hm => ?_
  split
  · exact Bounded.set (hm.congr rfl rfl rfl)
  · exact Bounded.throw _

theorem bounded_checkSig : Bounded (Machine.ItemsFit E ρ) (fun _ => True) checkSig := by
  unfold checkSig
  refine bounded_pop.bind fun _ _ => bounded_pop.bind fun _ _ => Bounded.get_bind fun _ _ => ?_
  exact (Bounded.lift fun _ _ => trivial).bind fun _ _ => (Bounded.lift fun _ _ => trivial).bind
    fun _ _ => Bounded.ite (fun _ => Bounded.throw_bind _) fun _ => Bounded.pure trivial

theorem bounded_checkMultiSig : Bounded (Machine.ItemsFit E ρ) (fun _ => True) checkMultiSig := by
  unfold checkMultiSig
  refine bounded_popNum.bind fun _ _ => Bounded.get_bind fun m hm => ?_
  -- the key count is written to the operation count, which the bound does not read
  split
  · refine Bounded.bind (Bounded.set ?_) fun _ _ => ?_
    · exact hm.congr rfl rfl rfl
    refine Bounded.ite (fun _ => Bounded.throw_bind _) fun _ => ?_
    refine (bounded_popItems _).bind fun _ _ => bounded_popNum.bind fun _ _ => ?_
    split
    · refine (bounded_popItems _).bind fun _ _ => bounded_pop.bind fun _ _ =>
        Bounded.get_bind fun _ _ => Bounded.ite (fun _ => Bounded.throw_bind _) fun _ => ?_
      exact (Bounded.lift fun _ _ => trivial).bind fun _ _ => (Bounded.lift fun _ _ => trivial).bind
        fun _ _ => Bounded.ite (fun _ => Bounded.throw_bind _) fun _ => Bounded.pure trivial
    · exact Bounded.throw _
  · exact Bounded.throw _

/-- Every opcode but OP_DEPTH keeps items within the bound: what it pushes is an operand or a
piece of one, a hash, a truth value or a number at most twice an operand's length, and OP_CAT and
OP_NUM2BIN check their results against the element limit. -/
theorem bounded_perform (hs : ρ.Sane E) {op : Instruction} (hdata : op.data.length ≤ E)
    (hdepth : op.opcode.operation ≠ .depth) :
    Bounded (Machine.ItemsFit E ρ) (fun _ => True) (perform op) := by
  have pushes_unary : ∀ (f : Int → Int), (∀ n, (f n).natAbs ≤ n.natAbs + 1) →
      Bounded (Machine.ItemsFit E ρ) (fun _ => True) (popNum >>= fun n => pushNum (f n)) :=
    fun f hf => bounded_popNum.bind fun n hn => bounded_pushNum (hs.pushes_result
      (lt_pow_of_le_add hn (Nat.one_le_pow _ _ (by norm_num)) (hf n)))
  have pushes_sum : ∀ (f : Int → Int → Int), (∀ a b, (f a b).natAbs ≤ a.natAbs + b.natAbs) →
      Bounded (Machine.ItemsFit E ρ) (fun _ => True) (binary fun a b => .ok (f a b)) :=
    fun f hf => bounded_binary hs fun a b r ha hb hr => by
      cases hr
      exact lt_pow_of_le_add ha hb.le (hf a b)
  unfold perform
  cases hop : op.opcode.operation with
  | pushData => exact bounded_push hdata
  | pushSmall n =>
    have hn := Opcode.natAbs_le_of_pushSmall hop
    exact bounded_pushNum (hs.pushes_small (by omega))
  | reserved | invalid | disabled => exact Bounded.throw _
  | reservedBranch =>
    exact Bounded.get_bind fun _ _ => Bounded.ite (fun _ => Bounded.pure trivial) fun _ =>
      Bounded.throw _
  | nop =>
    exact Bounded.get_bind fun _ _ => Bounded.ite (fun _ => Bounded.throw _) fun _ =>
      Bounded.pure trivial
  | ifBranch negate => exact bounded_openBranch op negate
  | elseBranch => exact bounded_flipBranch
  | endBranch => exact bounded_closeBranch
  | verify =>
    exact (bounded_onData Stack.bounded_popBool).bind fun _ _ =>
      Bounded.ite (fun _ => Bounded.throw _) fun _ => Bounded.pure trivial
  | returnEarly =>
    exact Bounded.get_bind fun _ hm => Bounded.ite (fun _ => Bounded.throw_bind _) fun _ =>
      Bounded.set (hm.congr rfl rfl rfl)
  | toAltStack => exact bounded_pop.bind fun _ hx => bounded_onAlt_push hx
  | fromAltStack =>
    refine Bounded.get_bind fun m hm => ?_
    split
    · rename_i x rest hxs
      refine Bounded.bind (Bounded.set ?_) fun _ _ => bounded_push (hm.alt x (by simp [hxs]))
      exact ⟨hm.data, fun y hy => hm.alt y (by simp [hxs, hy]), hm.limit, hm.rule⟩
    · exact Bounded.throw _
  | drop n => exact bounded_onData (Stack.bounded_drop n)
  | dup n => exact bounded_onData (Stack.bounded_dup n)
  | «over» n => exact bounded_onData (Stack.bounded_over n)
  | rot n => exact bounded_onData (Stack.bounded_rot n)
  | swap n => exact bounded_onData (Stack.bounded_swap n)
  | ifDup =>
    exact (bounded_onData Stack.bounded_last).bind fun _ _ =>
      Bounded.ite (fun _ => bounded_onData (Stack.bounded_dup 1)) fun _ => Bounded.pure trivial
  | depth => exact absurd hop hdepth
  | nip => exact bounded_onData Stack.bounded_nip
  | pick => exact bounded_popIndex.bind fun n _ => bounded_onData (Stack.bounded_pick n)
  | roll => exact bounded_popIndex.bind fun n _ => bounded_onData (Stack.bounded_roll n)
  | tuck => exact bounded_onData Stack.bounded_tuck
  | cat =>
    refine bounded_pop.bind fun b _ => bounded_pop.bind fun a _ => Bounded.get_bind fun m hm => ?_
    refine Bounded.ite (fun _ => Bounded.throw_bind _) fun hsize => bounded_push ?_
    rw [hm.limit] at hsize
    rw [List.length_append]
    omega
  | split =>
    refine bounded_popNum.bind fun n _ => bounded_pop.bind fun data hdata => ?_
    refine Bounded.ite (fun _ => Bounded.throw_bind _) fun _ =>
      Bounded.ite (fun _ => Bounded.throw_bind _) fun _ => ?_
    refine (bounded_push ?_).bind fun _ _ => bounded_push ?_
    · rw [List.length_take]
      omega
    · rw [List.length_drop]
      omega
  | num2bin =>
    refine bounded_popNum.bind fun size _ => bounded_pop.bind fun data hdata =>
      Bounded.get_bind fun m hm => ?_
    refine Bounded.ite (fun _ => Bounded.throw_bind _) fun _ =>
      Bounded.ite (fun _ => Bounded.throw_bind _) fun hmax =>
      Bounded.ite (fun _ => Bounded.throw_bind _) fun hfit => bounded_push ?_
    -- the result is widened to the requested size, which was checked against the limit
    rw [hm.limit] at hmax
    rw [Number.length_widen (by omega)]
    omega
  | bin2num =>
    exact bounded_pop.bind fun data hdata => Bounded.get_bind fun _ _ =>
      Bounded.ite (fun _ => Bounded.throw_bind _) fun _ =>
      bounded_push ((Number.length_minimallyEncode_le data).trans hdata)
  | size =>
    refine (bounded_onData Stack.bounded_last).bind fun top htop =>
      bounded_pushNum (hs.pushes_small ?_)
    have := hs.small
    omega
  | invert =>
    refine bounded_pop.bind fun x hx => bounded_push ?_
    rw [List.length_map]
    exact hx
  | bitAnd | bitOr | bitXor => exact bounded_bitwise op _
  | equal =>
    exact bounded_pop.bind fun _ _ => bounded_pop.bind fun _ _ => bounded_pushBool hs _
  | equalVerify =>
    exact bounded_pop.bind fun _ _ => bounded_pop.bind fun _ _ =>
      Bounded.ite (fun _ => Bounded.throw _) fun _ => Bounded.pure trivial
  | add1 => exact pushes_unary _ fun n => by omega
  | sub1 => exact pushes_unary _ fun n => by omega
  | negate => exact pushes_unary _ fun n => by omega
  | abs => exact pushes_unary _ fun n => by omega
  | not | nonZero => exact bounded_popNum.bind fun _ _ => bounded_pushBool hs _
  | add => exact pushes_sum _ Int.natAbs_add_le
  | sub => exact pushes_sum _ Int.natAbs_sub_le
  | mul =>
    refine bounded_binary hs fun a b r ha hb hr => ?_
    cases hr
    exact lt_pow_of_le_mul ha hb (Int.natAbs_mul a b).le
  | div =>
    refine bounded_binary hs fun a b r ha hb hr => ?_
    obtain rfl : r = a.tdiv b := by
      unfold number Number.quotient? at hr
      split_ifs at hr
      simp_all
    exact lt_pow_of_le_add ha hb.le ((Int.natAbs_tdiv_le_natAbs a b).trans (Nat.le_add_right _ _))
  | mod =>
    refine bounded_binary hs fun a b r ha hb hr => ?_
    obtain rfl : r = a.tmod b := by
      unfold number Number.remainder? at hr
      split_ifs at hr
      simp_all
    rw [Int.natAbs_tmod]
    exact lt_pow_of_le_add ha hb.le ((Nat.mod_le _ _).trans (Nat.le_add_right _ _))
  | shiftLeft => exact bounded_shift Bytes.length_shiftLeft
  | shiftRight => exact bounded_shift Bytes.length_shiftRight
  | boolAnd | boolOr | numEqual | numNotEqual | lessThan | greaterThan | lessOrEqual
    | greaterOrEqual => exact bounded_compare hs _
  | numEqualVerify =>
    exact bounded_popNum.bind fun _ _ => bounded_popNum.bind fun _ _ =>
      Bounded.ite (fun _ => Bounded.throw _) fun _ => Bounded.pure trivial
  | min => exact pushes_sum _ fun a b => by omega
  | max => exact pushes_sum _ fun a b => by omega
  | within =>
    exact bounded_popNum.bind fun _ _ => bounded_popNum.bind fun _ _ =>
      bounded_popNum.bind fun _ _ => bounded_pushBool hs _
  | ripemd160 => exact bounded_hashTop hs fun x => by simp
  | sha1 => exact bounded_hashTop hs fun x => by simp
  | sha256 => exact bounded_hashTop hs fun x => by simp
  | hash160 => exact bounded_hashTop hs fun x => by simp
  | hash256 => exact bounded_hashTop hs fun x => by simp
  | codeSeparator => exact Bounded.modify fun _ hm => hm.congr rfl rfl rfl
  | checkSig verifyOnly =>
    exact bounded_checkSig.bind fun _ _ => Bounded.ite (fun _ => bounded_pushBool hs _) fun _ =>
      Bounded.ite (fun _ => Bounded.throw _) fun _ => Bounded.pure trivial
  | checkMultiSig verifyOnly =>
    exact bounded_checkMultiSig.bind fun _ _ => Bounded.ite (fun _ => bounded_pushBool hs _)
      fun _ => Bounded.ite (fun _ => Bounded.throw _) fun _ => Bounded.pure trivial
  | checkLockTime =>
    refine Bounded.get_bind fun m _ => (bounded_lockTimeIsNop op _).bind fun _ _ =>
      Bounded.ite (fun _ => Bounded.pure trivial) fun _ =>
      (bounded_onData (Stack.bounded_peekNum 0 5)).bind fun _ _ => ?_
    exact Bounded.ite (fun _ => Bounded.throw_bind _) fun _ =>
      Bounded.ite (fun _ => Bounded.throw _) fun _ => Bounded.pure trivial
  | checkSequence =>
    refine Bounded.get_bind fun m _ => (bounded_lockTimeIsNop op _).bind fun _ _ =>
      Bounded.ite (fun _ => Bounded.pure trivial) fun _ =>
      (bounded_onData (Stack.bounded_peekNum 0 5)).bind fun _ _ => ?_
    exact Bounded.ite (fun _ => Bounded.throw_bind _) fun _ =>
      Bounded.ite (fun _ => Bounded.pure trivial) fun _ =>
      Bounded.ite (fun _ => Bounded.throw _) fun _ => Bounded.pure trivial

end Items

end Exec

namespace Machine

/-- The element bound after any opcode, OP_DEPTH included, when the data stack is not deeper
than four bytes can count. -/
theorem ItemsFit.perform {E : Nat} {ρ : NumberRule} (hs : ρ.Sane E) {op : Instruction}
    {m m' : Machine} (hm : m.ItemsFit E ρ) (hdata : op.data.length ≤ E)
    (hdepth : m.dstack.depth < 256 ^ 4) (h : Exec.perform op m = .ok () m') : m'.ItemsFit E ρ := by
  by_cases hop : op.opcode.operation = .depth
  · -- OP_DEPTH pushes the depth of the machine it runs on
    unfold Exec.perform at h
    rw [hop] at h
    have hn : (m.dstack.depth : Int).natAbs < 256 ^ 4 := by omega
    exact ((Exec.bounded_pushNum (hs.pushes_small hn)).ok m () m' hm h).1
  · exact ((Exec.bounded_perform hs hdata hop).ok m () m' hm h).1

/-- The gates in front of an opcode leave the stacks alone, so with the opcode they keep the
element bound. -/
theorem ItemsFit.executeInstruction {E : Nat} {ρ : NumberRule} (hs : ρ.Sane E) {op : Instruction}
    {m m' : Machine} (hm : m.ItemsFit E ρ) (hdepth : m.dstack.depth < 256 ^ 4)
    (h : Exec.executeInstruction op m = .ok () m') : m'.ItemsFit E ρ := by
  obtain ⟨hdata, -, hrun⟩ := Exec.executeInstruction_ok h
  have hfit : (m.counted op).ItemsFit E ρ :=
    hm.congr (counted_dstack _ _) (counted_astack _ _) (counted_limits _ _)
  rcases hrun with rfl | hperf
  · exact hfit
  · exact hfit.perform hs (hm.limit ▸ hdata) (by rw [counted_dstack]; exact hdepth) hperf

/-- What setup chose for the run: the limits of its genesis rule, and a data stack that reads
numbers of the limits' length under the run's minimal-data flag and genesis rule. -/
structure Configured (m : Machine) : Prop where
  limits : m.limits = Limits.ofGenesis m.afterGenesis
  rule : m.dstack.numberRule = ⟨m.limits.maxNumLen, m.flags.minimalData, m.afterGenesis⟩

theorem Configured.sane {m : Machine} (h : m.Configured) :
    m.dstack.numberRule.Sane m.limits.maxElementSize := by
  rw [h.rule, h.limits]
  cases m.afterGenesis
  · exact ⟨by decide, by decide, fun h => by cases h⟩
  · exact ⟨by decide, by decide, fun _ => by simp [Limits.ofGenesis, Limits.afterGenesis]⟩

theorem Configured.maxStackSize_lt {m : Machine} (h : m.Configured) :
    m.limits.maxStackSize < 256 ^ 4 := by
  rw [h.limits]
  cases m.afterGenesis <;> decide

theorem Configured.congr {m m' : Machine} (h : m.Configured) (hr : m'.rules = m.rules)
    (hρ : m'.dstack.numberRule = m.dstack.numberRule) : m'.Configured := by
  have hl : m'.limits = m.limits := congrArg Rules.limits hr
  have hf : m'.flags = m.flags := congrArg Rules.flags hr
  have hg : m'.afterGenesis = m.afterGenesis := congrArg Rules.afterGenesis hr
  exact ⟨by rw [hl, hg, h.limits], by rw [hρ, hl, hf, hg, h.rule]⟩

/-- The stacks of a machine within the limits of its run: items no longer than the element
limit on both stacks and on the stack saved for a redeem script, and no more items on the two
stacks, or on the saved one, than the stack limit. -/
structure StacksFit (m : Machine) : Prop where
  configured : m.Configured
  items : m.ItemsFit m.limits.maxElementSize m.dstack.numberRule
  saved : ∀ x ∈ m.savedFirst, x.length ≤ m.limits.maxElementSize
  depth : m.dstack.depth + m.astack.depth ≤ m.limits.maxStackSize
  savedDepth : m.savedFirst.length ≤ m.limits.maxStackSize

/-- The stack bounds hold of a machine of the same rules and data-stack number rule whose items
are within the element limit and whose stacks are within the stack limit. -/
theorem StacksFit.of_rules {m m' : Machine} (h : m.StacksFit) (hr : m'.rules = m.rules)
    (hρ : m'.dstack.numberRule = m.dstack.numberRule)
    (hdata : ∀ x ∈ m'.dstack.items, x.length ≤ m.limits.maxElementSize)
    (halt : ∀ x ∈ m'.astack.items, x.length ≤ m.limits.maxElementSize)
    (hsaved : ∀ x ∈ m'.savedFirst, x.length ≤ m.limits.maxElementSize)
    (hdepth : m'.dstack.depth + m'.astack.depth ≤ m.limits.maxStackSize)
    (hsavedDepth : m'.savedFirst.length ≤ m.limits.maxStackSize) : m'.StacksFit := by
  have hl : m'.limits = m.limits := congrArg Rules.limits hr
  rw [← hl] at hdata halt hsaved hdepth hsavedDepth
  exact ⟨h.configured.congr hr hρ, ⟨hdata, halt, rfl, rfl⟩, hsaved, hdepth, hsavedDepth⟩

/-- A script change keeps the stacks within the limits, although it checks nothing: the alt
stack is emptied, the unlocking script's stack is saved whole, and the redeem script runs on the
saved stack less its top. -/
theorem ScriptChange.stacksFit {m m' : Machine} (hc : ScriptChange m m') (h : m.StacksFit) :
    m'.StacksFit := by
  have halt : m'.astack.items = [] := by rw [hc.astack]
  have hdepth := h.depth
  simp only [Stack.depth] at hdepth
  cases hc.move with
  | save _ _ _ hsaved hd _ =>
    refine h.of_rules hc.rules (by rw [hd]) (by rw [hd]; exact h.items.data) (by simp [halt])
      (by rw [hsaved]; exact h.items.data) ?_ ?_
    · simp only [Stack.depth, hd, halt, List.length_nil]
      omega
    · rw [hsaved]
      omega
  | redeem _ _ _ _ _ hsaved _ _ hsaved' hd _ =>
    -- the redeem script's stack is the saved one less its top
    have hrest := h.savedDepth
    rw [hsaved] at hrest
    refine h.of_rules hc.rules (by rw [hd]; rfl) ?_ (by simp [halt])
      (by rw [hsaved']; exact h.saved) ?_ (by rw [hsaved']; exact h.savedDepth)
    · rw [hd]
      exact fun x hx => h.saved x (by rw [hsaved]; exact List.mem_cons_of_mem _ hx)
    · simp only [Stack.depth, hd, halt, List.length_nil, List.length_cons] at hrest ⊢
      omega
  | next _ _ _ hsaved hd _ =>
    refine h.of_rules hc.rules (by rw [hd]) (by rw [hd]; exact h.items.data) (by simp [halt])
      (by rw [hsaved]; exact h.saved) ?_ (by rw [hsaved]; exact h.savedDepth)
    simp only [Stack.depth, hd, halt, List.length_nil]
    omega

/-- The resource limits of a run: the stacks within their bounds, and the operations counted in
the current script within the operation limit. -/
structure WithinLimits (m : Machine) : Prop where
  fits : m.StacksFit
  ops : m.numOps ≤ m.limits.maxOps

theorem new?_withinLimits {unlocking locking : Bytes} {F : Flags} {c : Checker} {m : Machine}
    (h : Machine.new? unlocking locking F c = .ok m) : m.WithinLimits := by
  obtain ⟨u, l, -, -, -, -, rfl⟩ := new?_ok h
  -- setup starts with empty stacks, nothing saved and nothing counted
  refine ⟨⟨⟨rfl, rfl⟩, ⟨?_, ?_, rfl, rfl⟩, ?_, ?_, ?_⟩, ?_⟩ <;> simp [Stack.Fits, Stack.depth]

/-- One successful step keeps a run within its limits. The gates bound the inline data and the
count, the opcode keeps items within the element limit, and the depth is checked after it or,
on a pending early return, is the depth the step started from. -/
theorem WithinLimits.step {m m' : Machine} {done : Bool} (ht : m.OnTrack) (hw : m.WithinLimits)
    (h : Exec.step m = .ok done m') : m'.WithinLimits := by
  obtain ⟨script, op, m₁, -, -, hex, hfin⟩ := Exec.step_ok h
  obtain ⟨-, -, hf₁, hops₁, hp₁⟩ := Exec.executeInstruction_frame (by exact ht.quiet) hex
  replace hops₁ : m₁.numOps ≤ m.limits.maxOps ∨ m₁.numOps = m.numOps := hops₁
  have hr : m₁.rules = m.rules := congrArg Frame.rules hf₁
  have hsaved : m₁.savedFirst = m.savedFirst := congrArg Frame.savedFirst hf₁
  have hρ : m₁.dstack.numberRule = m.dstack.numberRule := congrArg Frame.dataRule hf₁
  have hl : m₁.limits = m.limits := congrArg Rules.limits hr
  have hops : m₁.numOps ≤ m₁.limits.maxOps := by
    have := hw.ops
    rw [hl]
    omega
  -- the opcode keeps every item within the element limit
  have hfit₀ : ({ m with log := .phase .beforeOp m.idx m.off :: m.log } : Machine).ItemsFit
      m.limits.maxElementSize m.dstack.numberRule := hw.fits.items.congr rfl rfl rfl
  have hdepth₀ : m.dstack.depth < 256 ^ 4 := by
    have := hw.fits.depth
    have := hw.fits.configured.maxStackSize_lt
    omega
  have hfit : m₁.ItemsFit m.limits.maxElementSize m.dstack.numberRule :=
    hfit₀.executeInstruction hw.fits.configured.sane hdepth₀ hex
  obtain ⟨-, hmove⟩ := Exec.finishStep_ok hfin
  rcases hmove with ⟨-, hdepth, -, rfl⟩ | ⟨o, L, hwhy, hshift⟩
  · -- within the script the depth was checked
    refine ⟨hw.fits.of_rules hr hρ hfit.data hfit.alt (by rw [hsaved]; exact hw.fits.saved)
      (by rw [← hl]; exact hdepth) (by rw [hsaved]; exact hw.fits.savedDepth), hops⟩
  · -- a script change: the depth was checked, or the step was an early return that left it
    have hdepth : m₁.dstack.depth + m₁.astack.depth ≤ m.limits.maxStackSize := by
      rcases hwhy with hpend | ⟨hdepth, -, -⟩
      · rcases hp₁ with hp₁ | ⟨-, rfl⟩
        · simp [hp₁, ht.settled] at hpend
        · simpa using hw.fits.depth
      · rw [← hl]
        exact hdepth
    have hc := Exec.shiftScript_ok hshift
    refine ⟨hc.stacksFit (hw.fits.of_rules hr hρ hfit.data hfit.alt ?_ hdepth ?_), ?_⟩
    · exact fun x hx => hw.fits.saved x (by rw [← hsaved]; exact hx)
    · show m₁.savedFirst.length ≤ _
      rw [hsaved]
      exact hw.fits.savedDepth
    · rw [hc.numOps]
      exact Nat.zero_le _

/-- Every machine a run reaches is within the limits of its run. -/
theorem reachable_withinLimits {m : Machine} (h : m.Reachable) : m.WithinLimits := by
  induction h with
  | setup hnew => exact new?_withinLimits hnew
  | step hr hstep ih => exact ih.step (reachable_onTrack hr) hstep

end Machine

/-- A run stays within its resource limits. At every machine it reaches the limits are those of
its genesis rule; every item of the data and alt stacks is no longer than the element limit; the
two stacks together hold no more items than the stack limit; the operations counted in the
current script are within the operation limit; and at the first opcode of each script the alt
stack, the open blocks and their else marks are empty and the operation count and the code
separator are zero. -/
theorem reachable_within_resource_limits {m : Machine} (h : m.Reachable) :
    m.limits = Limits.ofGenesis m.afterGenesis ∧
    (∀ x ∈ m.dstack.items, x.length ≤ m.limits.maxElementSize) ∧
    (∀ x ∈ m.astack.items, x.length ≤ m.limits.maxElementSize) ∧
    m.dstack.depth + m.astack.depth ≤ m.limits.maxStackSize ∧
    m.numOps ≤ m.limits.maxOps ∧
    (m.off = 0 → m.astack.items = [] ∧ m.branches = [] ∧ m.elseSeen = [] ∧ m.numOps = 0 ∧
      m.beginCode = 0) := by
  have hw := Machine.reachable_withinLimits h
  refine ⟨hw.fits.configured.limits, hw.fits.items.data, hw.fits.items.alt, hw.fits.depth,
    hw.ops, fun h0 => ?_⟩
  obtain ⟨ha, hb, hn, hc⟩ := (Machine.reachable_onTrack h).fresh h0
  -- the else marks match the open blocks one for one
  have he : m.elseSeen.length = m.branches.length := (reachable_wellNested h).length_eq
  rw [hb, List.length_nil, List.length_eq_zero_iff] at he
  exact ⟨ha, hb, he, hn, hc⟩

/-- A spend that unlocks with nothing and locks with OP_1 sets up. -/
theorem Machine.new?_lockOne : ∃ m, Machine.new? [] [0x51] ⟨0⟩ Checker.acceptAll = .ok m := by
  have hu : Script.parse? [] = some [] := by simp [Script.parse?, Script.parseAt]
  have hl : Script.parse? [0x51] = some [Instruction.ofByte 0x51] := by
    simp [Script.parse?, Script.parseAt]
  simp only [Machine.new?, hu, hl]
  exact ⟨_, rfl⟩

/-- Two steps into the spend of `OP_1 OP_IF OP_1 OP_ENDIF`, with a block open and one operation
counted, the machine is within the limits. -/
theorem reachable_within_resource_limits_ifOne :
    ∃ m₀ m₁ m₂ : Machine, Machine.new? [] [0x51, 0x63, 0x51, 0x68] ⟨0⟩ Checker.acceptAll = .ok m₀ ∧
      Exec.step m₀ = .ok false m₁ ∧ Exec.step m₁ = .ok false m₂ ∧ m₂.elseSeen = [false] ∧
      m₂.numOps = 1 ∧ m₂.dstack.depth + m₂.astack.depth ≤ m₂.limits.maxStackSize ∧
      m₂.numOps ≤ m₂.limits.maxOps := by
  obtain ⟨m₀, m₁, m₂, hnew, h₀, h₁, -, -, -, -, -, he, hn, -⟩ := Machine.run_ifOne
  have h := reachable_within_resource_limits (.step (.step (.setup hnew) h₀) h₁)
  exact ⟨m₀, m₁, m₂, hnew, h₀, h₁, he, hn, h.2.2.2.1, h.2.2.2.2.1⟩

end BitcoinScript
