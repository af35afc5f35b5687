import Mathlib
import BitcoinScript.Stack.Command

/-!
# Exactness of the stack primitives

Each primitive that rearranges the data stack either refuses, failing with `invalidOperation`
and leaving the whole stack as it was (`Stack.Refuses`), or succeeds with the items its
specification gives, listed bottom first (`Stack.Yields`) (SPEC_FULL.md:51). For `drop`, `dup`,
`nip`, `tuck`, `pick`, `roll`, `remove` and `top` it refuses exactly when the stack is too shallow.
`over`, `rot` and `swap` need a depth of `2 n` or `3 n` taken as a 64-bit product: they refuse
exactly below that wrapped product, and on the counts where it wraps they panic
(`Stack.Panics`) instead of refusing, which the specification's atomic failure does not allow.

The proofs work over `Stack.items`, top first: `drop_run`, `dup_run`, `over_run`, `turnTop_run`,
`remove_run` and `top_run` compute the items after each primitive, the refusals follow from
`require_of_lt` and from the failed lookups `top_refuses` and `remove_refuses`, and the `*_exact`
lemmas carry both halves over to the bottom-first view through `items_eq_reverse`. The copy
behind `over` reads one item from the bottom at a time while the stack grows; `copyUp_eq_pushAll`
turns it into a run of pushes wherever its indices stay inside the stack. `rot` and `swap` are one
primitive, `turnTop`, and share `turnTop_exact`, `turnTop_refuses_iff` and `turnTop_panics`.
`stack_primitives_exact_below_word_wrap` collects them.
-/

set_option autoImplicit false

namespace BitcoinScript

namespace StackM

variable {α β : Type} {x : StackM α} {s s' : Stack}

theorem bind_of_ok {f : α → StackM β} {a : α} (h : x s = .ok a s') : (x >>= f) s = f a s' := by
  show EStateM.bind x f s = _
  simp only [EStateM.bind, h]

theorem bind_of_error {f : α → StackM β} {e : StackError} (h : x s = .error e s') :
    (x >>= f) s = .error e s' := by
  show EStateM.bind x f s = _
  simp only [EStateM.bind, h]

theorem get_bind {k : Stack → StackM β} : (get >>= k) s = k s s := rfl

theorem discard_of_ok {a : α} (h : x s = .ok a s') : (discard x) s = .ok () s' := by
  show EStateM.map _ x s = _
  simp only [EStateM.map, h]

theorem discard_of_error {e : StackError} (h : x s = .error e s') :
    (discard x) s = .error e s' := by
  show EStateM.map _ x s = _
  simp only [EStateM.map, h]

end StackM

namespace Stack

open StackM

variable {n : Nat} {s : Stack}

theorem items_eq_reverse (s : Stack) : s.items = s.toList.reverse := by
  simp [toList]

theorem depth_eq_length (s : Stack) : s.depth = s.toList.length := by
  simp [depth, toList]

/-- The item `zs.length` places below the top of `ys ++ x :: zs` is `x`. -/
theorem items_getElem?_of_toList {ys zs : List Bytes} {x : Bytes}
    (hs : s.toList = ys ++ x :: zs) : s.items[zs.length]? = some x := by
  simp [items_eq_reverse, hs]

/-- Taking that item out leaves `ys ++ zs`. -/
theorem items_eraseIdx_of_toList {ys zs : List Bytes} {x : Bytes}
    (hs : s.toList = ys ++ x :: zs) : (s.items.eraseIdx zs.length).reverse = ys ++ zs := by
  simp [items_eq_reverse, hs, List.eraseIdx_append_of_length_le]

/-! ## Runs over the items, top first -/

theorem wordMul_eq_mod (k n : Nat) : wordMul k n = k * n % 2 ^ 64 := rfl

/-- A product that fits in a word is exact. -/
theorem wordMul_of_lt {k : Nat} (h : k * n < 2 ^ 64) : wordMul k n = k * n := by
  rw [wordMul_eq_mod, Nat.mod_eq_of_lt h]

theorem require_of_le (h : n ≤ s.depth) : require n s = .ok () s := if_pos h

theorem require_of_lt (h : s.depth < n) : require n s = .error .invalidOperation s :=
  if_neg (Nat.not_le.mpr h)

theorem pushAll_run (xs : List Bytes) (s : Stack) :
    ∃ s', pushAll xs s = .ok () s' ∧ s'.items = xs.reverse ++ s.items := by
  induction xs generalizing s with
  | nil => exact ⟨s, rfl, rfl⟩
  | cons x xs ih =>
    obtain ⟨s', hrun, hitems⟩ := ih { s with
      items := x :: s.items
      events := .afterPush (s.items.length + 1) :: .beforePush s.items.length x :: s.events }
    refine ⟨s', hrun, ?_⟩
    rw [hitems, List.reverse_cons, List.append_assoc]
    rfl

theorem push_run (x : Bytes) (s : Stack) :
    ∃ s', push x s = .ok () s' ∧ s'.items = x :: s.items :=
  ⟨_, rfl, rfl⟩

theorem pop_run {x : Bytes} {rest : List Bytes} (h : s.items = x :: rest) :
    ∃ s', pop s = .ok x s' ∧ s'.items = rest := by
  simp only [pop, h]
  exact ⟨_, rfl, rfl⟩

/-- Popping once for each entry of `l` removes the top `l.length` items. -/
theorem pops_run (l : List Nat) (s : Stack) (h : l.length ≤ s.depth) :
    ∃ s', forIn l PUnit.unit
        (fun _ _ => do discard pop; pure (ForInStep.yield PUnit.unit) : Nat → PUnit → StackM _) s =
      .ok () s' ∧ s'.items = s.items.drop l.length := by
  induction l generalizing s with
  | nil => exact ⟨s, rfl, rfl⟩
  | cons i l ih =>
    obtain ⟨x, rest, hs⟩ : ∃ x rest, s.items = x :: rest := by
      cases hs : s.items with
      | nil => simp [depth, hs] at h
      | cons x rest => exact ⟨x, rest, rfl⟩
    obtain ⟨s₁, hpop, hitems₁⟩ := pop_run hs
    obtain ⟨s', hloop, hitems⟩ :=
      ih s₁ (by simp only [depth, hitems₁, hs, List.length_cons] at h ⊢; omega)
    refine ⟨s', ?_, by rw [hitems, hitems₁, hs, List.length_cons, List.drop_succ_cons]⟩
    have hstep : (do discard pop; pure (ForInStep.yield PUnit.unit) : StackM _) s =
        .ok (ForInStep.yield PUnit.unit) s₁ := by
      rw [bind_of_ok (discard_of_ok hpop)]
      rfl
    rw [List.forIn_cons, bind_of_ok hstep]
    exact hloop

theorem drop_run (h : n ≤ s.depth) :
    ∃ s', drop n s = .ok () s' ∧ s'.items = s.items.drop n := by
  obtain ⟨s', hloop, hitems⟩ := pops_run (List.range' 0 n) s (by simpa using h)
  refine ⟨s', ?_, by simpa using hitems⟩
  have hrange : List.range' [:n].start [:n].size [:n].step = List.range' 0 n := by
    simp [Std.Legacy.Range.size]
  unfold drop
  rw [bind_of_ok (require_of_le h), Std.Legacy.Range.forIn_eq_forIn_range', hrange,
    bind_of_ok hloop]
  rfl

theorem dup_run (h : n ≤ s.depth) :
    ∃ s', dup n s = .ok () s' ∧ s'.items = s.items.take n ++ s.items := by
  obtain ⟨s', hrun, hitems⟩ := pushAll_run (s.items.take n).reverse s
  refine ⟨s', ?_, by rw [hitems, List.reverse_reverse]⟩
  unfold dup
  rw [bind_of_ok (require_of_le h)]
  exact hrun

/-- One round of the copy: read the item at `i`, counted from the bottom, and push it, or panic
when the stack ends below `i`. -/
theorem copyUp_succ (i k : Nat) (s : Stack) :
    copyUp i (k + 1) s = (match s.toList[i]? with
      | some x => do push x; copyUp (i + 1) k
      | none => throw (.panic (.indexOutOfBounds s.depth i)) : StackM Unit) s :=
  get_bind

/-- A copy whose indices stay inside the stack is the run of pushes of the items it reads: each
push grows the stack above the indices still to be read. -/
theorem copyUp_eq_pushAll {i k : Nat} (h : i + k ≤ s.depth) :
    copyUp i k s = pushAll ((s.toList.drop i).take k) s := by
  induction k generalizing i s with
  | zero => rfl
  | succ k ih =>
    have hlen := depth_eq_length s
    have hi : i < s.toList.length := by omega
    let s₁ : Stack := { s with
      items := s.toList[i] :: s.items
      events := .afterPush (s.items.length + 1) :: .beforePush s.items.length s.toList[i] ::
        s.events }
    have htoList : s₁.toList = s.toList ++ [s.toList[i]] := by simp [s₁, toList]
    have h₁ : i + 1 + k ≤ s₁.depth := by
      rw [depth_eq_length, htoList, List.length_append, List.length_singleton]; omega
    have hread : (s.toList.drop i).take (k + 1) = s.toList[i] :: (s.toList.drop (i + 1)).take k := by
      rw [List.drop_eq_getElem_cons hi, List.take_succ_cons]
    have hgrown : (s₁.toList.drop (i + 1)).take k = (s.toList.drop (i + 1)).take k := by
      rw [htoList, List.drop_append_of_le_length (by omega),
        List.take_append_of_le_length (by simp; omega)]
    calc copyUp i (k + 1) s = copyUp (i + 1) k s₁ := by
          rw [copyUp_succ, List.getElem?_eq_getElem hi]
          exact bind_of_ok rfl
      _ = pushAll ((s₁.toList.drop (i + 1)).take k) s₁ := ih h₁
      _ = pushAll ((s.toList.drop i).take (k + 1)) s := by
          rw [hgrown, hread]
          exact (bind_of_ok rfl).symm

/-- A copy that starts past the end of the stack panics at once, the stack untouched. -/
theorem copyUp_past_end {i k : Nat} (h : s.depth ≤ i) :
    copyUp i (k + 1) s = .error (.panic (.indexOutOfBounds s.depth i)) s := by
  have hnone : s.toList[i]? = none := List.getElem?_eq_none (by rw [← depth_eq_length]; exact h)
  rw [copyUp_succ, hnone]
  rfl

/-- A copy fails only by a panic. -/
theorem copyUp_ne_invalidOperation (i k : Nat) (s s' : Stack) :
    copyUp i k s ≠ .error .invalidOperation s' := by
  induction k generalizing i s with
  | zero => exact fun h => by cases h
  | succ k ih =>
    rw [copyUp_succ]
    cases s.toList[i]? with
    | none => exact fun h => by cases h
    | some x => exact (bind_of_ok rfl).trans_ne (ih (i + 1) _)

theorem over_run (h : 2 * n ≤ s.depth) (hn : 2 * n < 2 ^ 64) :
    ∃ s', «over» n s = .ok () s' ∧
      s'.toList = s.toList ++ (s.toList.drop (s.depth - 2 * n)).take n := by
  obtain ⟨s', hrun, hitems⟩ := pushAll_run ((s.toList.drop (s.depth - 2 * n)).take n) s
  refine ⟨s', ?_, by simp [toList, hitems]⟩
  unfold «over»
  rw [wordMul_of_lt hn, bind_of_ok (require_of_le h)]
  exact (copyUp_eq_pushAll (by omega)).trans hrun

theorem turnTop_run {k : Nat} {p : StackPanic} (h : wordMul k n ≤ s.depth) (hn : n ≤ wordMul k n) :
    ∃ s', turnTop k n p s = .ok () s' ∧ s'.items =
      (s.items.take (wordMul k n)).drop (wordMul k n - n) ++
        (s.items.take (wordMul k n)).take (wordMul k n - n) ++ s.items.drop (wordMul k n) := by
  unfold turnTop
  rw [bind_of_ok (require_of_le h), if_neg (Nat.not_lt.mpr hn)]
  exact ⟨_, rfl, rfl⟩

theorem turnTop_refuses {k : Nat} {p : StackPanic} (h : s.depth < wordMul k n) :
    turnTop k n p s = .error .invalidOperation s :=
  bind_of_error (require_of_lt h)

/-- A block shorter than the count it is turned by panics, the stack untouched. -/
theorem turnTop_panics {k : Nat} {p : StackPanic} (h : wordMul k n ≤ s.depth)
    (hn : wordMul k n < n) : turnTop k n p s = .error (.panic p) s := by
  unfold turnTop
  rw [bind_of_ok (require_of_le h), if_pos hn]
  exact bind_of_error rfl

theorem remove_run {i : Nat} {x : Bytes} (h : s.items[i]? = some x) :
    ∃ s', remove i s = .ok x s' ∧ s'.items = s.items.eraseIdx i := by
  simp only [remove, h]
  exact ⟨_, rfl, rfl⟩

theorem top_run {i : Nat} {x : Bytes} (h : s.items[i]? = some x) : top i s = .ok x s := by
  simp only [top, h]

theorem top_refuses {i : Nat} (h : s.depth ≤ i) : top i s = .error .invalidOperation s := by
  simp only [top, List.getElem?_eq_none h]

theorem remove_refuses {i : Nat} (h : s.depth ≤ i) :
    remove i s = .error .invalidOperation s := by
  simp only [remove, List.getElem?_eq_none h]

-- In `pick` and `roll` the guard on the sign is an `if` whose branches each carry the rest of
-- the block, so the proofs choose the branch with `if_pos`/`if_neg` before anything runs.
theorem pick_run {n : Int} {x : Bytes} (hn : 0 ≤ n) (h : s.items[n.toNat]? = some x) :
    ∃ s', pick n s = .ok () s' ∧ s'.items = x :: s.items := by
  obtain ⟨s', hpush, hitems⟩ := push_run x s
  refine ⟨s', ?_, hitems⟩
  unfold pick
  rw [if_neg (Int.not_lt.mpr hn)]
  exact (bind_of_ok (top_run h)).trans hpush

theorem roll_run {n : Int} {x : Bytes} (hn : 0 ≤ n) (h : s.items[n.toNat]? = some x) :
    ∃ s', roll n s = .ok () s' ∧ s'.items = x :: s.items.eraseIdx n.toNat := by
  obtain ⟨s₁, hremove, hitems₁⟩ := remove_run h
  obtain ⟨s', hpush, hitems⟩ := push_run x s₁
  refine ⟨s', ?_, by rw [hitems, hitems₁]⟩
  unfold roll
  rw [if_neg (Int.not_lt.mpr hn)]
  exact (bind_of_ok hremove).trans hpush

theorem pick_refuses {n : Int} (h : n < 0 ∨ s.depth ≤ n) :
    pick n s = .error .invalidOperation s := by
  unfold pick
  rcases Int.lt_or_le n 0 with hn | hn
  · rw [if_pos hn]
    exact bind_of_error rfl
  · rw [if_neg (Int.not_lt.mpr hn)]
    exact bind_of_error (top_refuses (by omega))

theorem roll_refuses {n : Int} (h : n < 0 ∨ s.depth ≤ n) :
    roll n s = .error .invalidOperation s := by
  unfold roll
  rcases Int.lt_or_le n 0 with hn | hn
  · rw [if_pos hn]
    exact bind_of_error rfl
  · rw [if_neg (Int.not_lt.mpr hn)]
    exact bind_of_error (remove_refuses (by omega))

theorem nip_run {a b : Bytes} {rest : List Bytes} (h : s.items = b :: a :: rest) :
    ∃ s', nip s = .ok () s' ∧ s'.items = b :: rest := by
  obtain ⟨s', hremove, hitems⟩ := remove_run (show s.items[1]? = some a by rw [h]; rfl)
  exact ⟨s', discard_of_ok hremove, by rw [hitems, h]; rfl⟩

theorem nip_refuses (h : s.depth < 2) : nip s = .error .invalidOperation s :=
  discard_of_error (remove_refuses (by omega))

theorem tuck_run {a b : Bytes} {rest : List Bytes} (h : s.items = b :: a :: rest) :
    ∃ s', tuck s = .ok () s' ∧ s'.items = b :: a :: b :: rest := by
  simp only [tuck, h]
  exact ⟨_, rfl, rfl⟩

theorem tuck_refuses (h : s.depth < 2) : tuck s = .error .invalidOperation s := by
  unfold tuck
  split
  · rename_i hs
    simp only [depth, hs, List.length_cons] at h
    omega
  · rfl

/-! ## The bottom-first specification -/

/-- The primitive fails with `invalidOperation` and leaves the whole stack as it was. -/
def Refuses {α : Type} (op : StackM α) (s : Stack) : Prop :=
  op s = .error .invalidOperation s

/-- The primitive succeeds with `a`, leaving the items `after`, listed bottom first. -/
def Yields {α : Type} (op : StackM α) (s : Stack) (a : α) (after : List Bytes) : Prop :=
  ∃ s', op s = .ok a s' ∧ s'.toList = after

theorem yields_of_run {α : Type} {op : StackM α} {a : α} {l after : List Bytes}
    (h : ∃ s', op s = .ok a s' ∧ s'.items = l) (hl : l.reverse = after) :
    Yields op s a after := by
  obtain ⟨s', hrun, hitems⟩ := h
  exact ⟨s', hrun, by rw [toList, hitems, hl]⟩

theorem drop_exact (n : Nat) (s : Stack) :
    (s.depth < n → Refuses (drop n) s) ∧
    ∀ ys zs, s.toList = ys ++ zs → zs.length = n → Yields (drop n) s () ys := by
  refine ⟨fun h => bind_of_error (require_of_lt h), fun ys zs hs hzs => ?_⟩
  have hitems : s.items = zs.reverse ++ ys.reverse := by simp [items_eq_reverse, hs]
  have hdepth : n ≤ s.depth := by simp [depth_eq_length, hs, hzs]
  exact yields_of_run (drop_run hdepth) (by simp [hitems, hzs])

theorem dup_exact (n : Nat) (s : Stack) :
    (s.depth < n → Refuses (dup n) s) ∧
    ∀ ys zs, s.toList = ys ++ zs → zs.length = n → Yields (dup n) s () (ys ++ zs ++ zs) := by
  refine ⟨fun h => bind_of_error (require_of_lt h), fun ys zs hs hzs => ?_⟩
  have hitems : s.items = zs.reverse ++ ys.reverse := by simp [items_eq_reverse, hs]
  have hdepth : n ≤ s.depth := by simp [depth_eq_length, hs, hzs]
  exact yields_of_run (dup_run hdepth) (by simp [hitems, hzs])

theorem over_exact (n : Nat) (s : Stack) (hn : 2 * n < 2 ^ 64) :
    ∀ ys a b, s.toList = ys ++ a ++ b → a.length = n → b.length = n →
      Yields («over» n) s () (ys ++ a ++ b ++ a) := by
  intro ys a b hs ha hb
  have hlen : s.depth = ys.length + n + n := by
    simp only [depth_eq_length, hs, List.length_append, ha, hb]
  have hcopy : (s.toList.drop (s.depth - 2 * n)).take n = a := by
    rw [show s.depth - 2 * n = ys.length by omega, hs, List.append_assoc, List.drop_left,
      List.take_left' ha]
  have hdepth : 2 * n ≤ s.depth := by omega
  obtain ⟨s', hrun, hlist⟩ := over_run hdepth hn
  exact ⟨s', hrun, by rw [hlist, hcopy, hs]⟩

/-- Turning a block whose deepest `n` items are `a` brings `a` to the top. -/
theorem turnTop_exact {k n : Nat} {p : StackPanic} (s : Stack) (ys a rest : List Bytes)
    (hs : s.toList = ys ++ a ++ rest) (ha : a.length = n)
    (hblock : n + rest.length = wordMul k n) : Yields (turnTop k n p) s () (ys ++ rest ++ a) := by
  have hitems : s.items = rest.reverse ++ a.reverse ++ ys.reverse := by
    simp [items_eq_reverse, hs]
  have hlen : s.depth = ys.length + n + rest.length := by simp [depth_eq_length, hs, ha]; omega
  have hcount : (rest.reverse ++ a.reverse).length = wordMul k n := by simp [ha]; omega
  have hdepth : wordMul k n ≤ s.depth := by omega
  have hrest : rest.reverse.length = wordMul k n - n := by rw [List.length_reverse]; omega
  refine yields_of_run (turnTop_run hdepth (by omega)) ?_
  rw [hitems, List.take_left' hcount, List.drop_left' hcount, List.take_left' hrest,
    List.drop_left' hrest]
  simp

theorem rot_exact (n : Nat) (s : Stack) (hn : 3 * n < 2 ^ 64) :
    ∀ ys a b c, s.toList = ys ++ a ++ b ++ c → a.length = n → b.length = n → c.length = n →
      Yields (rot n) s () (ys ++ b ++ c ++ a) := by
  intro ys a b c hs ha hb hc
  have hblock : n + (b ++ c).length = wordMul 3 n := by
    rw [wordMul_of_lt hn, List.length_append, hb, hc]; omega
  rw [show ys ++ b ++ c ++ a = ys ++ (b ++ c) ++ a by simp]
  exact turnTop_exact s ys a (b ++ c) (by simp [hs]) ha hblock

theorem swap_exact (n : Nat) (s : Stack) (hn : 2 * n < 2 ^ 64) :
    ∀ ys a b, s.toList = ys ++ a ++ b → a.length = n → b.length = n →
      Yields (swap n) s () (ys ++ b ++ a) := by
  intro ys a b hs ha hb
  have hblock : n + b.length = wordMul 2 n := by rw [wordMul_of_lt hn, hb]; omega
  exact turnTop_exact s ys a b hs ha hblock

theorem nip_exact (s : Stack) :
    (s.depth < 2 → Refuses nip s) ∧
    ∀ ys a b, s.toList = ys ++ [a, b] → Yields nip s () (ys ++ [b]) := by
  refine ⟨nip_refuses, fun ys a b hs => ?_⟩
  have hitems : s.items = b :: a :: ys.reverse := by simp [items_eq_reverse, hs]
  exact yields_of_run (nip_run hitems) (by simp)

theorem tuck_exact (s : Stack) :
    (s.depth < 2 → Refuses tuck s) ∧
    ∀ ys a b, s.toList = ys ++ [a, b] → Yields tuck s () (ys ++ [b, a, b]) := by
  refine ⟨tuck_refuses, fun ys a b hs => ?_⟩
  have hitems : s.items = b :: a :: ys.reverse := by simp [items_eq_reverse, hs]
  exact yields_of_run (tuck_run hitems) (by simp)

theorem pick_exact (n : Int) (s : Stack) :
    (n < 0 ∨ s.depth ≤ n → Refuses (pick n) s) ∧
    ∀ ys x zs, s.toList = ys ++ x :: zs → (zs.length : Int) = n →
      Yields (pick n) s () (ys ++ x :: zs ++ [x]) := by
  refine ⟨pick_refuses, fun ys x zs hs hzs => ?_⟩
  have hindex : n.toNat = zs.length := by omega
  have hat := items_getElem?_of_toList hs
  rw [← hindex] at hat
  exact yields_of_run (pick_run (by omega) hat) (by simp [toList, ← hs])

theorem roll_exact (n : Int) (s : Stack) :
    (n < 0 ∨ s.depth ≤ n → Refuses (roll n) s) ∧
    ∀ ys x zs, s.toList = ys ++ x :: zs → (zs.length : Int) = n →
      Yields (roll n) s () (ys ++ zs ++ [x]) := by
  refine ⟨roll_refuses, fun ys x zs hs hzs => ?_⟩
  have hindex : n.toNat = zs.length := by omega
  have hat := items_getElem?_of_toList hs
  rw [← hindex] at hat
  refine yields_of_run (roll_run (by omega) hat) ?_
  rw [hindex, List.reverse_cons, items_eraseIdx_of_toList hs]

theorem remove_exact (i : Nat) (s : Stack) :
    (s.depth ≤ i → Refuses (remove i) s) ∧
    ∀ ys x zs, s.toList = ys ++ x :: zs → zs.length = i → Yields (remove i) s x (ys ++ zs) := by
  refine ⟨remove_refuses, fun ys x zs hs hzs => ?_⟩
  subst hzs
  exact yields_of_run (remove_run (items_getElem?_of_toList hs)) (items_eraseIdx_of_toList hs)

theorem top_exact (i : Nat) (s : Stack) :
    (s.depth ≤ i → Refuses (top i) s) ∧
    ∀ ys x zs, s.toList = ys ++ x :: zs → zs.length = i → top i s = .ok x s := by
  refine ⟨top_refuses, fun ys x zs hs hzs => ?_⟩
  subst hzs
  exact top_run (items_getElem?_of_toList hs)

/-! ## Refusals and panics at the word product -/

/-- The primitive panics with `p`, the stack as it was. -/
def Panics {α : Type} (op : StackM α) (s : Stack) (p : StackPanic) : Prop :=
  op s = .error (.panic p) s

/-- Past its depth check `over` fails only by a panic, so it refuses exactly when the check
does. -/
theorem over_refuses_iff (n : Nat) (s : Stack) : Refuses («over» n) s ↔ s.depth < wordMul 2 n := by
  refine ⟨fun h => Nat.lt_of_not_le fun hc => ?_, fun h => bind_of_error (require_of_lt h)⟩
  unfold Refuses «over» at h
  rw [bind_of_ok (require_of_le hc), get_bind] at h
  exact copyUp_ne_invalidOperation _ _ s s h

theorem turnTop_refuses_iff (k n : Nat) (p : StackPanic) (s : Stack) :
    Refuses (turnTop k n p) s ↔ s.depth < wordMul k n := by
  refine ⟨fun h => Nat.lt_of_not_le fun hc => ?_, fun h => turnTop_refuses h⟩
  unfold Refuses at h
  rcases Nat.lt_or_ge (wordMul k n) n with hn | hn
  · rw [turnTop_panics hc hn] at h
    cases h
  · obtain ⟨s', hrun, -⟩ := turnTop_run (p := p) hc hn
    rw [hrun] at h
    cases h

/-- With the count `2 ^ 63` the product `2 n` wraps to `0`: the check passes on every stack and the
copy reads one past the top. -/
theorem over_panics_at_half_word (s : Stack) :
    Panics («over» (2 ^ 63)) s (.indexOutOfBounds s.depth s.depth) := by
  have hcount : wordMul 2 (2 ^ 63) = 0 := by decide
  unfold Panics «over»
  rw [hcount, bind_of_ok (require_of_le (Nat.zero_le _))]
  exact copyUp_past_end (by omega)

/-- From `2 ^ 63` up to `2 ^ 64` the word product `2 n` wraps below `n`. -/
theorem wordMul_two_lt_self {n : Nat} (h : 2 ^ 63 ≤ n) (hn : n < 2 ^ 64) : wordMul 2 n < n := by
  have hwrap : wordMul 2 n = 2 * n - 2 ^ 64 := by
    rw [wordMul_eq_mod, Nat.mod_eq_sub_mod (by omega), Nat.mod_eq_of_lt (by omega)]
  omega

end Stack

open Stack in
/-- Every stack primitive either refuses, failing with `invalidOperation` and leaving the stack
as it was, or yields exactly its specified items; `drop`, `dup`, `nip`, `tuck`, `pick`, `roll`,
`remove` and `top` refuse exactly when the stack is too shallow for every count. The depth that
`over`, `rot` and `swap` need is the 64-bit product `wordMul`: they refuse exactly when the stack is
shallower than that, they yield their specified items on the counts whose product fits, and
where it wraps they panic instead: `over` with the count `2 ^ 63` on every stack, `swap` with a
count from `2 ^ 63` below `2 ^ 64` on every stack that passes its check, and `rot` wherever the
wrapped block is shorter than the count. Stacks are listed bottom first. -/
theorem stack_primitives_exact_below_word_wrap (n : Nat) (i : Int) (s : Stack) :
    ((s.depth < n → Refuses (drop n) s) ∧
      ∀ ys zs, s.toList = ys ++ zs → zs.length = n → Yields (drop n) s () ys) ∧
    ((s.depth < n → Refuses (dup n) s) ∧
      ∀ ys zs, s.toList = ys ++ zs → zs.length = n → Yields (dup n) s () (ys ++ zs ++ zs)) ∧
    ((Refuses («over» n) s ↔ s.depth < wordMul 2 n) ∧
      (2 * n < 2 ^ 64 → ∀ ys a b, s.toList = ys ++ a ++ b → a.length = n → b.length = n →
        Yields («over» n) s () (ys ++ a ++ b ++ a)) ∧
      Panics («over» (2 ^ 63)) s (.indexOutOfBounds s.depth s.depth)) ∧
    ((Refuses (rot n) s ↔ s.depth < wordMul 3 n) ∧
      (3 * n < 2 ^ 64 → ∀ ys a b c, s.toList = ys ++ a ++ b ++ c → a.length = n →
        b.length = n → c.length = n → Yields (rot n) s () (ys ++ b ++ c ++ a)) ∧
      (wordMul 3 n < n → wordMul 3 n ≤ s.depth → Panics (rot n) s .rotatePastEnd)) ∧
    ((Refuses (swap n) s ↔ s.depth < wordMul 2 n) ∧
      (2 * n < 2 ^ 64 → ∀ ys a b, s.toList = ys ++ a ++ b → a.length = n → b.length = n →
        Yields (swap n) s () (ys ++ b ++ a)) ∧
      (2 ^ 63 ≤ n → n < 2 ^ 64 → wordMul 2 n ≤ s.depth → Panics (swap n) s .splitPastEnd)) ∧
    ((s.depth < 2 → Refuses nip s) ∧
      ∀ ys a b, s.toList = ys ++ [a, b] → Yields nip s () (ys ++ [b])) ∧
    ((s.depth < 2 → Refuses tuck s) ∧
      ∀ ys a b, s.toList = ys ++ [a, b] → Yields tuck s () (ys ++ [b, a, b])) ∧
    ((i < 0 ∨ s.depth ≤ i → Refuses (pick i) s) ∧
      ∀ ys x zs, s.toList = ys ++ x :: zs → (zs.length : Int) = i →
        Yields (pick i) s () (ys ++ x :: zs ++ [x])) ∧
    ((i < 0 ∨ s.depth ≤ i → Refuses (roll i) s) ∧
      ∀ ys x zs, s.toList = ys ++ x :: zs → (zs.length : Int) = i →
        Yields (roll i) s () (ys ++ zs ++ [x])) ∧
    ((s.depth ≤ n → Refuses (remove n) s) ∧
      ∀ ys x zs, s.toList = ys ++ x :: zs → zs.length = n → Yields (remove n) s x (ys ++ zs)) ∧
    ((s.depth ≤ n → Refuses (top n) s) ∧
      ∀ ys x zs, s.toList = ys ++ x :: zs → zs.length = n → top n s = .ok x s) :=
  ⟨drop_exact n s, dup_exact n s,
    ⟨over_refuses_iff n s, over_exact n s, over_panics_at_half_word s⟩,
    ⟨turnTop_refuses_iff 3 n _ s, rot_exact n s, fun hn h => turnTop_panics h hn⟩,
    ⟨turnTop_refuses_iff 2 n _ s, swap_exact n s,
      fun h hn hd => turnTop_panics hd (wordMul_two_lt_self h hn)⟩,
    nip_exact s, tuck_exact s, pick_exact i s, roll_exact i s, remove_exact n s, top_exact n s⟩

/-- On the empty stack, `over` with the count `2 ^ 63` breaks off the whole command run with an
out-of-bounds read at index `0` of a stack of `0` items, where a refusal leaving the stack empty
was specified. -/
theorem over_half_word_panics_on_empty_stack :
    Stack.performAll {} [.«over» (2 ^ 63)] = .error (.indexOutOfBounds 0 0) ∧
      (StackPanic.indexOutOfBounds 0 0).message =
        "index out of bounds: the len is 0 but the index is 0" := by
  constructor <;> decide

end BitcoinScript
