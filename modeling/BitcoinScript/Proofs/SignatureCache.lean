import Mathlib
import BitcoinScript.Cache

/-!
# The signature cache

A signature cache created with capacity `m` is bounded and sound over every sequence of its
commands (`SigCache.afterAll`): it never holds a key twice nor more than `m` keys, so nothing when
`m` is zero (`SigCache.Bounded`); an add makes its triple present when `m` is positive, removes
at most one other key, and none when its key is already there or the cache is not full; and a
lookup that succeeds has an earlier add of the same key behind it (`mem_afterAll`).

Checkers that share the cache add only triples that verified. So, with the key function
injective on the lookups a run of checks makes (collision resistance on the triples in play, as
`Set.InjOn`), every hit is a triple that verifies and the answers are those of the same checks
with caching disabled (`SigCheck.runAll_trusted`). The invariant that carries the run says
that every cached key belongs to a verified triple that no later lookup collides with
(`SigCheck.Trusted`).
-/

set_option autoImplicit false

namespace BitcoinScript

namespace SigCache

/-- The cache after commands, in order. -/
def afterAll (c : SigCache) (cmds : List SigCacheCommand) : SigCache :=
  cmds.foldl (fun c cmd => (c.perform cmd).1) c

/-- The key of a triple of digest, signature and public key. -/
def keyOf (t : Bytes × Secp256k1.Signature × Secp256k1.PublicKey) : Bytes := key t.1 t.2.1 t.2.2

/-- What a cache keeps at every point: no key twice, and no more keys than its capacity. -/
structure Bounded (c : SigCache) : Prop where
  nodup : c.entries.Nodup
  size_le : c.size ≤ c.capacity

variable {c : SigCache} {d : Bytes} {s : Secp256k1.Signature} {p : Secp256k1.PublicKey}

@[simp] theorem afterAll_nil (c : SigCache) : c.afterAll [] = c := rfl

@[simp] theorem afterAll_cons (c : SigCache) (cmd : SigCacheCommand) (cmds : List SigCacheCommand) :
    c.afterAll (cmd :: cmds) = (c.perform cmd).1.afterAll cmds := rfl

@[simp] theorem capacity_add : (c.add d s p).capacity = c.capacity := by
  simp only [add]
  split_ifs <;> rfl

@[simp] theorem capacity_perform (cmd : SigCacheCommand) : (c.perform cmd).1.capacity = c.capacity := by
  cases cmd <;> simp [perform]

@[simp] theorem capacity_afterAll (cmds : List SigCacheCommand) :
    (c.afterAll cmds).capacity = c.capacity := by
  induction cmds generalizing c with
  | nil => rfl
  | cons cmd cmds ih => rw [afterAll_cons, ih, capacity_perform]

/-- An add keeps the cache when caching is off or its key is present; otherwise it appends the key
after dropping the oldest entry of a full cache. -/
theorem add_entries :
    (c.add d s p).entries =
      if c.capacity = 0 ∨ key d s p ∈ c.entries then c.entries
      else (if c.capacity ≤ c.entries.length then c.entries.drop 1 else c.entries) ++ [key d s p] := by
  unfold add
  by_cases h0 : c.capacity = 0
  · simp [h0]
  · by_cases hk : key d s p ∈ c.entries
    · simp [h0, hk]
    · simp [h0, hk]

/-- An add brings no key but its own. -/
theorem mem_add {e : Bytes} (h : e ∈ (c.add d s p).entries) : e ∈ c.entries ∨ e = key d s p := by
  rw [add_entries] at h
  split_ifs at h
  · exact .inl h
  · rcases List.mem_append.mp h with h | h
    · exact .inl (List.mem_of_mem_drop h)
    · exact .inr (List.mem_singleton.mp h)
  · rcases List.mem_append.mp h with h | h
    · exact .inl h
    · exact .inr (List.mem_singleton.mp h)

/-- With caching on, an add makes its triple present. -/
theorem contains_add (h : 0 < c.capacity) : (c.add d s p).contains d s p = true := by
  unfold contains
  rw [List.contains_iff_mem, add_entries]
  split_ifs with hk
  · exact hk.resolve_left (by omega)
  · simp
  · simp

/-- An add removes at most one key: every key but the oldest stays. -/
theorem mem_add_of_mem {e : Bytes} (he : e ∈ c.entries) (hne : c.entries.head? ≠ some e) :
    e ∈ (c.add d s p).entries := by
  rw [add_entries]
  split_ifs
  · exact he
  · -- only the oldest key is dropped
    refine List.mem_append_left _ ?_
    rcases hc : c.entries with _ | ⟨x, rest⟩
    · simp [hc] at he
    · rw [hc] at he hne
      rcases List.mem_cons.mp he with rfl | hrest
      · simp at hne
      · simpa using hrest
  · exact List.mem_append_left _ he

/-- An add removes nothing when its key is present or the cache is not full. -/
theorem mem_add_of_room {e : Bytes} (he : e ∈ c.entries)
    (hroom : key d s p ∈ c.entries ∨ c.entries.length < c.capacity) : e ∈ (c.add d s p).entries := by
  rw [add_entries]
  split_ifs with hskip hfull
  · exact he
  · -- a full cache that lacks the key has no room
    rcases hroom with hk | hlt
    · exact absurd (.inr hk) hskip
    · omega
  · exact List.mem_append_left _ he

theorem Bounded.add (hb : c.Bounded) : (c.add d s p).Bounded := by
  have hnodup := hb.nodup
  have hsize := hb.size_le
  unfold size at hsize
  constructor
  · rw [add_entries]
    split_ifs with hskip
    · exact hnodup
    -- the new key is absent from what is kept
    · exact (hnodup.sublist (List.drop_sublist 1 _)).append (List.nodup_singleton _)
        (List.disjoint_singleton.mpr fun hk => hskip (.inr (List.mem_of_mem_drop hk)))
    · exact hnodup.append (List.nodup_singleton _) (List.disjoint_singleton.mpr fun hk => hskip (.inr hk))
  · unfold size
    rw [capacity_add, add_entries]
    split_ifs with hskip hfull
    · exact hsize
    · simp only [List.length_append, List.length_drop, List.length_singleton]
      omega
    · simp only [List.length_append, List.length_singleton]
      omega

theorem Bounded.perform (hb : c.Bounded) (cmd : SigCacheCommand) : (c.perform cmd).1.Bounded := by
  cases cmd with
  | add d s p => exact hb.add
  | contains => exact hb
  | size => exact hb
  | isEmpty => exact hb

/-- Every cache reached from a bounded one by commands is bounded. -/
theorem Bounded.afterAll (hb : c.Bounded) (cmds : List SigCacheCommand) : (c.afterAll cmds).Bounded := by
  induction cmds generalizing c with
  | nil => exact hb
  | cons cmd cmds ih => exact ih (hb.perform cmd)

/-- A new cache is bounded. -/
theorem bounded_new (m : Nat) : (⟨m, []⟩ : SigCache).Bounded :=
  ⟨List.nodup_nil, Nat.zero_le _⟩

/-- A key in a cache after commands was there at the start or was added by one of them. -/
theorem mem_afterAll {e : Bytes} (cmds : List SigCacheCommand) (he : e ∈ (c.afterAll cmds).entries) :
    e ∈ c.entries ∨ ∃ d s p, SigCacheCommand.add d s p ∈ cmds ∧ e = key d s p := by
  induction cmds generalizing c with
  | nil => exact .inl he
  | cons cmd cmds ih =>
    rcases ih he with he' | ⟨d, s, p, hmem, rfl⟩
    · cases cmd with
      | add d s p =>
        rcases mem_add he' with he'' | rfl
        · exact .inl he''
        · exact .inr ⟨d, s, p, List.mem_cons_self, rfl⟩
      | contains => exact .inl he'
      | size => exact .inl he'
      | isEmpty => exact .inl he'
    · exact .inr ⟨d, s, p, List.mem_cons_of_mem _ hmem, rfl⟩

theorem performAll_append (c : SigCache) (pre post : List SigCacheCommand) :
    c.performAll (pre ++ post) = c.performAll pre ++ (c.afterAll pre).performAll post := by
  induction pre generalizing c with
  | nil => rfl
  | cons cmd pre ih => simp [performAll, ih]

/-- The answer to a command after `pre` is that of the cache `pre` leads to. -/
theorem performAll_getElem?_length (c : SigCache) (pre : List SigCacheCommand)
    (cmd : SigCacheCommand) (post : List SigCacheCommand) :
    (c.performAll (pre ++ cmd :: post))[pre.length]? = some ((c.afterAll pre).perform cmd).2 := by
  have hlen : (c.performAll pre).length = pre.length := by
    induction pre generalizing c with
    | nil => rfl
    | cons cmd pre ih => simp [performAll, ih]
  rw [performAll_append, List.getElem?_append_right (by omega), hlen, Nat.sub_self]
  rfl

end SigCache

namespace Spend

/-- The component cache after a check, and the digest the check signs: a fork-id digest takes
the transaction's components from the cache, filling it; a legacy digest leaves the cache. -/
def cachedDigest (c : Spend) (hashes : SigHashCache) (scriptCode : Bytes) (hashType : Nat)
    (flags : Flags) : SigHashCache × Except ScriptError Bytes :=
  if Sighash.usesForkIdDigest hashType flags then
    ((hashes.add c.tx).1,
      signatureHash c.tx c.index scriptCode c.amount hashType flags (some (hashes.add c.tx).2))
  else (hashes, signatureHash c.tx c.index scriptCode c.amount hashType flags none)

variable (c : Spend) (caches : SharedCaches) (sig : Secp256k1.Signature)
  (key : Secp256k1.PublicKey) (scriptCode : Bytes) (hashType : Nat) (flags : Flags)

/-- A check whose digest cannot be computed fails with that error; it fills the component
cache as the digest does and leaves the signature cache. -/
theorem checkSigCached_of_error {hashes : SigHashCache} {e : ScriptError}
    (h : c.cachedDigest caches.sigHashes scriptCode hashType flags = (hashes, .error e)) :
    c.checkSigCached caches sig key scriptCode hashType flags = (⟨hashes, caches.sigs⟩, .error e) := by
  unfold cachedDigest at h
  unfold checkSigCached
  by_cases hf : Sighash.usesForkIdDigest hashType flags <;>
    simp only [hf, if_true, Bool.false_eq_true, if_false, Prod.mk.injEq] at h ⊢ <;>
    rw [h.2, ← h.1]

/-- A check with a digest fills the component cache as the digest does; it answers true for a
cached triple and the verification otherwise, and caches the triple when it verifies. -/
theorem checkSigCached_of_ok {hashes : SigHashCache} {digest : Bytes}
    (h : c.cachedDigest caches.sigHashes scriptCode hashType flags = (hashes, .ok digest)) :
    c.checkSigCached caches sig key scriptCode hashType flags =
      (⟨hashes, if !caches.sigs.contains digest sig.normalizeS key &&
            Secp256k1.verify sig.normalizeS key digest
          then caches.sigs.add digest sig.normalizeS key else caches.sigs⟩,
        .ok (caches.sigs.contains digest sig.normalizeS key ||
          Secp256k1.verify sig.normalizeS key digest)) := by
  unfold cachedDigest at h
  unfold checkSigCached
  by_cases hf : Sighash.usesForkIdDigest hashType flags <;>
    simp only [hf, if_true, Bool.false_eq_true, if_false, Prod.mk.injEq] at h ⊢ <;>
    rw [h.2, ← h.1] <;> dsimp only <;>
    by_cases hc : caches.sigs.contains digest sig.normalizeS key <;>
    by_cases hv : Secp256k1.verify sig.normalizeS key digest <;> simp [hc, hv]

end Spend

/-- A signature check asked of the checker of a spend. -/
structure SigCheck where
  spend : Spend
  sig : Secp256k1.Signature
  key : Secp256k1.PublicKey
  scriptCode : Bytes
  hashType : Nat
  flags : Flags

namespace SigCheck

/-- Runs a check on shared caches. -/
def run (q : SigCheck) (caches : SharedCaches) : SharedCaches × Except ScriptError Bool :=
  q.spend.checkSigCached caches q.sig q.key q.scriptCode q.hashType q.flags

/-- The component cache after a check, and the digest it signs. -/
def digest (q : SigCheck) (hashes : SigHashCache) : SigHashCache × Except ScriptError Bytes :=
  q.spend.cachedDigest hashes q.scriptCode q.hashType q.flags

/-- The answers of checks run in turn on shared caches. -/
def runAll (caches : SharedCaches) : List SigCheck → List (Except ScriptError Bool)
  | [] => []
  | q :: qs => (q.run caches).2 :: runAll (q.run caches).1 qs

/-- The triples that checks run in turn look up in the signature cache: digest, low-S signature
and key of each check whose digest is computed. They depend on the component cache alone. -/
def lookups (hashes : SigHashCache) :
    List SigCheck → List (Bytes × Secp256k1.Signature × Secp256k1.PublicKey)
  | [] => []
  | q :: qs =>
    match (q.digest hashes).2 with
    | .ok d => (d, q.sig.normalizeS, q.key) :: lookups (q.digest hashes).1 qs
    | .error _ => lookups (q.digest hashes).1 qs

/-- Every key in the signature cache belongs to a triple that verifies and that no lookup of the
checks still to run collides with. -/
def Trusted (sigs : SigCache) (ahead : List (Bytes × Secp256k1.Signature × Secp256k1.PublicKey)) :
    Prop :=
  ∀ e ∈ sigs.entries, ∃ t, SigCache.keyOf t = e ∧ Secp256k1.verify t.2.1 t.2.2 t.1 = true ∧
    ∀ t' ∈ ahead, SigCache.keyOf t' = e → t' = t

theorem Trusted.mono {sigs : SigCache} {ahead ahead' : List (Bytes × Secp256k1.Signature × Secp256k1.PublicKey)}
    (h : Trusted sigs ahead) (hsub : ∀ t ∈ ahead', t ∈ ahead) : Trusted sigs ahead' := by
  intro e he
  obtain ⟨t, hkey, hver, hcoll⟩ := h e he
  exact ⟨t, hkey, hver, fun t' ht' => hcoll t' (hsub t' ht')⟩

/-- The lookups of the checks after the first are lookups of the whole run. -/
theorem mem_lookups_of_tail {q : SigCheck} {qs : List SigCheck} {H : SigHashCache}
    {t : Bytes × Secp256k1.Signature × Secp256k1.PublicKey} (ht : t ∈ lookups (q.digest H).1 qs) :
    t ∈ lookups H (q :: qs) := by
  unfold lookups
  split
  · exact List.mem_cons_of_mem _ ht
  · exact ht

/-- A new cache holds nothing to distrust. -/
theorem trusted_new (m : Nat) (ahead : List (Bytes × Secp256k1.Signature × Secp256k1.PublicKey)) :
    Trusted ⟨m, []⟩ ahead := fun _ he => absurd he List.not_mem_nil

/-- One check on a trusted signature cache answers as it would with caching disabled, and leaves
a cache trusted by the lookups of the checks after it, provided the key is injective on the
lookups of this check and those after it. Both runs fill the component cache alike, and the
disabled cache stays empty. -/
theorem run_trusted (q : SigCheck) (qs : List SigCheck) (H : SigHashCache) (S : SigCache)
    (htrust : Trusted S (lookups H (q :: qs)))
    (hinj : Set.InjOn SigCache.keyOf {t | t ∈ lookups H (q :: qs)}) :
    (q.run ⟨H, S⟩).2 = (q.run ⟨H, ⟨0, []⟩⟩).2 ∧
      (q.run ⟨H, S⟩).1.sigHashes = (q.digest H).1 ∧
      (q.run ⟨H, ⟨0, []⟩⟩).1 = ⟨(q.digest H).1, ⟨0, []⟩⟩ ∧
      Trusted (q.run ⟨H, S⟩).1.sigs (lookups (q.digest H).1 qs) := by
  have hlater : ∀ t ∈ lookups (q.digest H).1 qs, t ∈ lookups H (q :: qs) :=
    fun _ ht => mem_lookups_of_tail ht
  rcases hq : q.digest H with ⟨H', _ | d⟩
  · -- no lookup: both fail alike and keep their signature caches
    have hr : q.run ⟨H, S⟩ = (⟨H', S⟩, .error _) := Spend.checkSigCached_of_error _ _ _ _ _ _ _ hq
    have hr₀ : q.run ⟨H, ⟨0, []⟩⟩ = (⟨H', ⟨0, []⟩⟩, .error _) :=
      Spend.checkSigCached_of_error _ _ _ _ _ _ _ hq
    have hl : lookups H (q :: qs) = lookups H' qs := by simp only [lookups, hq]
    rw [hq] at hlater
    refine ⟨by rw [hr, hr₀], by rw [hr], by rw [hr₀], ?_⟩
    rw [hr, ← hl]
    exact htrust
  · -- the lookup of this check heads the lookups
    have hr := Spend.checkSigCached_of_ok q.spend ⟨H, S⟩ q.sig q.key q.scriptCode q.hashType
      q.flags hq
    have hr₀ := Spend.checkSigCached_of_ok q.spend ⟨H, ⟨0, []⟩⟩ q.sig q.key q.scriptCode
      q.hashType q.flags hq
    have hl : lookups H (q :: qs) = (d, q.sig.normalizeS, q.key) :: lookups H' qs := by
      simp only [lookups, hq]
    have hmine : (d, q.sig.normalizeS, q.key) ∈ lookups H (q :: qs) := by
      rw [hl]
      exact List.mem_cons_self
    rw [hq] at hlater
    -- a hit is a triple that verifies
    have hhit : S.contains d q.sig.normalizeS q.key = true →
        Secp256k1.verify q.sig.normalizeS q.key d = true := by
      intro hc
      obtain ⟨t, -, hver, hcoll⟩ := htrust _ (List.contains_iff_mem.mp hc)
      have heq : (d, q.sig.normalizeS, q.key) = t := hcoll _ hmine rfl
      rw [← heq] at hver
      exact hver
    have hnone : (⟨0, []⟩ : SigCache).contains d q.sig.normalizeS q.key = false := rfl
    unfold run
    rw [hr, hr₀]
    dsimp only
    refine ⟨?_, rfl, ?_, ?_⟩
    · rw [hnone, Bool.false_or]
      cases hc : S.contains d q.sig.normalizeS q.key
      · rfl
      · rw [hhit hc]
        rfl
    · split_ifs <;> rfl
    · -- the cache gains at most this check's triple, which verified
      intro e he
      split_ifs at he with hadd
      · rcases SigCache.mem_add he with he | rfl
        · exact (htrust.mono hlater) e he
        · refine ⟨(d, q.sig.normalizeS, q.key), rfl, (Bool.and_eq_true_iff.mp hadd).2,
            fun t' ht' hkey => ?_⟩
          exact hinj (hlater t' ht') hmine hkey
      · exact (htrust.mono hlater) e he

/-- Checks run in turn on a trusted signature cache answer as they would with caching disabled,
when the key is injective on their lookups. The trust carries the induction: each check keeps
it for the checks after it. -/
theorem runAll_trusted (qs : List SigCheck) (H : SigHashCache) (S : SigCache)
    (htrust : Trusted S (lookups H qs)) (hinj : Set.InjOn SigCache.keyOf {t | t ∈ lookups H qs}) :
    runAll ⟨H, S⟩ qs = runAll ⟨H, ⟨0, []⟩⟩ qs := by
  induction qs generalizing H S with
  | nil => rfl
  | cons q qs ih =>
    obtain ⟨hans, hhashes, hdisabled, htrust'⟩ := run_trusted q qs H S htrust hinj
    have hstate : (q.run ⟨H, S⟩).1 = ⟨(q.digest H).1, (q.run ⟨H, S⟩).1.sigs⟩ := by
      rw [← hhashes]
    have hinj' : Set.InjOn SigCache.keyOf {t | t ∈ lookups (q.digest H).1 qs} :=
      hinj.mono fun _ ht => mem_lookups_of_tail ht
    simp only [runAll]
    rw [hans, hstate, hdisabled, ih _ _ htrust' hinj']

end SigCheck

/-- The signature cache is bounded and sound. Along every sequence of commands on a cache
created with capacity `m`, the cache holds no key twice and at most `m` keys (so none when `m`
is zero). With `m` positive an add makes its triple present; an add removes at most one other
key, none when its key is present or the cache is not full, and brings no key but its own. A
lookup answers true only after an add of a triple with the same key. Hence checks sharing a cache
of any capacity, in any order, answer as they do with caching disabled, when the key is injective
on the triples they look up: only triples that verified are ever added. -/
theorem sigCache_bounded_and_sound :
    (∀ (m : Nat) (cmds : List SigCacheCommand),
      ((⟨m, []⟩ : SigCache).afterAll cmds).entries.Nodup ∧
        ((⟨m, []⟩ : SigCache).afterAll cmds).size ≤ m) ∧
    (∀ (c : SigCache) (d : Bytes) (s : Secp256k1.Signature) (p : Secp256k1.PublicKey),
      0 < c.capacity → (c.add d s p).contains d s p = true) ∧
    (∀ (c : SigCache) (d : Bytes) (s : Secp256k1.Signature) (p : Secp256k1.PublicKey),
      (∃ x, ∀ e ∈ c.entries, e ≠ x → e ∈ (c.add d s p).entries) ∧
      (SigCache.key d s p ∈ c.entries ∨ c.size < c.capacity →
        ∀ e ∈ c.entries, e ∈ (c.add d s p).entries) ∧
      (∀ e ∈ (c.add d s p).entries, e ∈ c.entries ∨ e = SigCache.key d s p)) ∧
    (∀ (m : Nat) (pre : List SigCacheCommand) (d : Bytes) (s : Secp256k1.Signature)
      (p : Secp256k1.PublicKey) (post : List SigCacheCommand),
      ((⟨m, []⟩ : SigCache).performAll (pre ++ .contains d s p :: post))[pre.length]? =
          some (.truth true) →
        ∃ d' s' p', SigCacheCommand.add d' s' p' ∈ pre ∧ SigCache.key d' s' p' = SigCache.key d s p) ∧
    (∀ (H : SigHashCache) (m : Nat) (qs : List SigCheck),
      Set.InjOn SigCache.keyOf {t | t ∈ SigCheck.lookups H qs} →
        SigCheck.runAll ⟨H, ⟨m, []⟩⟩ qs = SigCheck.runAll ⟨H, ⟨0, []⟩⟩ qs) := by
  refine ⟨fun m cmds => ?_, fun c d s p h => SigCache.contains_add h, fun c d s p => ?_,
    fun m pre d s p post h => ?_, fun H m qs hinj => ?_⟩
  · have hb := (SigCache.bounded_new m).afterAll cmds
    have hsize := hb.size_le
    rw [SigCache.capacity_afterAll] at hsize
    exact ⟨hb.nodup, hsize⟩
  · refine ⟨⟨c.entries.head?.getD [], fun e he hne => SigCache.mem_add_of_mem he ?_⟩,
      fun hroom e he => SigCache.mem_add_of_room he hroom, fun e he => SigCache.mem_add he⟩
    -- only the oldest key can go
    intro hhead
    rw [hhead, Option.getD_some] at hne
    exact hne rfl
  · -- the answer is the lookup in the cache the commands before it lead to
    rw [SigCache.performAll_getElem?_length] at h
    simp only [SigCache.perform, Option.some.injEq, SigCacheAnswer.truth.injEq] at h
    rcases SigCache.mem_afterAll pre (List.contains_iff_mem.mp h) with hnew | ⟨d', s', p', hmem, hkey⟩
    · exact absurd hnew List.not_mem_nil
    · exact ⟨d', s', p', hmem, hkey.symm⟩
  · exact SigCheck.runAll_trusted qs H ⟨m, []⟩ (SigCheck.trusted_new m _) hinj

end BitcoinScript
