import BitcoinScript.Proofs.SignatureCache
import BitcoinScript.Proofs.ForkIdDigest

/-!
# The digest-component cache

The component cache is shared by the checkers of many inputs, and its calls take its lock one
hold at a time: `get` and `contains` look an id up, `purge` forgets one, and an add looks its
transaction's id up, computes the components outside the lock when it found none, and takes the
lock again to store them unless another caller stored some first (`SigHashCacheAccess`). Callers
interleave their holds in any order, so a run of the cache is any sequence of holds
(`SigHashCache.afterAccesses`).

Along every such run the cache is coherent (`SigHashCache.Coherent`, `coherent_afterAccesses`): it
holds at most one entry per id, and each entry is the components of a transaction with that id
that an add inserted before. An add, whatever the holds of other callers between its two holds,
leaves its id present with its answer, and answers the components of a transaction with its id
that was inserted before it or of its own transaction (`Coherent.addAcross`). A purge removes the
entry of its id and no other (`get?_purge`, `size_purge`).

The transaction id separates transactions only as far as the hash does. When it separates the
transactions a run inserts from the checker's own wherever their components differ
(`Tx.SameComponents`), every add answers the checker's own components, so the digest a checker
signs with the components it fetched through the cache, at any check, is the digest it signs
without the cache (`Spend.digestWith_addInterleaved`, `Spend.cachedDigest_eq_digest`).
-/

set_option autoImplicit false

namespace BitcoinScript

namespace Tx

/-- Two transactions agree on what the BIP143 components read: the outpoints and the sequences of
their inputs, and their outputs. -/
def SameComponents (t t' : Tx) : Prop :=
  t.inputs.map (·.prevout) = t'.inputs.map (·.prevout) ∧
    t.inputs.map (·.sequence) = t'.inputs.map (·.sequence) ∧ t.outputs = t'.outputs

end Tx

namespace SigHashParts

theorem ofTx_eq_of_sameComponents {t t' : Tx} (h : t.SameComponents t') : ofTx t = ofTx t' := by
  obtain ⟨hprevouts, hsequence, houtputs⟩ := h
  have e₁ := ofTx_prevouts_congr hprevouts
  have e₂ := ofTx_sequence_congr hsequence
  have e₃ := ofTx_outputs_congr houtputs
  simp only [ofTx] at e₁ e₂ e₃ ⊢
  rw [e₁, e₂, e₃]

end SigHashParts

namespace SigHashCacheAccess

/-- The transactions whose components holds of the lock insert, in order. -/
def inserted : List SigHashCacheAccess → List Tx
  | [] => []
  | .insert t :: as => t :: inserted as
  | .lookup _ :: as => inserted as
  | .purge _ :: as => inserted as

@[simp] theorem inserted_append (as bs : List SigHashCacheAccess) :
    inserted (as ++ bs) = inserted as ++ inserted bs := by
  induction as with
  | nil => rfl
  | cons a as ih => cases a <;> simp [inserted, ih]

end SigHashCacheAccess

namespace SigHashCache

variable {c c' : SigHashCache} {added : List Tx} {txid : Bytes} {parts : SigHashParts}

/-- The cache after holds of the lock, in order. -/
def afterAccesses (c : SigHashCache) (as : List SigHashCacheAccess) : SigHashCache :=
  as.foldl (fun c a => (c.access a).1) c

@[simp] theorem afterAccesses_nil (c : SigHashCache) : c.afterAccesses [] = c := rfl

@[simp] theorem afterAccesses_cons (c : SigHashCache) (a : SigHashCacheAccess)
    (as : List SigHashCacheAccess) : c.afterAccesses (a :: as) = (c.access a).1.afterAccesses as :=
  rfl

/-! ## Looking an id up -/

theorem mem_of_get? (h : c.get? txid = some parts) : (txid, parts) ∈ c.entries := by
  unfold get? at h
  obtain ⟨e, he, rfl⟩ := Option.map_eq_some_iff.mp h
  have hkey : e.1 = txid := by simpa using List.find?_some he
  rw [← hkey]
  exact List.mem_of_find?_eq_some he

theorem get?_eq_none_iff : c.get? txid = none ↔ ∀ e ∈ c.entries, e.1 ≠ txid := by
  simp [get?, List.find?_eq_none]

theorem contains_iff_mem_keys : c.contains txid = true ↔ txid ∈ c.entries.map (·.1) := by
  rw [contains, Option.isSome_iff_ne_none, Ne, get?_eq_none_iff]
  simp

/-- An entry appended for an id that had none is what the id then holds. -/
theorem get?_append_of_none (h : c.get? txid = none) :
    (⟨c.entries ++ [(txid, parts)]⟩ : SigHashCache).get? txid = some parts := by
  have hfind : c.entries.find? (·.1 == txid) = none := by
    simpa [get?] using h
  simp [get?, List.find?_append, hfind]

/-- A purge forgets its id and keeps every other. -/
theorem get?_purge (c : SigHashCache) (txid k : Bytes) :
    (c.purge txid).get? k = if k = txid then none else c.get? k := by
  unfold get? purge
  rw [List.find?_filter]
  split_ifs with hk
  · subst hk
    rw [List.find?_eq_none.mpr]
    · rfl
    · intro e _
      simp only [bne_iff_ne, ne_eq, beq_iff_eq, decide_eq_true_eq]
      tauto
  · -- an entry with key `k` is not one with key `txid`
    congr 2
    funext e
    by_cases he : e.1 = k
    · simp [he, hk]
    · simp [he]

/-! ## Inserting -/

theorem insertOrGet_of_some (h : c.get? txid = some parts) (fresh : SigHashParts) :
    c.insertOrGet txid fresh = (c, parts) := by
  simp [insertOrGet, h]

theorem insertOrGet_of_none (h : c.get? txid = none) :
    c.insertOrGet txid parts = (⟨c.entries ++ [(txid, parts)]⟩, parts) := by
  simp [insertOrGet, h]

/-- After an insert its id holds what the insert answers. -/
theorem get?_insertOrGet (c : SigHashCache) (txid : Bytes) (parts : SigHashParts) :
    (c.insertOrGet txid parts).1.get? txid = some (c.insertOrGet txid parts).2 := by
  cases h : c.get? txid with
  | some stored => rw [insertOrGet_of_some h, h]
  | none => rw [insertOrGet_of_none h, get?_append_of_none h]

/-- An add that runs alone is its two holds with nothing between them. -/
theorem add_eq_addAcross (c : SigHashCache) (t : Tx) : c.add t = addAcross c c t := by
  unfold add addAcross
  dsimp only
  cases h : c.get? t.txid with
  | some stored => rfl
  | none => exact (insertOrGet_of_none h).symm

/-- After an add, whatever came between its holds, its id holds its answer. -/
theorem get?_addAcross (c c' : SigHashCache) (t : Tx) :
    (addAcross c c' t).1.get? t.txid = some (addAcross c c' t).2 := by
  unfold addAcross
  cases h : c.get? t.txid with
  | some stored => exact h
  | none => exact get?_insertOrGet c' t.txid _

/-! ## Coherence -/

/-- What the cache keeps along every interleaving of holds: at most one entry per id, and each
entry the components of a transaction with that id among `added`. -/
structure Coherent (added : List Tx) (c : SigHashCache) : Prop where
  nodup : (c.entries.map (·.1)).Nodup
  sound : ∀ e ∈ c.entries, ∃ t ∈ added, t.txid = e.1 ∧ e.2 = SigHashParts.ofTx t

theorem coherent_empty (added : List Tx) : Coherent added {} :=
  ⟨List.nodup_nil, fun _ he => absurd he List.not_mem_nil⟩

theorem Coherent.mono {added' : List Tx} (h : Coherent added c) (hsub : ∀ t ∈ added, t ∈ added') :
    Coherent added' c := by
  refine ⟨h.nodup, fun e he => ?_⟩
  obtain ⟨t, ht, hid, hparts⟩ := h.sound e he
  exact ⟨t, hsub t ht, hid, hparts⟩

/-- What a coherent cache holds for an id is the components of a transaction with that id. -/
theorem Coherent.get? (h : Coherent added c) (hget : c.get? txid = some parts) :
    ∃ t ∈ added, t.txid = txid ∧ parts = SigHashParts.ofTx t :=
  h.sound _ (mem_of_get? hget)

theorem Coherent.insertOrGet {t : Tx} (h : Coherent added c) (ht : t ∈ added) :
    Coherent added (c.insertOrGet t.txid (SigHashParts.ofTx t)).1 := by
  cases hget : c.get? t.txid with
  | some stored =>
    rw [insertOrGet_of_some hget]
    exact h
  | none =>
    rw [insertOrGet_of_none hget]
    -- the new id is not among the old ones, and its entry is the components of `t`
    have hfresh : t.txid ∉ c.entries.map (·.1) := by
      simp only [List.mem_map, not_exists, not_and]
      exact fun e he hid => get?_eq_none_iff.mp hget e he hid
    refine ⟨?_, fun e he => ?_⟩
    · rw [List.map_append]
      exact h.nodup.append (List.nodup_singleton _) (List.disjoint_singleton.mpr hfresh)
    · rcases List.mem_append.mp he with he | he
      · exact h.sound e he
      · rw [List.mem_singleton.mp he]
        exact ⟨t, ht, rfl, rfl⟩

theorem Coherent.purge (h : Coherent added c) (txid : Bytes) : Coherent added (c.purge txid) := by
  refine ⟨?_, fun e he => h.sound e (List.mem_of_mem_filter he)⟩
  exact h.nodup.sublist (List.filter_sublist.map _)

/-- One hold keeps the cache coherent, counting the transaction it inserts. -/
theorem Coherent.access (h : Coherent added c) (a : SigHashCacheAccess)
    (ha : ∀ t ∈ SigHashCacheAccess.inserted [a], t ∈ added) : Coherent added (c.access a).1 := by
  cases a with
  | lookup txid => exact h
  | insert t => exact h.insertOrGet (ha t (by simp [SigHashCacheAccess.inserted]))
  | purge txid => exact h.purge txid

/-- Every sequence of holds keeps the cache coherent, counting the transactions they insert. The
induction runs over the holds, and each step is `Coherent.access`. -/
theorem Coherent.afterAccesses (h : Coherent added c) (as : List SigHashCacheAccess)
    (has : ∀ t ∈ SigHashCacheAccess.inserted as, t ∈ added) : Coherent added (c.afterAccesses as) := by
  induction as generalizing c with
  | nil => exact h
  | cons a as ih =>
    have hsplit : SigHashCacheAccess.inserted (a :: as) =
        SigHashCacheAccess.inserted [a] ++ SigHashCacheAccess.inserted as := by
      rw [← SigHashCacheAccess.inserted_append]
      rfl
    rw [hsplit] at has
    rw [afterAccesses_cons]
    exact ih (h.access a fun t ht => has t (List.mem_append_left _ ht))
      fun t ht => has t (List.mem_append_right _ ht)

/-- A cache created empty is coherent after any interleaving of holds, with the transactions the
holds inserted. -/
theorem coherent_afterAccesses (as : List SigHashCacheAccess) :
    Coherent (SigHashCacheAccess.inserted as) (({} : SigHashCache).afterAccesses as) :=
  (coherent_empty _).afterAccesses as fun _ ht => ht

/-- An add on coherent caches, whatever the holds between its two, answers the components of a
transaction with its id among those added, its own included. -/
theorem Coherent.addAcross {t : Tx} (hc : Coherent added c) (hc' : Coherent added c')
    (ht : t ∈ added) :
    ∃ t' ∈ added, t'.txid = t.txid ∧ (addAcross c c' t).2 = SigHashParts.ofTx t' := by
  unfold SigHashCache.addAcross
  cases hget : c.get? t.txid with
  | some stored => exact hc.get? hget
  | none =>
    cases hget' : c'.get? t.txid with
    | some stored =>
      rw [insertOrGet_of_some hget']
      exact hc'.get? hget'
    | none =>
      rw [insertOrGet_of_none hget']
      exact ⟨t, ht, rfl, rfl⟩

/-- A purge takes exactly one entry from a coherent cache that holds its id, and none otherwise. -/
theorem size_purge (h : Coherent added c) (txid : Bytes) :
    (c.purge txid).size + (if c.contains txid then 1 else 0) = c.size := by
  -- the entries of other ids stay, and the coherent cache holds at most one entry of `txid`
  have hsplit : c.entries.length = (c.entries.filter fun e => e.1 != txid).length +
      (c.entries.filter fun e => !(e.1 != txid)).length :=
    List.length_eq_length_filter_add _
  have hcount : (c.entries.filter fun e => !(e.1 != txid)).length =
      (c.entries.map (·.1)).count txid := by
    rw [List.count_eq_countP, List.countP_map, List.countP_eq_length_filter]
    congr 1
    apply List.filter_congr
    intro e _
    simp [bne]
  have hle := List.nodup_iff_count_le_one.mp h.nodup txid
  unfold size purge
  dsimp only
  rw [hsplit, hcount]
  by_cases hmem : txid ∈ c.entries.map (·.1)
  · have hpos := List.count_pos_iff.mpr hmem
    rw [if_pos (contains_iff_mem_keys.mpr hmem)]
    omega
  · rw [List.count_eq_zero.mpr hmem, if_neg (fun hc => hmem (contains_iff_mem_keys.mp hc))]

end SigHashCache

/-! ## The digest a checker signs -/

namespace Spend

/-- Without a cache a checker holds its transaction's own components. -/
theorem digest_eq_digestWith (c : Spend) (scriptCode : Bytes) (hashType : Nat) (flags : Flags) :
    c.digest scriptCode hashType flags =
      c.digestWith (SigHashParts.ofTx c.tx) scriptCode hashType flags := by
  unfold digest digestWith
  split_ifs <;> rfl

/-- The digest a check with a shared cache signs is the one a checker holding the components the
cache's add answers signs. -/
theorem cachedDigest_eq_digestWith (c : Spend) (hashes : SigHashCache) (scriptCode : Bytes)
    (hashType : Nat) (flags : Flags) :
    (c.cachedDigest hashes scriptCode hashType flags).2 =
      c.digestWith (hashes.add c.tx).2 scriptCode hashType flags := by
  unfold cachedDigest digestWith
  split_ifs <;> rfl

end Spend

namespace SigHashCache

/-- An add on a cache created empty, whose look comes after the holds `pre` and whose insert, if
its look finds nothing, after the holds `mid` of other callers: the cache after it, and its answer. -/
def addInterleaved (pre mid : List SigHashCacheAccess) (t : Tx) : SigHashCache × SigHashParts :=
  addAcross (({} : SigHashCache).afterAccesses pre) (({} : SigHashCache).afterAccesses (pre ++ mid)) t

/-- An interleaved add answers the components of a transaction with its id that was inserted before
it, or of its own transaction. -/
theorem addInterleaved_answer (pre mid : List SigHashCacheAccess) (t : Tx) :
    ∃ t' ∈ SigHashCacheAccess.inserted (pre ++ mid) ++ [t], t'.txid = t.txid ∧
      (addInterleaved pre mid t).2 = SigHashParts.ofTx t' := by
  have hpre : Coherent (SigHashCacheAccess.inserted (pre ++ mid) ++ [t])
      (({} : SigHashCache).afterAccesses pre) :=
    (coherent_afterAccesses pre).mono fun t' ht' => by simp [ht']
  have hmid : Coherent (SigHashCacheAccess.inserted (pre ++ mid) ++ [t])
      (({} : SigHashCache).afterAccesses (pre ++ mid)) :=
    (coherent_afterAccesses (pre ++ mid)).mono fun t' ht' => List.mem_append_left _ ht'
  exact hpre.addAcross hmid (by simp)

/-- When the id separates the transactions inserted before from `t` wherever their components
differ, an interleaved add of `t` answers the components of `t`. -/
theorem addInterleaved_eq_ofTx {pre mid : List SigHashCacheAccess} {t : Tx}
    (hsep : ∀ t' ∈ SigHashCacheAccess.inserted (pre ++ mid), t'.txid = t.txid → t'.SameComponents t) :
    (addInterleaved pre mid t).2 = SigHashParts.ofTx t := by
  obtain ⟨t', ht', hid, hparts⟩ := addInterleaved_answer pre mid t
  rw [hparts]
  rcases List.mem_append.mp ht' with hin | hself
  · exact SigHashParts.ofTx_eq_of_sameComponents (hsep t' hin hid)
  · rw [List.mem_singleton.mp hself]

end SigHashCache

namespace Spend

/-- A checker that fetched its components through a shared cache, in any interleaving, signs at
every later check the digest it signs without the cache, when the id separates the transactions
inserted before from its own. -/
theorem digestWith_addInterleaved (c : Spend) {pre mid : List SigHashCacheAccess}
    (hsep : ∀ t' ∈ SigHashCacheAccess.inserted (pre ++ mid), t'.txid = c.tx.txid →
      t'.SameComponents c.tx) (scriptCode : Bytes) (hashType : Nat) (flags : Flags) :
    c.digestWith (SigHashCache.addInterleaved pre mid c.tx).2 scriptCode hashType flags =
      c.digest scriptCode hashType flags := by
  rw [SigHashCache.addInterleaved_eq_ofTx hsep, digest_eq_digestWith]

/-- A check on a shared cache reached by any holds signs the digest of a check without it. -/
theorem cachedDigest_eq_digest (c : Spend) {as : List SigHashCacheAccess}
    (hsep : ∀ t' ∈ SigHashCacheAccess.inserted as, t'.txid = c.tx.txid → t'.SameComponents c.tx)
    (scriptCode : Bytes) (hashType : Nat) (flags : Flags) :
    (c.cachedDigest (({} : SigHashCache).afterAccesses as) scriptCode hashType flags).2 =
      c.digest scriptCode hashType flags := by
  have hrun : (({} : SigHashCache).afterAccesses as).add c.tx =
      SigHashCache.addInterleaved as [] c.tx := by
    rw [SigHashCache.add_eq_addAcross, SigHashCache.addInterleaved, List.append_nil]
  rw [cachedDigest_eq_digestWith, hrun]
  exact c.digestWith_addInterleaved (by simpa using hsep) scriptCode hashType flags

end Spend

/-- The digest-component cache is coherent. Along every interleaving of the holds of its lock, by
any callers, from a cache created empty: at most one entry per id, and each entry the components of
a transaction with that id that an add inserted before. An add, whatever the holds of other
callers between its look and its insert, leaves its id present with its answer and answers the
components of a transaction with its id inserted before it or of its own; when the id separates
those transactions from its own wherever the outpoints, sequences or outputs differ, it answers
its own transaction's components. A purge forgets its id, keeps every other, and takes one entry
when the id was present, none otherwise. So a checker that fetched its components through the
shared cache, in any interleaving, signs at every check the digest it signs without the cache,
and so does the cached check on a cache reached by any holds. -/
theorem componentCache_coherent :
    (∀ as : List SigHashCacheAccess,
      SigHashCache.Coherent (SigHashCacheAccess.inserted as) (({} : SigHashCache).afterAccesses as)) ∧
    (∀ (pre mid : List SigHashCacheAccess) (t : Tx),
      (SigHashCache.addInterleaved pre mid t).1.get? t.txid =
          some (SigHashCache.addInterleaved pre mid t).2 ∧
        (∃ t' ∈ SigHashCacheAccess.inserted (pre ++ mid) ++ [t], t'.txid = t.txid ∧
          (SigHashCache.addInterleaved pre mid t).2 = SigHashParts.ofTx t') ∧
        ((∀ t' ∈ SigHashCacheAccess.inserted (pre ++ mid), t'.txid = t.txid → t'.SameComponents t) →
          (SigHashCache.addInterleaved pre mid t).2 = SigHashParts.ofTx t)) ∧
    (∀ (c : SigHashCache) (txid k : Bytes),
      (c.purge txid).get? k = if k = txid then none else c.get? k) ∧
    (∀ (as : List SigHashCacheAccess) (txid : Bytes),
      ((({} : SigHashCache).afterAccesses as).purge txid).size +
          (if (({} : SigHashCache).afterAccesses as).contains txid then 1 else 0) =
        (({} : SigHashCache).afterAccesses as).size) ∧
    (∀ (pre mid : List SigHashCacheAccess) (c : Spend),
      (∀ t' ∈ SigHashCacheAccess.inserted (pre ++ mid), t'.txid = c.tx.txid →
        t'.SameComponents c.tx) →
      ∀ (scriptCode : Bytes) (hashType : Nat) (flags : Flags),
        c.digestWith (SigHashCache.addInterleaved pre mid c.tx).2 scriptCode hashType flags =
          c.digest scriptCode hashType flags) ∧
    (∀ (as : List SigHashCacheAccess) (c : Spend),
      (∀ t' ∈ SigHashCacheAccess.inserted as, t'.txid = c.tx.txid → t'.SameComponents c.tx) →
      ∀ (scriptCode : Bytes) (hashType : Nat) (flags : Flags),
        (c.cachedDigest (({} : SigHashCache).afterAccesses as) scriptCode hashType flags).2 =
          c.digest scriptCode hashType flags) := by
  refine ⟨SigHashCache.coherent_afterAccesses, fun pre mid t => ⟨?_, ?_, ?_⟩, SigHashCache.get?_purge,
    fun as txid => SigHashCache.size_purge (SigHashCache.coherent_afterAccesses as) txid,
    fun pre mid c hsep => c.digestWith_addInterleaved hsep,
    fun as c hsep => c.cachedDigest_eq_digest hsep⟩
  · exact SigHashCache.get?_addAcross _ _ t
  · exact SigHashCache.addInterleaved_answer pre mid t
  · exact fun hsep => SigHashCache.addInterleaved_eq_ofTx hsep

/-- A checker whose add finds the components that another caller's add of the same transaction
inserted signs the digest it signs without the cache. -/
theorem componentCache_coherent_secondChecker :
    (∀ t' ∈ SigHashCacheAccess.inserted
        [.lookup (Tx.mk 1 [⟨⟨[], 0⟩, [], 0, []⟩] [] 0).txid, .insert (Tx.mk 1 [⟨⟨[], 0⟩, [], 0, []⟩] [] 0)],
      t'.txid = (Tx.mk 1 [⟨⟨[], 0⟩, [], 0, []⟩] [] 0).txid →
        t'.SameComponents (Tx.mk 1 [⟨⟨[], 0⟩, [], 0, []⟩] [] 0)) ∧
    (Spend.mk (Tx.mk 1 [⟨⟨[], 0⟩, [], 0, []⟩] [] 0) 0 1000).digestWith
        (SigHashCache.addInterleaved [.lookup (Tx.mk 1 [⟨⟨[], 0⟩, [], 0, []⟩] [] 0).txid,
          .insert (Tx.mk 1 [⟨⟨[], 0⟩, [], 0, []⟩] [] 0)] [] (Tx.mk 1 [⟨⟨[], 0⟩, [], 0, []⟩] [] 0)).2
        [0x51] 0x41 ⟨8192⟩ =
      (Spend.mk (Tx.mk 1 [⟨⟨[], 0⟩, [], 0, []⟩] [] 0) 0 1000).digest [0x51] 0x41 ⟨8192⟩ := by
  have hsep : ∀ t' ∈ SigHashCacheAccess.inserted
      [.lookup (Tx.mk 1 [⟨⟨[], 0⟩, [], 0, []⟩] [] 0).txid, .insert (Tx.mk 1 [⟨⟨[], 0⟩, [], 0, []⟩] [] 0)],
      t'.txid = (Tx.mk 1 [⟨⟨[], 0⟩, [], 0, []⟩] [] 0).txid →
        t'.SameComponents (Tx.mk 1 [⟨⟨[], 0⟩, [], 0, []⟩] [] 0) := by
    intro t' ht' _
    rw [List.mem_singleton.mp ht']
    exact ⟨rfl, rfl, rfl⟩
  refine ⟨hsep, componentCache_coherent.2.2.2.2.1 _ [] _ ?_ _ _ _⟩
  rw [List.append_nil]
  exact hsep

end BitcoinScript
