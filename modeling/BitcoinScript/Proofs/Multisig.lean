import BitcoinScript.Proofs.Bounds

/-!
# The multisig scan decides ordered matching

`OP_CHECKMULTISIG` pops a key count, the keys, a signature count, the signatures and a dummy,
and then scans: each key, from the top down, is tried once against the first signature not yet
matched. This greedy scan answers true exactly when the signatures, in stack order, can be matched
to keys at strictly increasing positions (`matchSignatures_eq_ok_iff`): an earliest match never
blocks a later one, so trying the keys in order loses nothing, and the early stop when too few
keys are left only cuts off runs that cannot succeed. Each call of the scan passes a key for
good, so it checks at most one signature per key (`scanCalls_encard_le`).

On a stack of the expected shape, with counts the stack's number rule reads and within the limits,
the whole opcode pops exactly its operands, raises the operation count by the keys, and answers
the matching, a failed match becoming an error under NULLFAIL exactly when some signature is not
empty (`checkMultiSig_decides_ordered_matching`).
-/

set_option autoImplicit false

namespace BitcoinScript

/-! ## Matching signatures to keys in order -/

section Matching

variable {α β : Type} {R : α → β → Prop}

theorem sublistForall₂_length_le {l₁ : List α} {l₂ : List β} (h : List.SublistForall₂ R l₁ l₂) :
    l₁.length ≤ l₂.length := by
  obtain ⟨l, hl, hsub⟩ := List.sublistForall₂_iff.mp h
  rw [hl.length_eq]
  exact hsub.length_le

/-- A matching of `a :: l₁` gives a matching of `l₁`, on the keys after the one `a` took. -/
theorem sublistForall₂_of_cons {a : α} {l₁ : List α} {l₂ : List β}
    (h : List.SublistForall₂ R (a :: l₁) l₂) : List.SublistForall₂ R l₁ l₂ := by
  obtain ⟨l, hl, hsub⟩ := List.sublistForall₂_iff.mp h
  cases hl with
  | cons _ hrest => exact List.sublistForall₂_iff.mpr ⟨_, hrest, (List.sublist_cons_self _ _).trans hsub⟩

/-- A matching to a subsequence is a strictly increasing choice of positions. -/
theorem sublistForall₂_iff_strictMono {l₁ : List α} {l₂ : List β} :
    List.SublistForall₂ R l₁ l₂ ↔
      ∃ f : Fin l₁.length → Fin l₂.length, StrictMono f ∧ ∀ i, R l₁[i] l₂[f i] := by
  rw [List.sublistForall₂_iff]
  constructor
  · rintro ⟨l, hl, hsub⟩
    obtain ⟨g, hg⟩ := List.sublist_iff_exists_fin_orderEmbedding_get_eq.mp hsub
    have hlen : l₁.length = l.length := hl.length_eq
    refine ⟨fun i => g (Fin.cast hlen i), fun i j hij => g.strictMono hij, fun i => ?_⟩
    -- the key chosen for signature `i` is the `i`-th of the matched subsequence
    have hget := hg (Fin.cast hlen i)
    simp only [List.get_eq_getElem, Fin.val_cast] at hget
    show R l₁[i] l₂[g (Fin.cast hlen i)]
    simp only [Fin.getElem_fin]
    rw [← hget]
    exact (List.forall₂_iff_get.mp hl).2 i i.2 (by omega)
  · rintro ⟨f, hf, hR⟩
    refine ⟨List.ofFn fun i => l₂[f i], ?_, ?_⟩
    · exact List.forall₂_iff_get.mpr ⟨by simp, fun i h₁ h₂ => by simpa using hR ⟨i, h₁⟩⟩
    · refine List.sublist_iff_exists_fin_orderEmbedding_get_eq.mpr
        ⟨(Fin.castOrderIso (by simp)).toOrderEmbedding.trans (OrderEmbedding.ofStrictMono f hf), ?_⟩
      intro i
      simp only [List.get_eq_getElem, List.getElem_ofFn]
      rfl

end Matching

namespace Machine

/-- The signature check reads the machine's flags and checker only. -/
theorem verifySignature_congr {m m' : Machine} (hf : m'.flags = m.flags) (hc : m'.checker = m.checker) :
    m'.verifySignature = m.verifySignature := by
  funext sig key code
  simp only [verifySignature, hf, hc]

end Machine

namespace Exec

section Scan

variable {m : Machine} {code : Bytes} {v : Bytes → Bytes → Bool}

/-- The greedy scan, with a check that answers `v` on every signature and key it is given,
answers true exactly when the signatures match, in order, a subsequence of the keys. The
induction is on the keys: a key that verifies the first signature left is taken, one that does
not is passed over, and either way a matching of what is left is a matching of the whole. -/
theorem matchSignatures_eq_ok_iff {sigs keys : List Bytes}
    (hv : ∀ sig ∈ sigs, ∀ key ∈ keys, m.verifySignature sig key code = .ok (v sig key)) :
    ∃ b, matchSignatures m code sigs keys = .ok b ∧
      (b = true ↔ List.SublistForall₂ (fun s k => v s k = true) sigs keys) := by
  induction keys generalizing sigs with
  | nil =>
    cases sigs with
    | nil => exact ⟨true, rfl, by simp [List.SublistForall₂.nil]⟩
    | cons s ss =>
      refine ⟨false, rfl, by simp, fun h => ?_⟩
      exact absurd (sublistForall₂_length_le h) (by simp)
  | cons k ks ih =>
    cases sigs with
    | nil => exact ⟨true, rfl, by simp [List.SublistForall₂.nil]⟩
    | cons s ss =>
      have hsk : m.verifySignature s k code = .ok (v s k) := hv s (by simp) k (by simp)
      have hrest : ∀ sig ∈ ss, ∀ key ∈ ks, m.verifySignature sig key code = .ok (v sig key) :=
        fun sig hs key hk => hv sig (by simp [hs]) key (by simp [hk])
      cases hvs : v s k
      · -- the key is passed over: a matching cannot use it for `s`
        have hskip : List.SublistForall₂ (fun s k => v s k = true) (s :: ss) (k :: ks) ↔
            List.SublistForall₂ (fun s k => v s k = true) (s :: ss) ks := by
          constructor
          · intro h
            cases h with
            | cons hR _ => simp [hvs] at hR
            | cons_right h => exact h
          · exact .cons_right
        by_cases hshort : ks.length < ss.length + 1
        · refine ⟨false, ?_, ?_⟩
          · simp [matchSignatures, hsk, hvs, hshort, bind, Except.bind, pure, Except.pure]
          · rw [hskip]
            refine ⟨by simp, fun h => ?_⟩
            have := sublistForall₂_length_le h
            simp at this
            omega
        · have hkept : ∀ sig ∈ s :: ss, ∀ key ∈ ks,
              m.verifySignature sig key code = .ok (v sig key) :=
            fun sig hs key hk => hv sig hs key (by simp [hk])
          obtain ⟨b, hb, hiff⟩ := ih hkept
          refine ⟨b, ?_, hiff.trans hskip.symm⟩
          simp [matchSignatures, hsk, hvs, hshort, bind, Except.bind, hb]
      · -- the key is taken: what is left must match the keys after it
        have htake : List.SublistForall₂ (fun s k => v s k = true) (s :: ss) (k :: ks) ↔
            List.SublistForall₂ (fun s k => v s k = true) ss ks := by
          constructor
          · intro h
            cases h with
            | cons _ h => exact h
            | cons_right h => exact sublistForall₂_of_cons h
          · exact .cons hvs
        by_cases hshort : ks.length < ss.length
        · refine ⟨false, ?_, ?_⟩
          · simp [matchSignatures, hsk, hvs, hshort, bind, Except.bind, pure, Except.pure]
          · rw [htake]
            refine ⟨by simp, fun h => ?_⟩
            have := sublistForall₂_length_le h
            omega
        · obtain ⟨b, hb, hiff⟩ := ih hrest
          refine ⟨b, ?_, hiff.trans htake.symm⟩
          simp [matchSignatures, hsk, hvs, hshort, bind, Except.bind, hb]

/-- The calls of the scan that check a signature: those with a signature and a key left. -/
def scanCalls (m : Machine) (code : Bytes) (sigs keys : List Bytes) :
    Set (List Bytes × List Bytes) :=
  {c | ScanVisits m code sigs keys c.1 c.2 ∧ c.1 ≠ [] ∧ c.2 ≠ []}

variable {sigs keys : List Bytes}

/-- The keys a call of the scan has left are the last ones of the popped keys. -/
theorem ScanVisits.keys_suffix {s k : List Bytes} (h : ScanVisits m code sigs keys s k) :
    k <:+ keys := by
  induction h with
  | start => exact List.suffix_refl _
  | next _ _ _ ih => exact (List.suffix_cons _ _).trans ih

/-- The scan is one chain of calls: two calls with as many keys left are the same call. -/
theorem ScanVisits.unique {s k s' k' : List Bytes} (h : ScanVisits m code sigs keys s k)
    (h' : ScanVisits m code sigs keys s' k') (hlen : k.length = k'.length) : s = s' ∧ k = k' := by
  induction h generalizing s' k' with
  | start =>
    cases h' with
    | start => exact ⟨rfl, rfl⟩
    | next h₀ _ _ =>
      -- a later call has fewer keys left than the first
      have := h₀.keys_suffix.length_le
      simp at this
      omega
  | next h₀ hv₀ _ ih =>
    cases h' with
    | start =>
      have := h₀.keys_suffix.length_le
      simp at this
      omega
    | next h₁ hv₁ _ =>
      obtain ⟨hs, hk⟩ := ih h₁ (by simp [hlen])
      obtain ⟨rfl, rfl⟩ := List.cons.inj hs
      obtain ⟨rfl, rfl⟩ := List.cons.inj hk
      -- the same signature and key get the same answer, so the calls go on alike
      obtain rfl : _ = _ := Except.ok.inj (hv₀.symm.trans hv₁)
      exact ⟨rfl, rfl⟩

/-- The scan checks at most one signature per key: its calls are told apart by the keys they
have left, from the popped `keys.length` down to one. -/
theorem scanCalls_encard_le : (scanCalls m code sigs keys).encard ≤ keys.length := by
  have hmaps : Set.MapsTo (fun c : List Bytes × List Bytes => c.2.length)
      (scanCalls m code sigs keys) (Finset.Icc 1 keys.length : Set Nat) := by
    rintro ⟨s, k⟩ ⟨hv, -, hk⟩
    have hle : k.length ≤ keys.length := hv.keys_suffix.length_le
    have hpos : 0 < k.length := List.length_pos_iff.mpr hk
    simp only [Finset.coe_Icc, Set.mem_Icc]
    omega
  have hinj : Set.InjOn (fun c : List Bytes × List Bytes => c.2.length)
      (scanCalls m code sigs keys) := by
    rintro ⟨s, k⟩ ⟨hv, -⟩ ⟨s', k'⟩ ⟨hv', -⟩ hlen
    obtain ⟨rfl, rfl⟩ := hv.unique hv' hlen
    rfl
  calc (scanCalls m code sigs keys).encard
      ≤ ((Finset.Icc 1 keys.length : Finset Nat) : Set Nat).encard :=
        Set.encard_le_encard_of_injOn hmaps hinj
    _ = keys.length := by
        rw [Set.encard_coe_eq_coe_finsetCard]
        simp

end Scan

/-! ## Popping the operands -/

section Pops

variable {m : Machine}

theorem bind_run_of_ok {α β : Type} {x : Exec α} {f : α → Exec β} {m' : Machine} {a : α}
    (h : x m = .ok a m') : (x >>= f) m = f a m' := by
  show EStateM.bind x f m = _
  simp only [EStateM.bind, h]

theorem onData_pop_run {x : Bytes} {rest : List Bytes} (h : m.dstack.items = x :: rest) :
    ∃ m', onData Stack.pop m = .ok x m' ∧
      m' = { m with dstack := { m.dstack with items := rest, events := [] }, log := m'.log } := by
  simp only [onData, Stack.pop, h]
  exact ⟨_, rfl, rfl⟩

/-- A number item the stack's rule reads is popped as that number. -/
theorem onData_popNum_run {x : Bytes} {rest : List Bytes} {n : Int}
    (h : m.dstack.items = x :: rest)
    (hn : Number.decode? x m.dstack.minimal m.dstack.maxNumLen = .ok n) :
    ∃ m', onData Stack.popNum m = .ok n m' ∧
      m' = { m with dstack := { m.dstack with items := rest, events := [] }, log := m'.log } := by
  simp only [onData, Stack.popNum, Stack.pop, Stack.decodeNumber, bind, EStateM.bind, get,
    getThe, MonadStateOf.get, EStateM.get, h, hn]
  exact ⟨_, rfl, rfl⟩

/-- Popping `xs.length` items off `xs ++ rest` gives `xs`, top first. -/
theorem popItems_run {xs rest : List Bytes} (h : m.dstack.items = xs ++ rest)
    (hq : m.dstack.events = []) :
    ∃ m', popItems xs.length m = .ok xs m' ∧
      m' = { m with dstack := { m.dstack with items := rest, events := [] }, log := m'.log } := by
  induction xs generalizing m with
  | nil =>
    refine ⟨m, rfl, ?_⟩
    rw [List.nil_append] at h
    rw [← h, ← hq]
  | cons x xs ih =>
    obtain ⟨m₁, h₁, hm₁⟩ := onData_pop_run (m := m) (by rw [h, List.cons_append])
    obtain ⟨m₂, h₂, hm₂⟩ := ih (m := m₁) (by rw [hm₁]) (by rw [hm₁])
    refine ⟨m₂, ?_, ?_⟩
    · simp only [List.length_cons, popItems, bind_run_of_ok h₁, bind_run_of_ok h₂]
      rfl
    · rw [hm₂, hm₁]

/-- A count no larger than its bound, which fits a signed 64-bit number, is in range. -/
theorem countInRange?_natCast {n max : Nat} (h : n ≤ max) (hmax : max ≤ 9223372036854775807) :
    countInRange? n max = some n := by
  have hn : (-9223372036854775808 : Int) ≤ n ∧ (n : Int) ≤ 9223372036854775807 := by omega
  have hk : (0 : Int) ≤ n ∧ (n : Int) ≤ max := by omega
  simp only [countInRange?, Number.toI64?, if_pos hn, if_pos hk, Int.toNat_natCast]

end Pops

/-- The limits of either genesis rule allow at most `2 ^ 31 - 1` keys. -/
theorem maxPubkeysPerMultisig_le (g : Bool) :
    (Limits.ofGenesis g).maxPubkeysPerMultisig ≤ 2147483647 := by
  cases g <;> decide

/-- `OP_CHECKMULTISIG` on a stack of its expected shape: it pops the key count, the keys, the
signature count, the signatures and the dummy, raises the operation count by the keys, and
answers the scan's answer, which under NULLFAIL becomes an error when it is false and some
signature is not empty. -/
theorem checkMultiSig_run {m : Machine} {rest sigs keys : List Bytes}
    {dummy sigsItem keysItem : Bytes} {b : Bool}
    (hstack : m.dstack.items = keysItem :: (keys ++ sigsItem :: (sigs ++ dummy :: rest)))
    (hkeys : Number.decode? keysItem m.dstack.minimal m.dstack.maxNumLen = .ok keys.length)
    (hsigs : Number.decode? sigsItem m.dstack.minimal m.dstack.maxNumLen = .ok sigs.length)
    (hlimits : m.limits = Limits.ofGenesis m.afterGenesis)
    (hmax : keys.length ≤ m.limits.maxPubkeysPerMultisig) (hle : sigs.length ≤ keys.length)
    (hops : m.numOps + keys.length ≤ m.limits.maxOps)
    (hdummy : m.flags.nullDummy = true → dummy = []) (hcode : m.subScript.Writable)
    (hscan : ∀ code, matchSignatures m code sigs keys = .ok b) :
    ∃ L, checkMultiSig m =
      let m' : Machine := { m with dstack := { m.dstack with items := rest, events := [] },
                                   numOps := m.numOps + keys.length, log := L }
      if (!b && m.flags.nullFail && sigs.any (!·.isEmpty)) = true then .error (.checkSig .nullFail) m'
      else .ok b m' := by
  have hbound : m.limits.maxPubkeysPerMultisig ≤ 9223372036854775807 := by
    have := maxPubkeysPerMultisig_le m.afterGenesis
    rw [← hlimits] at this
    omega
  unfold checkMultiSig
  obtain ⟨m₁, h₁, hm₁⟩ := onData_popNum_run hstack hkeys
  have hl₁ : m₁.limits = m.limits := by rw [hm₁]
  have hn₁ : m₁.numOps = m.numOps := by rw [hm₁]
  have hc₁ : countInRange? (keys.length : Int) m₁.limits.maxPubkeysPerMultisig = some keys.length := by
    rw [hl₁]
    exact countInRange?_natCast hmax hbound
  rw [bind_run_of_ok h₁, get_bind_run]
  simp only [hc₁]
  rw [set_bind_run, run_ite, if_neg (by rw [hl₁, hn₁]; omega)]
  obtain ⟨m₂, h₂, hm₂⟩ := popItems_run (m := { m₁ with numOps := m₁.numOps + keys.length })
    (show m₁.dstack.items = keys ++ sigsItem :: (sigs ++ dummy :: rest) by rw [hm₁]) (by rw [hm₁])
  rw [bind_run_of_ok h₂]
  obtain ⟨m₃, h₃, hm₃⟩ := onData_popNum_run (m := m₂) (by rw [hm₂]) (by rw [hm₂, hm₁]; exact hsigs)
  rw [bind_run_of_ok h₃]
  simp only [countInRange?_natCast hle (le_trans hmax hbound)]
  obtain ⟨m₄, h₄, hm₄⟩ := popItems_run (m := m₃)
    (show m₃.dstack.items = sigs ++ dummy :: rest by rw [hm₃]) (by rw [hm₃])
  rw [bind_run_of_ok h₄]
  obtain ⟨m₅, h₅, hm₅⟩ := onData_pop_run (m := m₄) (by rw [hm₄])
  rw [bind_run_of_ok h₅, get_bind_run]
  -- the machine after the pops: the operands are gone and the count is raised
  have hm : m₅ = { m with dstack := { m.dstack with items := rest, events := [] },
                          numOps := m.numOps + keys.length, log := m₅.log } := by
    rw [hm₅, hm₄, hm₃, hm₂, hm₁]
  have hf₅ : m₅.flags = m.flags := by rw [hm]
  have hchk : m₅.verifySignature = m.verifySignature :=
    Machine.verifySignature_congr hf₅ (by rw [hm])
  have hdummy' : (m₅.flags.nullDummy && !dummy.isEmpty) = false := by
    rw [hf₅]
    cases hd : m.flags.nullDummy
    · rfl
    · simp [hdummy hd]
  -- the script code is part of the current script, which can be written back
  obtain ⟨c, hc⟩ := Machine.scriptCodeBytes_ok
    (s := m₅.subScript.legacySubscript (sigs.filter fun s => !Signature.usesForkId s m₅.flags))
    (by rw [show m₅.subScript = m.subScript by rw [hm]; rfl]
        exact hcode.sublist (Script.legacySubscript_sublist _ _))
  have hlc : lift (Machine.scriptCodeBytes
      (m₅.subScript.legacySubscript (sigs.filter fun s => !Signature.usesForkId s m₅.flags))) m₅ =
      .ok c m₅ := by
    rw [hc]
    rfl
  have hv : ∀ sig key, m₅.verifySignature sig key c = m.verifySignature sig key c :=
    fun sig key => by rw [hchk]
  have hls : lift (matchSignatures m₅ c sigs keys) m₅ = .ok b m₅ := by
    rw [matchSignatures_congr hv, hscan c]
    rfl
  refine ⟨m₅.log, ?_⟩
  rw [run_ite, if_neg (by rw [hdummy']; decide), bind_run_of_ok hlc, bind_run_of_ok hls, run_ite,
    hf₅, ← hm]
  split
  · rfl
  · rfl

/-- `OP_CHECKMULTISIG` decides ordered matching. On a stack whose top holds the key count, the
keys, the signature count, the signatures and the dummy above `rest` (counts the stack's number
rule reads, the keys within the per-script limit and the operation budget, no more signatures
than keys, an empty dummy under NULLDUMMY), on a machine whose script code can be written back
and with a signature check that answers `v sig key` whatever the script code: the opcode leaves
`rest` with the count raised by the keys and all else as it was; it answers true exactly when
the `i`-th signature from the top verifies against the key at position `f i` from the top for
some strictly increasing `f`; otherwise it answers false, or fails with NULLFAIL's error when
that flag is set and some signature is not empty; and the scan checks at most one signature per
key. -/
theorem checkMultiSig_decides_ordered_matching {m : Machine} {rest sigs keys : List Bytes}
    {dummy sigsItem keysItem : Bytes} {v : Bytes → Bytes → Bool}
    (hstack : m.dstack.items = keysItem :: (keys ++ sigsItem :: (sigs ++ dummy :: rest)))
    (hkeys : Number.decode? keysItem m.dstack.minimal m.dstack.maxNumLen = .ok keys.length)
    (hsigs : Number.decode? sigsItem m.dstack.minimal m.dstack.maxNumLen = .ok sigs.length)
    (hlimits : m.limits = Limits.ofGenesis m.afterGenesis)
    (hmax : keys.length ≤ m.limits.maxPubkeysPerMultisig) (hle : sigs.length ≤ keys.length)
    (hops : m.numOps + keys.length ≤ m.limits.maxOps)
    (hdummy : m.flags.nullDummy = true → dummy = []) (hcode : m.subScript.Writable)
    (hv : ∀ sig ∈ sigs, ∀ key ∈ keys, ∀ code, m.verifySignature sig key code = .ok (v sig key)) :
    ∃ m' : Machine,
      (∃ L, m' = { m with dstack := { m.dstack with items := rest, events := [] },
                          numOps := m.numOps + keys.length, log := L }) ∧
      (checkMultiSig m = .ok true m' ↔
        ∃ f : Fin sigs.length → Fin keys.length, StrictMono f ∧ ∀ i, v sigs[i] keys[f i] = true) ∧
      ((¬ ∃ f : Fin sigs.length → Fin keys.length, StrictMono f ∧ ∀ i, v sigs[i] keys[f i] = true) →
        checkMultiSig m = if m.flags.nullFail = true ∧ ∃ s ∈ sigs, s ≠ [] then
          .error (.checkSig .nullFail) m' else .ok false m') ∧
      ∀ code, (scanCalls m code sigs keys).encard ≤ keys.length := by
  -- the scan answers the matching question, the same whatever the script code
  obtain ⟨b, -, hiff⟩ := matchSignatures_eq_ok_iff fun sig hs key hk => hv sig hs key hk []
  have hscan : ∀ code, matchSignatures m code sigs keys = .ok b := fun code => by
    obtain ⟨b', hb', hiff'⟩ := matchSignatures_eq_ok_iff fun sig hs key hk => hv sig hs key hk code
    rw [hb', Bool.eq_iff_iff.mpr (hiff'.trans hiff.symm)]
  have hmatch : b = true ↔
      ∃ f : Fin sigs.length → Fin keys.length, StrictMono f ∧ ∀ i, v sigs[i] keys[f i] = true :=
    hiff.trans sublistForall₂_iff_strictMono
  obtain ⟨L, hrun⟩ := checkMultiSig_run hstack hkeys hsigs hlimits hmax hle hops hdummy hcode hscan
  refine ⟨_, ⟨L, rfl⟩, ?_, fun hno => ?_, fun _ => scanCalls_encard_le⟩
  · rw [hrun, ← hmatch]
    cases b
    · -- a false answer is never `ok true`, error or not
      split <;> simp
    · simp
  · have hb : b = false := by
      cases b
      · rfl
      · exact absurd (hmatch.mp rfl) hno
    subst hb
    rw [hrun]
    -- NULLFAIL's condition, read as a statement about the signatures
    have hcond : (!false && m.flags.nullFail && sigs.any (!·.isEmpty)) = true ↔
        m.flags.nullFail = true ∧ ∃ s ∈ sigs, s ≠ [] := by
      simp
    by_cases hnf : m.flags.nullFail = true ∧ ∃ s ∈ sigs, s ≠ []
    · rw [if_pos (hcond.mpr hnf), if_pos hnf]
    · rw [if_neg (mt hcond.mp hnf), if_neg hnf]

/-- A one-of-one multisig with an empty signature answers false, without NULLFAIL, and leaves
the rest of the stack. -/
theorem checkMultiSig_decides_ordered_matching_emptySig :
    ∃ m m' : Machine, m.dstack.items = [[0x01], [0x02], [0x01], [], []] ∧
      m'.dstack.items = [] ∧ checkMultiSig m = .ok false m' := by
  obtain ⟨m₀, hnew⟩ := Machine.new?_lockOne
  -- the pushes change the stack only, so the script code is the set-up machine's
  have hcode : m₀.subScript.Writable :=
    Machine.subScript_writable (Machine.reachable_scripts_writable (.setup hnew))
  obtain ⟨u, l, -, -, -, -, hm₀⟩ := Machine.new?_ok hnew
  obtain ⟨m, hm⟩ : ∃ m : Machine, m = { m₀ with
      dstack := { m₀.dstack with items := [[0x01], [0x02], [0x01], [], []] } } := ⟨_, rfl⟩
  have hv : ∀ sig ∈ [([] : Bytes)], ∀ key ∈ [([0x02] : Bytes)], ∀ code,
      m.verifySignature sig key code = .ok ((fun _ _ => false) sig key) := by
    intro sig hs key _ code
    rw [List.mem_singleton.mp hs]
    rfl
  have hflags : m.flags = Flags.effective ⟨0⟩ := by rw [hm, hm₀]
  have hlim : m.limits = Limits.ofGenesis (Flags.effective ⟨0⟩).afterGenesis := by rw [hm, hm₀]
  have hops : m.numOps = 0 := by rw [hm, hm₀]
  obtain ⟨m', ⟨L, hm'⟩, -, hno, -⟩ := checkMultiSig_decides_ordered_matching
    (show m.dstack.items = [0x01] :: ([[0x02]] ++ [0x01] :: ([[]] ++ [] :: [])) by rw [hm]; rfl)
    (by rw [hm, hm₀]; rfl) (by rw [hm, hm₀]; rfl) (by rw [hm, hm₀]) (by rw [hlim]; decide)
    (le_refl _) (by rw [hlim, hops]; decide) (fun _ => rfl) (by rw [hm]; exact hcode) hv
  refine ⟨m, m', by rw [hm], by rw [hm'], ?_⟩
  rw [hno (by rintro ⟨f, -, hf⟩; exact absurd (hf ⟨0, by decide⟩) (by simp)),
    if_neg (by rw [hflags]; decide)]

end Exec

end BitcoinScript
