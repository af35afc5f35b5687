import Mathlib
import BitcoinScript.Sighash

/-!
# What the fork-id digest commits to

The BIP143 digest of a signature is the double SHA-256 of a preimage whose parts are the
transaction's version and lock time, the signed input's outpoint and sequence, the script code,
the amount, the hash type, and three transaction-wide hashes that the hash type may blank:

* the outpoints of all inputs, unless ANYONECANPAY;
* the sequences of all inputs, unless ANYONECANPAY, NONE or SINGLE;
* the outputs: all of them, unless NONE or SINGLE; for SINGLE the output at the signed input's
  index, or nothing when there is none.

So two transactions that agree on what the hash type selects have the same digest, at any two
input indices, whether the transaction-wide hashes are precomputed or not
(`signatureHash_forkId_eq_of_selection`). Unlocking scripts and witnesses are never selected
(`signatureHash_forkId_ignores_scripts`).
-/

set_option autoImplicit false

namespace BitcoinScript

namespace SigHashParts

theorem ofTx_prevouts_congr {t t' : Tx}
    (h : t.inputs.map (·.prevout) = t'.inputs.map (·.prevout)) :
    (ofTx t).prevouts = (ofTx t').prevouts := by
  have hbytes : ∀ u : Tx, u.inputs.flatMap (fun i => Encode.outPoint i.prevout) =
      (u.inputs.map (·.prevout)).flatMap Encode.outPoint := fun u => (List.flatMap_map _ _ _).symm
  simp only [ofTx, hbytes, h]

theorem ofTx_sequence_congr {t t' : Tx}
    (h : t.inputs.map (·.sequence) = t'.inputs.map (·.sequence)) :
    (ofTx t).sequence = (ofTx t').sequence := by
  have hbytes : ∀ u : Tx, u.inputs.flatMap (fun i => Bytes.ofNatLE 4 i.sequence) =
      (u.inputs.map (·.sequence)).flatMap (Bytes.ofNatLE 4) := fun u => (List.flatMap_map _ _ _).symm
  simp only [ofTx, hbytes, h]

theorem ofTx_outputs_congr {t t' : Tx} (h : t.outputs = t'.outputs) :
    (ofTx t).outputs = (ofTx t').outputs := by
  simp only [ofTx, h]

end SigHashParts

namespace Sighash

/-- The digest reads each transaction-wide hash only where the hash type keeps it, and the
output at the signed index only for SINGLE. -/
theorem forkIdDigest_congr {t t' : Tx} {index index' : Nat} {input input' : TxIn}
    {scriptCode : Bytes} {amount hashType : Nat} {parts parts' : SigHashParts}
    (hver : t.version = t'.version) (hlock : t.lockTime = t'.lockTime)
    (hprevout : input.prevout = input'.prevout) (hsequence : input.sequence = input'.sequence)
    (hprevouts : hashType &&& 0x80 = 0 → parts.prevouts = parts'.prevouts)
    (hsequences : hashType &&& 0x80 = 0 → hashType &&& 0x1f ≠ none → hashType &&& 0x1f ≠ single →
      parts.sequence = parts'.sequence)
    (houtput : hashType &&& 0x1f = single → t.outputs[index]? = t'.outputs[index']?)
    (houtputs : hashType &&& 0x1f ≠ none → hashType &&& 0x1f ≠ single →
      parts.outputs = parts'.outputs) :
    forkIdDigest t index input scriptCode amount hashType parts =
      forkIdDigest t' index' input' scriptCode amount hashType parts' := by
  unfold forkIdDigest
  dsimp only
  rw [hver, hlock, hprevout, hsequence]
  by_cases hacp : hashType &&& 0x80 = 0
  case neg =>
    -- ANYONECANPAY blanks the outpoints and the sequences
    have hflag : (hashType &&& 0x80 != 0) = true := by simpa using hacp
    simp only [hflag, if_true, Bool.true_or]
    split_ifs with hs hn
    · rw [houtput hs]
    · rfl
    · rw [houtputs hn hs]
  case pos =>
    have hflag : (hashType &&& 0x80 != 0) = false := by simpa using hacp
    simp only [hflag, if_false, Bool.false_or, Bool.false_eq_true, hprevouts hacp]
    by_cases hs : hashType &&& 0x1f = single
    · simp only [hs, decide_true, Bool.or_true, if_true, houtput hs]
    simp only [hs, decide_false, Bool.or_false, if_false]
    by_cases hn : hashType &&& 0x1f = none
    · simp only [hn, decide_true, if_true]
    · simp only [hn, decide_false, Bool.false_eq_true, if_false, hsequences hacp hn hs,
        houtputs hn hs]

end Sighash

/-- A fork-id digest of an input in range is the digest of that input with the components of
its own transaction, precomputed or not. -/
theorem signatureHash_forkId_of_lt {t : Tx} {i : Nat} {scriptCode : Bytes} {amount hashType : Nat}
    {flags : Flags} {h : Option SigHashParts} (hi : i < t.inputs.length)
    (hfork : Sighash.usesForkIdDigest hashType flags = true)
    (hh : h = none ∨ h = some (SigHashParts.ofTx t)) :
    signatureHash t i scriptCode amount hashType flags h =
      .ok (Sighash.forkIdDigest t i t.inputs[i] scriptCode amount hashType (SigHashParts.ofTx t)) := by
  have hparts : h.getD (SigHashParts.ofTx t) = SigHashParts.ofTx t := by
    rcases hh with rfl | rfl <;> rfl
  simp only [signatureHash, List.getElem?_eq_getElem hi, hfork, if_true, hparts]

/-- Two transactions that agree on what a fork-id hash type selects give the same digest at any
two input indices, with or without precomputed components. -/
theorem signatureHash_forkId_eq_of_selection {t t' : Tx} {i i' : Nat} {scriptCode : Bytes}
    {amount hashType : Nat} {flags : Flags} {h h' : Option SigHashParts}
    (hi : i < t.inputs.length) (hi' : i' < t'.inputs.length)
    (hfork : Sighash.usesForkIdDigest hashType flags = true)
    (hh : h = none ∨ h = some (SigHashParts.ofTx t))
    (hh' : h' = none ∨ h' = some (SigHashParts.ofTx t'))
    (hver : t.version = t'.version) (hlock : t.lockTime = t'.lockTime)
    (hprevout : t.inputs[i].prevout = t'.inputs[i'].prevout)
    (hsequence : t.inputs[i].sequence = t'.inputs[i'].sequence)
    (hprevouts : hashType &&& 0x80 = 0 → t.inputs.map (·.prevout) = t'.inputs.map (·.prevout))
    (hsequences : hashType &&& 0x80 = 0 → hashType &&& 0x1f ≠ Sighash.none →
      hashType &&& 0x1f ≠ Sighash.single → t.inputs.map (·.sequence) = t'.inputs.map (·.sequence))
    (houtput : hashType &&& 0x1f = Sighash.single → t.outputs[i]? = t'.outputs[i']?)
    (houtputs : hashType &&& 0x1f ≠ Sighash.none → hashType &&& 0x1f ≠ Sighash.single →
      t.outputs = t'.outputs) :
    signatureHash t i scriptCode amount hashType flags h =
      signatureHash t' i' scriptCode amount hashType flags h' := by
  rw [signatureHash_forkId_of_lt hi hfork hh, signatureHash_forkId_of_lt hi' hfork hh']
  refine congrArg Except.ok ?_
  exact Sighash.forkIdDigest_congr hver hlock hprevout hsequence
    (fun hacp => SigHashParts.ofTx_prevouts_congr (hprevouts hacp))
    (fun hacp hn hs => SigHashParts.ofTx_sequence_congr (hsequences hacp hn hs)) houtput
    (fun hn hs => SigHashParts.ofTx_outputs_congr (houtputs hn hs))

/-- Unlocking scripts and witnesses are no part of a fork-id digest: inputs with the same
outpoints and sequences give the same digest, or the same out-of-range failure. -/
theorem signatureHash_forkId_ignores_scripts {t : Tx} {ins : List TxIn} {i : Nat}
    {scriptCode : Bytes} {amount hashType : Nat} {flags : Flags}
    (hfork : Sighash.usesForkIdDigest hashType flags = true)
    (hins : ins.map (fun x => (x.prevout, x.sequence)) = t.inputs.map (fun x => (x.prevout, x.sequence))) :
    signatureHash { t with inputs := ins } i scriptCode amount hashType flags none =
      signatureHash t i scriptCode amount hashType flags none := by
  have hlen : ins.length = t.inputs.length := by simpa using congrArg List.length hins
  by_cases hi : i < t.inputs.length
  case neg =>
    -- both indices are out of range, with the same count of inputs
    have hnone : ins[i]? = none := List.getElem?_eq_none_iff.mpr (by omega)
    have hnone' : t.inputs[i]? = none := List.getElem?_eq_none_iff.mpr (by omega)
    simp only [signatureHash, hnone, hnone', hlen]
  case pos =>
    have hi₂ : i < ins.length := by omega
    have hpair : ins[i].prevout = t.inputs[i].prevout ∧ ins[i].sequence = t.inputs[i].sequence := by
      have := congrArg (·[i]?) hins
      simpa [List.getElem?_eq_getElem hi, List.getElem?_eq_getElem hi₂] using this
    have hfst : ins.map (·.prevout) = t.inputs.map (·.prevout) := by
      simpa [List.map_map, Function.comp_def] using congrArg (List.map Prod.fst) hins
    have hsnd : ins.map (·.sequence) = t.inputs.map (·.sequence) := by
      simpa [List.map_map, Function.comp_def] using congrArg (List.map Prod.snd) hins
    exact signatureHash_forkId_eq_of_selection hi₂ hi hfork (.inl rfl) (.inl rfl) rfl rfl
      hpair.1 hpair.2 (fun _ => hfst) (fun _ _ _ => hsnd) (fun _ => rfl) (fun _ _ => rfl)

/-- A fork-id digest commits to exactly the data its hash type selects. Two transactions give
the same digest at two input indices in range, with or without precomputed components, when
they have the same version and lock time, the signed inputs have the same outpoint and sequence,
and, unless ANYONECANPAY, all outpoints agree; unless ANYONECANPAY, NONE or SINGLE, all sequences
agree; for SINGLE, the outputs at the two indices agree or are both missing; unless NONE or
SINGLE, all outputs agree. In particular no input's unlocking script or witness is signed. -/
theorem forkIdDigest_commits_exactly_to_selection {scriptCode : Bytes} {amount hashType : Nat}
    {flags : Flags} (hfork : Sighash.usesForkIdDigest hashType flags = true) :
    (∀ (t t' : Tx) (i i' : Nat) (h h' : Option SigHashParts) (hi : i < t.inputs.length)
      (hi' : i' < t'.inputs.length),
      (h = none ∨ h = some (SigHashParts.ofTx t)) → (h' = none ∨ h' = some (SigHashParts.ofTx t')) →
      t.version = t'.version → t.lockTime = t'.lockTime →
      t.inputs[i].prevout = t'.inputs[i'].prevout → t.inputs[i].sequence = t'.inputs[i'].sequence →
      (hashType &&& 0x80 = 0 → t.inputs.map (·.prevout) = t'.inputs.map (·.prevout)) →
      (hashType &&& 0x80 = 0 → hashType &&& 0x1f ≠ Sighash.none → hashType &&& 0x1f ≠ Sighash.single →
        t.inputs.map (·.sequence) = t'.inputs.map (·.sequence)) →
      (hashType &&& 0x1f = Sighash.single → t.outputs[i]? = t'.outputs[i']?) →
      (hashType &&& 0x1f ≠ Sighash.none → hashType &&& 0x1f ≠ Sighash.single →
        t.outputs = t'.outputs) →
      signatureHash t i scriptCode amount hashType flags h =
        signatureHash t' i' scriptCode amount hashType flags h') ∧
    ∀ (t : Tx) (ins : List TxIn) (i : Nat),
      ins.map (fun x => (x.prevout, x.sequence)) = t.inputs.map (fun x => (x.prevout, x.sequence)) →
      signatureHash { t with inputs := ins } i scriptCode amount hashType flags none =
        signatureHash t i scriptCode amount hashType flags none :=
  ⟨fun _ _ _ _ _ _ hi hi' hh hh' hver hlock hprevout hsequence hprevouts hsequences houtput
      houtputs =>
    signatureHash_forkId_eq_of_selection hi hi' hfork hh hh' hver hlock hprevout hsequence
      hprevouts hsequences houtput houtputs,
    fun _ _ _ hins => signatureHash_forkId_ignores_scripts hfork hins⟩

/-- A transaction spending output 0 of the transaction whose id is thirty-two bytes `01`, with
the given unlocking script and witness and sequence 10, paying 1000 satoshis to `OP_1`. -/
def spendingTx (scriptSig : Bytes) (witness : List Bytes) : Tx :=
  ⟨2, [⟨⟨List.replicate 32 1, 0⟩, scriptSig, 10, witness⟩], [⟨1000, [0x51]⟩], 0⟩

/-- An `ALL|FORKID` signature under SIGHASH_FORKID signs the same digest whether or not the
spending input carries an unlocking script and a witness, and whether or not the components are
precomputed. -/
theorem forkIdDigest_commits_exactly_to_selection_allForkId :
    Sighash.usesForkIdDigest 0x41 ⟨8192⟩ = true ∧
      signatureHash (spendingTx [] []) 0 [] 0 0x41 ⟨8192⟩ none =
        signatureHash (spendingTx [0x51] [[1]]) 0 [] 0 0x41 ⟨8192⟩
          (some (SigHashParts.ofTx (spendingTx [0x51] [[1]]))) :=
  ⟨by decide, (forkIdDigest_commits_exactly_to_selection (by decide)).1 _ _ 0 0 none _
    (by decide) (by decide) (.inl rfl) (.inr rfl) rfl rfl rfl rfl (fun _ => rfl) (fun _ _ _ => rfl)
    (fun _ => rfl) (fun _ _ => rfl)⟩

end BitcoinScript
