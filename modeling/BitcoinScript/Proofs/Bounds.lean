import BitcoinScript.Proofs.Limits
import BitcoinScript.Proofs.Der

/-!
# Stepping within bounds

A machine that a run reaches has its program counter on an instruction, or has run every script;
only then does a step fail on the counter (`reachable_steps_in_bounds`). The index arithmetic the
handlers rely on holds as well:

* the script code a signature check commits to can always be written back as bytes, because
  every script of the run was read from bytes and the script code is a sublist of one of them;
* the greedy scan of `OP_CHECKMULTISIG` never runs out of keys: it starts with no more
  signatures than keys and keeps it so (`ScanVisits.length_le`);
* the S component that strict DER locates ends at the end of the signature;
* `OP_NUM2BIN` pads to exactly the requested size, minimal encoding never lengthens, and the
  shifts keep the length.
-/

set_option autoImplicit false

namespace BitcoinScript

/-! ## Scripts that can be written back -/

namespace Script

/-- Every instruction's data fits its opcode's length class, so the script has bytes. -/
def Writable (s : Script) : Prop := ∀ i ∈ s, i.fitsLength = true

theorem writable_iff_unparse? (s : Script) : s.Writable ↔ ∃ b, unparse? s = .ok b := by
  induction s with
  | nil => exact ⟨fun _ => ⟨[], rfl⟩, fun _ i hi => by cases hi⟩
  | cons i rest ih =>
    simp only [Writable, List.mem_cons, forall_eq_or_imp, unparse?] at ih ⊢
    constructor
    · rintro ⟨hi, hrest⟩
      obtain ⟨b, hb⟩ := ih.mp hrest
      exact ⟨i.encode ++ b, by simp [hi, hb, Except.map]⟩
    · rintro ⟨b, hb⟩
      by_cases hi : i.fitsLength = true
      · simp only [hi, ite_true] at hb
        cases hrest : unparse? rest with
        | error e => simp [hrest, Except.map] at hb
        | ok b' => exact ⟨hi, ih.mpr ⟨b', hrest⟩⟩
      · simp [hi] at hb

theorem writable_of_parse? {bytes : Bytes} {s : Script} (h : parse? bytes = some s) :
    s.Writable :=
  (writable_iff_unparse? s).mpr ⟨bytes, unparse?_of_parseAt h⟩

theorem Writable.sublist {s s' : Script} (h : s.Writable) (hs : List.Sublist s' s) : s'.Writable :=
  fun i hi => h i (hs.subset hi)

/-- The script code of a legacy signature is the script less some of its instructions. -/
theorem legacySubscript_sublist (s : Script) (sigs : List Bytes) : List.Sublist (s.legacySubscript sigs) s := by
  unfold legacySubscript
  -- each removal keeps a sublist of what it is given
  have hstep : ∀ t data, List.Sublist (removeData t data) t := fun t data => by
    unfold removeData
    split
    · exact List.Sublist.refl t
    · exact List.filter_sublist
  suffices ∀ t, List.Sublist t s → List.Sublist (sigs.foldl removeData t) s from
    this _ (List.filter_sublist)
  induction sigs with
  | nil => exact fun t ht => ht
  | cons sig sigs ih => exact fun t ht => ih _ ((hstep t sig).trans ht)

end Script

namespace Machine

/-- The script code of a signature check is the current script from the code separator on. -/
theorem subScript_writable {m : Machine} (h : ∀ s ∈ m.scripts, s.Writable) :
    m.subScript.Writable := by
  unfold subScript
  cases hs : m.scripts[m.idx]? with
  | none => exact fun i hi => by cases hi
  | some s => exact (h s (List.mem_of_getElem? hs)).sublist (List.drop_sublist _ _)

/-- A step keeps the scripts, or appends the redeem script read from an item of the stack saved
after the unlocking script. -/
theorem step_ok_scripts {m m' : Machine} {done : Bool} (hq : m.Quiet)
    (h : Exec.step m = .ok done m') :
    m'.scripts = m.scripts ∨ ∃ redeem r, redeem ∈ m.savedFirst ∧ Script.parse? redeem = some r ∧
      m'.scripts = m.scripts ++ [r] := by
  obtain ⟨script, op, m₁, -, -, hex, hfin⟩ := Exec.step_ok h
  obtain ⟨-, -, hf₁, -, -⟩ := Exec.executeInstruction_frame (by exact hq) hex
  have hsc : m₁.scripts = m.scripts := congrArg Frame.scripts hf₁
  have hsaved : m₁.savedFirst = m.savedFirst := congrArg Frame.savedFirst hf₁
  obtain ⟨-, hmove⟩ := Exec.finishStep_ok hfin
  rcases hmove with ⟨-, -, -, rfl⟩ | ⟨o, L, -, hshift⟩
  · exact .inl hsc
  · cases (Exec.shiftScript_ok hshift).move with
    | save _ _ hs _ _ _ => exact .inl (hs.trans hsc)
    | @redeem _ _ redeem _ _ _ _ _ _ _ hsaved' hparse hs _ _ _ =>
      have hmem : redeem ∈ m₁.savedFirst := by
        rw [show m₁.savedFirst = _ from hsaved']
        exact List.mem_cons_self
      exact .inr ⟨_, _, hsaved ▸ hmem, hparse, by rw [hs, hsc]⟩
    | next _ _ hs _ _ _ => exact .inl (hs.trans hsc)

/-- Every script of a run was read from bytes, so each can be written back. -/
theorem reachable_scripts_writable {m : Machine} (h : m.Reachable) :
    ∀ s ∈ m.scripts, s.Writable := by
  induction h with
  | setup hnew =>
    obtain ⟨u, l, hu, hl, -, -, rfl⟩ := new?_ok hnew
    intro s hs
    simp only [List.mem_cons, List.not_mem_nil, or_false] at hs
    rcases hs with rfl | rfl
    · exact Script.writable_of_parse? hu
    · exact Script.writable_of_parse? hl
  | step hr hstep ih =>
    rcases step_ok_scripts (reachable_onTrack hr).quiet hstep with hs | ⟨_, r, -, hparse, hs⟩
    · rw [hs]
      exact ih
    · rw [hs]
      intro s hs'
      rcases List.mem_append.mp hs' with hs' | hs'
      · exact ih s hs'
      · rw [List.mem_singleton.mp hs']
        exact Script.writable_of_parse? hparse

/-- A machine that has run every script fails its next step on the program counter, and stays
as it was. -/
theorem step_of_isDone {m : Machine} (hd : m.isDone = true) :
    Exec.step m = .error (.invalidProgramCounter m.idx m.off) m := by
  have hnone : m.scripts[m.idx]? = none := List.getElem?_eq_none (by simpa [isDone] using hd)
  unfold Exec.step
  simp [bind, EStateM.bind, get, getThe, MonadStateOf.get, EStateM.get, hnone, throw, throwThe,
    MonadExceptOf.throw, EStateM.throw]

/-- At a machine a run reaches, the program counter is on an instruction, or every script has run
and the next step fails on the counter. -/
theorem reachable_counter {m : Machine} (h : m.Reachable) :
    (m.isDone = false ∧ ∃ script op, m.scripts[m.idx]? = some script ∧ script[m.off]? = some op) ∨
      (m.isDone = true ∧ Exec.step m = .error (.invalidProgramCounter m.idx m.off) m) := by
  cases hd : m.isDone
  · -- scripts are left, and the track puts the counter on an instruction of the current one
    obtain ⟨op, hop⟩ := (reachable_onTrack h).current hd
    unfold current? at hop
    cases hs : m.scripts[m.idx]? with
    | none => simp [hs] at hop
    | some script => exact .inl ⟨rfl, script, op, rfl, by simpa [hs] using hop⟩
  · exact .inr ⟨rfl, step_of_isDone hd⟩

end Machine

/-! ## The multisig scan never runs out of keys -/

namespace Exec

/-- The calls the greedy scan of `matchSignatures` makes, from its first: a call tries its first
key on its first signature and, while enough keys are left, goes on with the other keys, and with
the other signatures when that one verified. -/
inductive ScanVisits (m : Machine) (code : Bytes) (sigs keys : List Bytes) :
    List Bytes → List Bytes → Prop
  | start : ScanVisits m code sigs keys sigs keys
  | next {sig key : Bytes} {rest ks : List Bytes} {ok : Bool} :
      ScanVisits m code sigs keys (sig :: rest) (key :: ks) →
      m.verifySignature sig key code = .ok ok →
      ¬ks.length < (if ok then rest else sig :: rest).length →
      ScanVisits m code sigs keys (if ok then rest else sig :: rest) ks

section Scan

variable {m : Machine} {code : Bytes} {sigs keys : List Bytes}

/-- The scan answers from each call it makes what it answers from the first. -/
theorem ScanVisits.matchSignatures_eq {s k : List Bytes} (h : ScanVisits m code sigs keys s k) :
    matchSignatures m code sigs keys = matchSignatures m code s k := by
  induction h with
  | start => rfl
  | next _ hv hleft ih =>
    rw [ih, matchSignatures]
    simp only [hv, bind, Except.bind, hleft, ite_false]

/-- Started with no more signatures than keys, the scan keeps it so: every call has a key for
each signature left, on the signatures and keys not yet passed over. -/
theorem ScanVisits.length_le {s k : List Bytes} (h : ScanVisits m code sigs keys s k)
    (hlen : sigs.length ≤ keys.length) :
    s.length ≤ k.length ∧ s <:+ sigs ∧ k <:+ keys := by
  induction h with
  | start => exact ⟨hlen, List.suffix_refl _, List.suffix_refl _⟩
  | @next sig _ rest _ ok _ _ hleft ih =>
    obtain ⟨-, hs, hk⟩ := ih
    refine ⟨by omega, ?_, (List.suffix_cons _ _).trans hk⟩
    cases ok
    · exact hs
    · exact (List.suffix_cons _ _).trans hs

theorem Bounded.always {α : Type} (x : Exec α) : Bounded (fun _ => True) (fun _ => True) x :=
  ⟨fun _ _ _ _ _ => ⟨True.intro, True.intro⟩⟩

/-- The scan gets exactly the items popped for it. -/
theorem bounded_popItems_length (n : Nat) :
    Bounded (fun _ => True) (fun xs => xs.length = n) (popItems n) := by
  induction n with
  | zero => exact Bounded.pure rfl
  | succ n ih =>
    exact (Bounded.always _).bind fun _ _ => ih.bind fun xs hxs =>
      Bounded.pure (by rw [List.length_cons, hxs])

theorem popItems_ok_length {n : Nat} {m m' : Machine} {xs : List Bytes}
    (h : popItems n m = .ok xs m') : xs.length = n :=
  ((bounded_popItems_length n).ok m xs m' trivial h).2

/-- OP_CHECKMULTISIG takes no more signatures than keys. -/
theorem countInRange?_le {c : Int} {k n : Nat} (h : countInRange? c k = some n) : n ≤ k := by
  unfold countInRange? at h
  split at h
  · split_ifs at h with hk
    cases h
    omega
  · cases h

end Scan

end Exec

/-- Strict DER locates an S component that is not empty and ends at the end of the signature. -/
theorem Signature.strictDer_slice {sig : Bytes} {off len : Nat}
    (h : Signature.strictDer sig = .ok (off, len)) : off + len = sig.length ∧ 0 < len := by
  unfold Signature.strictDer at h
  simp only [Signature.ite_error_eq_ok, Except.ok.injEq, Prod.mk.injEq] at h
  obtain ⟨-, -, -, -, -, -, hsEnd, -, -, -, -, -, hsZero, -, -, rfl, rfl⟩ := h
  exact ⟨by omega, by omega⟩

theorem Machine.scriptCodeBytes_ok {s : Script} (h : s.Writable) :
    ∃ b, Machine.scriptCodeBytes s = .ok b := by
  obtain ⟨b, hb⟩ := (Script.writable_iff_unparse? s).mp h
  exact ⟨b, by simp [Machine.scriptCodeBytes, hb]⟩

/-- Stepping never leaves the bounds the handlers index within. At every machine a run reaches
the program counter is on an instruction, or every script has run and a step fails on the
counter; and the script code of a signature check, with any signatures removed, can be written
back as bytes. Whatever the machine, the multisig scan started from the popped keys and at most
as many popped signatures has a key for every signature left at each call it makes, the S
component strict DER locates ends at the end of the signature, OP_NUM2BIN pads to exactly the
requested size, minimal encoding never lengthens and the shifts keep the length. -/
theorem reachable_steps_in_bounds {m : Machine} (h : m.Reachable) :
    ((m.isDone = false ∧ ∃ script op, m.scripts[m.idx]? = some script ∧ script[m.off]? = some op) ∨
      (m.isDone = true ∧ Exec.step m = .error (.invalidProgramCounter m.idx m.off) m)) ∧
    (∀ sigs, (∃ b, Machine.scriptCodeBytes m.subScript = .ok b) ∧
      ∃ b, Machine.scriptCodeBytes (m.subScript.legacySubscript sigs) = .ok b) ∧
    (∀ (code : Bytes) (sigs keys s k : List Bytes), sigs.length ≤ keys.length →
      Exec.ScanVisits m code sigs keys s k → s.length ≤ k.length ∧ s <:+ sigs ∧ k <:+ keys) ∧
    (∀ n (m₀ m₁ : Machine) xs, Exec.popItems n m₀ = .ok xs m₁ → xs.length = n) ∧
    (∀ c k n, Exec.countInRange? c k = some n → n ≤ k) ∧
    (∀ (sig : Bytes) off len, Signature.strictDer sig = .ok (off, len) →
      off + len = sig.length ∧ 0 < len) ∧
    (∀ (num : Bytes) size, num.length ≤ size → (Number.widen num size).length = size) ∧
    (∀ data : Bytes, (Number.minimallyEncode data).length ≤ data.length) ∧
    (∀ (data : Bytes) n, (Bytes.shiftLeft data n).length = data.length ∧
      (Bytes.shiftRight data n).length = data.length) := by
  -- the script code is a sublist of a script the run read from bytes
  have hsub := Machine.subScript_writable (Machine.reachable_scripts_writable h)
  exact ⟨Machine.reachable_counter h, fun sigs => ⟨Machine.scriptCodeBytes_ok hsub,
      Machine.scriptCodeBytes_ok (hsub.sublist (Script.legacySubscript_sublist _ sigs))⟩,
    fun _ _ _ _ _ hlen hv => hv.length_le hlen, fun _ _ _ _ => Exec.popItems_ok_length,
    fun _ _ _ => Exec.countInRange?_le, fun _ _ _ => Signature.strictDer_slice,
    fun _ _ => Number.length_widen, Number.length_minimallyEncode_le,
    fun data n => ⟨Bytes.length_shiftLeft data n, Bytes.length_shiftRight data n⟩⟩

/-- Two steps into the spend of `OP_1 OP_IF OP_1 OP_ENDIF`, inside the open block, the counter
stands on an instruction and the script code serializes. -/
theorem reachable_steps_in_bounds_ifOne :
    ∃ m₀ m₁ m₂ : Machine, Machine.new? [] [0x51, 0x63, 0x51, 0x68] ⟨0⟩ Checker.acceptAll = .ok m₀ ∧
      Exec.step m₀ = .ok false m₁ ∧ Exec.step m₁ = .ok false m₂ ∧ m₂.elseSeen = [false] ∧
      (∃ script op, m₂.scripts[m₂.idx]? = some script ∧ script[m₂.off]? = some op) ∧
      ∃ b, Machine.scriptCodeBytes m₂.subScript = .ok b := by
  obtain ⟨m₀, m₁, m₂, hnew, h₀, h₁, -, -, -, -, -, he, -, hnd⟩ := Machine.run_ifOne
  have h := reachable_steps_in_bounds (.step (.step (.setup hnew) h₀) h₁)
  rcases h.1 with ⟨-, hcur⟩ | ⟨hd, -⟩
  · exact ⟨m₀, m₁, m₂, hnew, h₀, h₁, he, hcur, (h.2.1 []).1⟩
  · rw [hnd] at hd
    cases hd

end BitcoinScript
