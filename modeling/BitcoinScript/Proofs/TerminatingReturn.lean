import BitcoinScript.Proofs.ReturnData
import BitcoinScript.Proofs.Stage

/-!
# What follows a terminating `OP_RETURN` is never run

The parser reads an `OP_RETURN` outside every `OP_IF`/`OP_NOTIF` block as the end of the script,
with all the bytes after it as its data. The machine agrees: at such an `OP_RETURN` no block is
open, and after genesis its step ends the script (`Machine.step_of_terminating_return`). So after
genesis a verification gives the same result whatever bytes follow a terminating `OP_RETURN`,
in the locking and in the unlocking script, once both fit the size limit and the checker ignores
the script code (`terminating_return_agrees_with_blocks`).

The argument runs the erased machine alongside (`Exec.Hushes`): both spends set up machines
that agree once their `OP_RETURN` data is erased, and each execution runs as the execution of
the erased machine. An execution's budget of steps counts the data bytes of the scripts, so the
two budgets differ; both exceed the instructions left, and after genesis a budget beyond those
gives the same run (`Exec.runSteps_fuel`). Where the scripts are read, a prefix read whole
(`Script.ReadsThrough`) is read the same whatever follows it, so the two spends differ only in
the data of their last `OP_RETURN` (`Script.hushEquiv_terminating_return`).
-/

set_option autoImplicit false

namespace BitcoinScript

namespace Machine

/-! ## Budgets beyond the instructions left -/

/-- The instructions at or after the counter. -/
def remaining (m : Machine) : Nat := (m.scripts.map List.length).sum - m.position

/-- A run's budget exceeds the instructions of its scripts. -/
theorem sum_lengths_lt_stepBound (m : Machine) : (m.scripts.map List.length).sum < m.stepBound := by
  have hle : (m.scripts.map List.length).sum ≤
      (m.scripts.map fun s => s.length + (s.map fun i => i.data.length).foldr (· + ·) 0).foldr
        (· + ·) 0 := by
    rw [← List.sum_eq_foldr]
    exact List.sum_le_sum fun s _ => Nat.le_add_right _ _
  unfold stepBound
  dsimp only
  omega

theorem OnTrack.relog {m : Machine} (h : m.OnTrack) (L : List Hook) :
    ({ m with log := L } : Machine).OnTrack :=
  ⟨h.staged, h.counter, h.quiet, h.settled, h.fresh⟩

variable {m m' : Machine} {done : Bool}

/-- After genesis a step keeps the scripts: only the P2SH stage adds one. -/
theorem step_ok_scripts_of_afterGenesis (hq : m.Quiet) (hg : m.afterGenesis = true)
    (h : Exec.step m = .ok done m') : m'.scripts = m.scripts := by
  obtain ⟨script, op, m₁, -, -, hex, hfin⟩ := Exec.step_ok h
  obtain ⟨-, -, hf₁, -, -⟩ := Exec.executeInstruction_frame (by exact hq) hex
  have hsc : m₁.scripts = m.scripts := congrArg Frame.scripts hf₁
  have hg₁ : m₁.afterGenesis = true :=
    (congrArg Rules.afterGenesis (congrArg Frame.rules hf₁)).trans hg
  obtain ⟨-, hmove⟩ := Exec.finishStep_ok hfin
  rcases hmove with ⟨-, -, -, rfl⟩ | ⟨o, L, -, hshift⟩
  · exact hsc
  · cases (Exec.shiftScript_ok hshift).move with
    | save _ _ hs _ _ _ => exact hs.trans hsc
    | redeem _ _ hag => simp [hg₁] at hag
    | next _ _ hs _ _ _ => exact hs.trans hsc

/-- After genesis a successful step leaves fewer instructions to run. -/
theorem remaining_step (ht : m.OnTrack) (hg : m.afterGenesis = true)
    (h : Exec.step m = .ok done m') : m'.remaining < m.remaining := by
  have hnd : m.isDone = false := by
    cases hd : m.isDone
    · rfl
    · rw [step_of_isDone hd] at h
      cases h
  have hlt := ht.position_lt hnd
  have hadv := (step_ok_advances ht.quiet h).2.2
  have hsc := step_ok_scripts_of_afterGenesis ht.quiet hg h
  unfold remaining
  rw [hsc]
  omega

/-- Erasing the data keeps every script's length. -/
theorem lengths_hush (m : Machine) :
    m.hush.scripts.map List.length = m.scripts.map List.length := by
  simp [Function.comp_def]

theorem OnTrack.hush (h : m.OnTrack) : m.hush.OnTrack := by
  refine ⟨by simpa using h.staged, fun hi => ?_, h.quiet, h.settled, h.fresh⟩
  have hi' : m.idx < m.scripts.length := by simpa using hi
  have hoff := h.counter hi'
  simp only [hush_scripts, hush_idx, hush_off, List.getD_eq_getElem?_getD, List.getElem?_map,
    List.getElem?_eq_getElem hi'] at hoff ⊢
  simpa using hoff

theorem remaining_hush (m : Machine) : m.hush.remaining = m.remaining := by
  simp only [remaining, position, lengths_hush, hush_idx, hush_off]

end Machine

namespace Exec

/-- After genesis, two budgets beyond the instructions left give the same run: the counter passes
an instruction at every step, so neither runs out. -/
theorem runSteps_fuel {m : Machine} (ht : m.OnTrack) (hg : m.afterGenesis = true) {n n' : Nat}
    (hn : m.remaining < n) (hn' : m.remaining < n') : runSteps n m = runSteps n' m := by
  induction n generalizing m n' with
  | zero => omega
  | succ n ih =>
    obtain ⟨n', rfl⟩ : ∃ k, n' = k + 1 := ⟨n' - 1, by omega⟩
    rw [runSteps_succ, runSteps_succ]
    simp only [bind, EStateM.bind]
    cases hs : step { m with log := .phase .beforeStep m.idx m.off :: m.log } with
    | error e m₁ => rfl
    | ok done m₁ =>
      -- the step passed an instruction, and the rest runs on the same scripts and rules
      have ht₀ := ht.relog (.phase .beforeStep m.idx m.off :: m.log)
      have hlt := Machine.remaining_step ht₀ hg hs
      have hrem : ({ m with log := .phase .beforeStep m.idx m.off :: m.log } : Machine).remaining =
          m.remaining := rfl
      have hg₁ : m₁.afterGenesis = true :=
        (congrArg Rules.afterGenesis (Machine.step_ok_rules ht₀.quiet hs)).trans hg
      have ht₁ := (ht₀.step hs).relog (.phase .afterStep m₁.idx m₁.off :: m₁.log)
      have hrem₁ : ({ m₁ with log := .phase .afterStep m₁.idx m₁.off :: m₁.log } : Machine).remaining =
          m₁.remaining := rfl
      simp only [notify, modify, modifyGet, MonadStateOf.modifyGet, EStateM.modifyGet]
      cases done
      · exact ih ht₁ hg₁ (by omega) (by omega)
      · rfl

/-- An execution after genesis runs as the execution of the erased machine, transcript included,
though its budget of steps counts the data it erases. -/
theorem execute_hush {m : Machine} (hm : m.Hushable) (ht : m.OnTrack) :
    execute m.hush = hushResult (execute m) := by
  have hg := hm.genesis
  have hleft : m.remaining ≤ (m.scripts.map List.length).sum := Nat.sub_le _ _
  have hbound := Machine.sum_lengths_lt_stepBound m
  have hbound' := Machine.sum_lengths_lt_stepBound m.hush
  rw [Machine.lengths_hush] at hbound'
  -- the erased machine's budget is smaller, and still beyond the instructions left
  have hfuel : (notify .beforeExecute >>= fun _ => runSteps m.hush.stepBound : Exec Unit) m.hush =
      (notify .beforeExecute >>= fun _ => runSteps m.stepBound : Exec Unit) m.hush := by
    simp only [bind, EStateM.bind, notify, modify, modifyGet, MonadStateOf.modifyGet,
      EStateM.modifyGet]
    have hn : m.hush.remaining < m.hush.stepBound := by rw [Machine.remaining_hush]; omega
    have hn' : m.hush.remaining < m.stepBound := by rw [Machine.remaining_hush]; omega
    exact runSteps_fuel (ht.hush.relog _) hg hn hn'
  have hrun := (Hushes.bind (hushes_notify .beforeExecute) fun _ =>
    hushes_runSteps m.stepBound).run m hm
  unfold execute
  dsimp only
  rw [hfuel, hrun.1]
  cases hR : (notify .beforeExecute >>= fun _ => runSteps m.stepBound : Exec Unit) m with
  | ok u m₁ =>
    rw [hR] at hrun
    exact ((Hushes.bind (hushes_notify .afterExecute) fun _ =>
      hushes_checkCondition true).run m₁ hrun.2).1
  | error e m₁ => rfl

end Exec

namespace Machine

/-- The verdict of a run after genesis is that of the erased machine. -/
theorem run_hush {m : Machine} (hm : m.Hushable) (ht : m.OnTrack) : m.hush.run.2 = m.run.2 := by
  unfold run
  rw [Exec.execute_hush hm ht]
  cases Exec.execute m <;> rfl

end Machine

/-! ## Reading up to a terminating `OP_RETURN` -/

namespace Script

/-- The bytes hold whole instructions, read from conditional depth `depth` to depth `depth'`,
none of them an `OP_RETURN` that ends the script: the boundaries of `Truncated`, up to the end. -/
inductive ReadsThrough : Nat → Bytes → Nat → Prop
  | nil {depth : Nat} : ReadsThrough depth [] depth
  | push {depth depth' : Nat} {b : UInt8} {lenBytes data rest : Bytes} :
      b ≤ 0x4e → lenBytes.length = prefixWidth b → data.length = announced b lenBytes →
      ReadsThrough depth rest depth' → ReadsThrough depth (b :: (lenBytes ++ data ++ rest)) depth'
  | op {depth depth' : Nat} {b : UInt8} {rest : Bytes} :
      0x4e < b → ¬(b = 0x6a ∧ depth = 0) → ReadsThrough (nextDepth b depth) rest depth' →
      ReadsThrough depth (b :: rest) depth'

/-- Bytes read whole are read the same whatever follows them. -/
theorem parseAt_append_of_readsThrough {depth depth' : Nat} {p : Bytes}
    (h : ReadsThrough depth p depth') :
    ∃ ps, ∀ rest, parseAt depth (p ++ rest) = (parseAt depth' rest).map (ps ++ ·) := by
  induction h with
  | nil => exact ⟨[], fun rest => by simp⟩
  | @push depth depth' b lenBytes data rest hb hlen hdata _ ih =>
    obtain ⟨ps, hps⟩ := ih
    refine ⟨Instruction.ofByte b data :: ps, fun rest' => ?_⟩
    obtain ⟨_, ht⟩ := takePush_append hlen hdata (rest ++ rest')
    rw [List.cons_append, List.append_assoc (lenBytes ++ data), parseAt, if_pos hb, ht]
    simp [hps, Function.comp_def]
  | @op depth depth' b rest hb hret _ ih =>
    obtain ⟨ps, hps⟩ := ih
    refine ⟨Instruction.ofByte b :: ps, fun rest' => ?_⟩
    rw [List.cons_append, parseAt, if_neg (UInt8.not_le.mpr hb), if_neg hret]
    simp only [nextDepth] at hps
    simp [hps, Function.comp_def]

/-- Read whole up to an `OP_RETURN` outside every block, a script ends there: the `OP_RETURN`
carries all the bytes after it. -/
theorem parse?_terminating_return {p : Bytes} (h : ReadsThrough 0 p 0) :
    ∃ ps, ∀ t, parse? (p ++ 0x6a :: t) = some (ps ++ [Instruction.ofByte 0x6a t]) := by
  obtain ⟨ps, hps⟩ := parseAt_append_of_readsThrough h
  refine ⟨ps, fun t => ?_⟩
  rw [parse?, hps, parseAt, if_neg (by decide), if_pos ⟨rfl, rfl⟩]
  rfl

/-- Every instruction read carries at most the bytes it was read from. -/
theorem data_length_le_of_parseAt {depth : Nat} {bytes : Bytes} {s : Script}
    (h : parseAt depth bytes = some s) : ∀ i ∈ s, i.data.length ≤ bytes.length := by
  fun_induction parseAt depth bytes generalizing s with
  | case1 =>
    cases h
    simp
  | case2 => cases h
  | case3 d b rest hb data rest' hr ht ih =>
    obtain ⟨s', hs', rfl⟩ := Option.map_eq_some_iff.mp h
    obtain ⟨lenBytes, rfl, -, -⟩ := takePush_split ht
    intro i hi
    rcases List.mem_cons.mp hi with rfl | hi
    · simp [Instruction.ofByte]
      omega
    · have := ih hs' i hi
      simp
      omega
  | case4 d b rest hb hret =>
    cases h
    intro i hi
    rw [List.mem_singleton.mp hi]
    simp [Instruction.ofByte]
  | case5 d b rest hb hret depth' =>
    rename_i ih
    obtain ⟨s', hs', rfl⟩ := Option.map_eq_some_iff.mp h
    intro i hi
    rcases List.mem_cons.mp hi with rfl | hi
    · simp [Instruction.ofByte]
    · have := ih hs' i hi
      simp
      omega

/-- A pay-to-script-hash script is `OP_HASH160`, a push of twenty bytes and `OP_EQUAL`. -/
theorem eq_of_isPayToScriptHash {bytes : Bytes} (h : isPayToScriptHash bytes = true) :
    ∃ d : Bytes, d.length = 20 ∧ bytes = 0xa9 :: 0x14 :: (d ++ [0x87]) := by
  simp only [isPayToScriptHash, Bool.and_eq_true, decide_eq_true_eq] at h
  obtain ⟨⟨⟨hlen, h0⟩, h1⟩, h22⟩ := h
  rcases bytes with _ | ⟨a, _ | ⟨b, rest⟩⟩
  · simp at hlen
  · simp at hlen
  simp only [List.length_cons, List.getElem?_cons_zero, List.getElem?_cons_succ,
    Option.some.injEq] at hlen h0 h1 h22
  subst h0 h1
  have hlen' : rest.length = 21 := by omega
  obtain ⟨x, hx⟩ : ∃ x, rest.drop 20 = [x] := List.length_eq_one_iff.mp (by simp [hlen'])
  have hrest : rest = rest.take 20 ++ [x] := by rw [← hx, List.take_append_drop]
  have hx' : x = 0x87 := by
    rw [hrest, List.getElem?_append_right (by simp [hlen'])] at h22
    simpa [hlen'] using h22
  subst hx'
  exact ⟨rest.take 20, by simp [hlen'], by rw [← hrest]⟩

/-- How a pay-to-script-hash script is read. -/
theorem parse?_payToScriptHash {d : Bytes} (hd : d.length = 20) :
    parse? (0xa9 :: 0x14 :: (d ++ [0x87])) =
      some [Instruction.ofByte 0xa9, Instruction.ofByte 0x14 d, Instruction.ofByte 0x87] := by
  obtain ⟨hr, ht⟩ := @takePush_append 0x14 [] d (by decide) (by rw [hd]; decide) [0x87]
  have ht' : takePush 0x14 (d ++ [0x87]) = some (d, ⟨[0x87], hr⟩) := ht
  simp [parse?, parseAt, ht']

/-- Read whole up to an `OP_RETURN` outside every block, a script is not of the
pay-to-script-hash form: it is read with an `OP_RETURN` last, where that form has `OP_EQUAL`. -/
theorem isPayToScriptHash_terminating_return {p : Bytes} (h : ReadsThrough 0 p 0) (t : Bytes) :
    isPayToScriptHash (p ++ 0x6a :: t) = false := by
  obtain ⟨ps, hps⟩ := parse?_terminating_return h
  cases hp : isPayToScriptHash (p ++ 0x6a :: t) with
  | false => rfl
  | true =>
    obtain ⟨d, hd, heq⟩ := eq_of_isPayToScriptHash hp
    have hread := parse?_payToScriptHash hd
    rw [← heq, hps t, Option.some.injEq] at hread
    have hlast := congrArg List.getLast? hread
    simp [Instruction.ofByte] at hlast

/-! ## Scripts a spend cannot tell apart -/

theorem isPushOnly_hush (s : Script) : s.hush.isPushOnly = s.isPushOnly := by
  simp [isPushOnly, hush, Function.comp_def]

theorem hush_ofByte_return (t : Bytes) :
    (Instruction.ofByte 0x6a t).hush = Instruction.ofByte 0x6a := if_pos rfl

/-- Two scripts that a spend after genesis cannot tell apart: they pass the size check alike,
are empty alike and of the pay-to-script-hash form alike, and are read alike once the data of
their `OP_RETURN`s is erased. -/
structure HushEquiv (a b : Bytes) : Prop where
  fits : (a.length ≤ Limits.afterGenesis.maxScriptSize ∧ b.length ≤ Limits.afterGenesis.maxScriptSize) ∨
    a.length = b.length
  isEmpty : a.isEmpty = b.isEmpty
  payToScriptHash : isPayToScriptHash a = isPayToScriptHash b
  parse : (parse? a).map hush = (parse? b).map hush

theorem HushEquiv.refl (a : Bytes) : HushEquiv a a := ⟨.inr rfl, rfl, rfl, rfl⟩

/-- Scripts read whole up to an `OP_RETURN` outside every block, alike before it and both within
the size limit, cannot be told apart. -/
theorem hushEquiv_terminating_return {p t t' : Bytes} (h : ReadsThrough 0 p 0)
    (hs : (p ++ 0x6a :: t).length ≤ Limits.afterGenesis.maxScriptSize)
    (hs' : (p ++ 0x6a :: t').length ≤ Limits.afterGenesis.maxScriptSize) :
    HushEquiv (p ++ 0x6a :: t) (p ++ 0x6a :: t') := by
  obtain ⟨ps, hps⟩ := parse?_terminating_return h
  refine ⟨.inl ⟨hs, hs'⟩, by cases p <;> rfl, ?_, ?_⟩
  · rw [isPayToScriptHash_terminating_return h, isPayToScriptHash_terminating_return h]
  · simp [hps, hush, hush_ofByte_return]

end Script

namespace Machine

variable {U U' L L' : Bytes} {F : Flags} {c : Checker} {m : Machine}

/-- A successful setup has both scripts within the size limit. -/
theorem new?_fits (h : new? U L F c = .ok m) :
    U.length ≤ (Limits.ofGenesis F.effective.afterGenesis).maxScriptSize ∧
      L.length ≤ (Limits.ofGenesis F.effective.afterGenesis).maxScriptSize := by
  unfold new? at h
  simp only [bind, Except.bind, pure, Except.pure, throw, throwThe, MonadExceptOf.throw] at h
  repeat' (split at h <;> try simp only [reduceCtorEq] at h)
  all_goals omega

/-- After genesis, with a checker that ignores the script code, a spend sets up a machine whose
run cannot depend on the data of its `OP_RETURN`s: no instruction carries more bytes than its
script, and the element limit is the script limit. -/
theorem new?_hushable (hg : F.afterGenesis = true) (hc : c.IgnoresCode)
    (h : new? U L F c = .ok m) : m.Hushable := by
  have hg' : F.effective.afterGenesis = true := by rw [Flags.effective_afterGenesis, hg]
  obtain ⟨hsU, hsL⟩ := new?_fits h
  obtain ⟨u, l, hu, hl, -, -, rfl⟩ := new?_ok h
  refine ⟨hg', hc, fun s hs i hi _ => ?_⟩
  show i.data.length ≤ (Limits.ofGenesis F.effective.afterGenesis).maxElementSize
  rw [hg'] at hsU hsL ⊢
  simp only [List.mem_cons, List.not_mem_nil, or_false] at hs
  rcases hs with rfl | rfl
  · exact (Script.data_length_le_of_parseAt hu i hi).trans hsU
  · exact (Script.data_length_le_of_parseAt hl i hi).trans hsL

/-- After genesis, spends whose scripts cannot be told apart set up the same machine once the
data of its `OP_RETURN`s is erased, or fail alike. -/
theorem new?_hush (hg : F.afterGenesis = true) (hU : Script.HushEquiv U U')
    (hL : Script.HushEquiv L L') : (new? U L F c).map hush = (new? U' L' F c).map hush := by
  have hg' : F.effective.afterGenesis = true := by rw [Flags.effective_afterGenesis, hg]
  -- the size checks agree: both scripts fit, or they have one length
  have hcU : U.length > Limits.afterGenesis.maxScriptSize ↔
      U'.length > Limits.afterGenesis.maxScriptSize := by
    rcases hU.fits with h | h <;> omega
  have hcL : L.length > Limits.afterGenesis.maxScriptSize ↔
      L'.length > Limits.afterGenesis.maxScriptSize := by
    rcases hL.fits with h | h <;> omega
  unfold new?
  simp only [bind, Except.bind, pure, Except.pure, throw, throwThe, MonadExceptOf.throw, hg',
    Limits.ofGenesis, ↓reduceIte, hU.isEmpty, hL.isEmpty, hL.payToScriptHash, hcU, hcL]
  split_ifs with hempty hflags hbigU hbigL
  · rfl
  · rfl
  · rw [show U.length = U'.length by rcases hU.fits with h | h <;> omega]
  · rw [show L.length = L'.length by rcases hL.fits with h | h <;> omega]
  -- both scripts fit, and they are read alike
  have hpU := hU.parse
  have hpL := hL.parse
  rcases hru : Script.parse? U with _ | u <;> rcases hru' : Script.parse? U' with _ | u' <;>
    simp only [hru, hru', Option.map_none, Option.map_some, reduceCtorEq, Option.some.injEq] at hpU
  · rfl
  rcases hrl : Script.parse? L with _ | l <;> rcases hrl' : Script.parse? L' with _ | l' <;>
    simp only [hrl, hrl', Option.map_none, Option.map_some, reduceCtorEq, Option.some.injEq] at hpL
  · rfl
  -- the checks on the unlocking script read only what the erasure keeps
  have hpush : u.isPushOnly = u'.isPushOnly := by
    rw [← Script.isPushOnly_hush, hpU, Script.isPushOnly_hush]
  have hnil : u.isEmpty = u'.isEmpty := by
    rw [← Script.isEmpty_hush, hpU, Script.isEmpty_hush]
  dsimp only
  simp only [hpush, hnil]
  split_ifs
  · rfl
  · rfl
  all_goals simp only [Except.map, hush, List.map_cons, List.map_nil, hpU, hpL]

end Machine

/-- After genesis, with a checker that ignores the script code, spends whose scripts cannot be
told apart get the same result. -/
theorem verify_result_of_hushEquiv {U U' L L' : Bytes} {F : Flags} {c : Checker}
    (hg : F.afterGenesis = true) (hc : c.IgnoresCode) (hU : Script.HushEquiv U U')
    (hL : Script.HushEquiv L L') : (verify U L F c).result = (verify U' L' F c).result := by
  have hnew : (Machine.new? U L F c).map Machine.hush = (Machine.new? U' L' F c).map Machine.hush :=
    Machine.new?_hush hg hU hL
  unfold verify
  cases h : Machine.new? U L F c with
  | error e =>
    cases h' : Machine.new? U' L' F c with
    | error e' =>
      rw [h, h'] at hnew
      simp only [Except.map, Except.error.injEq] at hnew
      rw [hnew]
    | ok m' =>
      rw [h, h'] at hnew
      simp only [Except.map, reduceCtorEq] at hnew
  | ok m =>
    cases h' : Machine.new? U' L' F c with
    | error e' =>
      rw [h, h'] at hnew
      simp only [Except.map, reduceCtorEq] at hnew
    | ok m' =>
      rw [h, h'] at hnew
      simp only [Except.map, Except.ok.injEq] at hnew
      -- each run is the run of the one erased machine
      show m.run.2 = m'.run.2
      rw [← Machine.run_hush (Machine.new?_hushable hg hc h) (Machine.new?_onTrack h), hnew,
        Machine.run_hush (Machine.new?_hushable hg hc h') (Machine.new?_onTrack h')]

/-- The parser's reading of a terminating `OP_RETURN` agrees with the machine. At every reachable
machine the open blocks are as many as the parser's depth before the current instruction; so an
`OP_RETURN` that the parser reads as the end of its script (at depth zero) finds no block open,
and after genesis its step fails only on the element or the operation limit, and otherwise ends
the script. Hence after genesis, with a checker that ignores the script code, the bytes after a
terminating `OP_RETURN` of either script of a spend, both within the size limit, do not change
the verification's result. -/
theorem terminating_return_agrees_with_blocks :
    (∀ m : Machine, m.Reachable → m.branches.length = m.parsedDepth) ∧
    (∀ (m : Machine) (op : Instruction), m.Reachable → m.current? = some op → op.value = 0x6a →
      m.parsedDepth = 0 →
      m.branches = [] ∧
      (m.afterGenesis = true →
        (∀ e m', Exec.step m = .error e m' →
          e = .elementTooBig op.data.length m.limits.maxElementSize ∨
            e = .tooManyOperations m.limits.maxOps) ∧
        (∀ done m', Exec.step m = .ok done m' →
          m'.idx = Machine.landing m.scripts (m.idx + 1) ∧ m'.off = 0 ∧ m'.branches = []))) ∧
    (∀ (F : Flags) (c : Checker) (p t t' other : Bytes), F.afterGenesis = true →
      c.IgnoresCode → Script.ReadsThrough 0 p 0 →
      (p ++ 0x6a :: t).length ≤ Limits.afterGenesis.maxScriptSize →
      (p ++ 0x6a :: t').length ≤ Limits.afterGenesis.maxScriptSize →
      (verify other (p ++ 0x6a :: t) F c).result = (verify other (p ++ 0x6a :: t') F c).result ∧
      (verify (p ++ 0x6a :: t) other F c).result = (verify (p ++ 0x6a :: t') other F c).result) := by
  refine ⟨fun m h => Machine.reachable_branches_length h, fun m op h hcur hv hd => ?_, ?_⟩
  · exact ⟨Machine.branches_eq_nil_of_parsedDepth h hd,
      fun hg => (Machine.step_of_terminating_return h hcur hv hd hg).2⟩
  · intro F c p t t' other hg hc hp hs hs'
    have heq := Script.hushEquiv_terminating_return hp hs hs'
    exact ⟨verify_result_of_hushEquiv hg hc (.refl other) heq,
      verify_result_of_hushEquiv hg hc heq (.refl other)⟩

/-- After genesis, a spend locked by `OP_RETURN` with one data byte starts on that `OP_RETURN`
with no block open; and two locking scripts `OP_1 OP_RETURN` that differ after the `OP_RETURN`
give the same result. -/
theorem terminating_return_agrees_with_blocks_returnOne :
    ∃ m, Machine.new? [] [0x6a, 0x01] ⟨32768⟩ Checker.acceptAll = .ok m ∧ m.branches = [] ∧
      (verify [] [0x51, 0x6a, 0x01] ⟨32768⟩ Checker.acceptAll).result =
        (verify [] [0x51, 0x6a, 0x02, 0x03] ⟨32768⟩ Checker.acceptAll).result := by
  have hu : Script.parse? [] = some [] := by simp [Script.parse?, Script.parseAt]
  have hl : Script.parse? [0x6a, 0x01] = some [Instruction.ofByte 0x6a [0x01]] := by
    simp [Script.parse?, Script.parseAt]
  obtain ⟨m, hnew⟩ : ∃ m, Machine.new? [] [0x6a, 0x01] ⟨32768⟩ Checker.acceptAll = .ok m := by
    simp only [Machine.new?, hu, hl]
    exact ⟨_, rfl⟩
  obtain ⟨u, l, hu', hl', -, -, rfl⟩ := Machine.new?_ok hnew
  rw [hu, Option.some.injEq] at hu'
  rw [hl, Option.some.injEq] at hl'
  subst hu' hl'
  have h := terminating_return_agrees_with_blocks
  refine ⟨_, hnew, (h.2.1 _ (Instruction.ofByte 0x6a [0x01]) (.setup hnew) rfl rfl rfl).1, ?_⟩
  exact (h.2.2 ⟨32768⟩ Checker.acceptAll [0x51] [0x01] [0x02, 0x03] [] rfl
    Checker.acceptAll_ignoresCode (.op (by decide) (by decide) .nil) (by decide) (by decide)).1

end BitcoinScript
