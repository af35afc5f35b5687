import BitcoinScript.Proofs.BlockDepth

/-!
# Runs never read the data of an `OP_RETURN`

A terminating `OP_RETURN` keeps every byte after it as its data. After genesis the machine reads
that data in two places only: the element-size gate in front of the opcode, which data within the
element limit passes, and the script code a signature commits to, which only the checker reads.
So a run does not depend on the data at all once the checker ignores the script code.

`Machine.hush` erases the data of every `OP_RETURN` in the scripts, and `Exec.Hushes x y` says
that `y` runs on the erased machine as `x` runs on the machine itself, transcript included,
from every machine that is `Machine.Hushable`: after genesis, with such a checker and with every
`OP_RETURN`'s data within the element limit. The rules below build it through `bind`, `get`,
`set`, `if` and the stack primitives, like the other simulations of this library, so that the
fact for an opcode is a walk over its `do` block. Only the two signature checks need more: the
script code they write back differs, but it is written back alike (`Machine.scriptCodeBytes_hush`)
and the checker does not look at it. A step runs alike on the erased machine (`hushes_step`),
and so do the steps of a run (`hushes_runSteps`).
-/

set_option autoImplicit false

namespace BitcoinScript

/-- A checker whose answer never depends on the script code it is handed. -/
def Checker.IgnoresCode (c : Checker) : Prop :=
  ∀ sig key code hashType flags,
    c.checkSig sig key code hashType flags = c.checkSig sig key [] hashType flags

theorem Checker.acceptAll_ignoresCode : Checker.acceptAll.IgnoresCode := fun _ _ _ _ _ => rfl

namespace Instruction

/-- The instruction with the data of an `OP_RETURN` dropped. -/
def hush (i : Instruction) : Instruction := if i.value = 0x6a then { i with data := [] } else i

variable (i : Instruction)

@[simp] theorem hush_opcode : i.hush.opcode = i.opcode := by
  unfold hush
  split <;> rfl

@[simp] theorem hush_value : i.hush.value = i.value := congrArg Opcode.value (hush_opcode i)

theorem hush_of_ne {i : Instruction} (h : i.value ≠ 0x6a) : i.hush = i := if_neg h

/-- No `OP_RETURN` is a canonical push, with its data or without. -/
theorem isCanonicalPush_of_return {i : Instruction} (h : i.value = 0x6a) :
    i.isCanonicalPush = false := by
  unfold isCanonicalPush
  rw [h]
  rfl

/-- An `OP_RETURN` is written back whatever data it holds. -/
theorem fitsLength_hush : i.hush.fitsLength = i.fitsLength := by
  by_cases h : i.value = 0x6a
  · rw [(Script.encode_return h).1, (Script.encode_return ((hush_value i).trans h)).1]
  · rw [hush_of_ne h]

end Instruction

namespace Script

/-- The script with the data of every `OP_RETURN` dropped. -/
def hush (s : Script) : Script := s.map Instruction.hush

variable (s : Script)

@[simp] theorem length_hush : s.hush.length = s.length := List.length_map _

@[simp] theorem isEmpty_hush : s.hush.isEmpty = s.isEmpty := by
  cases s <;> rfl

theorem hush_drop (k : Nat) : hush (s.drop k) = s.hush.drop k := List.map_drop ..

theorem removeOpcode_hush (v : UInt8) : s.hush.removeOpcode v = (s.removeOpcode v).hush := by
  simp [removeOpcode, hush, List.filter_map, Function.comp_def]

/-- Removing a pushed signature keeps every `OP_RETURN`, so it commutes with erasing their
data. -/
theorem removeData_hush (data : Bytes) : s.hush.removeData data = (s.removeData data).hush := by
  unfold removeData
  split
  · rfl
  · have hkeep : ∀ i : Instruction, (!(i.hush.isCanonicalPush && i.hush.data == data)) =
        !(i.isCanonicalPush && i.data == data) := fun i => by
      by_cases h : i.value = 0x6a
      · rw [Instruction.isCanonicalPush_of_return h,
          Instruction.isCanonicalPush_of_return ((Instruction.hush_value i).trans h)]
        rfl
      · rw [Instruction.hush_of_ne h]
    simp only [hush, List.filter_map]
    congr 1
    exact List.filter_congr fun i _ => hkeep i

theorem legacySubscript_hush (sigs : List Bytes) :
    s.hush.legacySubscript sigs = (s.legacySubscript sigs).hush := by
  unfold legacySubscript
  rw [removeOpcode_hush]
  -- the signatures are removed one after another, from any script
  generalize s.removeOpcode 0xab = t
  induction sigs generalizing t with
  | nil => rfl
  | cons sig sigs ih => simp only [List.foldl_cons, removeData_hush, ih]

/-- A script is written back exactly when it is with its `OP_RETURN` data erased, and refused
for the same instruction. -/
theorem unparse?_hush :
    (unparse? s.hush).map (fun _ => ()) = (unparse? s).map (fun _ => ()) := by
  induction s with
  | nil => rfl
  | cons i rest ih =>
    simp only [hush, List.map_cons] at ih ⊢
    rw [unparse?, unparse?, Instruction.fitsLength_hush]
    split
    · cases h : unparse? rest with
      | error e =>
        rw [h] at ih
        cases h' : unparse? (rest.map Instruction.hush) with
        | error e' =>
          rw [h'] at ih
          simpa [Except.map] using ih
        | ok b' =>
          rw [h'] at ih
          cases ih
      | ok b =>
        rw [h] at ih
        cases h' : unparse? (rest.map Instruction.hush) with
        | error e' =>
          rw [h'] at ih
          cases ih
        | ok b' => rfl
    · -- an instruction that does not fit is no `OP_RETURN`, so erasing kept it
      rename_i hfit
      have hv : i.value ≠ 0x6a := fun hv => by
        rw [(encode_return hv).1] at hfit
        exact hfit rfl
      rw [Instruction.hush_of_ne hv]

end Script

namespace Machine

/-- The machine with the data of every `OP_RETURN` in its scripts erased. -/
def hush (m : Machine) : Machine := { m with scripts := m.scripts.map Script.hush }

/-- Rules and scripts whose run cannot depend on the data of an `OP_RETURN`: after genesis, with a
checker that ignores the script code, and with the data of every `OP_RETURN` within the element
limit. -/
structure ReturnBlind (r : Rules) (scripts : List Script) : Prop where
  afterGenesis : r.afterGenesis = true
  checker : r.checker.IgnoresCode
  returns : ∀ s ∈ scripts, ∀ i ∈ s, i.value = 0x6a → i.data.length ≤ r.limits.maxElementSize

/-- A machine whose run cannot depend on the data of its `OP_RETURN`s. It reads the rules and the
scripts only, so every write of the other fields keeps it. -/
def Hushable (m : Machine) : Prop := ReturnBlind m.rules m.scripts

theorem Hushable.genesis {m : Machine} (h : m.Hushable) : m.afterGenesis = true :=
  ReturnBlind.afterGenesis h

section Hush

variable (m : Machine)

@[simp] theorem hush_scripts : m.hush.scripts = m.scripts.map Script.hush := rfl
@[simp] theorem hush_flags : m.hush.flags = m.flags := rfl
@[simp] theorem hush_idx : m.hush.idx = m.idx := rfl
@[simp] theorem hush_off : m.hush.off = m.off := rfl
@[simp] theorem hush_isDone : m.hush.isDone = m.isDone := by simp [hush, isDone]
@[simp] theorem hush_verifySignature : m.hush.verifySignature = m.verifySignature := rfl

theorem hush_subScript : m.hush.subScript = m.subScript.hush := by
  simp only [subScript, hush, List.getElem?_map]
  cases m.scripts[m.idx]? with
  | none => rfl
  | some s => exact (Script.hush_drop s _).symm

/-- The erased machine stands on the erased instruction. -/
theorem current?_hush : m.hush.current? = m.current?.map Instruction.hush := by
  simp only [current?, hush_scripts, hush_idx, hush_off, List.getElem?_map]
  cases m.scripts[m.idx]? with
  | none => rfl
  | some s => simp [Script.hush, List.getElem?_map]

@[simp] theorem matchSignatures_hush (code : Bytes) (sigs keys : List Bytes) :
    Exec.matchSignatures m.hush code sigs keys = Exec.matchSignatures m code sigs keys :=
  Exec.matchSignatures_congr (fun _ _ => by rw [hush_verifySignature]) sigs keys

variable {m}

/-- With a checker that ignores the script code, a signature check does not depend on it. -/
theorem verifySignature_code (hc : m.checker.IgnoresCode) (sig key code : Bytes) :
    m.verifySignature sig key code = m.verifySignature sig key [] := by
  have hcode : ∀ s k t f, m.checker.checkSig s k code t f = m.checker.checkSig s k [] t f :=
    fun s k => hc s k code
  simp only [verifySignature, hcode]

theorem matchSignatures_code (hc : m.checker.IgnoresCode) (code : Bytes) (sigs keys : List Bytes) :
    Exec.matchSignatures m code sigs keys = Exec.matchSignatures m [] sigs keys :=
  Exec.matchSignatures_congr (fun sig key => verifySignature_code hc sig key code) sigs keys

end Hush

/-- The skip of an empty script reads only whether it is empty, which erasing keeps. -/
@[simp] theorem getElem?_hush_isEmpty (ss : List Script) (i : Nat) :
    (ss.map Script.hush)[i]?.map List.isEmpty = ss[i]?.map List.isEmpty := by
  simp [Option.map_map, Function.comp_def]

/-- A script code is written back exactly when it is with its `OP_RETURN` data erased, and
refused with the same error. -/
theorem scriptCodeBytes_hush (s : Script) :
    (scriptCodeBytes s.hush).map (fun _ => ()) = (scriptCodeBytes s).map (fun _ => ()) := by
  have h := Script.unparse?_hush s
  unfold scriptCodeBytes
  cases hs : Script.unparse? s <;> cases hh : Script.unparse? s.hush <;>
    simp_all [Except.map]

end Machine

namespace Exec

/-- A result with its machine's `OP_RETURN` data erased. -/
def hushResult {α : Type} :
    EStateM.Result ScriptError Machine α → EStateM.Result ScriptError Machine α
  | .ok a m => .ok a m.hush
  | .error e m => .error e m.hush

/-- `y` runs on a machine with its `OP_RETURN` data erased as `x` runs on the machine itself,
from every machine whose run cannot depend on that data, and `x` ends in such a machine. -/
structure Hushes {α : Type} (x y : Exec α) : Prop where
  run : ∀ m, m.Hushable → y m.hush = hushResult (x m) ∧ (finalOf (x m)).Hushable

section Rules

variable {α β : Type}

theorem Hushes.pure (a : α) : Hushes (pure a) (pure a) := ⟨fun _ hm => ⟨rfl, hm⟩⟩

theorem Hushes.throw (e : ScriptError) : Hushes (throw e : Exec α) (throw e) :=
  ⟨fun _ hm => ⟨rfl, hm⟩⟩

theorem Hushes.bind {x y : Exec α} {f g : α → Exec β} (hx : Hushes x y)
    (hf : ∀ a, Hushes (f a) (g a)) : Hushes (x >>= f) (y >>= g) := by
  refine ⟨fun m hm => ?_⟩
  show EStateM.bind y g m.hush = hushResult (EStateM.bind x f m) ∧
    (finalOf (EStateM.bind x f m)).Hushable
  obtain ⟨hrun, hfinal⟩ := hx.run m hm
  unfold EStateM.bind
  rw [hrun]
  cases hxm : x m with
  | ok a m₁ =>
    rw [hxm] at hfinal
    exact (hf a).run m₁ hfinal
  | error e m₁ =>
    rw [hxm] at hfinal
    exact ⟨rfl, hfinal⟩

/-- The rule for `let m ← get`: the second continuation reads the erased machine, and the first
may use that the machine read is hushable. -/
theorem Hushes.get_bind {k k' : Machine → Exec α}
    (hk : ∀ m, m.Hushable → Hushes (k m) (k' m.hush)) : Hushes (get >>= k) (get >>= k') :=
  ⟨fun m hm => (hk m hm).run m hm⟩

theorem Hushes.set {s s' : Machine} (h : s' = s.hush) (hs : s.Hushable) :
    Hushes (set s : Exec PUnit) (set s') :=
  ⟨fun _ _ => by rw [h]; exact ⟨rfl, hs⟩⟩

theorem Hushes.modify {f g : Machine → Machine}
    (h : ∀ m, m.Hushable → g m.hush = (f m).hush ∧ (f m).Hushable) :
    Hushes (modify f : Exec PUnit) (modify g) :=
  ⟨fun m hm => by rw [modify_run, modify_run, (h m hm).1]; exact ⟨rfl, (h m hm).2⟩⟩

/-- The two conditions may be decided by different instances, as when one was read off the
erased machine. -/
theorem Hushes.ite {c : Prop} {i₁ i₂ : Decidable c} {x y x' y' : Exec α} (hx : Hushes x x')
    (hy : Hushes y y') : Hushes (@ite _ c i₁ x y) (@ite _ c i₂ x' y') := by
  by_cases h : c
  · rw [if_pos h, if_pos h]
    exact hx
  · rw [if_neg h, if_neg h]
    exact hy

/-- A branch that the machine read rules out. -/
theorem hushes_ite_neg {c : Prop} {i₁ i₂ : Decidable c} {x y x' y' : Exec α} (hc : ¬c)
    (hy : Hushes y y') : Hushes (@ite _ c i₁ x y) (@ite _ c i₂ x' y') := by
  rw [if_neg hc, if_neg hc]
  exact hy

/-- A check that fails or passes alike on both sides, whatever it returns. -/
theorem Hushes.lift_bind {x x' : Except ScriptError β} {f g : β → Exec α}
    (hx : x'.map (fun _ => ()) = x.map (fun _ => ())) (hf : ∀ b b', Hushes (f b) (g b')) :
    Hushes (lift x >>= f) (lift x' >>= g) := by
  cases x with
  | error e =>
    cases x' with
    | error e' =>
      obtain rfl : e' = e := by simpa [Except.map] using hx
      exact ⟨fun _ hm => ⟨rfl, hm⟩⟩
    | ok b' => simp [Except.map] at hx
  | ok b =>
    cases x' with
    | error e' => simp [Except.map] at hx
    | ok b' => exact ⟨fun m hm => (hf b b').run m hm⟩

end Rules

section Primitives

variable {α : Type}

theorem hushes_lift (e : Except ScriptError α) : Hushes (lift e) (lift e) := by
  cases e
  · exact Hushes.throw _
  · exact Hushes.pure _

theorem hushes_onData (op : StackM α) : Hushes (onData op) (onData op) := by
  refine ⟨fun m hm => ?_⟩
  unfold onData
  dsimp only [Machine.hush]
  cases op { m.dstack with events := [] } with
  | ok a s => exact ⟨rfl, hm⟩
  | error e s => exact ⟨rfl, hm⟩

theorem hushes_onAlt (op : StackM α) : Hushes (onAlt op) (onAlt op) := by
  refine ⟨fun m hm => ?_⟩
  unfold onAlt
  dsimp only [Machine.hush]
  cases op m.astack with
  | ok a s => exact ⟨rfl, hm⟩
  | error e s => exact ⟨rfl, hm⟩

theorem hushes_notify (p : Phase) : Hushes (notify p) (notify p) :=
  Hushes.modify fun _ hm => ⟨rfl, hm⟩

theorem hushes_popItems (n : Nat) : Hushes (popItems n) (popItems n) := by
  induction n with
  | zero => exact Hushes.pure _
  | succ n ih =>
    exact Hushes.bind (hushes_onData _) fun _ => Hushes.bind ih fun _ => Hushes.pure _

end Primitives

/-! ## The signature checks -/

/-- `OP_CHECKSIG` hands the checker a script code with the `OP_RETURN` data erased, which it does
not read. -/
theorem hushes_checkSig : Hushes checkSig checkSig := by
  unfold checkSig
  refine Hushes.bind (hushes_onData _) fun key => Hushes.bind (hushes_onData _) fun sig => ?_
  refine Hushes.get_bind fun m hm => ?_
  -- the script code of the erased machine is the script code, erased
  have hcode : (if Signature.usesForkId sig m.hush.flags = true then m.hush.subScript
      else m.hush.subScript.legacySubscript [sig]) =
      Script.hush (if Signature.usesForkId sig m.flags = true then m.subScript
        else m.subScript.legacySubscript [sig]) := by
    rw [Machine.hush_flags, Machine.hush_subScript, Script.legacySubscript_hush]
    split <;> rfl
  dsimp only
  rw [hcode]
  refine Hushes.lift_bind (Machine.scriptCodeBytes_hush _) fun b b' => ?_
  rw [Machine.hush_verifySignature, Machine.verifySignature_code hm.checker sig key b',
    Machine.verifySignature_code hm.checker sig key b]
  exact Hushes.bind (hushes_lift _) fun _ => Hushes.ite (Hushes.throw _) (Hushes.pure _)

/-- `OP_CHECKMULTISIG` likewise: its keys and signatures come off the stack alike, and the scan
asks a checker that does not read the script code. -/
theorem hushes_checkMultiSig : Hushes checkMultiSig checkMultiSig := by
  unfold checkMultiSig
  repeat' first
    | exact hushes_onData _
    | exact hushes_lift _
    | exact hushes_popItems _
    | with_reducible exact Hushes.pure _
    | with_reducible exact Hushes.throw _
    | (apply Hushes.set rfl; assumption)
    | (apply Hushes.lift_bind (Machine.scriptCodeBytes_hush _); intro _ _)
    | (with_reducible apply Hushes.get_bind; intro _ hm
       try simp only [Machine.hush_subScript, Machine.matchSignatures_hush,
         Machine.matchSignatures_code hm.checker]
       dsimp only [Machine.hush]
       try simp only [Script.legacySubscript_hush])
    | with_reducible apply Hushes.bind
    | intro _
    | apply Hushes.ite
    | split

/-! ## Opcodes, gates and checks -/

/-- Every opcode runs alike on the erased machine: its `do` block reads the scripts only through
the script code of the two signature checks. -/
theorem hushes_perform (op : Instruction) : Hushes (perform op) (perform op) := by
  unfold perform binary compare bitwise shift hashTop popIndex lockTimeIsNop openBranch
    flipBranch closeBranch popCondition
  split
  all_goals repeat' first
    | exact hushes_onData _
    | exact hushes_onAlt _
    | exact hushes_lift _
    | with_reducible exact hushes_checkSig
    | with_reducible exact hushes_checkMultiSig
    | with_reducible exact Hushes.pure _
    | with_reducible exact Hushes.throw _
    | (apply Hushes.set rfl; assumption)
    | (with_reducible apply Hushes.get_bind; intro _ _; dsimp only [Machine.hush])
    | with_reducible apply Hushes.bind
    | (apply Hushes.modify; intro _ hm; exact ⟨rfl, hm⟩)
    | intro _
    | apply Hushes.ite
    | split

theorem hushes_executeInstruction (op : Instruction) :
    Hushes (executeInstruction op) (executeInstruction op) := by
  unfold executeInstruction
  repeat' first
    | with_reducible exact hushes_perform op
    | with_reducible exact Hushes.pure _
    | with_reducible exact Hushes.throw _
    | (with_reducible apply Hushes.get_bind; intro _ _; dsimp only [Machine.hush])
    | with_reducible apply Hushes.bind
    | (apply Hushes.set rfl; assumption)
    | intro _
    | apply Hushes.ite

theorem hushes_checkCondition (final : Bool) :
    Hushes (checkCondition final) (checkCondition final) := by
  unfold checkCondition
  repeat' first
    | exact hushes_onData _
    | with_reducible exact Hushes.pure _
    | with_reducible exact Hushes.throw _
    | (with_reducible apply Hushes.get_bind; intro _ _; simp only [Machine.hush_isDone];
       dsimp only [Machine.hush])
    | with_reducible apply Hushes.bind
    | intro _
    | apply Hushes.ite

/-- A script change runs alike on the erased machine: after genesis it has no P2SH stage, the one
place where it would read a new script, and the skip of an empty script reads only emptiness. -/
theorem hushes_shiftScript : Hushes shiftScript shiftScript := by
  unfold shiftScript
  repeat' first
    | exact hushes_notify _
    | with_reducible exact Hushes.pure _
    | with_reducible exact Hushes.throw _
    | (apply Hushes.modify; intro _ hm; exact ⟨rfl, hm⟩)
    | (apply Hushes.set rfl; assumption)
    | (with_reducible apply Hushes.get_bind; intro _ hm
       have hg := hm.genesis
       dsimp only [Machine.hush]
       try simp only [Machine.getElem?_hush_isEmpty])
    -- after genesis there is no P2SH stage
    | (refine hushes_ite_neg ?_ ?_; focus (simp [hg]; done))
    | with_reducible apply Hushes.bind
    | intro _
    | apply Hushes.ite

/-- The end of a step reads the script it ran only for its length, which erasing keeps. -/
theorem finishStep_hush (script : Script) : finishStep script.hush = finishStep script := by
  simp only [finishStep, Script.length_hush]

theorem hushes_finishStep (script : Script) : Hushes (finishStep script) (finishStep script) := by
  unfold finishStep
  repeat' first
    | exact hushes_notify _
    | exact hushes_shiftScript
    | with_reducible exact Hushes.pure _
    | with_reducible exact Hushes.throw _
    | (apply Hushes.set rfl; assumption)
    | (with_reducible apply Hushes.get_bind; intro _ _; try simp only [Machine.hush_isDone]
       try dsimp only [Machine.hush])
    | with_reducible apply Hushes.bind
    | intro _
    | apply Hushes.ite

/-- An `OP_RETURN` whose data passes the element-size gate runs as it does without its data: the
gate is the one place that reads it. -/
theorem executeInstruction_hush {op : Instruction} (m : Machine)
    (h : op.value = 0x6a → op.data.length ≤ m.limits.maxElementSize) :
    executeInstruction op.hush m = executeInstruction op m := by
  by_cases hv : op.value = 0x6a
  case neg => rw [Instruction.hush_of_ne hv]
  case pos =>
    obtain ⟨⟨v⟩, data⟩ := op
    obtain rfl : v = 0x6a := hv
    have hgate : ¬ data.length > m.limits.maxElementSize := Nat.not_lt.mpr (h rfl)
    have hh : Instruction.hush ⟨⟨0x6a⟩, data⟩ = ⟨⟨0x6a⟩, []⟩ := if_pos rfl
    have hperform : ∀ d, perform ⟨⟨0x6a⟩, d⟩ = perform ⟨⟨0x6a⟩, []⟩ := fun d => by
      simp only [perform, Opcode.operation_return]
    rw [hh]
    simp only [executeInstruction, hperform, bind, EStateM.bind, get, getThe, MonadStateOf.get,
      EStateM.get, run_ite, hgate, List.length_nil, Nat.not_lt_zero, if_false]
    -- past the gate the data is read only by the minimal-push check, which skips `OP_RETURN`
    simp [Opcode.isDataPush, Instruction.name, Machine.shouldExec, Instruction.value]

/-- A step runs alike on the erased machine: it fetches the erased instruction, whose data, if
any, passed the gate on the machine itself. -/
theorem hushes_step : Hushes step step := by
  refine ⟨fun m hm => ?_⟩
  cases hcur : m.current? with
  | none =>
    have hcur' : m.hush.current? = none := by rw [Machine.current?_hush, hcur]; rfl
    rw [step_of_current?_eq_none hcur, step_of_current?_eq_none hcur']
    exact ⟨rfl, hm⟩
  | some op =>
    obtain ⟨script, hs, ho⟩ := Option.bind_eq_some_iff.mp hcur
    have hs' : m.hush.scripts[m.hush.idx]? = some script.hush := by
      rw [Machine.hush_scripts, Machine.hush_idx, List.getElem?_map, hs]
      rfl
    have ho' : script.hush[m.hush.off]? = some op.hush := by
      rw [Machine.hush_off, Script.hush, List.getElem?_map, ho]
      rfl
    -- the data of an `OP_RETURN` of the scripts passes the gate
    have hfit : op.value = 0x6a → op.data.length ≤ m.limits.maxElementSize :=
      Machine.ReturnBlind.returns hm script (List.mem_of_getElem? hs) op (List.mem_of_getElem? ho)
    have hrun := (Hushes.bind (hushes_executeInstruction op) fun _ =>
      hushes_finishStep script).run { m with log := .phase .beforeOp m.idx m.off :: m.log } hm
    have hsame : (executeInstruction op.hush >>= fun _ => finishStep script.hush)
        { m.hush with log := .phase .beforeOp m.hush.idx m.hush.off :: m.hush.log } =
        (executeInstruction op >>= fun _ => finishStep script)
        { m.hush with log := .phase .beforeOp m.hush.idx m.hush.off :: m.hush.log } := by
      simp only [bind, EStateM.bind, finishStep_hush, executeInstruction_hush
        { m.hush with log := .phase .beforeOp m.hush.idx m.hush.off :: m.hush.log } hfit]
    rw [step_of_current hs ho, step_of_current hs' ho', hsame]
    exact hrun

theorem hushes_runSteps (fuel : Nat) : Hushes (runSteps fuel) (runSteps fuel) := by
  induction fuel with
  | zero => exact Hushes.pure _
  | succ fuel ih =>
    exact Hushes.bind (hushes_notify _) fun _ => Hushes.bind hushes_step fun _ =>
    Hushes.bind (hushes_notify _) fun _ => Hushes.ite ih (Hushes.pure _)

end Exec

end BitcoinScript
