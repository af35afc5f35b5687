import BitcoinScript.Proofs.NumberResize

/-!
# Truthiness and numeric zero

A stack item is read as a truth value by a byte scan (`castToBool`: false for zero bytes,
possibly ending in a bare sign byte) and as a number by the sign-magnitude codec. The two
readings agree: an item is false exactly when the number it denotes is zero
(`castToBool_eq_false_iff_value_eq_zero`), and those items are the positive and negative zeros of
every length (`castToBool_eq_false_iff_zero`). The opcodes that test truth (`OP_IF`, `OP_VERIFY`,
the final check) read items through `castToBool`; those that compare numbers with zero
(`OP_NOT`, `OP_0NOTEQUAL`, `OP_BOOLAND`) therefore push the truth of their operands on every item
that reads as a number (`not_run`, `nonZero_run`, `boolAnd_run`), and a pushed truth value reads
back as itself (`castToBool_boolItem`).
-/

set_option autoImplicit false

namespace BitcoinScript

namespace Bytes

/-- A little-endian magnitude is zero exactly when every byte is. -/
theorem leValue_eq_zero_iff (b : Bytes) : leValue b = 0 ↔ ∀ x ∈ b, x = 0 := by
  induction b with
  | nil => simp
  | cons x b ih =>
    have hx : x.toNat = 0 ↔ x = 0 := by
      rw [← UInt8.toNat_inj]
      simp
    rw [leValue_cons, List.forall_mem_cons, ← ih, ← hx]
    omega

end Bytes

/-- The item a truth value is pushed as: `[1]` for true, the empty string for false. -/
def boolItem (b : Bool) : Bytes := if b then [1] else []

/-- A byte has no magnitude bits exactly when it is zero or a bare sign. -/
theorem low_clear_iff : ∀ x : UInt8, x &&& 0x7f = 0 ↔ (x = 0 ∨ x = 0x80) := by decide +kernel

theorem castToBool_concat_eq_false_iff (init : Bytes) (last : UInt8) :
    castToBool (init ++ [last]) = false ↔ (∀ x ∈ init, x = 0) ∧ (last = 0 ∨ last = 0x80) := by
  simp only [castToBool, List.getLast?_concat, List.dropLast_concat, Bool.or_eq_false_iff,
    List.any_eq_false, decide_eq_true_eq, Decidable.not_not, Bool.and_eq_false_iff,
    decide_eq_false_iff_not]

theorem value_concat_eq_zero_iff (init : Bytes) (last : UInt8) :
    Number.value (init ++ [last]) = 0 ↔ (∀ x ∈ init, x = 0) ∧ last &&& 0x7f = 0 := by
  have hmag : Bytes.leValue (init ++ [last &&& 0x7f]) = 0 ↔
      (∀ x ∈ init, x = 0) ∧ last &&& 0x7f = 0 := by
    rw [Bytes.leValue_eq_zero_iff, List.forall_mem_append, List.forall_mem_singleton]
  rw [Number.value_concat, ← hmag]
  split <;> omega

/-- An item is false exactly when the number it denotes is zero. -/
theorem castToBool_eq_false_iff_value_eq_zero (d : Bytes) :
    castToBool d = false ↔ Number.value d = 0 := by
  rcases List.eq_nil_or_concat d with rfl | ⟨init, last, rfl⟩
  · exact ⟨fun _ => Number.value_nil, fun _ => rfl⟩
  · rw [List.concat_eq_append, castToBool_concat_eq_false_iff, value_concat_eq_zero_iff,
      low_clear_iff]

/-- The false items are the zeros: zero bytes, possibly followed by a bare sign byte. -/
theorem castToBool_eq_false_iff_zero (d : Bytes) :
    castToBool d = false ↔ ∃ k, d = List.replicate k 0 ∨ d = List.replicate k 0 ++ [0x80] := by
  rcases List.eq_nil_or_concat d with rfl | ⟨init, last, rfl⟩
  · exact ⟨fun _ => ⟨0, .inl rfl⟩, fun _ => rfl⟩
  rw [List.concat_eq_append, castToBool_concat_eq_false_iff]
  constructor
  · rintro ⟨hinit, rfl | rfl⟩
    · -- the zero byte extends the run of zeros
      refine ⟨init.length + 1, .inl ?_⟩
      rw [List.replicate_succ', ← List.eq_replicate_iff.mpr ⟨rfl, hinit⟩]
    · exact ⟨init.length, .inr (by rw [← List.eq_replicate_iff.mpr ⟨rfl, hinit⟩])⟩
  · rintro ⟨k, hzeros | hsign⟩
    · -- a run of zeros ends in a zero byte
      cases k with
      | zero => simp at hzeros
      | succ k =>
        rw [List.replicate_succ'] at hzeros
        obtain ⟨rfl, hlast⟩ := List.append_inj' hzeros rfl
        exact ⟨fun x hx => List.eq_of_mem_replicate hx, .inl (List.singleton_inj.mp hlast)⟩
    · obtain ⟨rfl, hlast⟩ := List.append_inj' hsign rfl
      exact ⟨fun x hx => List.eq_of_mem_replicate hx, .inr (List.singleton_inj.mp hlast)⟩

/-- Read with no minimality required and its own length as the bound, an item is the number it
denotes. -/
theorem decode?_own_length (d : Bytes) :
    Number.decode? d false d.length = .ok (Number.value d) := by
  simp [Number.decode?]

/-- An item that reads as a number, under any rule, is true exactly when the number is not
zero. -/
theorem castToBool_of_decode? {d : Bytes} {requireMinimal : Bool} {maxSize : Nat} {n : Int}
    (h : Number.decode? d requireMinimal maxSize = .ok n) : castToBool d = (n != 0) := by
  obtain ⟨-, -, rfl⟩ := Number.decode?_eq_ok_iff.mp h
  cases hb : castToBool d with
  | false => simp [(castToBool_eq_false_iff_value_eq_zero d).mp hb]
  | true =>
    have hne : Number.value d ≠ 0 := fun h0 => by
      rw [(castToBool_eq_false_iff_value_eq_zero d).mpr h0] at hb
      cases hb
    simp [hne]

/-- A pushed truth value reads back as itself. -/
theorem castToBool_boolItem (b : Bool) : castToBool (boolItem b) = b := by
  cases b <;> rfl

namespace Stack

/-- Pushing a truth value and reading the top gives it back, and popping it leaves the items as
they were. -/
theorem pushBool_then_read (b : Bool) (s : Stack) :
    (∃ s', (do pushBool b; peekBool : StackM Bool) s = .ok b s') ∧
      ∃ s', (do pushBool b; popBool : StackM Bool) s = .ok b s' ∧ s'.items = s.items := by
  cases b <;> exact ⟨⟨_, rfl⟩, _, rfl, rfl⟩

end Stack

namespace Exec

variable {m : Machine}

theorem pushBool_eq_push (b : Bool) : pushBool b = push (boolItem b) := rfl

/-- On an item that reads as a number, popping it and pushing a truth value of that number
replaces the item by the truth value's item, nothing else changing but the transcript. -/
theorem popNum_pushBool_run (f : Int → Bool) {d : Bytes} {rest : List Bytes} {n : Int}
    (hstack : m.dstack.items = d :: rest)
    (hn : Number.decode? d m.dstack.minimal m.dstack.maxNumLen = .ok n) :
    ∃ m', (popNum >>= fun n => pushBool (f n)) m = .ok () m' ∧
      m' = { m with
        dstack := { m.dstack with items := boolItem (f n) :: rest, events := [] }
        log := m'.log } := by
  obtain ⟨m₁, h₁, hm₁⟩ := onData_popNum_run hstack hn
  have h₁' : popNum m = .ok n m₁ := h₁
  obtain ⟨m₂, h₂, hm₂⟩ := push_run (boolItem (f n)) m₁
  refine ⟨m₂, by rw [bind_run_of_ok h₁', pushBool_eq_push, h₂], ?_⟩
  rw [hm₂, hm₁]

/-- On two items that read as numbers, a comparison pops both and pushes the truth value of
`f a b`, where `b` was on top. -/
theorem compare_run (f : Int → Int → Bool) {x y : Bytes} {rest : List Bytes} {a b : Int}
    (hstack : m.dstack.items = y :: x :: rest)
    (hb : Number.decode? y m.dstack.minimal m.dstack.maxNumLen = .ok b)
    (ha : Number.decode? x m.dstack.minimal m.dstack.maxNumLen = .ok a) :
    ∃ m', compare f m = .ok () m' ∧
      m' = { m with
        dstack := { m.dstack with items := boolItem (f a b) :: rest, events := [] }
        log := m'.log } := by
  obtain ⟨m₁, h₁, hm₁⟩ := onData_popNum_run hstack hb
  have h₁' : popNum m = .ok b m₁ := h₁
  have hstack₁ : m₁.dstack.items = x :: rest := by rw [hm₁]
  have ha₁ : Number.decode? x m₁.dstack.minimal m₁.dstack.maxNumLen = .ok a := by rw [hm₁]; exact ha
  obtain ⟨m₂, h₂, hm₂⟩ := popNum_pushBool_run (f · b) hstack₁ ha₁
  refine ⟨m₂, ?_, by rw [hm₂, hm₁]⟩
  unfold compare
  rw [bind_run_of_ok h₁']
  exact h₂

theorem perform_of_not {op : Instruction} (hop : op.opcode.operation = .not) :
    perform op = (popNum >>= fun n => pushBool (n == 0)) := by
  unfold perform
  rw [hop]

theorem perform_of_nonZero {op : Instruction} (hop : op.opcode.operation = .nonZero) :
    perform op = (popNum >>= fun n => pushBool (n != 0)) := by
  unfold perform
  rw [hop]

theorem perform_of_boolAnd {op : Instruction} (hop : op.opcode.operation = .boolAnd) :
    perform op = compare fun a b => a != 0 && b != 0 := by
  unfold perform
  rw [hop]

/-- `OP_NOT` on an item that reads as a number pushes whether the item is false. -/
theorem not_run {op : Instruction} (hop : op.opcode.operation = .not) {d : Bytes}
    {rest : List Bytes} {n : Int} (hstack : m.dstack.items = d :: rest)
    (hn : Number.decode? d m.dstack.minimal m.dstack.maxNumLen = .ok n) :
    ∃ m', perform op m = .ok () m' ∧
      m' = { m with
        dstack := { m.dstack with items := boolItem (!castToBool d) :: rest, events := [] }
        log := m'.log } := by
  rw [perform_of_not hop, castToBool_of_decode? hn, bne, Bool.not_not]
  exact popNum_pushBool_run (· == 0) hstack hn

/-- `OP_0NOTEQUAL` on an item that reads as a number pushes whether the item is true. -/
theorem nonZero_run {op : Instruction} (hop : op.opcode.operation = .nonZero) {d : Bytes}
    {rest : List Bytes} {n : Int} (hstack : m.dstack.items = d :: rest)
    (hn : Number.decode? d m.dstack.minimal m.dstack.maxNumLen = .ok n) :
    ∃ m', perform op m = .ok () m' ∧
      m' = { m with
        dstack := { m.dstack with items := boolItem (castToBool d) :: rest, events := [] }
        log := m'.log } := by
  rw [perform_of_nonZero hop, castToBool_of_decode? hn]
  exact popNum_pushBool_run (· != 0) hstack hn

/-- `OP_BOOLAND` on two items that read as numbers pushes whether both are true. -/
theorem boolAnd_run {op : Instruction} (hop : op.opcode.operation = .boolAnd) {x y : Bytes}
    {rest : List Bytes} {a b : Int} (hstack : m.dstack.items = y :: x :: rest)
    (hb : Number.decode? y m.dstack.minimal m.dstack.maxNumLen = .ok b)
    (ha : Number.decode? x m.dstack.minimal m.dstack.maxNumLen = .ok a) :
    ∃ m', perform op m = .ok () m' ∧
      m' = { m with
        dstack := { m.dstack with
          items := boolItem (castToBool x && castToBool y) :: rest, events := [] }
        log := m'.log } := by
  rw [perform_of_boolAnd hop, castToBool_of_decode? ha, castToBool_of_decode? hb]
  exact compare_run _ hstack hb ha

end Exec

/-- Truthiness agrees with numeric zero. An item is false exactly when reading it as a number,
with no minimality required and its own length as the bound, gives zero, which is the case
exactly for zero bytes possibly followed by a bare sign byte; an item that reads as a number
under any rule is true exactly when that number is not zero. So on every operand the stack's
number rule reads, `OP_NOT`, `OP_0NOTEQUAL` and `OP_BOOLAND` push the truth values that the truth
tests (`OP_IF`, `OP_VERIFY`, the final check, all through `castToBool`) give their operands,
nothing else changing but the transcript; and a truth value pushed on a stack reads back, from
the top or popped, as itself. -/
theorem truthiness_agrees_with_numeric_zero :
    (∀ d : Bytes, (castToBool d = false ↔ Number.decode? d false d.length = .ok 0) ∧
      (castToBool d = false ↔ ∃ k, d = List.replicate k 0 ∨ d = List.replicate k 0 ++ [0x80])) ∧
    (∀ (d : Bytes) (requireMinimal : Bool) (maxSize : Nat) (n : Int),
      Number.decode? d requireMinimal maxSize = .ok n → castToBool d = (n != 0)) ∧
    (∀ (op : Instruction) (m : Machine) (d : Bytes) (rest : List Bytes) (n : Int),
      op.opcode.operation = .not → m.dstack.items = d :: rest →
      Number.decode? d m.dstack.minimal m.dstack.maxNumLen = .ok n →
      ∃ m', Exec.perform op m = .ok () m' ∧
        m' = { m with
          dstack := { m.dstack with items := boolItem (!castToBool d) :: rest, events := [] }
          log := m'.log }) ∧
    (∀ (op : Instruction) (m : Machine) (d : Bytes) (rest : List Bytes) (n : Int),
      op.opcode.operation = .nonZero → m.dstack.items = d :: rest →
      Number.decode? d m.dstack.minimal m.dstack.maxNumLen = .ok n →
      ∃ m', Exec.perform op m = .ok () m' ∧
        m' = { m with
          dstack := { m.dstack with items := boolItem (castToBool d) :: rest, events := [] }
          log := m'.log }) ∧
    (∀ (op : Instruction) (m : Machine) (x y : Bytes) (rest : List Bytes) (a b : Int),
      op.opcode.operation = .boolAnd → m.dstack.items = y :: x :: rest →
      Number.decode? y m.dstack.minimal m.dstack.maxNumLen = .ok b →
      Number.decode? x m.dstack.minimal m.dstack.maxNumLen = .ok a →
      ∃ m', Exec.perform op m = .ok () m' ∧
        m' = { m with
          dstack := { m.dstack with
            items := boolItem (castToBool x && castToBool y) :: rest, events := [] }
          log := m'.log }) ∧
    (∀ (b : Bool) (s : Stack),
      (∃ s', (do Stack.pushBool b; Stack.peekBool : StackM Bool) s = .ok b s') ∧
        ∃ s', (do Stack.pushBool b; Stack.popBool : StackM Bool) s = .ok b s' ∧
          s'.items = s.items) := by
  refine ⟨fun d => ⟨?_, castToBool_eq_false_iff_zero d⟩, fun _ _ _ _ h => castToBool_of_decode? h,
    fun _ _ _ _ _ hop hstack hn => Exec.not_run hop hstack hn,
    fun _ _ _ _ _ hop hstack hn => Exec.nonZero_run hop hstack hn,
    fun _ _ _ _ _ _ _ hop hstack hb ha => Exec.boolAnd_run hop hstack hb ha,
    Stack.pushBool_then_read⟩
  -- reading an item under its own length never fails, so only the value is compared with zero
  rw [decode?_own_length, Except.ok.injEq]
  exact castToBool_eq_false_iff_value_eq_zero d

end BitcoinScript
