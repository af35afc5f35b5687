import BitcoinScript.Number

/-!
The stack of a script machine. Items are kept top first. Numbers are read with the stack's
operand bound and minimality rule; before genesis pushed numbers are clamped to 32 bits. Every
push and pop is reported as an event, so that a debugger's transcript can be rebuilt; the
rearranging primitives (`rot`, `swap`, `tuck`, `remove`) report nothing. Each primitive checks
the depth it needs before it changes anything (SPEC_FULL.md:50-51).

The depth that `over`, `rot` and `swap` need is a product `2 n` or `3 n` taken in a 64-bit word
(`wordMul`), so for counts near `2 ^ 64` it wraps and the check admits a block the primitive
cannot take: the primitive then panics (`StackPanic`), which no other primitive does.
-/

set_option autoImplicit false

namespace BitcoinScript

/-- How a primitive whose depth check a wrapped product let through breaks off. -/
inductive StackPanic
  /-- A copy read the item at `index`, counted from the bottom, of a stack of `len` items. -/
  | indexOutOfBounds (len index : Nat)
  /-- A rotation turned a block by more than its length. -/
  | rotatePastEnd
  /-- A block was split past its end. -/
  | splitPastEnd
  deriving DecidableEq, Repr

/-- The text a panic stops with. -/
def StackPanic.message : StackPanic → String
  | .indexOutOfBounds len index =>
    "index out of bounds: the len is " ++ toString len ++ " but the index is " ++ toString index
  | .rotatePastEnd => "assertion failed: mid <= self.len()"
  | .splitPastEnd => "mid > len"

/-- Why a stack primitive failed. -/
inductive StackError
  | invalidOperation
  | number (e : NumberError)
  | panic (p : StackPanic)
  deriving DecidableEq, Repr

namespace StackError

/-- The variant path used in error kinds. -/
def name : StackError → String
  | invalidOperation => "InvalidOperation"
  | number e => "Num." ++ e.name
  | panic _ => "Panic"

/-- The text shown for each stack error. -/
def message : StackError → String
  | invalidOperation => "invalid stack operation"
  | number e => e.message
  | panic p => p.message

end StackError

/-- The product `k * n` in a 64-bit word, wrapping past `2 ^ 64`. -/
def wordMul (k n : Nat) : Nat := k * n % UInt64.size

/-- A push or pop as a debugger sees it: depths are taken before a push or pop and after. -/
inductive StackEvent
  | beforePush (depth : Nat) (item : Bytes)
  | afterPush (depth : Nat)
  | beforePop (depth : Nat)
  | afterPop (depth : Nat) (item : Bytes)
  deriving DecidableEq, Repr

/-- A stack with its number rules and the events of its pushes and pops, newest first. -/
structure Stack where
  /-- The items, top first. -/
  items : List Bytes := []
  /-- The longest encoding accepted when a number is popped. -/
  maxNumLen : Nat := 4
  /-- Whether popped numbers must be minimally encoded. -/
  minimal : Bool := false
  /-- After genesis numbers are pushed unclamped. -/
  afterGenesis : Bool := false
  /-- Reported pushes and pops, newest first. -/
  events : List StackEvent := []
  deriving Repr

/-- Truthiness of a stack item: false exactly for zero bytes, possibly ending in a sign byte. -/
def castToBool (bytes : Bytes) : Bool :=
  match bytes.getLast? with
  | none => false
  | some last => bytes.dropLast.any (· ≠ 0) || (last ≠ 0 && last ≠ 0x80)

/-- A computation on a stack that keeps the stack it reached when it fails. -/
abbrev StackM := EStateM StackError Stack

namespace Stack

/-- The number of items. -/
def depth (s : Stack) : Nat := s.items.length

/-- The items bottom first, as they are shown. -/
def toList (s : Stack) : List Bytes := s.items.reverse

/-- The text of a stack: items bottom first in hexadecimal, `<empty>` for an empty item. -/
def display (s : Stack) : String :=
  "[" ++ ", ".intercalate (s.toList.map fun b => if b.isEmpty then "<empty>" else Bytes.toHex b) ++ "]"

/-- Fails unless the stack holds at least `n` items. -/
def require (n : Nat) : StackM Unit := fun s =>
  if n ≤ s.items.length then .ok () s else .error .invalidOperation s

/-- The top item. -/
def last : StackM Bytes := fun s =>
  match s.items with
  | x :: _ => .ok x s
  | [] => .error .invalidOperation s

/-- Removes the top item; an empty stack reports the attempt and fails. -/
def pop : StackM Bytes := fun s =>
  let s := { s with events := .beforePop s.items.length :: s.events }
  match s.items with
  | x :: rest => .ok x { s with items := rest, events := .afterPop rest.length x :: s.events }
  | [] => .error .invalidOperation s

/-- Puts an item on top. -/
def push (x : Bytes) : StackM Unit := fun s =>
  .ok () { s with
    items := x :: s.items
    events := .afterPush (s.items.length + 1) :: .beforePush s.items.length x :: s.events }

/-- Pushes items in order, so the last of the list ends on top. -/
def pushAll : List Bytes → StackM Unit
  | [] => pure ()
  | x :: xs => do push x; pushAll xs

/-- The item `i` places below the top. -/
def top (i : Nat) : StackM Bytes := fun s =>
  match s.items[i]? with
  | some x => .ok x s
  | none => .error .invalidOperation s

/-- Reads a number with the stack's minimality rule and the given size bound. -/
def decodeNumber (bytes : Bytes) (maxSize : Nat) : StackM Int := fun s =>
  match Number.decode? bytes s.minimal maxSize with
  | .ok n => .ok n s
  | .error e => .error (.number e) s

/-- Pops a number of at most the stack's own operand length. -/
def popNum : StackM Int := do
  let s ← get
  let x ← pop
  decodeNumber x s.maxNumLen

/-- Pops a number of at most `maxSize` bytes. -/
def popNumMax (maxSize : Nat) : StackM Int := do
  let x ← pop
  decodeNumber x maxSize

/-- Reads the number `i` places below the top without removing it. -/
def peekNum (i maxSize : Nat) : StackM Int := do
  let x ← top i
  decodeNumber x maxSize

/-- Pushes a number, clamped to 32 bits before genesis. -/
def pushNum (n : Int) : StackM Unit := do
  let s ← get
  push (Number.encode (if s.afterGenesis then n else Number.clampI32 n))

/-- Pushes `[1]` for true and the empty string for false. -/
def pushBool (b : Bool) : StackM Unit :=
  push (if b then [1] else [])

/-- The truthiness of the top item. -/
def peekBool : StackM Bool := do
  return castToBool (← last)

/-- Pops the top item as a truth value. -/
def popBool : StackM Bool := do
  return castToBool (← pop)

/-- Removes the item `i` places below the top, unreported. -/
def remove (i : Nat) : StackM Bytes := fun s =>
  match s.items[i]? with
  | some x => .ok x { s with items := s.items.eraseIdx i }
  | none => .error .invalidOperation s

/-- Pops `n` items. -/
def drop (n : Nat) : StackM Unit := do
  require n
  for _ in [0:n] do
    discard pop

/-- Pushes copies of the top `n` items, deepest first. -/
def dup (n : Nat) : StackM Unit := do
  require n
  let s ← get
  pushAll (s.items.take n).reverse

/-- Pushes, `k` times, a copy of the item at index `i` counted from the bottom, the index moving
up by one after each push; the stack read is the one the pushes so far have grown, and an index
past its end panics. -/
def copyUp (i : Nat) : Nat → StackM Unit
  | 0 => pure ()
  | k + 1 => do
    let s ← get
    match s.toList[i]? with
    | some x => do push x; copyUp (i + 1) k
    | none => throw (.panic (.indexOutOfBounds s.depth i))

/-- Pushes copies of the `n` items below the top `n`, deepest first. The depth needed is the word
product `2 n`, and the copy starts that far below the top; the end of the copied range, `n` past
its start, is taken exactly, as it reaches `2 ^ 64` only on a stack of `2 ^ 63` items or more. -/
def «over» (n : Nat) : StackM Unit := do
  let count := wordMul 2 n
  require count
  let s ← get
  copyUp (s.depth - count) n

/-- Moves the deepest `n` of the top `k n` items to the top, unreported. The block size is the
word product `k n`; a block shorter than `n`, which only a wrapped product gives, panics with
`p`. -/
def turnTop (k n : Nat) (p : StackPanic) : StackM Unit := do
  let count := wordMul k n
  require count
  if count < n then throw (.panic p)
  modify fun s =>
    let block := s.items.take count
    { s with items := block.drop (count - n) ++ block.take (count - n) ++ s.items.drop count }

/-- Moves the deepest `n` of the top `3 n` items to the top, unreported: a rotation of the block
by `n`, which asserts that `n` is at most the block's length. -/
def rot (n : Nat) : StackM Unit := turnTop 3 n .rotatePastEnd

/-- Exchanges the top `n` items with the `n` below them, unreported: the block of `2 n` is split
`n` above its bottom, which panics when that point lies past its end, and the halves change
places. -/
def swap (n : Nat) : StackM Unit := turnTop 2 n .splitPastEnd

/-- Removes the second item. -/
def nip : StackM Unit := do
  discard (remove 1)

/-- Inserts a copy of the top item below the second, unreported. -/
def tuck : StackM Unit := fun s =>
  match s.items with
  | a :: b :: rest => .ok () { s with items := a :: b :: a :: rest }
  | _ => .error .invalidOperation s

/-- Pushes a copy of the item `n` places below the top; a negative `n` fails. -/
def pick (n : Int) : StackM Unit := do
  if n < 0 then throw .invalidOperation
  let x ← top n.toNat
  push x

/-- Moves the item `n` places below the top to the top; only the push is reported. -/
def roll (n : Int) : StackM Unit := do
  if n < 0 then throw .invalidOperation
  let x ← remove n.toNat
  push x

end Stack

end BitcoinScript
