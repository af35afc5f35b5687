import BitcoinScript.Stack

/-!
Commands on a stack and their answers, so that a sequence of primitives can be replayed and
every answer seen together with the stack it left.
-/

set_option autoImplicit false

namespace BitcoinScript

/-- A stack primitive with its arguments. -/
inductive StackCommand
  | push (x : Bytes)
  | pop
  | last
  | top (n : Nat)
  | remove (n : Nat)
  | pushNum (n : Int)
  | pushBool (b : Bool)
  | require (n : Nat)
  | drop (n : Nat)
  | dup (n : Nat)
  | «over» (n : Nat)
  | rot (n : Nat)
  | swap (n : Nat)
  | nip
  | tuck
  | pick (n : Int)
  | roll (n : Int)
  | popNum
  | popNumMax (maxSize : Nat)
  | peekNum (depth maxSize : Nat)
  | popBool
  | peekBool
  | display
  | depth
  deriving DecidableEq, Repr

/-- What a stack primitive answers. -/
inductive StackAnswer
  | item (x : Bytes)
  | nothing
  | number (n : Int)
  | truth (b : Bool)
  | text (s : String)
  | count (n : Nat)
  | failure (e : StackError)
  deriving DecidableEq, Repr

namespace Stack

/-- Runs a primitive and wraps its value. -/
def answer {α : Type} (s : Stack) (op : StackM α) (wrap : α → StackAnswer) : Stack × StackAnswer :=
  match op s with
  | .ok a s => (s, wrap a)
  | .error e s => (s, .failure e)

/-- Applies one command. -/
def perform (s : Stack) : StackCommand → Stack × StackAnswer
  | .push x => s.answer (push x) fun _ => .nothing
  | .pop => s.answer pop .item
  | .last => s.answer last .item
  | .top n => s.answer (top n) .item
  | .remove n => s.answer (remove n) .item
  | .pushNum n => s.answer (pushNum n) fun _ => .nothing
  | .pushBool b => s.answer (pushBool b) fun _ => .nothing
  | .require n => s.answer (require n) fun _ => .nothing
  | .drop n => s.answer (drop n) fun _ => .nothing
  | .dup n => s.answer (dup n) fun _ => .nothing
  | .«over» n => s.answer («over» n) fun _ => .nothing
  | .rot n => s.answer (rot n) fun _ => .nothing
  | .swap n => s.answer (swap n) fun _ => .nothing
  | .nip => s.answer nip fun _ => .nothing
  | .tuck => s.answer tuck fun _ => .nothing
  | .pick n => s.answer (pick n) fun _ => .nothing
  | .roll n => s.answer (roll n) fun _ => .nothing
  | .popNum => s.answer popNum .number
  | .popNumMax m => s.answer (popNumMax m) .number
  | .peekNum i m => s.answer (peekNum i m) .number
  | .popBool => s.answer popBool .truth
  | .peekBool => s.answer peekBool .truth
  | .display => (s, .text s.display)
  | .depth => (s, .count s.depth)

/-- Applies commands in order; each answer comes with the items after it, bottom first. A panic
ends the whole run, with no answers. -/
def performAll (s : Stack) : List StackCommand → Except StackPanic (List (StackAnswer × List Bytes))
  | [] => .ok []
  | c :: cs =>
    match s.perform c with
    | (_, .failure (.panic p)) => .error p
    | (s, a) => do
      let rest ← performAll s cs
      return (a, s.toList) :: rest

end Stack

end BitcoinScript
