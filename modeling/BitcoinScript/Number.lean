import BitcoinScript.Bytes

/-!
Script numbers. A number is written as its magnitude in little-endian bytes with the sign in the
high bit of the last byte; a byte is appended when that bit is already taken. Zero is the empty
string. A string is minimal when its last byte carries more than the sign, or when the sign needs
a byte of its own. Decoding checks a size bound and, on request, minimality; the minimiser strips
superfluous high zero bytes and keeps the value (SPEC_FULL.md:47-48).
-/

set_option autoImplicit false

namespace BitcoinScript

/-- Why a byte string is refused as a number, or why an operation on numbers has no result. -/
inductive NumberError
  | overflow
  | notMinimal
  | divideByZero
  deriving DecidableEq, Repr

namespace NumberError

/-- The variant name used in error kinds. -/
def name : NumberError → String
  | overflow => "Overflow"
  | notMinimal => "NotMinimallyEncoded"
  | divideByZero => "DivideByZero"

/-- The text shown for each number error. -/
def message : NumberError → String
  | overflow => "script number overflow"
  | notMinimal => "non-minimally encoded script number"
  | divideByZero => "division by zero"

end NumberError

namespace Number

/-- The magnitude of a natural number in little-endian bytes with no high zero byte. -/
def magnitudeLE (n : Nat) : Bytes :=
  if n = 0 then [] else (n % 256).toUInt8 :: magnitudeLE (n / 256)
termination_by n
decreasing_by omega

/-- The minimal encoding of an integer: magnitude bytes, the sign in the top bit of the last. -/
def encode (n : Int) : Bytes :=
  let m := magnitudeLE n.natAbs
  match m.getLast? with
  | none => []
  | some top =>
    if top &&& 0x80 ≠ 0 then m ++ [if n < 0 then 0x80 else 0]
    else if n < 0 then m.dropLast ++ [top ||| 0x80]
    else m

/-- The integer a byte string denotes, whatever its length or padding (`80` denotes zero). -/
def value (bytes : Bytes) : Int :=
  match bytes.getLast? with
  | none => 0
  | some last =>
    let magnitude : Int := Bytes.leValue (bytes.dropLast ++ [last &&& 0x7f])
    if last &&& 0x80 = 0 then magnitude else -magnitude

/-- A string is minimal when its last byte is more than a sign, or the byte before needs the
sign to have a byte of its own. -/
def isMinimal (bytes : Bytes) : Bool :=
  match bytes.getLast? with
  | none => true
  | some last =>
    if last &&& 0x7f = 0 then
      match bytes.dropLast.getLast? with
      | some prev => prev &&& 0x80 ≠ 0
      | none => false
    else true

/-- Reads a number of at most `maxSize` bytes, minimal if `requireMinimal` is set. -/
def decode? (bytes : Bytes) (requireMinimal : Bool) (maxSize : Nat) : Except NumberError Int :=
  if bytes.length > maxSize then .error .overflow
  else if requireMinimal ∧ ¬ isMinimal bytes then .error .notMinimal
  else .ok (value bytes)

/-- Drops the zero bytes at the most significant end of a magnitude. -/
def stripHighZeros (bytes : Bytes) : Bytes :=
  (bytes.reverse.dropWhile (· == 0)).reverse

/-- Rewrites a byte string as the minimal encoding of the same number: the high zero bytes of
the magnitude go, and the sign moves down to the new last byte or keeps a byte of its own. -/
def minimallyEncode (bytes : Bytes) : Bytes :=
  match bytes.getLast? with
  | none => []
  | some last =>
    if last &&& 0x7f ≠ 0 then bytes
    else
      let core := stripHighZeros bytes.dropLast
      match core.getLast? with
      | none => []
      | some top =>
        if top &&& 0x80 ≠ 0 then core ++ [last]
        else core.dropLast ++ [top ||| last]

/-- The encoding of the same number in exactly `size` bytes, for a minimal encoding no longer
than `size`: the sign bit moves from the last byte of the magnitude to a new last byte, with
zero bytes between. -/
def widen (num : Bytes) (size : Nat) : Bytes :=
  if num.length < size then
    let (body, sign) := match num.getLast? with
      | some last => (num.dropLast ++ [last &&& 0x7f], last &&& 0x80)
      | none => ([], 0)
    body ++ List.replicate (size - 1 - body.length) 0 ++ [sign]
  else num

/-- The least signed 32-bit value. -/
def minI32 : Int := -2147483648

/-- The greatest signed 32-bit value. -/
def maxI32 : Int := 2147483647

/-- Clamps to the signed 32-bit range. -/
def clampI32 (n : Int) : Int :=
  if n > maxI32 then maxI32 else if n < minI32 then minI32 else n

/-- The value as a signed 64-bit integer, when it fits. -/
def toI64? (n : Int) : Option Int :=
  if -9223372036854775808 ≤ n ∧ n ≤ 9223372036854775807 then some n else none

/-- Division rounding toward zero; a zero divisor has no quotient. -/
def quotient? (a b : Int) : Except NumberError Int :=
  if b = 0 then .error .divideByZero else .ok (a.tdiv b)

/-- Remainder with the sign of the dividend; a zero divisor has no remainder. -/
def remainder? (a b : Int) : Except NumberError Int :=
  if b = 0 then .error .divideByZero else .ok (a.tmod b)

/-- The arithmetic of script numbers. -/
inductive Arith
  | id
  | neg
  | abs
  | add
  | sub
  | mul
  | div
  | rem
  deriving DecidableEq, Repr

/-- Applies an operation; unary ones ignore `b`, division and remainder by zero fail. -/
def arith (op : Arith) (a b : Int) : Except NumberError Int :=
  match op with
  | .id => .ok a
  | .neg => .ok (-a)
  | .abs => .ok a.natAbs
  | .add => .ok (a + b)
  | .sub => .ok (a - b)
  | .mul => .ok (a * b)
  | .div => quotient? a b
  | .rem => remainder? a b

end Number

end BitcoinScript
