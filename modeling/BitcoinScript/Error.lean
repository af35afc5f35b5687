import BitcoinScript.Stack
import BitcoinScript.Signature.Encoding

/-!
Why a script fails. Each cause is a constructor; its kind (a dotted path such as
`Stack.Num.Overflow`) and its text are given by `ScriptError.kind` and `ScriptError.message` (SPEC_FULL.md:103-109).
-/

set_option autoImplicit false

namespace BitcoinScript

/-- Why `OP_CHECKMULTISIG` refused its operands. -/
inductive MultisigError
  | invalidPubkeyCount (n : Int)
  | invalidSignatureCount (count : Int) (keys : Nat)
  | nullDummy (len : Nat)
  deriving DecidableEq, Repr

namespace MultisigError

/-- The variant name used in error kinds. -/
def name : MultisigError → String
  | invalidPubkeyCount _ => "InvalidPubkeyCount"
  | invalidSignatureCount _ _ => "InvalidSignatureCount"
  | nullDummy _ => "SignatureNullDummy"

/-- The text shown for each refusal. -/
def message : MultisigError → String
  | invalidPubkeyCount n => "invalid number of pubkeys " ++ toString n
  | invalidSignatureCount count keys =>
    "invalid number of signatures " ++ toString count ++ ", expected in the range of [0, " ++
      toString keys ++ "]"
  | nullDummy len => "multisig dummy argument has length " ++ toString len ++ " instead of 0"

end MultisigError

/-- Why a number operand is too large for a splice operation. -/
inductive TooBig
  | splitBeyondEnd
  | sizeBeyondMax
  | beyondMaxLength
  deriving DecidableEq, Repr

/-- Why a number operand is too small for a splice or shift operation. -/
inductive TooSmall
  | splitNegative
  | sizeNegative
  | cannotFit
  | shiftNegative
  deriving DecidableEq, Repr

/-- The text of each too-large operand. -/
def TooBig.message : TooBig → String
  | .splitBeyondEnd => "split index is larger than the array"
  | .sizeBeyondMax => "requested size exceeds the max element size"
  | .beyondMaxLength => "number exceeds the max number length"

/-- The text of each too-small operand. -/
def TooSmall.message : TooSmall → String
  | .splitNegative => "split index is negative"
  | .sizeNegative => "requested size is negative"
  | .cannotFit => "number cannot fit in the requested size"
  | .shiftNegative => "shift amount is negative"

/-- Why a script, or the setup of its execution, fails. -/
inductive ScriptError
  | evalFalse
  | emptyStack
  | cleanStack (n : Nat)
  | scriptUnfinished
  | earlyReturn
  | invalidFlags
  | scriptTooBig (size max : Nat)
  | sigPushOnly
  | invalidProgramCounter (idx off : Nat)
  | inputIndexOutOfRange (index inputs : Nat)
  | malformedPush
  | invalidPushLength (name : String) (len : Nat)
  | minimalData (name : String)
  | elementTooBig (size max : Nat)
  | tooManyOperations (max : Nat)
  | stackOverflow (size max : Nat)
  | disabledOpcode (name : String)
  | reservedOpcode (name : String)
  | invalidOpcode (name : String)
  | discourageUpgradableNops (name : String)
  | unbalancedConditional
  | minimalIf
  | verify
  | equalVerify
  | numEqualVerify
  | checkSigVerify
  | checkMultiSigVerify
  | numberTooBig (why : TooBig)
  | numberTooSmall (why : TooSmall)
  | invalidInputLength (name : String)
  | negativeLockTime
  | unsatisfiedLockTime
  | invalidAltStackOperation
  | stack (e : StackError)
  | number (e : NumberError)
  | checkSig (e : SigError)
  | checkMultiSig (e : MultisigError)
  deriving DecidableEq, Repr

namespace ScriptError

/-- The kind of an error: the variant path, nested causes joined by dots. -/
def kind : ScriptError → String
  | evalFalse => "EvalFalse"
  | emptyStack => "EmptyStack"
  | cleanStack _ => "CleanStack"
  | scriptUnfinished => "ScriptUnfinished"
  | earlyReturn => "EarlyReturn"
  | invalidFlags => "InvalidFlags"
  | scriptTooBig _ _ => "ScriptTooBig"
  | sigPushOnly => "SigPushOnly"
  | invalidProgramCounter _ _ => "InvalidProgramCounter"
  | inputIndexOutOfRange _ _ => "InputIndexOutOfRange"
  | malformedPush => "MalformedPush"
  | invalidPushLength _ _ => "InvalidPushLength"
  | minimalData _ => "MinimalData"
  | elementTooBig _ _ => "ElementTooBig"
  | tooManyOperations _ => "TooManyOperations"
  | stackOverflow _ _ => "StackOverflow"
  | disabledOpcode _ => "DisabledOpcode"
  | reservedOpcode _ => "ReservedOpcode"
  | invalidOpcode _ => "InvalidOpcode"
  | discourageUpgradableNops _ => "DiscourageUpgradableNops"
  | unbalancedConditional => "UnbalancedConditional"
  | minimalIf => "MinimalIf"
  | verify => "Verify"
  | equalVerify => "EqualVerify"
  | numEqualVerify => "NumEqualVerify"
  | checkSigVerify => "CheckSigVerify"
  | checkMultiSigVerify => "CheckMultiSigVerify"
  | numberTooBig _ => "NumberTooBig"
  | numberTooSmall _ => "NumberTooSmall"
  | invalidInputLength _ => "InvalidInputLength"
  | negativeLockTime => "NegativeLockTime"
  | unsatisfiedLockTime => "UnsatisfiedLockTime"
  | invalidAltStackOperation => "InvalidAltStackOperation"
  | stack e => "Stack." ++ e.name
  | number e => "Num." ++ e.name
  | checkSig e => "CheckSig." ++ e.name
  | checkMultiSig e => "CheckMultiSig." ++ e.name

/-- The text of an error. -/
def message : ScriptError → String
  | evalFalse => "script terminated with a false stack element"
  | emptyStack => "stack empty at end of script execution"
  | cleanStack n => "stack contains " ++ toString n ++ " unexpected items"
  | scriptUnfinished => "error check when script unfinished"
  | earlyReturn => "script returned early"
  | invalidFlags => "invalid flag combination"
  | scriptTooBig size max =>
    "script size " ++ toString size ++ " is larger than the max allowed size " ++ toString max
  | sigPushOnly => "signature script is not push only"
  | invalidProgramCounter idx off =>
    "program counter " ++ toString idx ++ ":" ++ toString off ++ " is out of range"
  | inputIndexOutOfRange index inputs =>
    "input index " ++ toString index ++ " is out of range for a transaction with " ++
      toString inputs ++ " inputs"
  | malformedPush => "malformed push: unexpected end of script"
  | invalidPushLength name len =>
    name ++ " carries " ++ toString len ++ " bytes of data that its encoding cannot represent"
  | minimalData name => "data push with " ++ name ++ " is not minimally encoded"
  | elementTooBig size max =>
    "element size " ++ toString size ++ " exceeds the max allowed size " ++ toString max
  | tooManyOperations max => "exceeded max operation limit of " ++ toString max
  | stackOverflow size max =>
    "combined stack size " ++ toString size ++ " exceeds the max allowed size " ++ toString max
  | disabledOpcode name => "attempt to execute disabled opcode " ++ name
  | reservedOpcode name => "attempt to execute reserved opcode " ++ name
  | invalidOpcode name => "attempt to execute invalid opcode " ++ name
  | discourageUpgradableNops name => name ++ " executed while DISCOURAGE_UPGRADABLE_NOPS is set"
  | unbalancedConditional => "unbalanced conditional"
  | minimalIf => "conditional operand is not a minimal boolean"
  | verify => "OP_VERIFY failed"
  | equalVerify => "OP_EQUALVERIFY failed"
  | numEqualVerify => "OP_NUMEQUALVERIFY failed"
  | checkSigVerify => "OP_CHECKSIGVERIFY failed"
  | checkMultiSigVerify => "OP_CHECKMULTISIGVERIFY failed"
  | numberTooBig why => "number too big: " ++ why.message
  | numberTooSmall why => "number too small: " ++ why.message
  | invalidInputLength name => "operands of " ++ name ++ " have different lengths"
  | negativeLockTime => "negative lock time"
  | unsatisfiedLockTime => "unsatisfied lock time"
  | invalidAltStackOperation => "invalid alt stack operation"
  | stack e => e.message
  | number e => e.message
  | checkSig e => e.message
  | checkMultiSig e => e.message

end ScriptError

end BitcoinScript
