import BitcoinScript.Bytes
import BitcoinScript.Number
import BitcoinScript.Stack
import BitcoinScript.Opcode
import BitcoinScript.Script
import BitcoinScript.Flags
import BitcoinScript.Signature.Encoding
import BitcoinScript.Error
import BitcoinScript.Hash.Sha256
import BitcoinScript.Hash.Ripemd160
import BitcoinScript.Hash.Sha1
import BitcoinScript.Secp256k1.Curve
import BitcoinScript.Secp256k1.Ecdsa
import BitcoinScript.Transaction
import BitcoinScript.Sighash
import BitcoinScript.Checker
import BitcoinScript.Bytes.Shift
import BitcoinScript.Machine.Basic
import BitcoinScript.Machine.Signature
import BitcoinScript.Machine.Operation
import BitcoinScript.Machine.Step
import BitcoinScript.Machine.Run
import BitcoinScript.Cache
import BitcoinScript.Stack.Command
import BitcoinScript.Proofs.Frame
import BitcoinScript.Proofs.Step
import BitcoinScript.Proofs.Conditional
import BitcoinScript.Proofs.Der
import BitcoinScript.Proofs.Relax
import BitcoinScript.Proofs.Policy
import BitcoinScript.Proofs.FlagSet
import BitcoinScript.Proofs.Monotone
import BitcoinScript.Proofs.Parse
import BitcoinScript.Proofs.Unparse
import BitcoinScript.Proofs.NumberCodec
import BitcoinScript.Proofs.Effects
import BitcoinScript.Proofs.Counter
import BitcoinScript.Proofs.Failure
import BitcoinScript.Proofs.Limits
import BitcoinScript.Proofs.Bounds
import BitcoinScript.Proofs.Multisig
import BitcoinScript.Proofs.Termination
import BitcoinScript.Proofs.Snapshot
import BitcoinScript.Proofs.Unstaged
import BitcoinScript.Proofs.Runs
import BitcoinScript.Proofs.Stage
import BitcoinScript.Proofs.PayToScriptHash
import BitcoinScript.Proofs.Minimize
import BitcoinScript.Proofs.LockTime
import BitcoinScript.Proofs.ForkIdDigest
import BitcoinScript.Proofs.BlockDepth
import BitcoinScript.Proofs.ReturnData
import BitcoinScript.Proofs.TerminatingReturn
import BitcoinScript.Proofs.Shift
import BitcoinScript.Proofs.NumberResize
import BitcoinScript.Proofs.StrictDer
import BitcoinScript.Proofs.StackPrimitives
import BitcoinScript.Proofs.Truthiness
import BitcoinScript.Proofs.MinimalPush
import BitcoinScript.Proofs.SignatureCache
import BitcoinScript.Proofs.HookOrder
import BitcoinScript.Proofs.CanonicalPush
import BitcoinScript.Proofs.ComponentCache
import BitcoinScript.Proofs.Budget
