import Mathlib.Init

/-!
# Validation verdicts

A rejected block or transaction carries a result class, a reject reason and a debug
message. Checks return `Except` of such a record.
-/
namespace DripCore

inductive BlockValidationResult where
  | unset | consensus | cachedInvalid | invalidHeader | mutated | missingPrev | invalidPrev
  | timeFuture | headerLowWork
  deriving DecidableEq, Repr

inductive TxValidationResult where
  | unset | consensus | inputsNotStandard | notStandard | missingInputs | prematureSpend
  | witnessMutated | witnessStripped | conflict | mempoolPolicy | noMempool | reconsiderable
  | unknown
  deriving DecidableEq, Repr

structure Invalid (Result : Type) where
  result : Result
  rejectReason : String
  debugMessage : String
deriving DecidableEq, Repr

end DripCore
