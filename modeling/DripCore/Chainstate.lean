import DripCore.BlockTree
import DripCore.ComparatorSet
import Mathlib.Data.Prod.Lex

/-!
# The state of a chainstate

What a node keeps for its block index entries, and the candidates for the tip, the stored blocks
that wait for an ancestor, the active tip, the best header and the best invalid block. Entries are
compared by work, then by the order in which they became connectable, then by address.
-/
namespace DripCore

/-- The validity bits of `nStatus`. -/
inductive BlockValidity where
  | unknown | reserved | tree | transactions | chain | scripts
deriving DecidableEq

def BlockValidity.level : BlockValidity → ℕ
  | unknown => 0
  | reserved => 1
  | tree => 2
  | transactions => 3
  | chain => 4
  | scripts => 5

structure BlockStatus where
  validity : BlockValidity
  haveData : Bool
  haveUndo : Bool
  failedValid : Bool
  failedChild : Bool
deriving DecidableEq

namespace BlockStatus

def failed (status : BlockStatus) : Bool := status.failedValid || status.failedChild

def clearFailed (status : BlockStatus) : BlockStatus :=
  { status with failedValid := false, failedChild := false }

def isValid (status : BlockStatus) (nUpTo : BlockValidity) : Bool :=
  !status.failed && decide (nUpTo.level ≤ status.validity.level)

@[simp] theorem failed_clearFailed (status : BlockStatus) : status.clearFailed.failed = false := rfl

@[simp] theorem failedValid_clearFailed (status : BlockStatus) :
    status.clearFailed.failedValid = false := rfl

theorem clearFailed_twice (status : BlockStatus) :
    status.clearFailed.clearFailed = status.clearFailed := rfl

theorem clearFailed_eq_self {status : BlockStatus} (h : status.failed = false) :
    status.clearFailed = status := by
  obtain ⟨validity,haveData,haveUndo,failedValid,failedChild⟩ := status
  obtain ⟨rfl,rfl⟩ := Bool.or_eq_false_iff.mp h
  rfl

end BlockStatus

structure Chainstate (B : Type) where
  tree : BlockTree B
  nChainWork : B → ℕ
  nStatus : B → BlockStatus
  nTx : B → ℕ
  chainTxCount : B → ℕ
  nSequenceId : B → ℤ
  nBlockSequenceId : ℤ
  setBlockIndexCandidates : List B
  blocksUnlinked : List (B × B)
  tip : B
  bestHeader : B
  bestInvalid : Option B

namespace Chainstate
variable {B : Type} [LinearOrder B] (s : Chainstate B)

/-- `CBlockIndexWorkComparator`: the first entry is worse. -/
def workLess (pa pb : B) : Bool :=
  if s.nChainWork pb < s.nChainWork pa then false
  else if s.nChainWork pa < s.nChainWork pb then true
  else if s.nSequenceId pa < s.nSequenceId pb then false
  else if s.nSequenceId pb < s.nSequenceId pa then true
  else if pa < pb then false
  else if pb < pa then true
  else false

def haveNumChainTxs (b : B) : Bool := s.chainTxCount b != 0

def insertCandidate (b : B) : Chainstate B :=
  { s with setBlockIndexCandidates := ComparatorSet.insert s.workLess b s.setBlockIndexCandidates }

end Chainstate
end DripCore
