import DripCore.CompactTarget
import Mathlib.Tactic.Linarith

/-!
# Block headers and branches of the block index

A `CBlockIndex` is an entry together with the entries it reaches through `pprev`. Heights are
counted from genesis, as `AddToBlockIndex` assigns them. Ancestor lookup walks `pprev`; skip
pointers are studied where the block tree itself is modelled.
-/
namespace DripCore

/-- The header fields read by the difficulty and timestamp rules. -/
structure CBlockHeader where
  nVersion : ℤ
  nTime : BitVec 32
  nBits : BitVec 32
deriving DecidableEq

def CBlockHeader.getBlockTime (b : CBlockHeader) : ℤ := b.nTime.toNat

inductive CBlockIndex where
  | genesis (header : CBlockHeader)
  | extend (pprev : CBlockIndex) (header : CBlockHeader)
deriving DecidableEq

namespace CBlockIndex

def header : CBlockIndex → CBlockHeader
  | genesis b => b
  | extend _ b => b

def pprev : CBlockIndex → Option CBlockIndex
  | genesis _ => none
  | extend p _ => some p

def nHeight : CBlockIndex → ℕ
  | genesis _ => 0
  | extend p _ => p.nHeight+1

def nBits (b : CBlockIndex) : BitVec 32 := b.header.nBits

def getBlockTime (b : CBlockIndex) : ℤ := b.header.getBlockTime

theorem blockTime_nonneg (b : CBlockIndex) : 0 ≤ b.getBlockTime := Int.natCast_nonneg _

theorem blockTime_lt (b : CBlockIndex) : b.getBlockTime < 2^32 := by
  have h := b.header.nTime.isLt
  unfold getBlockTime CBlockHeader.getBlockTime
  exact_mod_cast h

/-- The loop of `GetAncestor`: step back while the current entry is too high. -/
def ancestorWalk : CBlockIndex → ℤ → CBlockIndex
  | genesis b, _ => genesis b
  | extend p b, height => if height < p.nHeight+1 then p.ancestorWalk height else extend p b

def getAncestor (b : CBlockIndex) (height : ℤ) : Option CBlockIndex :=
  if b.nHeight < height ∨ height < 0 then none else some (b.ancestorWalk height)

theorem nHeight_walk (b : CBlockIndex) {height : ℤ} (h0 : 0 ≤ height)
    (h1 : height ≤ b.nHeight) : ((b.ancestorWalk height).nHeight : ℤ) = height := by
  induction b with
  | genesis b =>
    simp only [nHeight] at h1
    simp only [ancestorWalk,nHeight]
    omega
  | extend p b ih =>
    simp only [ancestorWalk]
    split_ifs with h
    · exact ih (by omega)
    · simp only [nHeight] at h1 ⊢
      omega

theorem ancestor_of_le (b : CBlockIndex) {height : ℤ} (h : 0 ≤ height) (h' : height ≤ b.nHeight) :
    ∃ a, b.getAncestor height = some a ∧ (a.nHeight : ℤ) = height := by
  refine ⟨b.ancestorWalk height,?_,b.nHeight_walk h h'⟩
  rw [getAncestor,if_neg (by omega)]

/-- The times of an entry and its predecessors, at most `n` of them. -/
def recentTimes : ℕ → CBlockIndex → List ℤ
  | 0, _ => []
  | _+1, genesis b => [b.getBlockTime]
  | n+1, extend p b => b.getBlockTime::p.recentTimes n

def nMedianTimeSpan : ℕ := 11

def getMedianTimePast (b : CBlockIndex) : ℤ :=
  let times := (b.recentTimes nMedianTimeSpan).insertionSort (· ≤ ·)
  times.getD (times.length / 2) 0

end CBlockIndex

/-- The expected number of hashes: `2 ^ 256` by the number of hashes that meet the target. -/
def getBlockProof (nBits : BitVec 32) : CompactTarget.ArithUint256 :=
  let decoded := CompactTarget.setCompact nBits
  if decoded.fNegative || decoded.fOverflow || decoded.target == 0#256 then 0#256
  else ~~~decoded.target / (decoded.target+1#256)+1#256

end DripCore
