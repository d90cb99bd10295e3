import DripCore.MedianTimePast
import DripCore.Transaction

/-!
# Absolute and relative time locks

`IsFinalTx` compares a lock time with a height or a time, and `SequenceLocks` the heights and median
times of the inputs with those of the block. A failed assertion is the result `none`. Along a branch
heights and median times only grow, so a transaction that may be included stays so.
-/
namespace DripCore
open CBlockIndex Option

def locktimeThreshold : ℤ := 500000000

def CTxIn.sequenceFinal : BitVec 32 := 0xffffffff#32

def CTxIn.sequenceLocktimeDisableFlag : BitVec 32 := 1#32 <<< 31

def CTxIn.sequenceLocktimeTypeFlag : BitVec 32 := 1#32 <<< 22

def CTxIn.sequenceLocktimeMask : BitVec 32 := 0x0000ffff#32

def CTxIn.sequenceLocktimeGranularity : ℕ := 9

def locktimeVerifySequence : BitVec 32 := 1#32 <<< 0

def isFinalTx (tx : CTransaction) (nBlockHeight nBlockTime : ℤ) : Bool :=
  if tx.nLockTime = 0 then true
  else if (tx.nLockTime.toNat : ℤ) <
      (if (tx.nLockTime.toNat : ℤ) < locktimeThreshold then nBlockHeight else nBlockTime) then true
  else tx.vin.all fun txin => txin.nSequence == CTxIn.sequenceFinal

/-- The locks of the inputs, and their heights without those that do not matter. -/
def sequenceLocksLoop (block : CBlockIndex) : List CTxIn → List ℤ → ℤ → ℤ →
    Option ((ℤ × ℤ) × List ℤ)
  | [], _, nMinHeight, nMinTime => some ((nMinHeight,nMinTime),[])
  | _::_, [], _, _ => none
  | txin::vin, nCoinHeight::prevHeights, nMinHeight, nMinTime =>
    if txin.nSequence &&& CTxIn.sequenceLocktimeDisableFlag ≠ 0 then do
      let (lockPair,heights) ← sequenceLocksLoop block vin prevHeights nMinHeight nMinTime
      return (lockPair,0::heights)
    else if txin.nSequence &&& CTxIn.sequenceLocktimeTypeFlag ≠ 0 then do
      let nCoinTime ← (block.getAncestor (max (nCoinHeight-1) 0)).map getMedianTimePast
      let nMinTime := max nMinTime (nCoinTime +
        ((txin.nSequence &&& CTxIn.sequenceLocktimeMask) <<<
          CTxIn.sequenceLocktimeGranularity).toNat-1)
      let (lockPair,heights) ← sequenceLocksLoop block vin prevHeights nMinHeight nMinTime
      return (lockPair,nCoinHeight::heights)
    else do
      let nMinHeight := max nMinHeight (nCoinHeight +
        (txin.nSequence &&& CTxIn.sequenceLocktimeMask).toNat-1)
      let (lockPair,heights) ← sequenceLocksLoop block vin prevHeights nMinHeight nMinTime
      return (lockPair,nCoinHeight::heights)

def calculateSequenceLocks (tx : CTransaction) (flags : BitVec 32) (prevHeights : List ℤ)
    (block : CBlockIndex) : Option ((ℤ × ℤ) × List ℤ) :=
  if prevHeights.length ≠ tx.vin.length then none
  else
    let fEnforceBIP68 := decide (2 ≤ tx.version.toNat) && flags &&& locktimeVerifySequence != 0
    if !fEnforceBIP68 then some ((-1,-1),prevHeights)
    else sequenceLocksLoop block tx.vin prevHeights (-1) (-1)

def evaluateSequenceLocks (block : CBlockIndex) (lockPair : ℤ × ℤ) : Option Bool := do
  let pprev ← block.pprev
  return !(decide ((block.nHeight : ℤ) ≤ lockPair.1) ||
    decide (pprev.getMedianTimePast ≤ lockPair.2))

def sequenceLocks (tx : CTransaction) (flags : BitVec 32) (prevHeights : List ℤ)
    (block : CBlockIndex) : Option (Bool × List ℤ) := do
  let (lockPair,prevHeights) ← calculateSequenceLocks tx flags prevHeights block
  return (← evaluateSequenceLocks block lockPair,prevHeights)

variable {header : CBlockHeader} {height : ℤ} {b : CBlockIndex} {headers : List CBlockHeader}
    {tx : CTransaction}

theorem ancestor_extend {p : CBlockIndex} (h : height ≤ p.nHeight) :
    (p.extend header).getAncestor height = p.getAncestor height := by
  have hl : height < (p.nHeight : ℤ)+1 := by omega
  simp only [getAncestor,ancestorWalk,nHeight,if_pos hl]
  by_cases hn : height < 0
  · rw [if_pos (.inr hn),if_pos (.inr hn)]
  · rw [if_neg (by omega),if_neg (by omega)]

theorem ancestor_extendBy (h : height ≤ b.nHeight) :
    (b.extendBy headers).getAncestor height = b.getAncestor height := by
  induction headers generalizing b with
  | nil => rfl
  | cons header headers ih =>
    rw [extendBy_cons,ih (by rw [nHeight]; omega),ancestor_extend h]

theorem isFinalTx_mono {height' time time' : ℤ} (hh : height ≤ height') (ht : time ≤ time')
    (h : isFinalTx tx height time = true) :
    isFinalTx tx height' time' = true := by
  unfold isFinalTx at h ⊢
  split_ifs at h ⊢ <;> first | rfl | exact h | omega

section
variable {bl bl' : CBlockIndex} {p : List ℤ}
  (h : ∀ n ∈ p, bl.getAncestor (max (n-1) 0) = bl'.getAncestor (max (n-1) 0))
include h

/-- The locks depend on a block only through the entries below the inputs. -/
theorem locksLoop_congr {vin : List CTxIn} (nmh nmt : ℤ) : sequenceLocksLoop bl vin p nmh nmt =
      sequenceLocksLoop bl' vin p nmh nmt := by
  induction vin generalizing p nmh nmt with
  | nil => rfl
  | cons t vin ih =>
    cases p with
    | nil => rfl
    | cons n p =>
      have hr := fun a b => ih (fun m hm => h m (List.mem_cons_of_mem n hm)) a b
      simp only [sequenceLocksLoop,h n List.mem_cons_self,hr]

theorem sequenceLocks_congr (tx : CTransaction) (f : BitVec 32) :
    calculateSequenceLocks tx f p bl =
      calculateSequenceLocks tx f p bl' := by
  simp only [calculateSequenceLocks,locksLoop_congr h]

end

theorem evaluateLocks_mono {d : CBlockIndex} (hh : b.nHeight ≤ d.nHeight)
    (ht : b.getMedianTimePast ≤ d.getMedianTimePast) (header' : CBlockHeader) {lp : ℤ × ℤ}
    (h : evaluateSequenceLocks (b.extend header) lp = some true) :
    evaluateSequenceLocks (d.extend header') lp = some true := by
  simp only [evaluateSequenceLocks,pprev,nHeight,bind_eq_bind,bind_some,pure_def,
    some.injEq,Bool.not_eq_true',Bool.or_eq_false_iff,decide_eq_false_iff_not,
    Nat.cast_add] at h ⊢
  exact ⟨by omega,by omega⟩

/-- Sequence locks that have passed on top of an entry have passed on top of all that extend it. -/
theorem sequenceLocks_extendBy (hr : b.NextTimesExceedMedian headers) {f : BitVec 32}
    {ph heights : List ℤ} (hp : ∀ n ∈ ph, n ≤ b.nHeight+1)
    {header' : CBlockHeader}
    (h : sequenceLocks tx f ph (b.extend header) = some (true,heights)) :
    sequenceLocks tx f ph ((b.extendBy headers).extend header') = some (true,heights) := by
  have hh := b.nHeight_extendBy headers
  have ha : ∀ n ∈ ph, (b.extend header).getAncestor (max (n-1) 0) =
      ((b.extendBy headers).extend header').getAncestor (max (n-1) 0) := by
    intro n hn
    have hl : max (n-1) 0 ≤ (b.nHeight : ℤ) := by
      have := hp n hn
      omega
    rw [ancestor_extend hl,ancestor_extend (by omega),ancestor_extendBy hl]
  obtain ⟨⟨lp,heights'⟩,hc,hre⟩ := bind_eq_some_iff.mp h
  obtain ⟨passed,he,hpa⟩ := bind_eq_some_iff.mp hre
  obtain ⟨rfl,rfl⟩ := Prod.mk.inj (some.inj hpa)
  have he' := evaluateLocks_mono (show b.nHeight ≤ (b.extendBy headers).nHeight by omega)
    (medianTime_mono hr) header' he
  rw [sequenceLocks,← sequenceLocks_congr ha,hc]
  simp only [he',bind_eq_bind,bind_some,pure_def]

/-- When every block is later than the median time past of its parent, the median time past never
decreases, a transaction that is final in the next block is final in the next block of every
descendant, and sequence locks that have passed on top of an entry have passed on top of its
descendants. -/
theorem timeLocks_monotone :
    (∀ (p : CBlockIndex) (header : CBlockHeader), (p.extend header).TimesExceedMedian →
      p.getMedianTimePast ≤ (p.extend header).getMedianTimePast) ∧
    ∀ (b : CBlockIndex) (headers : List CBlockHeader), (b.extendBy headers).TimesExceedMedian →
      (∀ tx, isFinalTx tx (b.nHeight + 1) b.getMedianTimePast = true →
        isFinalTx tx ((b.extendBy headers).nHeight + 1) (b.extendBy headers).getMedianTimePast =
          true) ∧
      ∀ tx flags prevHeights heights header header', (∀ n ∈ prevHeights, n ≤ (b.nHeight : ℤ) + 1) →
        sequenceLocks tx flags prevHeights (b.extend header) = some (true, heights) →
        sequenceLocks tx flags prevHeights ((b.extendBy headers).extend header') =
          some (true, heights) := by
  refine ⟨fun p header h => medianTime_le_extend h.1.le,fun b headers h => ⟨?_,?_⟩⟩
  · intro tx hf
    have hr := (timesExceed_of_extendBy h).2
    have hh := b.nHeight_extendBy headers
    exact isFinalTx_mono (by omega) (medianTime_mono hr) hf
  · intro tx flags prevHeights heights header header' hp ha
    exact sequenceLocks_extendBy (timesExceed_of_extendBy h).2 hp ha

/-- A transaction whose lock time is a time and whose input has to age 512 seconds. -/
def lockedTx : CTransaction where
  version := 2
  vin := [⟨⟨7,0⟩,[],0x00400001#32,[]⟩]
  vout := [⟨1,[0x51#8]⟩]
  nLockTime := 500000000#32
  hash := 9
  vin_size := by decide
  vout_size := by decide
  scriptSig_size := by decide

/-- A branch and two more blocks, the last of which is earlier than its parent. -/
def shortBranch : CBlockIndex :=
  (genesis ⟨4,500000000#32,0x1d00ffff#32⟩).extend ⟨4,500001000#32,0x1d00ffff#32⟩

def backwardTimes : List CBlockHeader :=
    [⟨4,500002000#32,0x1d00ffff#32⟩,⟨4,500001500#32,0x1d00ffff#32⟩]

theorem timeLocks_monotone_backward_times :
    isFinalTx lockedTx ((shortBranch.extendBy backwardTimes).nHeight + 1)
        (shortBranch.extendBy backwardTimes).getMedianTimePast = true ∧
      sequenceLocks lockedTx 1#32 [0]
        ((shortBranch.extendBy backwardTimes).extend ⟨4, 0, 0⟩) = some (true, [0]) := by
  have hr : (shortBranch.extendBy backwardTimes).TimesExceedMedian := by
    refine ⟨?_,?_,?_,trivial⟩ <;> decide +kernel
  obtain ⟨hf,hl⟩ := timeLocks_monotone.2 _ _ hr
  exact ⟨hf lockedTx (by decide +kernel),
    hl lockedTx 1#32 [0] [0] ⟨4,0,0⟩ ⟨4,0,0⟩ (by decide) (by decide +kernel)⟩

end DripCore
