import DripCore.DifficultyTransition
import DripCore.ValidationState

/-!
# The timewarp floor and the retarget heights

The first block of a difficulty period may not be more than `MAX_TIMEWARP` seconds earlier than its
parent. The miner and the header check recognise it by the remainder of its height modulo
`DifficultyAdjustmentInterval()`, which does not know the fork; from the fork height on this is
compared with the retarget test residue by residue.
-/
namespace DripCore
open CBlockIndex

def maxTimewarp : ℤ := 600

def maxFutureBlockTime : ℤ := 2*60*60

/-- The guard under which both the miner and the header check apply the floor. -/
def timewarpHeight (height difficulty_adjustment_interval : ℤ) : Bool :=
  height.tmod difficulty_adjustment_interval == 0

def getMinimumTime (pindexPrev : CBlockIndex) (difficulty_adjustment_interval : ℤ) : ℤ :=
  let min_time := pindexPrev.getMedianTimePast+1
  let height : ℤ := pindexPrev.nHeight+1
  if timewarpHeight height difficulty_adjustment_interval then
    max min_time (pindexPrev.getBlockTime-maxTimewarp)
  else min_time

/-- The time and difficulty update for a given earliest time, at a given clock reading. -/
def updateTimeFrom (min_time : ℤ) (pblock : CBlockHeader) (params : Params)
    (pindexPrev : CBlockIndex) (now : ℤ) : Option (CBlockHeader × ℤ) := do
  let nOldTime := pblock.getBlockTime
  let nNewTime := max min_time now
  let pblock :=
    if nOldTime < nNewTime then { pblock with nTime := BitVec.ofInt 32 nNewTime } else pblock
  if params.fPowAllowMinDifficultyBlocks then
    let nBits ← getNextWorkRequired pindexPrev pblock params
    return ({ pblock with nBits := nBits },nNewTime-nOldTime)
  else return (pblock,nNewTime-nOldTime)

def updateTime (pblock : CBlockHeader) (params : Params) (pindexPrev : CBlockIndex) (now : ℤ) :
    Option (CBlockHeader × ℤ) :=
  updateTimeFrom (getMinimumTime pindexPrev params.difficultyAdjustmentInterval) pblock params
    pindexPrev now

def templateMinTime (params : Params) (pindexPrev : CBlockIndex) : ℤ :=
  getMinimumTime pindexPrev params.difficultyAdjustmentInterval

/-- The header rules in their order, with the timewarp rule under a given guard. -/
def headerRules (firstOfPeriod : Bool) (block : CBlockHeader) (params : Params)
    (pindexPrev : CBlockIndex) (now : ℤ) :
    Option (Except (Invalid BlockValidationResult) Unit) := do
  let required ← getNextWorkRequired pindexPrev block params
  if block.nBits ≠ required then
    return .error ⟨.invalidHeader,"bad-diffbits","incorrect proof of work"⟩
  if block.getBlockTime ≤ pindexPrev.getMedianTimePast then
    return .error ⟨.invalidHeader,"time-too-old","block's timestamp is too early"⟩
  if params.enforceBIP94 = true ∧ firstOfPeriod = true ∧
      block.getBlockTime < pindexPrev.getBlockTime-maxTimewarp then
    return .error ⟨.invalidHeader,"time-timewarp-attack",
      "block's timestamp is too early on diff adjustment block"⟩
  if now+maxFutureBlockTime < block.getBlockTime then
    return .error ⟨.timeFuture,"time-too-new","block timestamp too far in the future"⟩
  if (block.nVersion < 2 ∧ deploymentActiveAfter (some pindexPrev) params .heightInCb) ∨
      (block.nVersion < 3 ∧ deploymentActiveAfter (some pindexPrev) params .dersig) ∨
      (block.nVersion < 4 ∧ deploymentActiveAfter (some pindexPrev) params .cltv) then
    let version := "0x" ++ (BitVec.ofInt 32 block.nVersion).toHex
    return .error ⟨.invalidHeader,"bad-version(" ++ version ++ ")",
      "rejected nVersion=" ++ version ++ " block"⟩
  return .ok ()

def contextualCheckBlockHeader (block : CBlockHeader) (params : Params)
    (pindexPrev : CBlockIndex) (now : ℤ) :
    Option (Except (Invalid BlockValidationResult) Unit) :=
  let nHeight : ℤ := pindexPrev.nHeight+1
  headerRules (timewarpHeight nHeight params.difficultyAdjustmentInterval) block params pindexPrev
    now

/-- The earliest time when the floor is applied on exactly the retarget heights. -/
def retargetMinimumTime (params : Params) (pindexPrev : CBlockIndex) : ℤ :=
  if isDifficultyAdjustmentBoundary (pindexPrev.nHeight+1) params then
    max (pindexPrev.getMedianTimePast+1) (pindexPrev.getBlockTime-maxTimewarp)
  else pindexPrev.getMedianTimePast+1

/-- On a tip the miner and the header check behave as if guarded by the retarget test of `pow.cpp`.
-/
structure TimewarpOnRetargets (params : Params) (pindexPrev : CBlockIndex) : Prop where
  template : templateMinTime params pindexPrev = retargetMinimumTime params pindexPrev
  update : ∀ pblock now, updateTime pblock params pindexPrev now =
    updateTimeFrom (retargetMinimumTime params pindexPrev) pblock params pindexPrev now
  check : params.enforceBIP94 = true → ∀ block now,
    contextualCheckBlockHeader block params pindexPrev now =
      headerRules (isDifficultyAdjustmentBoundary (pindexPrev.nHeight+1) params) block params
        pindexPrev now

/-- The two tests for the first block of a period agree at a height. -/
def SamePeriodStart (params : Params) (h : ℤ) : Prop :=
  params.nDifficultyForkHeight = 0 ∨ h < params.nDifficultyForkHeight ∨
    (params.difficultyAdjustmentInterval ∣ h ↔ (params.nDifficultyForkHeight : ℤ) < h ∧
      params.difficultyAdjustmentIntervalV2 ∣ h-params.nDifficultyForkHeight)

/-- The floor is not above what the median time already demands. -/
def FloorIdle (pindexPrev : CBlockIndex) : Prop :=
  pindexPrev.getBlockTime-maxTimewarp ≤ pindexPrev.getMedianTimePast+1

theorem timewarp_iff (h i : ℤ) : timewarpHeight h i = true ↔ i ∣ h := by
  rw [timewarpHeight,beq_iff_eq,Int.dvd_iff_tmod_eq_zero]

theorem timewarp_eq_iff (p : Params) (h : ℤ) : timewarpHeight h p.difficultyAdjustmentInterval =
      isDifficultyAdjustmentBoundary h p ↔ SamePeriodStart p h := by
  rw [Bool.eq_iff_iff,timewarp_iff,boundary_iff,SamePeriodStart]
  by_cases hp : p.nDifficultyForkHeight = 0 ∨ h < p.nDifficultyForkHeight
  · have ho : ¬ (0 < p.nDifficultyForkHeight ∧ (p.nDifficultyForkHeight : ℤ) < h ∧
        p.difficultyAdjustmentIntervalV2 ∣ h-p.nDifficultyForkHeight) := by
      rintro ⟨hF,hl,-⟩
      omega
    tauto
  · have hF : 0 < p.nDifficultyForkHeight := by omega
    tauto

theorem minTime_eq_iff (p : Params) (pp : CBlockIndex) :
    templateMinTime p pp = retargetMinimumTime p pp ↔
      SamePeriodStart p (pp.nHeight+1) ∨ FloorIdle pp := by
  rw [← timewarp_eq_iff,FloorIdle]
  simp only [templateMinTime,retargetMinimumTime,getMinimumTime]
  cases timewarpHeight (pp.nHeight+1) p.difficultyAdjustmentInterval <;>
    cases isDifficultyAdjustmentBoundary (pp.nHeight+1) p <;>
    simp

/-- Where the floor is idle, a block that passes the median rule passes the timewarp rule. -/
theorem rules_of_floorIdle {pp : CBlockIndex} (hd : FloorIdle pp)
    (first first' : Bool) (block : CBlockHeader) (p : Params) (now : ℤ) :
    headerRules first block p pp now = headerRules first' block p pp now := by
  rw [FloorIdle] at hd
  simp only [headerRules]
  congr 1
  funext required
  split_ifs with hb hold hw hw' <;> first | rfl | omega

/-- The timewarp rule follows the retargets on a tip exactly when the two period tests agree at the
next height or the floor is idle there. -/
theorem timewarpOnRetargets_iff (params : Params) (pindexPrev : CBlockIndex) :
    TimewarpOnRetargets params pindexPrev ↔
      SamePeriodStart params (pindexPrev.nHeight + 1) ∨ FloorIdle pindexPrev := by
  constructor
  · exact fun h => (minTime_eq_iff params pindexPrev).mp h.template
  · intro h
    have ht := (minTime_eq_iff params pindexPrev).mpr h
    refine ⟨ht,fun p now => ?_,fun _ block now => ?_⟩
    · rw [← ht]
      rfl
    · rcases h with hs | hd
      · rw [← (timewarp_eq_iff params _).mpr hs]
        rfl
      · exact rules_of_floorIdle hd _ _ _ _ _

theorem recentTimes_uniform (b : CBlockHeader) (k n : ℕ) :
    CBlockIndex.recentTimes k (uniformBranch b (n+k)) = List.replicate k b.getBlockTime := by
  induction k with
  | zero => rfl
  | succ k ih =>
    rw [← Nat.add_assoc,uniformBranch,recentTimes,ih,List.replicate_succ]

/-- A branch whose last block is two hours later than all the others. -/
def lateTip (n : ℕ) : CBlockIndex :=
  .extend (uniformBranch ⟨4,1767225600#32,0x1d00ffff#32⟩ n) ⟨4,1767232800#32,0x1d00ffff#32⟩

theorem medianTime_lateTip (n : ℕ) : (lateTip (n+10)).getMedianTimePast = 1767225600 := by
  rw [getMedianTimePast,nMedianTimeSpan,lateTip,recentTimes,recentTimes_uniform]
  decide

@[simp] theorem nHeight_lateTip (n : ℕ) : (lateTip n).nHeight = n+1 := by
  simp [lateTip,nHeight]

theorem minTime_lateTip (p : Params) (n : ℕ) : templateMinTime p (lateTip (n+10)) =
      if timewarpHeight (n+12) p.difficultyAdjustmentInterval then 1767232200
      else 1767225601 := by
  have hh : ((lateTip (n+10)).nHeight : ℤ)+1 = n+12 := by
    rw [nHeight_lateTip]
    push_cast
    ring
  have ht : (lateTip (n+10)).getBlockTime = 1767232800 := rfl
  simp only [templateMinTime,getMinimumTime,hh,medianTime_lateTip,ht]
  rfl

/-- The retarget at height 36008 gets no floor, and height 36288, which does not retarget, gets one.
-/
theorem timewarp_misses_retarget : (isDifficultyAdjustmentBoundary 36008 cDripParams = true ∧
      templateMinTime cDripParams (lateTip 36006) = 1767225601 ∧
      (lateTip 36006).getBlockTime - maxTimewarp = 1767232200) ∧
    (isDifficultyAdjustmentBoundary 36288 cDripParams = false ∧
      templateMinTime cDripParams (lateTip 36286) = 1767232200 ∧
      (lateTip 36286).getMedianTimePast + 1 = 1767225601) ∧
    ¬ TimewarpOnRetargets cDripParams (lateTip 36006) ∧
    ¬ TimewarpOnRetargets cDripParams (lateTip 36286) := by
  have hl : templateMinTime cDripParams (lateTip 36006) = 1767225601 :=
    minTime_lateTip cDripParams 35996
  have hh : templateMinTime cDripParams (lateTip 36286) = 1767232200 :=
    minTime_lateTip cDripParams 36276
  have hm : (lateTip 36286).getMedianTimePast = 1767225600 := medianTime_lateTip 36276
  refine ⟨⟨by decide,hl,rfl⟩,⟨by decide,hh,by rw [hm]; rfl⟩,?_,?_⟩
  · intro h
    have hs := h.template
    rw [hl,retargetMinimumTime,nHeight_lateTip,if_pos (by decide)] at hs
    have hf : (1767232200 : ℤ) ≤ 1767225601 := hs ▸ le_max_right _ _
    omega
  · intro h
    have hs := h.template
    rw [hh,retargetMinimumTime,nHeight_lateTip,if_neg (by decide),hm] at hs
    omega

end DripCore
