import DripCore.ConsensusParams

/-!
# Difficulty retargeting across the interval fork

The rules of `pow.cpp`. An interval of `nPowTargetTimespan / nPowTargetSpacing` blocks is in force
below the fork height and one of `nPowTargetTimespanV2 / nPowTargetSpacing` from it on; the fork
height itself does not retarget. A failed assertion, a null dereference and a thrown `uint_error`
are the result `none`. Remainders by a zero interval, undefined in the source, are the dividend. At
every retarget the measured period is the interval that ends there, whole and on one side of the
fork.
-/
namespace DripCore
open CompactTarget Int

def isDifficultyAdjustmentBoundary (height : ℤ) (params : Params) : Bool :=
  if params.nDifficultyForkHeight = 0 ∨ height < params.nDifficultyForkHeight then
    height.tmod params.difficultyAdjustmentInterval == 0
  else if height = params.nDifficultyForkHeight then false
  else (height-params.nDifficultyForkHeight).tmod
    (params.difficultyAdjustmentIntervalAtHeight height) == 0

def getDifficultyPeriodStart (height : ℤ) (params : Params) : ℤ :=
  let interval := params.difficultyAdjustmentIntervalAtHeight height
  if params.nDifficultyForkHeight = 0 ∨ height < params.nDifficultyForkHeight then
    height-height.tmod interval
  else
    let heightSinceFork := height-params.nDifficultyForkHeight
    let periodsSinceFork := heightSinceFork.tdiv interval
    params.nDifficultyForkHeight+periodsSinceFork*interval

/-- Multiplication keeps the low 32 bits of its signed 64-bit factor. -/
def mulTimespan (target : ArithUint256) (timespan : ℤ) : ArithUint256 :=
  target*(BitVec.ofInt 32 timespan).setWidth 256

/-- Division widens its signed 64-bit divisor; a zero divisor throws. -/
def divTimespan (target : ArithUint256) (timespan : ℤ) : Option ArithUint256 :=
  let divisor := (BitVec.ofInt 64 timespan).setWidth 256
  if divisor = 0#256 then none else some (target / divisor)

def limitTarget (powLimit target : ArithUint256) : ArithUint256 :=
  if powLimit < target then powLimit else target

/-- A target times one time span, divided by another and limited. -/
def scaleTarget (powLimit target : ArithUint256) (factor divisor : ℤ) : Option ArithUint256 :=
  (divTimespan (mulTimespan target factor) divisor).map (limitTarget powLimit)

/-- The measured time span after the adjustment step is limited. -/
def limitTimespan (nPowTargetTimespan nActualTimespan : ℤ) : ℤ :=
  let nActualTimespan :=
    if nActualTimespan < nPowTargetTimespan.tdiv 4 then nPowTargetTimespan.tdiv 4
    else nActualTimespan
  if nPowTargetTimespan*4 < nActualTimespan then nPowTargetTimespan*4 else nActualTimespan

/-- The first block of the period as the BIP94 branch computes it. -/
def bip94HeightFirst (pindexLast : CBlockIndex) (params : Params) (nextHeight : ℤ) : ℤ :=
  pindexLast.nHeight-(params.difficultyAdjustmentIntervalAtHeight nextHeight-1)

def calculateNextWorkRequired (pindexLast : CBlockIndex) (nFirstBlockTime : ℤ)
    (params : Params) (nextHeight : ℤ) : Option (BitVec 32) :=
  if params.fPowNoRetargeting then some pindexLast.nBits else do
    let nPowTargetTimespan := params.powTargetTimespanAtHeight nextHeight
    let nActualTimespan :=
      limitTimespan nPowTargetTimespan (pindexLast.getBlockTime-nFirstBlockTime)
    let nBits ←
      if params.enforceBIP94 then
        (pindexLast.getAncestor (bip94HeightFirst pindexLast params nextHeight)).map
          CBlockIndex.nBits
      else some pindexLast.nBits
    let bnNew ← scaleTarget params.powLimit (setCompact nBits).target nActualTimespan
      nPowTargetTimespan
    return getCompact bnNew false

/-- The walk back over minimum-difficulty blocks inside one period. -/
def lastNonMinDifficultyBits (params : Params) (nProofOfWorkLimit : BitVec 32) : CBlockIndex →
    BitVec 32
  | .genesis b => b.nBits
  | .extend p b =>
    if isDifficultyAdjustmentBoundary (p.nHeight+1) params = false ∧
        b.nBits = nProofOfWorkLimit then
      lastNonMinDifficultyBits params nProofOfWorkLimit p
    else b.nBits

/-- The height of the block whose time starts the measured period. -/
def firstBlockHeight (pindexLast : CBlockIndex) (params : Params) : ℤ :=
  let nextHeight : ℤ := pindexLast.nHeight+1
  let nHeightFirst := getDifficultyPeriodStart pindexLast.nHeight params
  let nHeightFirst :=
    if nHeightFirst = pindexLast.nHeight then
      let interval := params.difficultyAdjustmentIntervalAtHeight nextHeight
      let nHeightFirst := pindexLast.nHeight-(interval-1)
      if 0 < params.nDifficultyForkHeight ∧ (params.nDifficultyForkHeight : ℤ) < nextHeight ∧
          nHeightFirst < params.nDifficultyForkHeight then
        (params.nDifficultyForkHeight : ℤ)-1
      else nHeightFirst
    else nHeightFirst
  if nHeightFirst < 0 then 0 else nHeightFirst

def getNextWorkRequired (pindexLast : CBlockIndex) (pblock : CBlockHeader) (params : Params) :
    Option (BitVec 32) :=
  let nProofOfWorkLimit := getCompact params.powLimit false
  let nextHeight : ℤ := pindexLast.nHeight+1
  if isDifficultyAdjustmentBoundary nextHeight params = false then
    if params.fPowAllowMinDifficultyBlocks then
      if pindexLast.getBlockTime+params.nPowTargetSpacing*2 < pblock.getBlockTime then
        some nProofOfWorkLimit
      else some (lastNonMinDifficultyBits params nProofOfWorkLimit pindexLast)
    else some pindexLast.nBits
  else do
    let pindexFirst ← pindexLast.getAncestor (firstBlockHeight pindexLast params)
    calculateNextWorkRequired pindexLast pindexFirst.getBlockTime params nextHeight

def permittedDifficultyTransition (params : Params) (height : ℤ)
    (old_nbits new_nbits : BitVec 32) : Option Bool :=
  if params.fPowAllowMinDifficultyBlocks then some true
  else if isDifficultyAdjustmentBoundary height params then do
    let nPowTargetTimespan := params.powTargetTimespanAtHeight height
    let smallest_timespan := nPowTargetTimespan.tdiv 4
    let largest_timespan := nPowTargetTimespan*4
    let observed_new_target := (setCompact new_nbits).target
    let largest_difficulty_target ← scaleTarget params.powLimit (setCompact old_nbits).target
      largest_timespan nPowTargetTimespan
    let maximum_new_target := roundCompact largest_difficulty_target
    if maximum_new_target < observed_new_target then return false
    let smallest_difficulty_target ← scaleTarget params.powLimit (setCompact old_nbits).target
      smallest_timespan nPowTargetTimespan
    let minimum_new_target := roundCompact smallest_difficulty_target
    if observed_new_target < minimum_new_target then return false
    return true
  else some (old_nbits == new_nbits)

def Params.difficultyAdjustmentIntervalV2 (p : Params) : ℤ :=
  p.nPowTargetTimespanV2.tdiv p.nPowTargetSpacing

/-- The interval the law assigns to a retarget at a height. -/
def periodLength (params : Params) (h : ℤ) : ℤ :=
  if params.nDifficultyForkHeight = 0 ∨ h < params.nDifficultyForkHeight then
    params.difficultyAdjustmentInterval
  else params.difficultyAdjustmentIntervalV2

theorem interval_eq (params : Params) (h : ℤ) :
    params.difficultyAdjustmentIntervalAtHeight h = periodLength params h := by
  unfold Params.difficultyAdjustmentIntervalAtHeight periodLength
  split_ifs <;> first | rfl | omega

theorem boundary_iff (params : Params) (h : ℤ) : isDifficultyAdjustmentBoundary h params = true ↔
      ((params.nDifficultyForkHeight = 0 ∨ h < params.nDifficultyForkHeight) ∧
        params.difficultyAdjustmentInterval ∣ h) ∨
      (0 < params.nDifficultyForkHeight ∧ (params.nDifficultyForkHeight : ℤ) < h ∧
        params.difficultyAdjustmentIntervalV2 ∣ h-params.nDifficultyForkHeight) := by
  unfold isDifficultyAdjustmentBoundary
  split_ifs with hp he
  · rw [beq_iff_eq,← dvd_iff_tmod_eq_zero]
    constructor
    · exact fun hd => Or.inl ⟨hp,hd⟩
    · rintro (⟨-,hd⟩ | ⟨hF,hl,-⟩)
      · exact hd
      · omega
  · constructor
    · intro hf
      exact absurd hf (by decide)
    · rintro (⟨hp',-⟩ | ⟨-,hl,-⟩)
      · exact absurd hp' hp
      · omega
  · have ho : periodLength params h = params.difficultyAdjustmentIntervalV2 := by
      rw [periodLength,if_neg hp]
    rw [beq_iff_eq,← dvd_iff_tmod_eq_zero,interval_eq,ho]
    constructor
    · exact fun hd => Or.inr ⟨by omega,by omega,hd⟩
    · rintro (⟨hp',-⟩ | ⟨-,-,hd⟩)
      · exact absurd hp' hp
      · exact hd

/-- One step before a multiple of the interval, the period began one interval earlier. -/
theorem period_of_dvd {I m : ℤ} (hI : 0 < I) (hd : I ∣ m) : (m-1) % I = I-1 ∧
    (m-1) / I*I = m-I := by
  obtain ⟨k,rfl⟩ := hd
  have hs : I*k-1 = (I-1)+I*(k-1) := by ring
  have hm : (I*k-1) % I = I-1 := by
    rw [hs,add_mul_emod_self_left]
    exact emod_eq_of_lt (by omega) (by omega)
  refine ⟨hm,?_⟩
  have hdm := emod_add_mul_ediv (I*k-1) I
  linarith [mul_comm I ((I*k-1) / I)]

variable {h : ℤ} {params : Params}

theorem periodStart_nonneg (h0 : 1 ≤ h) (hb : isDifficultyAdjustmentBoundary h params = true) :
    0 ≤ h-periodLength params h := by
  rcases (boundary_iff params h).mp hb with ⟨hp,hd⟩ | ⟨hF,ht,hd⟩
  · have hl := le_of_dvd (by omega) hd
    rw [periodLength]
    omega
  · have hl := le_of_dvd (by omega) hd
    rw [periodLength]
    omega

/-- A window never straddles the fork height. -/
theorem window_one_side (hb : isDifficultyAdjustmentBoundary h params = true) :
    params.nDifficultyForkHeight = 0 ∨ h-1 < params.nDifficultyForkHeight ∨
      (params.nDifficultyForkHeight : ℤ) ≤ h-periodLength params h := by
  rcases (boundary_iff params h).mp hb with ⟨hp,-⟩ | ⟨hF,hl,hd⟩
  · omega
  · have he := le_of_dvd (by omega) hd
    rw [periodLength]
    omega

/-- Between two retargets there is room for the whole later window. -/
theorem windows_disjoint {h' : ℤ} (ht : h < h')
    (hb : isDifficultyAdjustmentBoundary h params = true)
    (hb' : isDifficultyAdjustmentBoundary h' params = true) :
    h ≤ h'-periodLength params h' := by
  rcases (boundary_iff params h').mp hb' with ⟨hp',hd'⟩ | ⟨hF,ht',hd'⟩
  · have hp : params.nDifficultyForkHeight = 0 ∨ h < params.nDifficultyForkHeight := by omega
    rcases (boundary_iff params h).mp hb with ⟨-,hd⟩ | ⟨hF,hg,-⟩
    · have hl := le_of_dvd (by omega) (dvd_sub hd' hd)
      rw [periodLength]
      omega
    · omega
  · rw [periodLength]
    rcases (boundary_iff params h).mp hb with ⟨hp,-⟩ | ⟨-,hg,hd⟩
    · have hl := le_of_dvd (by omega) hd'
      omega
    · have hl := le_of_dvd (by omega) (dvd_sub hd' hd)
      omega

section
variable {p : Params}
variable (h₁ : 2 ≤ p.difficultyAdjustmentInterval)
variable (h₂ : 0 < p.nDifficultyForkHeight → 2 ≤ p.difficultyAdjustmentIntervalV2)

include h₁ h₂ in
theorem two_le_periodLength (h : ℤ) : 2 ≤ periodLength p h := by
  unfold periodLength
  split_ifs with hp
  · exact h₁
  · exact h₂ (by omega)

include h₁ h₂ in
/-- The period that contains the last block began one whole interval before the retarget. -/
theorem periodStart_boundary {h : ℤ} (h0 : 1 ≤ h) (hb : isDifficultyAdjustmentBoundary h p = true) :
    getDifficultyPeriodStart (h-1) p = h-periodLength p h := by
  rcases (boundary_iff p h).mp hb with ⟨hp,hd⟩ | ⟨hF,hl,hd⟩
  · have hp' : p.nDifficultyForkHeight = 0 ∨ h-1 < p.nDifficultyForkHeight := by
      omega
    unfold getDifficultyPeriodStart
    rw [if_pos hp',interval_eq,periodLength,periodLength,if_pos hp',if_pos hp,
      tmod_eq_emod_of_nonneg (by omega),(period_of_dvd (by omega) hd).1]
    omega
  · have ho : ¬ (p.nDifficultyForkHeight = 0 ∨ h < p.nDifficultyForkHeight) := by
      omega
    have ho' : ¬ (p.nDifficultyForkHeight = 0 ∨ h-1 < p.nDifficultyForkHeight) := by
      omega
    have hI := h₂ hF
    unfold getDifficultyPeriodStart
    rw [if_neg ho',interval_eq,periodLength,periodLength,if_neg ho',
      if_neg ho]
    dsimp only
    rw [tdiv_eq_ediv_of_nonneg (by omega),
      show h-1-(p.nDifficultyForkHeight : ℤ) = h-p.nDifficultyForkHeight-1 by ring,
      (period_of_dvd (by omega) hd).2]
    omega

include h₁ h₂ in
/-- None of the three fallback branches is ever reached with a different value. -/
theorem firstHeight_of_boundary (pl : CBlockIndex)
    (hb : isDifficultyAdjustmentBoundary (pl.nHeight+1) p = true) :
    firstBlockHeight pl p = pl.nHeight+1-periodLength p (pl.nHeight+1) := by
  have hl := two_le_periodLength h₁ h₂ (pl.nHeight+1)
  have hs := periodStart_boundary h₁ h₂ (by omega) hb
  have hn := periodStart_nonneg (by omega) hb
  rw [show (pl.nHeight : ℤ)+1-1 = pl.nHeight by ring] at hs
  unfold firstBlockHeight
  simp only [hs]
  rw [if_neg (by omega),if_neg (by omega)]

end

/-- The block that starts the measured period is the ancestor one interval back, the branches that
would move it are never taken, the window lies on one side of the fork and ends before the next one
begins, and the BIP94 rule reads the same block. -/
theorem retarget_window_law (pindexLast : CBlockIndex) (pblock : CBlockHeader)
    (params : Params) (h₁ : 2 ≤ params.difficultyAdjustmentInterval)
    (h₂ : 0 < params.nDifficultyForkHeight → 2 ≤ params.difficultyAdjustmentIntervalV2)
    (hb : isDifficultyAdjustmentBoundary (pindexLast.nHeight + 1) params = true) :
    let h : ℤ := pindexLast.nHeight + 1
    let start := h - periodLength params h
    (∃ pindexFirst, pindexLast.getAncestor start = some pindexFirst ∧
    (pindexFirst.nHeight : ℤ) = start ∧
      getNextWorkRequired pindexLast pblock params =
        calculateNextWorkRequired pindexLast pindexFirst.getBlockTime params h ∧
      pindexLast.getAncestor (bip94HeightFirst pindexLast params h) = some pindexFirst) ∧
    (getDifficultyPeriodStart pindexLast.nHeight params = start ∧
      start ≠ pindexLast.nHeight ∧ 0 ≤ start ∧ firstBlockHeight pindexLast params = start) ∧
    (params.nDifficultyForkHeight = 0 ∨ h - 1 < params.nDifficultyForkHeight ∨
      (params.nDifficultyForkHeight : ℤ) ≤ start) ∧
    ∀ h', h < h' → isDifficultyAdjustmentBoundary h' params = true →
      h - 1 < h' - periodLength params h' := by
  intro h start
  have hl := two_le_periodLength h₁ h₂ h
  have hn : 0 ≤ start := periodStart_nonneg (by omega) hb
  have hf : firstBlockHeight pindexLast params = start :=
    firstHeight_of_boundary h₁ h₂ pindexLast hb
  have hp : getDifficultyPeriodStart pindexLast.nHeight params = start := by
    rw [show (pindexLast.nHeight : ℤ) = h-1 by omega]
    exact periodStart_boundary h₁ h₂ (by omega) hb
  have he : start ≤ pindexLast.nHeight := by omega
  obtain ⟨pindexFirst,ha,hh⟩ := pindexLast.ancestor_of_le hn he
  refine ⟨⟨pindexFirst,ha,hh,?_,?_⟩,⟨hp,by omega,hn,hf⟩,window_one_side hb,?_⟩
  · simp only [getNextWorkRequired,hb,Bool.true_eq_false,if_false,hf,ha,
      Option.bind_eq_bind,Option.bind_some]
    rfl
  · rw [bip94HeightFirst,interval_eq,← ha]
    congr 1
    omega
  · intro h' ht hb'
    have := windows_disjoint ht hb hb'
    omega

/-- Four-block periods before height 6 and two-block periods from there on. -/
def shortPeriodParams : Params :=
  { cDripParams with
    nPowTargetSpacing := 1, nPowTargetTimespan := 4
    nDifficultyForkHeight := 6, nPowTargetTimespanV2 := 2 }

/-- A branch of blocks with one header, at a given height. -/
def uniformBranch (b : CBlockHeader) : ℕ → CBlockIndex
  | 0 => .genesis b
  | n+1 => .extend (uniformBranch b n) b

@[simp] theorem nHeight_uniform (b : CBlockHeader) (n : ℕ) : (uniformBranch b n).nHeight = n := by
  induction n with
  | zero => rfl
  | succ n ih => simp [uniformBranch,CBlockIndex.nHeight,ih]

theorem retarget_window_law_after_fork : isDifficultyAdjustmentBoundary 8 shortPeriodParams = true ∧
      firstBlockHeight (uniformBranch ⟨4, 0#32, 0x1d00ffff#32⟩ 7) shortPeriodParams = 6 :=
  ⟨by decide,(retarget_window_law (uniformBranch ⟨4,0#32,0x1d00ffff#32⟩ 7)
    ⟨4,0#32,0x1d00ffff#32⟩ shortPeriodParams (by decide) (by decide) (by decide)).2.1.2.2.2⟩

end DripCore
