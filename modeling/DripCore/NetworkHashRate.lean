import DripCore.Retarget

/-!
# The hash rate since the last difficulty change

Without a number of blocks to look back, `GetNetworkHashPS` takes one more than the remainder of the
height by the interval before the fork, also after it, where periods are counted from the fork
height. The rate is the exact quotient of work and time.
-/
namespace DripCore
open CBlockIndex Int

def CBlockIndex.nChainWork : CBlockIndex → CompactTarget.ArithUint256
  | genesis b => getBlockProof b.nBits
  | extend p b => p.nChainWork+getBlockProof b.nBits

inductive HashRateFailure where
  | rpcError (code : ℤ) (message : String)
  | nullDereference
deriving DecidableEq

def rpcInvalidParameter : ℤ := -8

def lookBackLength (params : Params) (pb : CBlockIndex) (lookup : ℤ) : ℤ :=
  let lookup :=
    if lookup = -1 then (pb.nHeight : ℤ).tmod params.difficultyAdjustmentInterval+1 else lookup
  if (pb.nHeight : ℤ) < lookup then pb.nHeight else lookup

/-- The block that the loop ends at, with the least and the greatest time on the way. -/
def lookBack : ℕ → CBlockIndex → ℤ → ℤ → Option (CBlockIndex × ℤ × ℤ)
  | 0, pb0, minTime, maxTime => some (pb0,minTime,maxTime)
  | n+1, pb0, minTime, maxTime =>
    match pb0.pprev with
    | none => none
    | some pb0 => lookBack n pb0 (min pb0.getBlockTime minTime) (max pb0.getBlockTime maxTime)

def lookBackFrom (params : Params) (pb : CBlockIndex) (lookup : ℤ) : Option (CBlockIndex × ℤ × ℤ) :=
  lookBack (lookBackLength params pb lookup).toNat pb pb.getBlockTime pb.getBlockTime

def getNetworkHashPS (lookup height : ℤ) (active_chain : Option CBlockIndex) (params : Params) :
    Except HashRateFailure ℚ :=
  let chainHeight : ℤ := active_chain.elim (-1) fun tip => tip.nHeight
  if lookup < -1 ∨ lookup = 0 then
    .error (.rpcError rpcInvalidParameter "Invalid nblocks. Must be a positive number or -1.")
  else if height < -1 ∨ chainHeight < height then
    .error (.rpcError rpcInvalidParameter "Block does not exist at specified height")
  else
    match if 0 ≤ height then active_chain.bind (·.getAncestor height) else active_chain with
    | none => .ok 0
    | some pb =>
      if pb.nHeight = 0 then .ok 0
      else
        match lookBackFrom params pb lookup with
        | none => .error .nullDereference
        | some (pb0,minTime,maxTime) =>
          if minTime = maxTime then .ok 0
          else .ok ((pb.nChainWork-pb0.nChainWork).toNat / (maxTime-minTime))

namespace CBlockIndex

/-- The parent of a block, or the block itself if it is the genesis block. -/
def parentOrGenesis : CBlockIndex → CBlockIndex
  | genesis b => genesis b
  | extend p _ => p

theorem ancestorWalk_self (b : CBlockIndex) : b.ancestorWalk b.nHeight = b := by
  cases b with
  | genesis b => rfl
  | extend p b => simp [ancestorWalk,nHeight]

theorem ancestorWalk_pred {b : CBlockIndex} {height : ℤ} (h1 : height ≤ b.nHeight) :
    (b.ancestorWalk height).parentOrGenesis = b.ancestorWalk (max (height-1) 0) := by
  induction b with
  | genesis b => rfl
  | extend p b ih =>
    by_cases hl : height < p.nHeight+1
    · rw [ancestorWalk,if_pos hl,ih (by omega),ancestorWalk,if_pos (by omega)]
    · have he : height = p.nHeight+1 := by
        simp only [nHeight] at h1
        omega
      rw [ancestorWalk,if_neg hl,ancestorWalk,if_pos (by omega),he,add_sub_cancel_right,
        max_eq_left (natCast_nonneg _),ancestorWalk_self]
      rfl

end CBlockIndex

section
variable {params : Params} {pb : CBlockIndex}

theorem lookBack_eq {n : ℕ} (hn : n ≤ pb.nHeight) (m mt : ℤ) : ∃ m' mt',
    lookBack n pb m mt = some (pb.ancestorWalk (pb.nHeight-n),m',mt') := by
  induction n generalizing pb m mt with
  | zero =>
    rw [Nat.cast_zero,sub_zero,ancestorWalk_self]
    exact ⟨m,mt,rfl⟩
  | succ n ih =>
    cases pb with
    | genesis b => exact absurd hn (Nat.not_succ_le_zero n)
    | extend p b =>
      obtain ⟨m',mt',he⟩ := ih (Nat.le_of_succ_le_succ hn) (min p.getBlockTime m)
        (max p.getBlockTime mt)
      refine ⟨m',mt',?_⟩
      have hw : (extend p b).ancestorWalk ((extend p b).nHeight-((n+1 : ℕ) : ℤ)) =
        p.ancestorWalk (p.nHeight-n) := by
        simp only [nHeight,Nat.cast_add,add_sub_add_right_eq_sub]
        rw [ancestorWalk,if_pos (by omega)]
      rw [hw]
      exact he

/-- The loop never goes past the genesis block. -/
theorem getNetworkHashPS_safe (lookup height : ℤ) (active_chain : Option CBlockIndex)
    (params : Params) :
    getNetworkHashPS lookup height active_chain params ≠ .error .nullDereference := by
  simp only [getNetworkHashPS]
  generalize (if 0 ≤ height then _ else active_chain) = block
  split_ifs
  · simp
  · simp
  · cases block with
    | none => simp
    | some pb =>
      have hl : (lookBackLength params pb lookup).toNat ≤ pb.nHeight := by
        rw [lookBackLength]
        split_ifs <;> omega
      obtain ⟨m,mt,h⟩ := lookBack_eq hl pb.getBlockTime pb.getBlockTime
      have hf : lookBackFrom params pb lookup = _ := h
      simp only [hf]
      split_ifs <;> simp

/-- The block at which the loop ends for a look back over the difficulty period. -/
def measuredFrom (params : Params) (pb : CBlockIndex) : Option CBlockIndex :=
  (lookBackFrom params pb (-1)).map Prod.fst

theorem emod_le_of_nonneg {h I : ℤ} (h0 : 0 ≤ h) (hI : 0 < I) : h % I ≤ h := by
  have hd := mul_nonneg hI.le (ediv_nonneg h0 hI.le)
  have hs := mul_ediv_add_emod h I
  omega

theorem measuredFrom_eq (hI : 0 < params.difficultyAdjustmentInterval) :
    measuredFrom params pb = some (pb.ancestorWalk
      (max ((pb.nHeight : ℤ)-pb.nHeight % params.difficultyAdjustmentInterval-1) 0)) := by
  have hm := emod_nonneg (pb.nHeight : ℤ) hI.ne'
  have hl : lookBackLength params pb (-1) =
      min (pb.nHeight : ℤ) (pb.nHeight % params.difficultyAdjustmentInterval+1) := by
    rw [lookBackLength,if_pos rfl,tmod_eq_emod_of_nonneg (natCast_nonneg _)]
    split_ifs with ht
    · exact (min_eq_left ht.le).symm
    · exact (min_eq_right (not_lt.mp ht)).symm
  have hn : (lookBackLength params pb (-1)).toNat ≤ pb.nHeight := by omega
  obtain ⟨mt,m,he⟩ := lookBack_eq hn pb.getBlockTime pb.getBlockTime
  have hh : (pb.nHeight : ℤ)-((lookBackLength params pb (-1)).toNat : ℤ) =
      max ((pb.nHeight : ℤ)-pb.nHeight % params.difficultyAdjustmentInterval-1) 0 := by
    omega
  rw [measuredFrom,lookBackFrom,he,hh]
  rfl

end

section
variable {params : Params} {h : ℤ}

/-- The first block of the period that a height is in. -/
def periodFirst (params : Params) (h : ℤ) : ℤ :=
  if params.nDifficultyForkHeight = 0 ∨ h < params.nDifficultyForkHeight then
    h-h % params.difficultyAdjustmentInterval
  else if h < params.nDifficultyForkHeight+params.difficultyAdjustmentIntervalV2 then
    (params.nDifficultyForkHeight-1) -
      (params.nDifficultyForkHeight-1 : ℤ) % params.difficultyAdjustmentInterval
  else h-(h-params.nDifficultyForkHeight) % params.difficultyAdjustmentIntervalV2

theorem greatest_multiple {I m : ℤ} (hI : 0 < I) : IsGreatest {t | I ∣ t ∧ t ≤ m} (m-m % I) := by
  have hm := emod_nonneg m hI.ne'
  have hm' := emod_lt_of_pos m hI
  have hv : I ∣ m-m % I := dvd_self_sub_emod
  refine ⟨⟨hv,by omega⟩,fun t ⟨hd,hl⟩ => ?_⟩
  by_contra hlt
  have hs := le_of_dvd (by omega) (dvd_sub hd hv)
  omega

theorem greatest_first (hI : 0 < params.difficultyAdjustmentInterval)
    (hI2 : 0 < params.nDifficultyForkHeight → 0 < params.difficultyAdjustmentIntervalV2)
    (h0 : 0 ≤ h) :
    IsGreatest {t | 0 ≤ t ∧ t ≤ h ∧ isDifficultyAdjustmentBoundary t params = true}
      (periodFirst params h) := by
  unfold periodFirst
  split_ifs with hp hf
  · obtain ⟨⟨hd,hl⟩,hg⟩ := greatest_multiple (m := h) hI
    have hm := emod_le_of_nonneg h0 hI
    refine ⟨⟨by omega,hl,?_⟩,fun t ⟨_,ht,hb⟩ => hg ⟨?_,ht⟩⟩
    · exact (boundary_iff params _).mpr (.inl ⟨by omega,hd⟩)
    · rcases (boundary_iff params t).mp hb with ⟨_,hdt⟩ | ⟨_,hlt,_⟩
      · exact hdt
      · omega
  · -- no boundary from the fork height on up to this height
    obtain ⟨⟨hd,hl⟩,hg⟩ := greatest_multiple (m := params.nDifficultyForkHeight-1) hI
    have hm := emod_le_of_nonneg (h := params.nDifficultyForkHeight-1) (by omega) hI
    refine ⟨⟨by omega,by omega,?_⟩,fun t ⟨_,ht,hb⟩ => ?_⟩
    · exact (boundary_iff params _).mpr (.inl ⟨by omega,hd⟩)
    · rcases (boundary_iff params t).mp hb with ⟨hp',hdt⟩ | ⟨_,hlt,hdt⟩
      · exact hg ⟨hdt,by omega⟩
      · have hst := le_of_dvd (by omega) hdt
        omega
  · push Not at hp hf
    have hI2 := hI2 (by omega)
    obtain ⟨⟨hd,hl⟩,hg⟩ := greatest_multiple (m := h-params.nDifficultyForkHeight) hI2
    have ho := hg ⟨dvd_refl params.difficultyAdjustmentIntervalV2,by omega⟩
    have hs : h-(h-params.nDifficultyForkHeight) % params.difficultyAdjustmentIntervalV2 -
        params.nDifficultyForkHeight = h-params.nDifficultyForkHeight -
        (h-params.nDifficultyForkHeight) % params.difficultyAdjustmentIntervalV2 := by ring
    refine ⟨⟨by omega,by omega,?_⟩,fun t ⟨_,ht,hb⟩ => ?_⟩
    · exact (boundary_iff params _).mpr (.inr ⟨by omega,by omega,hs ▸ hd⟩)
    · rcases (boundary_iff params t).mp hb with ⟨hp',_⟩ | ⟨_,_,hdt⟩
      · omega
      · have hl' := hg ⟨hdt,by omega⟩
        omega

/-- What the height must be like for the look back to be that of its period. -/
def LooksBackOnePeriod (params : Params) (h : ℤ) : Prop :=
  h = 1 ∨ params.nDifficultyForkHeight = 0 ∨ h < params.nDifficultyForkHeight ∨
    (h < params.nDifficultyForkHeight+params.difficultyAdjustmentIntervalV2 ∧
      h-h % params.difficultyAdjustmentInterval < params.nDifficultyForkHeight) ∨
    (params.nDifficultyForkHeight+params.difficultyAdjustmentIntervalV2 ≤ h ∧
      (h-params.nDifficultyForkHeight) % params.difficultyAdjustmentIntervalV2 =
        h % params.difficultyAdjustmentInterval)

/-- A period before the fork does not begin at 1, except for intervals of one block. -/
theorem multiple_ne_one {I : ℤ} (hI : 0 < I) (h2 : 2 ≤ h) : h-h % I ≠ 1 := by
  intro he
  obtain ⟨⟨hd,_⟩,hg⟩ := greatest_multiple (m := h) hI
  have ho : I = 1 := by
    rw [he] at hd
    exact eq_one_of_dvd_one hI.le hd
  have hl := hg ⟨ho ▸ one_dvd h,le_refl h⟩
  omega

theorem max_periodFirst_eq_iff (hI : 0 < params.difficultyAdjustmentInterval)
    (hI2 : 0 < params.nDifficultyForkHeight → 0 < params.difficultyAdjustmentIntervalV2)
    (h1 : 1 ≤ h) :
    max (h-h % params.difficultyAdjustmentInterval-1) 0 = max (periodFirst params h-1) 0 ↔
      LooksBackOnePeriod params h := by
  obtain ⟨⟨hn,he,_⟩,_⟩ := greatest_first hI hI2 (h := h) (by omega)
  obtain ⟨⟨hd,he'⟩,hg⟩ := greatest_multiple (m := h) hI
  unfold LooksBackOnePeriod
  by_cases ho : h = 1
  · exact iff_of_true (by omega) (.inl ho)
  · have hne := multiple_ne_one hI (h := h) (by omega)
    unfold periodFirst
    split_ifs with hp hf
    · exact iff_of_true rfl (by omega)
    · push Not at hp
      obtain ⟨⟨hdF,hl⟩,hr⟩ := greatest_multiple (m := params.nDifficultyForkHeight-1) hI
      have hh := hg ⟨hdF,by omega⟩
      have hs (ht : h-h % params.difficultyAdjustmentInterval < params.nDifficultyForkHeight) :=
        hr ⟨hd,le_sub_one_of_lt ht⟩
      omega
    · push Not at hp hf
      obtain ⟨_,hg2⟩ := greatest_multiple (m := h-params.nDifficultyForkHeight) (hI2 (by omega))
      have hf2 := hg2 ⟨dvd_refl params.difficultyAdjustmentIntervalV2,by omega⟩
      omega

end

/-- The look back ends at the parent of the first block of the period exactly for such heights. -/
theorem networkHashPS_measures_period_iff (params : Params) (pb : CBlockIndex) (s : ℤ)
    (hI : 0 < params.difficultyAdjustmentInterval)
    (hI₂ : 0 < params.nDifficultyForkHeight → 0 < params.difficultyAdjustmentIntervalV2)
    (hpb : 1 ≤ pb.nHeight)
    (hs : IsGreatest {t : ℤ | 0 ≤ t ∧ t ≤ pb.nHeight ∧ isDifficultyAdjustmentBoundary t params =
      true} s) :
    measuredFrom params pb = some (pb.ancestorWalk s).parentOrGenesis ↔
      LooksBackOnePeriod params pb.nHeight := by
  have ho : (1 : ℤ) ≤ pb.nHeight := by exact_mod_cast hpb
  have hm := emod_nonneg (pb.nHeight : ℤ) hI.ne'
  obtain rfl : s = periodFirst params pb.nHeight := hs.unique (greatest_first hI hI₂ (by omega))
  have hl := hs.1.2.1
  rw [← max_periodFirst_eq_iff hI hI₂ ho,measuredFrom_eq hI,ancestorWalk_pred hl,Option.some.injEq]
  constructor
  · intro he
    have hh := congrArg (fun b : CBlockIndex => (b.nHeight : ℤ)) he
    rwa [nHeight_walk pb (le_max_right _ _) (by omega),
      nHeight_walk pb (le_max_right _ _) (by omega)] at hh
  · exact fun he => congrArg _ he

/-- In a period before the fork. -/
theorem networkHashPS_measures_period_before_fork :
    measuredFrom cDripParams (uniformBranch ⟨4, 0#32, 0x1d00ffff#32⟩ 4040) =
      some ((uniformBranch ⟨4, 0#32, 0x1d00ffff#32⟩ 4040).ancestorWalk 4032).parentOrGenesis := by
  have hs : IsGreatest {t : ℤ | 0 ≤ t ∧ t ≤ 4040 ∧ isDifficultyAdjustmentBoundary t cDripParams =
    true}
      (periodFirst cDripParams 4040) :=
    greatest_first (by decide) (by decide) (by decide)
  rw [show periodFirst cDripParams 4040 = 4032 by decide] at hs
  refine (networkHashPS_measures_period_iff cDripParams (uniformBranch ⟨4,0#32,0x1d00ffff#32⟩ 4040)
    4032
    (by decide) (by decide) ?_ ?_).mpr ?_
  · rw [nHeight_uniform]
    decide
  · rw [nHeight_uniform]
    exact hs
  · rw [nHeight_uniform]
    exact .inr (.inr (.inl (by decide)))

/-- At the first retarget after the fork the look back goes on for 3753 blocks. -/
theorem networkHashPS_looks_back_too_far : isDifficultyAdjustmentBoundary 36008 cDripParams = true ∧
      (measuredFrom cDripParams (uniformBranch ⟨4, 0#32, 0x1d00ffff#32⟩ 36008)).map
        CBlockIndex.nHeight =
        some 32255 ∧
      ((uniformBranch ⟨4, 0#32, 0x1d00ffff#32⟩ 36008).ancestorWalk 36008).parentOrGenesis.nHeight =
        36007 := by
  have hw (height : ℤ) (h₀ : 0 ≤ height) (h₁ : height ≤ 36008) :
      (((uniformBranch ⟨4,0#32,0x1d00ffff#32⟩ 36008).ancestorWalk height).nHeight : ℤ) =
        height := by
    refine nHeight_walk _ h₀ ?_
    rw [nHeight_uniform]
    exact h₁
  refine ⟨by decide,?_,?_⟩
  · have hh := hw 32255 (by decide) (by decide)
    rw [measuredFrom_eq (by decide),nHeight_uniform,Option.map_some,Option.some.injEq]
    exact_mod_cast hh
  · have hh := hw 36007 (by decide) (by decide)
    rw [ancestorWalk_pred (by rw [nHeight_uniform]; decide)]
    exact_mod_cast hh

end DripCore
