import DripCore.Retarget

/-!
# Permitted transitions and the difficulty of whole chains

The header pre-synchronisation accepts a step of the difficulty between two rounded bounds. The
retarget rule multiplies, divides, limits and rounds in the same order with the measured time span,
so both comparisons reduce to monotonicity of compact rounding.
-/
namespace DripCore
open BitVec CBlockIndex CompactTarget MantissaTruncation Nat Option

variable {ta powLimit : ArithUint256} {T height : ℤ} {t : ℕ} {params : Params}
    {pindexLast b : CBlockIndex}

theorem mulTimespan_toNat {n : ℤ} (h : 0 ≤ n) (h' : n < 2^32) (hr : ta.toNat*n.toNat < 2^256) :
    (mulTimespan ta n).toNat = ta.toNat*n.toNat := by
  have hn : (BitVec.ofInt 32 n).toNat = n.toNat := by
    rw [toNat_ofInt,Int.emod_eq_of_lt h (by simpa using h')]
  have hw : ((BitVec.ofInt 32 n).setWidth 256).toNat = n.toNat := by
    rw [toNat_setWidth,hn]
    exact mod_eq_of_lt (by omega)
  rw [mulTimespan,toNat_mul,hw]
  exact mod_eq_of_lt hr

theorem divTimespan_spec (ta : ArithUint256) {n : ℤ} (h : 0 < n) (h' : n < 2^64) :
    ∃ q, divTimespan ta n = some q ∧ q.toNat = ta.toNat / n.toNat := by
  have hn : (BitVec.ofInt 64 n).toNat = n.toNat := by
    rw [toNat_ofInt,Int.emod_eq_of_lt h.le (by simpa using h')]
  have hw : ((BitVec.ofInt 64 n).setWidth 256).toNat = n.toNat := by
    rw [toNat_setWidth,hn]
    exact Nat.mod_eq_of_lt (by omega)
  have he : (BitVec.ofInt 64 n).setWidth 256 ≠ 0#256 := by
    intro hz
    rw [hz] at hw
    simp only [toNat_ofNat] at hw
    omega
  refine ⟨ta / (BitVec.ofInt 64 n).setWidth 256,?_,?_⟩
  · simp only [divTimespan,if_neg he]
  · rw [toNat_udiv,hw]

theorem limitTarget_toNat (powLimit ta : ArithUint256) :
    (limitTarget powLimit ta).toNat = min powLimit.toNat ta.toNat := by
  unfold limitTarget
  split_ifs with h
  · rw [lt_def] at h
    omega
  · rw [lt_def] at h
    omega

theorem scaleTarget_spec (powLimit : ArithUint256) (f : ℤ) {d : ℤ} (hf : 0 ≤ f)
    (hf' : f < 2^32) (hd : 0 < d) (hd' : d < 2^64)
    (hr : ta.toNat*f.toNat < 2^256) :
    ∃ q, scaleTarget powLimit ta f d = some q ∧
      q.toNat = min powLimit.toNat (ta.toNat*f.toNat / d.toNat) := by
  obtain ⟨q,hq,hv⟩ := divTimespan_spec (mulTimespan ta f) hd hd'
  refine ⟨limitTarget powLimit q,?_,?_⟩
  · simp only [scaleTarget,hq,map_some]
  · rw [limitTarget_toNat,hv,mulTimespan_toNat hf hf' hr]

theorem timespan_bounds (hT : 0 < T) (n : ℤ) : T.tdiv 4 ≤ limitTimespan T n ∧
    limitTimespan T n ≤ T*4 := by
  have h4 : T.tdiv 4 = T / 4 := Int.tdiv_eq_ediv_of_nonneg hT.le
  simp only [limitTimespan]
  split_ifs <;> omega

theorem timespan_lt {n : ℤ} (hT : 0 < T) (h4 : T < 2^34) (hn : n < 2^32) :
    limitTimespan T n < 2^32 := by
  have hd : T.tdiv 4 = T / 4 := Int.tdiv_eq_ediv_of_nonneg hT.le
  simp only [limitTimespan]
  split_ifs <;> omega

theorem scaled_mono {L a b T : ℕ} (h : a ≤ b) : min L (t*a / T) ≤ min L (t*b / T) :=
  min_le_min_left L (Nat.div_le_div_right (Nat.mul_le_mul_left t h))

/-- What the retarget rule needs of a time span so that its products fit their words. -/
structure FitsWord (powLimit : ArithUint256) (T : ℤ) : Prop where
  pos : 0 < T
  narrow : T < 2^34
  product : powLimit.toNat*(T*4).toNat < 2^256

theorem product_lt {a : ℤ} (hT : FitsWord powLimit T) (ht : ta.toNat ≤ powLimit.toNat)
    (ha : a ≤ T*4) :
    ta.toNat*a.toNat < 2^256 :=
  lt_of_le_of_lt (Nat.mul_le_mul ht (by omega)) hT.product

/-- Without the minimum-difficulty exception and BIP94, a retarget is one scaled target. -/
theorem calculateWork_spec {nfb nh : ℤ} (hbi : params.enforceBIP94 = false)
    (hr : params.fPowNoRetargeting = false)
    (hf : 0 ≤ nfb)
    (hT : FitsWord params.powLimit (params.powTargetTimespanAtHeight nh))
    (ht : (setCompact pindexLast.nBits).target.toNat ≤ params.powLimit.toNat) :
    ∃ q : ArithUint256, ∃ a : ℤ,
      calculateNextWorkRequired pindexLast nfb params nh = some (getCompact q false) ∧
      (params.powTargetTimespanAtHeight nh).tdiv 4 ≤ a ∧
      a ≤ params.powTargetTimespanAtHeight nh*4 ∧
      q.toNat = min params.powLimit.toNat ((setCompact pindexLast.nBits).target.toNat *
        a.toNat / (params.powTargetTimespanAtHeight nh).toNat) := by
  obtain ⟨T,hd⟩ : ∃ T, params.powTargetTimespanAtHeight nh = T := ⟨_,rfl⟩
  rw [hd] at hT ⊢
  have hb := timespan_bounds hT.pos (pindexLast.getBlockTime-nfb)
  have hti := pindexLast.blockTime_lt
  have hlt := timespan_lt hT.pos hT.narrow (show pindexLast.getBlockTime-nfb < 2^32 by omega)
  have h4 : T.tdiv 4 = T / 4 := Int.tdiv_eq_ediv_of_nonneg hT.pos.le
  obtain ⟨q,hq,hv⟩ := scaleTarget_spec params.powLimit _ (by omega) hlt hT.pos (by omega)
    (product_lt hT ht hb.2)
  refine ⟨q,_,?_,hb.1,hb.2,hv⟩
  simp only [calculateNextWorkRequired,hr,hbi,hd,bind_eq_bind,bind_some,hq]
  rfl

section
variable {p : Params} {height : ℤ} (hmin : p.fPowAllowMinDifficultyBlocks = false)
  (hb : isDifficultyAdjustmentBoundary height p = true)
  (hT : FitsWord p.powLimit (p.powTargetTimespanAtHeight height))
  (h32 : p.powTargetTimespanAtHeight height*4 < 2^32)
include hmin hb hT h32

/-- A new target that rounds a scaled old target, with a permitted factor, passes both comparisons.
-/
theorem permitted_of_scaled {a : ℤ} {on nn : BitVec 32} {q : ArithUint256}
    (ht : (setCompact on).target.toNat ≤ p.powLimit.toNat)
    (hn : (setCompact nn).target = roundCompact q)
    (hlo : (p.powTargetTimespanAtHeight height).tdiv 4 ≤ a)
    (hh : a ≤ p.powTargetTimespanAtHeight height*4)
    (hq : q.toNat = min p.powLimit.toNat
      ((setCompact on).target.toNat*a.toNat / (p.powTargetTimespanAtHeight height).toNat)) :
    permittedDifficultyTransition p height on nn = some true := by
  obtain ⟨T,hd⟩ : ∃ T, p.powTargetTimespanAtHeight height = T := ⟨_,rfl⟩
  rw [hd] at hT h32 hlo hh hq
  have h4 : T.tdiv 4 = T / 4 := Int.tdiv_eq_ediv_of_nonneg hT.pos.le
  obtain ⟨u,hu,hv⟩ := scaleTarget_spec p.powLimit _ (by omega) h32 hT.pos (by omega)
    (product_lt hT ht le_rfl)
  obtain ⟨l,hl,hlv⟩ := scaleTarget_spec p.powLimit (T.tdiv 4) (by omega)
    (by omega) hT.pos (by omega) (product_lt hT ht (by omega))
  have hup : ¬ roundCompact u < roundCompact q := by
    rw [lt_def,not_lt]
    apply round_mono
    rw [hv,hq]
    exact scaled_mono (by omega)
  have ho : ¬ roundCompact q < roundCompact l := by
    rw [lt_def,not_lt]
    apply round_mono
    rw [hlv,hq]
    exact scaled_mono (by omega)
  simp only [permittedDifficultyTransition,hmin,hb,hd,hu,hl,hn,hup,ho,bind_eq_bind,bind_some]
  rfl

theorem permitted_self {nb : BitVec 32} (ht : (setCompact nb).target.toNat ≤ p.powLimit.toNat) :
    permittedDifficultyTransition p height nb nb = some true := by
  have hT0 := hT.pos
  have h4 : (p.powTargetTimespanAtHeight height).tdiv 4 =
      p.powTargetTimespanAtHeight height / 4 := Int.tdiv_eq_ediv_of_nonneg hT0.le
  refine permitted_of_scaled hmin hb hT h32 ht (round_target nb).symm
    (a := p.powTargetTimespanAtHeight height) (by omega) (by omega) ?_
  rw [Nat.mul_div_cancel _ (by omega)]
  omega

end

theorem nextWork_of_not (pb : CBlockHeader) (hmin : params.fPowAllowMinDifficultyBlocks = false)
    (hb : isDifficultyAdjustmentBoundary (pindexLast.nHeight+1) params = false) :
    getNextWorkRequired pindexLast pb params = some pindexLast.nBits := by
  simp only [getNextWorkRequired,hb,hmin,if_true,Bool.false_eq_true,if_false]

/-- A retarget that returns has found its first block and calculated from its time. -/
theorem nextWork_of_boundary {pb : CBlockHeader} {n : BitVec 32}
    (hb : isDifficultyAdjustmentBoundary (pindexLast.nHeight+1) params = true)
    (hn : getNextWorkRequired pindexLast pb params = some n) :
    ∃ pf : CBlockIndex, calculateNextWorkRequired pindexLast pf.getBlockTime
      params (pindexLast.nHeight+1) = some n := by
  simp only [getNextWorkRequired,hb] at hn
  obtain ⟨pf,-,ha⟩ := bind_eq_some_iff.mp hn
  exact ⟨pf,ha⟩

theorem fitsWord_of_lt (h : 0 < T*4) (h' : T*4 < 2^32) (hr : powLimit.toNat*(T*4).toNat < 2^256) :
    FitsWord powLimit T :=
  ⟨by omega,by omega,hr⟩

theorem periodStart_le (h : 0 ≤ height)
    (hI : 0 < params.difficultyAdjustmentIntervalAtHeight height) :
    getDifficultyPeriodStart height params ≤ height := by
  simp only [getDifficultyPeriodStart]
  split_ifs with hr
  · have := Int.tmod_nonneg (params.difficultyAdjustmentIntervalAtHeight height) h
    omega
  · rw [Int.tdiv_eq_ediv_of_nonneg (by omega)]
    have := Int.ediv_mul_le (height-params.nDifficultyForkHeight) hI.ne'
    omega

theorem firstHeight_mem (pindexLast : CBlockIndex)
    (hI : ∀ height, 0 < params.difficultyAdjustmentIntervalAtHeight height) :
    0 ≤ firstBlockHeight pindexLast params ∧
      firstBlockHeight pindexLast params ≤ pindexLast.nHeight := by
  have hs := periodStart_le (Int.natCast_nonneg pindexLast.nHeight) (hI pindexLast.nHeight)
  have hn := hI (pindexLast.nHeight+1)
  simp only [firstBlockHeight]
  split_ifs <;> omega

theorem nextWork_isSome (pindexLast : CBlockIndex) (pb : CBlockHeader)
    (hmin : params.fPowAllowMinDifficultyBlocks = false) (hbi : params.enforceBIP94 = false)
    (hT : FitsWord params.powLimit (params.powTargetTimespanAtHeight (pindexLast.nHeight+1)))
    (ht : (setCompact pindexLast.nBits).target.toNat ≤ params.powLimit.toNat)
    (hI : ∀ height, 0 < params.difficultyAdjustmentIntervalAtHeight height) :
    ∃ n, getNextWorkRequired pindexLast pb params = some n := by
  cases hb : isDifficultyAdjustmentBoundary (pindexLast.nHeight+1) params with
  | false => exact ⟨_,nextWork_of_not pb hmin hb⟩
  | true =>
    obtain ⟨h,h'⟩ := firstHeight_mem pindexLast hI
    obtain ⟨pf,ha,-⟩ := pindexLast.ancestor_of_le h h'
    have hd : getNextWorkRequired pindexLast pb params =
        calculateNextWorkRequired pindexLast pf.getBlockTime params (pindexLast.nHeight+1) := by
      simp only [getNextWorkRequired,hb,Bool.true_eq_false,if_false,ha,bind_eq_bind,bind_some]
    rw [hd]
    cases hr : params.fPowNoRetargeting with
    | true => exact ⟨pindexLast.nBits,by simp [calculateNextWorkRequired,hr]⟩
    | false =>
      obtain ⟨q,-,hq,-⟩ := calculateWork_spec hbi hr pf.blockTime_nonneg hT ht
      exact ⟨_,hq⟩

theorem interval_pos (hs : 0 < params.nPowTargetSpacing)
    (h1 : params.nPowTargetSpacing ≤ params.nPowTargetTimespan)
    (h2 : 0 < params.nDifficultyForkHeight → params.nPowTargetSpacing ≤ params.nPowTargetTimespanV2)
    (height : ℤ) :
    0 < params.difficultyAdjustmentIntervalAtHeight height := by
  have ho : ∀ T, params.nPowTargetSpacing ≤ T → 0 < T.tdiv params.nPowTargetSpacing := by
    intro T hT
    rw [Int.tdiv_eq_ediv_of_nonneg (by omega)]
    exact (Int.le_ediv_iff_mul_le hs).mpr (by omega)
  unfold Params.difficultyAdjustmentIntervalAtHeight
  split_ifs with h
  · exact ho _ (h2 h.1)
  · exact ho _ h1

/-- The time span in force at a height is one of the two parameters. -/
theorem timespan_induction {P : ℤ → Prop} (h1 : P params.nPowTargetTimespan)
    (h2 : 0 < params.nDifficultyForkHeight → P params.nPowTargetTimespanV2) (height : ℤ) :
    P (params.powTargetTimespanAtHeight height) := by
  unfold Params.powTargetTimespanAtHeight
  split_ifs with h
  · exact h2 h.1
  · exact h1

/-- Every difficulty the retarget rule returns is a permitted transition, and with a positive
spacing within the time spans it always returns one. -/
theorem getNextWorkRequired_permitted (params : Params)
    (hmin : params.fPowAllowMinDifficultyBlocks = false) (hbip : params.enforceBIP94 = false)
    (h₁ : 0 < params.nPowTargetTimespan * 4 ∧ params.nPowTargetTimespan * 4 < 2 ^ 32 ∧
      params.powLimit.toNat * (params.nPowTargetTimespan * 4).toNat < 2 ^ 256)
    (h₂ : 0 < params.nDifficultyForkHeight →
      0 < params.nPowTargetTimespanV2 * 4 ∧ params.nPowTargetTimespanV2 * 4 < 2 ^ 32 ∧
      params.powLimit.toNat * (params.nPowTargetTimespanV2 * 4).toNat < 2 ^ 256)
    (pindexLast : CBlockIndex) (pblock : CBlockHeader)
    (ht : (setCompact pindexLast.nBits).target ≤ params.powLimit) :
    (∀ n, getNextWorkRequired pindexLast pblock params = some n →
      permittedDifficultyTransition params (pindexLast.nHeight + 1) pindexLast.nBits n =
        some true) ∧
    (0 < params.nPowTargetSpacing → params.nPowTargetSpacing ≤ params.nPowTargetTimespan →
      (0 < params.nDifficultyForkHeight → params.nPowTargetSpacing ≤ params.nPowTargetTimespanV2) →
      ∃ n, getNextWorkRequired pindexLast pblock params = some n) := by
  rw [le_def] at ht
  obtain ⟨hT₀,hT₁,hpr⟩ := timespan_induction (P := fun T => 0 < T*4 ∧
    T*4 < 2^32 ∧ params.powLimit.toNat*(T*4).toNat < 2^256) h₁ h₂
    (pindexLast.nHeight+1)
  have hT := fitsWord_of_lt hT₀ hT₁ hpr
  refine ⟨?_,fun hs hs₁ hs₂ => nextWork_isSome pindexLast pblock hmin hbip hT ht
    (interval_pos hs hs₁ hs₂)⟩
  intro n hn
  cases hb : isDifficultyAdjustmentBoundary (pindexLast.nHeight+1) params with
  | false =>
    rw [nextWork_of_not pblock hmin hb,some.injEq] at hn
    simp [permittedDifficultyTransition,hmin,hb,hn]
  | true =>
    obtain ⟨pf,ha⟩ := nextWork_of_boundary hb hn
    cases hr : params.fPowNoRetargeting with
    | true =>
      simp only [calculateNextWorkRequired,hr,if_true,some.injEq] at ha
      rw [← ha]
      exact permitted_self hmin hb hT hT₁ ht
    | false =>
      obtain ⟨q,a,hq,ho,hh,hv⟩ := calculateWork_spec hbip hr pf.blockTime_nonneg hT ht
      rw [hq,some.injEq] at ha
      exact permitted_of_scaled hmin hb hT hT₁ ht (by rw [← ha]; rfl) ho hh hv

/-- A retarget after four blocks with equal times makes the target four times smaller. -/
theorem getNextWorkRequired_permitted_short :
    permittedDifficultyTransition shortPeriodParams 4 0x1d00ffff#32 0x1c3fffc0#32 = some true :=
  (getNextWorkRequired_permitted shortPeriodParams rfl rfl (by decide) (by decide)
    (uniformBranch ⟨4,0#32,0x1d00ffff#32⟩ 3) ⟨4,0#32,0x1c3fffc0#32⟩ (by decide)).1 _
    (by decide)

/-- Branches whose genesis difficulty is canonical and whose blocks carry the required difficulty.
-/
inductive DifficultyChain (params : Params) : CBlockIndex → Prop
  | genesis (b : CBlockHeader) : Canonical b.nBits →
      (setCompact b.nBits).target ≤ params.powLimit → DifficultyChain params (.genesis b)
  | extend (p : CBlockIndex) (b : CBlockHeader) : DifficultyChain params p →
      getNextWorkRequired p b params = some b.nBits → DifficultyChain params (.extend p b)

theorem DifficultyChain.ancestorWalk (h : DifficultyChain params b) (height : ℤ) :
    DifficultyChain params (b.ancestorWalk height) := by
  induction h with
  | genesis b hc hl => exact .genesis b hc hl
  | extend p b hp hn ih =>
    simp only [CBlockIndex.ancestorWalk]
    split_ifs
    · exact ih
    · exact .extend p b hp hn

theorem DifficultyChain.getAncestor {a : CBlockIndex} (h : DifficultyChain params b)
    (ha : b.getAncestor height = some a) :
    DifficultyChain params a := by
  unfold CBlockIndex.getAncestor at ha
  split_ifs at ha
  rw [← some.inj ha]
  exact h.ancestorWalk height

/-- Parameters like those of the DRIP network: plain retargeting whose products fit. -/
structure PlainRetargeting (params : Params) : Prop where
  noMinDifficulty : params.fPowAllowMinDifficultyBlocks = false
  noBIP94 : params.enforceBIP94 = false
  spacing_pos : 0 < params.nPowTargetSpacing
  timespan : FitsWord params.powLimit params.nPowTargetTimespan
  timespanV2 : 0 < params.nDifficultyForkHeight →
    FitsWord params.powLimit params.nPowTargetTimespanV2

theorem plain_cDripParams : PlainRetargeting cDripParams :=
  ⟨rfl,rfl,by decide,⟨by decide,by decide,by decide⟩,fun _ => ⟨by decide,by decide,by decide⟩⟩

theorem PlainRetargeting.fitsWord (hp : PlainRetargeting params) (height : ℤ) :
    FitsWord params.powLimit (params.powTargetTimespanAtHeight height) :=
  timespan_induction hp.timespan hp.timespanV2 height

/-- Multiples of the first interval below the fork, and whole later intervals after it. -/
def RetargetHeight (params : Params) (h : ℤ) : Prop :=
    (0 < h ∧ params.difficultyAdjustmentInterval ∣ h ∧
    (params.nDifficultyForkHeight = 0 ∨ h < params.nDifficultyForkHeight)) ∨
  (0 < params.nDifficultyForkHeight ∧ ∃ k : ℤ, 1 ≤ k ∧
    h = params.nDifficultyForkHeight+k*params.difficultyAdjustmentIntervalV2)

theorem retarget_of_boundary (hp : PlainRetargeting params) {h : ℤ} (h0 : 0 < h)
    (hb : isDifficultyAdjustmentBoundary h params = true) :
    RetargetHeight params h := by
  rcases (boundary_iff params h).mp hb with ⟨hr,hd⟩ | ⟨hF,ht,hd⟩
  · exact Or.inl ⟨h0,hd,hr⟩
  · obtain ⟨k,hk⟩ := hd
    refine Or.inr ⟨hF,k,?_,by linarith [mul_comm k params.difficultyAdjustmentIntervalV2]⟩
    have hI : 0 ≤ params.difficultyAdjustmentIntervalV2 :=
      Int.tdiv_nonneg (hp.timespanV2 hF).pos.le hp.spacing_pos.le
    by_contra hneg
    have := mul_nonpos_of_nonneg_of_nonpos hI (show k ≤ 0 by omega)
    omega

/-- What one accepted block does to the difficulty of its parent. -/
structure DifficultyStep (params : Params) (p : CBlockIndex) (nBits : BitVec 32) : Prop where
  canonical : Canonical nBits
  limit : (setCompact nBits).target ≤ params.powLimit
  change : nBits ≠ p.nBits → RetargetHeight params (p.nHeight+1)
  upper : (setCompact nBits).target.toNat ≤ 4*(setCompact p.nBits).target.toNat
  lower : (roundCompact (BitVec.ofNat 256 ((setCompact p.nBits).target.toNat *
      ((params.powTargetTimespanAtHeight (p.nHeight+1)).tdiv 4).toNat /
      (params.powTargetTimespanAtHeight (p.nHeight+1)).toNat))).toNat ≤
    (setCompact nBits).target.toNat

/-- The smallest scaled target does not exceed the old one. -/
theorem smallest_scaled_le (hT : 0 < T) : t*(T.tdiv 4).toNat / T.toNat ≤ t := by
  have h4 : T.tdiv 4 = T / 4 := Int.tdiv_eq_ediv_of_nonneg hT.le
  calc t*(T.tdiv 4).toNat / T.toNat ≤ t*T.toNat / T.toNat :=
        Nat.div_le_div_right (Nat.mul_le_mul_left t (by omega))
    _ = t := Nat.mul_div_cancel _ (by omega)

section
variable {pa : Params} (hp : PlainRetargeting pa)
include hp

variable {p : CBlockIndex}

theorem step_of_scaled {q : ArithUint256} {a : ℤ}
    (ht : (setCompact p.nBits).target.toNat ≤ pa.powLimit.toNat)
    (hb : isDifficultyAdjustmentBoundary (p.nHeight+1) pa = true)
    (ho : (pa.powTargetTimespanAtHeight (p.nHeight+1)).tdiv 4 ≤ a)
    (hh : a ≤ pa.powTargetTimespanAtHeight (p.nHeight+1)*4)
    (hq : q.toNat = min pa.powLimit.toNat ((setCompact p.nBits).target.toNat*a.toNat /
      (pa.powTargetTimespanAtHeight (p.nHeight+1)).toNat)) :
    DifficultyStep pa p (getCompact q false) := by
  obtain ⟨T,hd⟩ : ∃ T, pa.powTargetTimespanAtHeight (p.nHeight+1) = T := ⟨_,rfl⟩
  have hT := hp.fitsWord (p.nHeight+1)
  rw [hd] at hT ho hh hq
  have hT0 := hT.pos
  have he := round_le q
  have hs := smallest_scaled_le (t := (setCompact p.nBits).target.toNat) hT0
  refine ⟨canonical_compact q,?_,fun _ => retarget_of_boundary hp (by omega) hb,?_,?_⟩
  · rw [le_def]
    exact he.trans (hq ▸ min_le_left _ _)
  · have hsc : (setCompact p.nBits).target.toNat*a.toNat / T.toNat ≤
      4*(setCompact p.nBits).target.toNat := by
      refine Nat.div_le_of_le_mul ?_
      calc (setCompact p.nBits).target.toNat*a.toNat
          ≤ (setCompact p.nBits).target.toNat*(T.toNat*4) := Nat.mul_le_mul_left _ (by omega)
        _ = T.toNat*(4*(setCompact p.nBits).target.toNat) := by ring
    exact he.trans (hq ▸ (min_le_right _ _).trans hsc)
  · rw [hd]
    apply round_mono
    rw [toNat_ofNat,Nat.mod_eq_of_lt (hs.trans_lt (isLt _)),hq]
    refine le_min (hs.trans ht) (Nat.div_le_div_right (Nat.mul_le_mul_left _ (by omega)))

section
variable (hc : Canonical p.nBits) (hl : (setCompact p.nBits).target ≤ pa.powLimit)
include hc hl

theorem step_self : DifficultyStep pa p p.nBits := by
  have hT := hp.fitsWord (p.nHeight+1)
  have hs := smallest_scaled_le (t := (setCompact p.nBits).target.toNat) hT.pos
  refine ⟨hc,hl,fun hn => absurd rfl hn,by omega,(round_le _).trans ?_⟩
  exact (mod_le _ _).trans hs

theorem step_of_next {b : CBlockHeader} (hn : getNextWorkRequired p b pa = some b.nBits) :
    DifficultyStep pa p b.nBits := by
  cases hb : isDifficultyAdjustmentBoundary (p.nHeight+1) pa with
  | false =>
    rw [nextWork_of_not b hp.noMinDifficulty hb,some.injEq] at hn
    rw [← hn]
    exact step_self hp hc hl
  | true =>
    obtain ⟨pf,ha⟩ := nextWork_of_boundary hb hn
    cases hr : pa.fPowNoRetargeting with
    | true =>
      simp only [calculateNextWorkRequired,hr,if_true,some.injEq] at ha
      rw [← ha]
      exact step_self hp hc hl
    | false =>
      obtain ⟨q,a,hq,ho,hh,hv⟩ := calculateWork_spec hp.noBIP94 hr
        pf.blockTime_nonneg (hp.fitsWord _) (le_def.mp hl)
      rw [hq,some.injEq] at ha
      rw [← ha]
      exact step_of_scaled hp (le_def.mp hl) hb ho hh hv

end

theorem DifficultyChain.canonical (h : DifficultyChain pa b) :
    Canonical b.nBits ∧ (setCompact b.nBits).target ≤ pa.powLimit := by
  induction h with
  | genesis b hc hl => exact ⟨hc,hl⟩
  | extend p b _ hn ih =>
    have hs := step_of_next hp ih.1 ih.2 hn
    exact ⟨hs.canonical,hs.limit⟩

end

/-- Every difficulty of a chain is canonical and within the limit, changed only at retarget heights,
and never by more than the limited factor. -/
theorem difficultyChain_invariant (params : Params) (hp : PlainRetargeting params)
    (tip : CBlockIndex) (hchain : DifficultyChain params tip) (height : ℤ) (b : CBlockIndex)
    (hb : tip.getAncestor height = some b) :
    (getCompact (setCompact b.nBits).target false = b.nBits ∧
      b.nBits.toNat.testBit 23 = false ∧ (setCompact b.nBits).fOverflow = false ∧
      (setCompact b.nBits).target ≤ params.powLimit) ∧
    ∀ p, b.pprev = some p → (b.nBits ≠ p.nBits → RetargetHeight params b.nHeight) ∧
      (setCompact b.nBits).target.toNat ≤ 4 * (setCompact p.nBits).target.toNat ∧
      (roundCompact (BitVec.ofNat 256 ((setCompact p.nBits).target.toNat *
          ((params.powTargetTimespanAtHeight b.nHeight).tdiv 4).toNat /
          (params.powTargetTimespanAtHeight b.nHeight).toNat))).toNat ≤
        (setCompact b.nBits).target.toNat := by
  have hbc := hchain.getAncestor hb
  obtain ⟨hc,hl⟩ := hbc.canonical hp
  refine ⟨⟨hc.stable,hc.signClear,hc.inRange,hl⟩,?_⟩
  intro p hpp
  cases hbc with
  | genesis b _ _ => simp [pprev] at hpp
  | extend p' b hp' hn =>
    obtain rfl : p' = p := by simpa [pprev] using hpp
    have hs := step_of_next hp (hp'.canonical hp).1 (hp'.canonical hp).2 hn
    have hh : ((extend p' b).nHeight : ℤ) = p'.nHeight+1 := by
      simp [nHeight]
    rw [hh]
    exact ⟨hs.change,hs.upper,hs.lower⟩

/-- A time span whose quarter is `2 ^ 32`, with two blocks to a period and no fork. -/
def wideTimespanParams : Params :=
  { cDripParams with
    powLimit := 0x00000000000000000000ffffffffffffffffffffffffffffffffffffffffffff#256
    nPowTargetSpacing := 2^33, nPowTargetTimespan := 2^34, nDifficultyForkHeight := 0 }

def wideTimespanParent : CBlockIndex :=
  .extend (.genesis ⟨1,0#32,0x1600ffff#32⟩) ⟨4,300#32,0x1600ffff#32⟩

def wideTimespanBranch : CBlockIndex := .extend wideTimespanParent ⟨4,600#32,0#32⟩

/-- The quarter of a wide time span is lost in the 32-bit factor, and the target falls to zero. -/
theorem wide_timespan_drops_target : (wideTimespanParams.fPowAllowMinDifficultyBlocks = false ∧
      wideTimespanParams.enforceBIP94 = false ∧
      wideTimespanParams.powLimit.toNat * (wideTimespanParams.nPowTargetTimespan * 4).toNat <
        2 ^ 256) ∧
    DifficultyChain wideTimespanParams wideTimespanBranch ∧
    (setCompact wideTimespanBranch.nBits).target.toNat <
      (roundCompact (BitVec.ofNat 256 ((setCompact wideTimespanParent.nBits).target.toNat *
        ((wideTimespanParams.powTargetTimespanAtHeight 2).tdiv 4).toNat /
        (wideTimespanParams.powTargetTimespanAtHeight 2).toNat))).toNat :=
  ⟨⟨rfl,rfl,by decide⟩,
    .extend _ _ (.extend _ _ (.genesis _ (by decide) (by decide)) (by decide)) (by decide),
    by decide⟩

theorem plain_shortPeriodParams : PlainRetargeting shortPeriodParams :=
  ⟨rfl,rfl,by decide,⟨by decide,by decide,by decide⟩,fun _ => ⟨by decide,by decide,by decide⟩⟩

/-- Four blocks with equal times, and a fifth after the retarget. -/
def retargetedBranch : CBlockIndex :=
  .extend (uniformBranch ⟨4,0#32,0x1d00ffff#32⟩ 3) ⟨4,0#32,0x1c3fffc0#32⟩

theorem chain_retargetedBranch : DifficultyChain shortPeriodParams retargetedBranch :=
  .extend _ _ (.extend _ _ (.extend _ _ (.extend _ _ (.genesis _ (by decide) (by decide))
    (by decide)) (by decide)) (by decide)) (by decide)

theorem difficultyChain_invariant_short : retargetedBranch.nBits ≠ 0x1d00ffff#32 ∧
    (setCompact retargetedBranch.nBits).target ≤ shortPeriodParams.powLimit ∧
      RetargetHeight shortPeriodParams 4 ∧
      (roundCompact (BitVec.ofNat 256 ((setCompact 0x1d00ffff#32).target.toNat * 1 / 4))).toNat ≤
        (setCompact retargetedBranch.nBits).target.toNat := by
  obtain ⟨hb,hp⟩ := difficultyChain_invariant shortPeriodParams plain_shortPeriodParams
    retargetedBranch chain_retargetedBranch 4 retargetedBranch (by decide)
  obtain ⟨hr,-,hl⟩ := hp (uniformBranch ⟨4,0#32,0x1d00ffff#32⟩ 3) rfl
  exact ⟨by decide,hb.2.2.2,hr (by decide),hl⟩

end DripCore
