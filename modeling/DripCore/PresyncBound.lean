import DripCore.HeadersSyncCompleteness
import DripCore.MedianTimePast
import Mathlib.Order.Interval.Finset.Nat

/-!
# The bound on commitments of a headers sync

The constructor of `HeadersSyncState` bounds the number of commitments by the number of blocks that
fit between the median time past of the start and the latest time accepted now, six for every
second, divided by the period and rounded down. The first phase gives up a chain with more
commitments.

How many blocks with valid times really fit depends on the height of the start: six for every second
when the window of the median is full, fewer before. The heights of the longest such chain that are
at the offset may be one more than the bound allows, since the bound is rounded down and the offset
may be met early. The condition under which no chain is given up compares the two numbers, for each
height, offset, period and number of seconds.
-/
namespace DripCore
open CBlockIndex List Nat

namespace CBlockIndex

/-- The number of blocks in the longest chain with valid times for some seconds after a height. -/
def longestChain : ℕ → ℕ → ℕ
  | _, 0 => 0
  | height, seconds + 1 =>
    raisingBlocks height + longestChain (height + raisingBlocks height) seconds

theorem le_longestChain (height seconds : ℕ) : seconds ≤ longestChain height seconds := by
  induction seconds generalizing height with
  | zero => exact le_rfl
  | succ seconds ih =>
    have hl := ih (height + raisingBlocks height)
    have hr : 0 < raisingBlocks height := lt_min (succ_pos _) (by decide)
    rw [longestChain]
    omega

variable {b : CBlockIndex}

/-- No chain with valid times is longer. -/
theorem length_le_longestChain {headers : List CBlockHeader} {limit : ℤ}
    (h : b.NextTimesExceedMedian headers) (hl : ∀ header ∈ headers, header.getBlockTime ≤ limit) :
    headers.length ≤ longestChain b.nHeight (limit - b.getMedianTimePast).toNat := by
  -- Induction on the seconds that are left: each second takes a few blocks off the front.
  suffices hall : ∀ k, (limit - b.getMedianTimePast).toNat ≤ k →
      headers.length ≤ longestChain b.nHeight k from hall _ le_rfl
  intro k hk
  induction k generalizing b headers with
  | zero =>
    cases headers with
    | nil => exact le_rfl
    | cons header headers =>
      have hgt := h.1
      have hle := hl header mem_cons_self
      omega
  | succ k ih =>
    rw [longestChain]
    rcases Nat.lt_or_ge headers.length (raisingBlocks b.nHeight) with hs | hs
    · omega
    · rw [← take_append_drop (raisingBlocks b.nHeight) headers] at h
      obtain ⟨hf, hr⟩ := timesExceed_append.mp h
      have hn : (headers.take (raisingBlocks b.nHeight)).length = raisingBlocks b.nHeight := by
        rw [length_take, min_eq_left hs]
      have hm := medianTime_raised hf hn
      have hd : ∀ header ∈ headers.drop (raisingBlocks b.nHeight), header.getBlockTime ≤ limit :=
        fun header hh => hl header (mem_of_mem_drop hh)
      have hi := ih hr hd (by omega)
      rw [nHeight_extendBy, hn, length_drop] at hi
      omega

/-- The window has only times before a bound. -/
def WindowBelow (b : CBlockIndex) (time : ℤ) : Prop := ∀ t ∈ b.recentTimes nMedianTimeSpan, t < time

variable {header : CBlockHeader} (h : b.WindowBelow header.getBlockTime)
include h

variable {n : ℕ}

/-- Fewer blocks at a time after the window leave the median before it. -/
theorem WindowBelow.medianTime_lt (hn : n < raisingBlocks b.nHeight) :
    (b.extendBy (List.replicate n header)).getMedianTimePast < header.getBlockTime := by
  have hlen := length_recentTimes nMedianTimeSpan (b.extendBy (List.replicate n header))
  have hold : ((b.recentTimes nMedianTimeSpan).take (nMedianTimeSpan -
      ((replicate n header).map CBlockHeader.getBlockTime).reverse.length)).countP
        (· < header.getBlockTime) = min (nMedianTimeSpan - n) (b.nHeight + 1) := by
    rw [countP_eq_length.mpr fun t ht => by simpa using h t (mem_of_mem_take ht),
      length_take, length_recentTimes, length_reverse, length_map, length_replicate]
    omega
  rw [nHeight_extendBy, length_replicate] at hlen
  rw [← not_le, le_medianTime_iff, hlen, times_extendBy, take_append, countP_append, hold]
  rw [raisingBlocks] at hn
  rw [nMedianTimeSpan]
  omega

theorem WindowBelow.nextTimesExceedMedian (hn : n ≤ raisingBlocks b.nHeight) :
    b.NextTimesExceedMedian (List.replicate n header) := by
  induction n with
  | zero => trivial
  | succ n ih =>
    rw [replicate_succ', timesExceed_append]
    exact ⟨ih (by omega), h.medianTime_lt (by omega), trivial⟩

theorem WindowBelow.extendBy (n : ℕ) :
    (b.extendBy (List.replicate n header)).WindowBelow (header.getBlockTime + 1) := by
  intro t ht
  rw [times_extendBy] at ht
  rcases mem_append.mp (mem_of_mem_take ht) with hn | hold
  · rw [mem_reverse, map_replicate] at hn
    rw [eq_of_mem_replicate hn]
    exact lt_add_one _
  · exact (h t hold).trans (lt_add_one _)

end CBlockIndex

namespace HeadersSync
open ExceptRules

section
variable {cfg : Config}
variable {n offset period : ℕ}

theorem commitmentHeight_natCast (cfg : Config) (h : n < 2^31) :
    cfg.isCommitmentHeight n = true ↔ n % cfg.commitmentPeriod = cfg.commitOffset := by
  have hm : ((n : ℤ) % 2^64).toNat = n := by omega
  rw [Config.isCommitmentHeight,hm,beq_iff_eq]

end

section
variable {cfg : Config} {headers : List WireHeader} {st : HeadersSyncState}
  {height : ℕ}

/-- A step of the first phase goes on with its commitment stored, or stops because of the number of
commitments, or because of the difficulty. -/
theorem singleHeader_cases (header : WireHeader) (hs : st.downloadState = .presync)
    (hh : st.currentHeight = height) (hlt : height+1 < 2^31) :
    (∃ st', validateAndProcessSingleHeader cfg st header = .ok st' ∧ st'.downloadState = .presync ∧
        st'.currentHeight = (height+1 : ℕ) ∧
        st'.headerCommitments.length =
          st.headerCommitments.length+(commitments cfg height [header]).length ∧
        (st.headerCommitments.length ≤ cfg.maxCommitments →
          st'.headerCommitments.length ≤ cfg.maxCommitments)) ∨
      (∃ st', validateAndProcessSingleHeader cfg st header = .error (.maxCommitments,st') ∧
        cfg.maxCommitments < st.headerCommitments.length+(commitments cfg height [header]).length) ∨
      ∃ a, a ≠ .maxCommitments ∧ validateAndProcessSingleHeader cfg st header = .error (a,st) ∧
        cfg.consensusParams.fPowAllowMinDifficultyBlocks = false := by
  have hn : toInt (st.currentHeight+1) = (height+1 : ℕ) := by
    rw [hh,toInt_of_lt (by omega) (by omega)]
    rfl
  rw [validateAndProcessSingleHeader,if_neg (not_not.mpr hs),hn]
  dsimp only
  by_cases hp : permittedDifficultyTransition cfg.consensusParams (height+1 : ℕ)
      st.lastHeaderReceived.nBits header.nBits = some true
  · have ht : checkTransition cfg (height+1 : ℕ) st.lastHeaderReceived.nBits header.nBits st =
      .ok st := by
      rw [checkTransition,hp]
    rw [ht,ok_bind,storeCommitment,commitments]
    push_cast
    split_ifs with ho hm
    · right
      left
      refine ⟨_,rfl,?_⟩
      simpa [commitments] using hm
    · left
      refine ⟨_,rfl,hs,by push_cast; rfl,by simp [commitments],fun _ => ?_⟩
      simpa using hm
    · left
      exact ⟨_,rfl,hs,by push_cast; rfl,by simp [commitments],fun hl => hl⟩
  · right
    right
    have hf : cfg.consensusParams.fPowAllowMinDifficultyBlocks = false := by
      by_contra ha
      exact hp (by rw [permittedDifficultyTransition,if_pos (by simpa using ha)])
    cases hc : permittedDifficultyTransition cfg.consensusParams (height+1 : ℕ)
        st.lastHeaderReceived.nBits header.nBits with
    | none => exact ⟨.uintError,by decide,by rw [checkTransition,hc]; rfl,hf⟩
    | some permitted =>
      cases permitted with
      | true => exact absurd hc hp
      | false => exact ⟨.invalidTransition,by decide,by rw [checkTransition,hc]; rfl,hf⟩

theorem length_commit_cons (cfg : Config) (height : ℕ) (header : WireHeader)
    (headers : List WireHeader) : (commitments cfg height (header::headers)).length =
      (commitments cfg height [header]).length+(commitments cfg (height+1 : ℕ) headers).length := by
  rw [← singleton_append,commitments_append,length_append]
  rfl

/-- The first phase stops because of the number of commitments only when there are too many. -/
theorem lt_of_maxCommitments (hs : st.downloadState = .presync)
    (hh : st.currentHeight = height) (hlt : height+headers.length < 2^31)
    {st' : HeadersSyncState}
    (hr : headers.foldlM (validateAndProcessSingleHeader cfg) st = .error (.maxCommitments,st')) :
    cfg.maxCommitments < st.headerCommitments.length+(commitments cfg height headers).length := by
  induction headers generalizing st height with
  | nil => simp at hr
  | cons header headers ih =>
    rw [length_cons] at hlt
    rw [foldlM_cons] at hr
    rw [length_commit_cons]
    rcases singleHeader_cases header hs hh (by omega) with
      ⟨st1,ht,hs1,hh1,hl,-⟩ | ⟨st1,ht,hm⟩ | ⟨abort,ha,ht,-⟩
    · rw [ht] at hr
      have hla := ih hs1 hh1 (by omega) hr
      omega
    · omega
    · rw [ht] at hr
      exact absurd (Prod.mk.inj (Except.error.inj hr)).1 ha

/-- Conversely, with difficulties that are not checked, too many commitments stop it. -/
theorem maxCommitments_of_lt (height : ℕ)
    (ha : cfg.consensusParams.fPowAllowMinDifficultyBlocks = true)
    (hs : st.downloadState = .presync) (hh : st.currentHeight = height)
    (hlt : height+headers.length < 2^31)
    (he : st.headerCommitments.length ≤ cfg.maxCommitments)
    (hm : cfg.maxCommitments <
      st.headerCommitments.length+(commitments cfg height headers).length) :
    ∃ st', headers.foldlM (validateAndProcessSingleHeader cfg) st = .error (.maxCommitments,
      st') := by
  induction headers generalizing st height with
  | nil => simp [commitments] at hm; omega
  | cons header headers ih =>
    rw [length_cons] at hlt
    rw [length_commit_cons] at hm
    rw [foldlM_cons]
    rcases singleHeader_cases header hs hh (by omega) with
      ⟨st1,ht,hs1,hh1,hl,he1⟩ | ⟨st1,ht,-⟩ | ⟨abort,-,-,hf⟩
    · rw [ht]
      exact ih (height+1) hs1 hh1 (by omega) (he1 he) (by omega)
    · exact ⟨st1,by rw [ht]; rfl⟩
    · exact absurd (ha.symm.trans hf) (by simp)

end

/-- How many heights after one are at the offset. -/
def commitmentCount (height length offset period : ℕ) : ℕ :=
  ((Finset.Ioc height (height + length)).filter fun h => h % period = offset).card

section
variable {height length offset period : ℕ}

theorem commitmentCount_succ (height length offset period : ℕ) :
    commitmentCount height (length + 1) offset period =
      commitmentCount height length offset period +
      if (height + length + 1) % period = offset then 1 else 0 := by
  have hi : Finset.Ioc height (height + (length + 1)) =
      insert (height + length + 1) (Finset.Ioc height (height + length)) := by
    ext h
    simp only [Finset.mem_Ioc, Finset.mem_insert]
    omega
  have hn : height + length + 1 ∉
      (Finset.Ioc height (height + length)).filter fun h => h % period = offset := by
    simp
  rw [commitmentCount, hi, Finset.filter_insert]
  split_ifs
  · rw [Finset.card_insert_of_notMem hn, commitmentCount]
  · rw [commitmentCount, Nat.add_zero]

theorem commitmentCount_mono {length' : ℕ} (h : length ≤ length') :
    commitmentCount height length offset period ≤ commitmentCount height length' offset period :=
  Finset.card_le_card (Finset.filter_subset_filter _
    (Finset.Ioc_subset_Ioc_right (Nat.add_le_add_left h _)))

/-- The number of commitments to headers, by the heights between which they are. -/
theorem length_commitments {cfg : Config} (height : ℕ) {headers : List WireHeader}
    (hh : height + headers.length < 2 ^ 31) : (commitments cfg height headers).length =
      commitmentCount height headers.length cfg.commitOffset cfg.commitmentPeriod := by
  induction headers using List.reverseRecOn with
  | nil => simp [commitmentCount, commitments]
  | append_singleton headers header ih =>
    rw [length_append, length_singleton] at hh ⊢
    have hc := commitmentHeight_natCast cfg (show height + headers.length + 1 < 2 ^ 31 by omega)
    push_cast at hc
    rw [commitments_append, length_append, ih (by omega), commitmentCount_succ, commitments]
    simp only [hc]
    split_ifs <;> rfl

end

/-- From every start at a height and at a distance in seconds from the latest valid time, no chain
with valid times is given up because of its commitments. -/
def NeverExceedsMaxCommitments (height offset period : ℕ) (seconds : ℤ) : Prop :=
  ∀ (cfg : Config) (now : ℤ) (headers : List WireHeader),
    cfg.chainStart.index.nHeight = height → cfg.commitOffset = offset →
    cfg.commitmentPeriod = period →
    cfg.maxCommitments = maxCommitmentsAt cfg.chainStart.index period now →
    now - cfg.chainStart.index.getMedianTimePast + maxFutureBlockTime = seconds →
    Linked cfg.getHash cfg.chainStartHash headers →
    cfg.chainStart.index.NextTimesExceedMedian (headers.map WireHeader.toCBlockHeader) →
    (∀ header ∈ headers, header.getBlockTime ≤ now + maxFutureBlockTime) →
    height + headers.length < 2 ^ 31 →
    ∀ st, headers.foldlM (validateAndProcessSingleHeader cfg) cfg.start ≠ .error (.maxCommitments,
      st)

/-- The number of blocks in the longest chain with valid times whose heights fit an `int`. -/
def longestSync (height seconds : ℕ) : ℕ := min (longestChain height seconds) (2 ^ 31 - 1 - height)

section
variable {height offset period seconds time k : ℕ}

theorem maxCommitmentsAt_of_nonneg {cs : CBlockIndex} {now : ℤ}
    (h : now - cs.getMedianTimePast + maxFutureBlockTime = seconds) (hs : 6 * seconds < 2 ^ 63) :
    maxCommitmentsAt cs period now = 6 * seconds / period := by
  rw [maxCommitmentsAt, h, Int.emod_eq_of_lt (by omega) (by omega)]
  norm_cast

/-- Nothing is valid after a start that is later than the latest valid time. -/
theorem neverExceeds_of_nonpos {seconds : ℤ} (h : seconds ≤ 0) :
    NeverExceedsMaxCommitments height offset period seconds := by
  rintro cfg now headers - - - - hg - ht hl - st hr
  cases headers with
  | nil => simp at hr
  | cons header headers =>
    have ha := ht.1
    have he := hl header mem_cons_self
    linarith

theorem neverExceeds_of_count_le (hs : 6 * seconds < 2 ^ 63)
    (hc : commitmentCount height (longestSync height seconds) offset period ≤
      6 * seconds / period) :
    NeverExceedsMaxCommitments height offset period seconds := by
  rintro cfg now headers rfl rfl rfl ha hg - ht hl hh st hr
  have hle := length_le_longestChain ht (by simpa using hl)
  rw [add_sub_right_comm, hg, Int.toNat_natCast, List.length_map] at hle
  have hm : headers.length ≤ longestSync cfg.chainStart.index.nHeight seconds :=
    le_min hle (by omega)
  have he := lt_of_maxCommitments rfl rfl hh hr
  have hz : cfg.start.headerCommitments.length = 0 := rfl
  rw [ha, maxCommitmentsAt_of_nonneg hg hs, hz, Nat.zero_add, length_commitments _ hh] at he
  exact absurd ((commitmentCount_mono hm).trans hc) (not_le.mpr he)

/-- At each of some seconds, as many blocks as there can be. -/
def fastestHeaders : ℕ → ℕ → ℕ → List WireHeader
  | _, _, 0 => []
  | height, time, k + 1 =>
    List.replicate (raisingBlocks height) ⟨⟨1, BitVec.ofNat 32 time, 0x207fffff#32⟩, 0, 0, 0⟩ ++
      fastestHeaders (height + raisingBlocks height) (time + 1) k

theorem length_fastestHeaders (height time k : ℕ) :
    (fastestHeaders height time k).length = longestChain height k := by
  induction k generalizing height time with
  | zero => rfl
  | succ k ih => rw [fastestHeaders, length_append, length_replicate, ih, longestChain]

theorem blockTime_ofNat (h : time < 2 ^ 32) :
    (CBlockHeader.mk 1 (BitVec.ofNat 32 time) 0x207fffff#32).getBlockTime = time := by
  rw [CBlockHeader.getBlockTime, BitVec.toNat_ofNat, mod_eq_of_lt h]

theorem blockTime_fastestHeaders (h : time + k ≤ 2 ^ 32) {header : WireHeader}
    (hm : header ∈ fastestHeaders height time k) : header.getBlockTime < time + k := by
  induction k generalizing height time with
  | zero => exact absurd hm not_mem_nil
  | succ k ih =>
    rcases mem_append.mp hm with hf | hl
    · rw [eq_of_mem_replicate hf, blockTime_ofNat (by omega)]
      omega
    · have hb := ih (show time + 1 + k ≤ 2 ^ 32 by omega) hl
      omega

theorem timesExceed_fastestHeaders {b : CBlockIndex} (hb : b.WindowBelow time)
    (h : time + k ≤ 2 ^ 32) : b.NextTimesExceedMedian
      ((fastestHeaders b.nHeight time k).map WireHeader.toCBlockHeader) := by
  induction k generalizing b time with
  | zero => trivial
  | succ k ih =>
    have ht := blockTime_ofNat (show time < 2 ^ 32 by omega)
    rw [← ht] at hb
    rw [fastestHeaders, map_append, timesExceed_append, map_replicate]
    refine ⟨hb.nextTimesExceedMedian le_rfl, ?_⟩
    have hn := hb.extendBy (raisingBlocks b.nHeight)
    rw [ht] at hn
    have hr := ih (show (b.extendBy _).WindowBelow ((time + 1 : ℕ) : ℤ) by exact_mod_cast hn)
      (by omega)
    rwa [nHeight_extendBy, length_replicate] at hr

theorem linked_of_zero {headers : List WireHeader}
    (h : ∀ header ∈ headers, header.hashPrevBlock = 0) :
    Linked (fun _ => 0) 0 headers := by
  induction headers with
  | nil => trivial
  | cons header headers ih =>
    exact ⟨h header mem_cons_self, ih fun d hd => h d (mem_cons_of_mem _ hd)⟩

theorem prev_fastestHeaders {header : WireHeader} (hm : header ∈ fastestHeaders height time k) :
    header.hashPrevBlock = 0 := by
  induction k generalizing height time with
  | zero => exact absurd hm not_mem_nil
  | succ k ih =>
    rcases mem_append.mp hm with hf | hl
    · rw [eq_of_mem_replicate hf]
    · exact ih hl

/-- A start at a height, with one time for all blocks. -/
def startAt (height : ℕ) : CBlockIndex :=
  (CBlockIndex.genesis ⟨1, 0, 0x207fffff#32⟩).extendBy (List.replicate height ⟨1, 0, 0x207fffff#32⟩)

theorem nHeight_startAt (height : ℕ) : (startAt height).nHeight = height := by
  rw [startAt, nHeight_extendBy, length_replicate, nHeight, Nat.zero_add]

theorem recentTimes_startAt (height : ℕ) : ∀ t ∈ (startAt height).recentTimes nMedianTimeSpan,
    t = 0 := by
  intro t ht
  rw [startAt, times_extendBy] at ht
  rcases mem_append.mp (mem_of_mem_take ht) with hn | hg
  · rw [mem_reverse, map_replicate] at hn
    exact eq_of_mem_replicate hn
  · exact mem_singleton.mp hg

theorem medianTime_startAt (height : ℕ) : (startAt height).getMedianTimePast = 0 := by
  have hz := recentTimes_startAt height
  apply le_antisymm
  · rw [← Int.lt_add_one_iff, ← not_le, le_medianTime_iff,
      countP_eq_length.mpr fun t ht => by simp [hz t ht]]
    have hp := (startAt height).recentTimes_ne_nil
    omega
  · rw [le_medianTime_iff, countP_eq_zero.mpr fun t ht => by simp [hz t ht]]
    exact Nat.zero_le _

/-- A sync from there, on a chain that does not check difficulties. -/
def syncFrom (height offset period seconds : ℕ) : Config where
  getHash _ := 0
  hasher _ := false
  consensusParams := { cDripParams with fPowAllowMinDifficultyBlocks := true }
  commitmentPeriod := period
  redownloadBufferSize := 1
  commitOffset := offset
  chainStart := ⟨startAt height, ⟨(startAt height).header, 0, 0, 0⟩, 0, rfl⟩
  minimumRequiredWork := 0
  maxCommitments := maxCommitmentsAt (startAt height) period (seconds - maxFutureBlockTime)

theorem seconds_syncFrom (height seconds : ℕ) : (seconds : ℤ) - maxFutureBlockTime -
    (startAt height).getMedianTimePast + maxFutureBlockTime = seconds := by
  rw [medianTime_startAt]
  ring

/-- The longest chain whose heights fit. Its times fit 32 bits, since each second has a block. -/
def longestHeaders (height seconds : ℕ) : List WireHeader :=
  (fastestHeaders height 1 (min seconds (2 ^ 31))).take (2 ^ 31 - 1 - height)

theorem length_longestHeaders (height seconds : ℕ) :
    (longestHeaders height seconds).length = longestSync height seconds := by
  rw [longestHeaders, length_take, length_fastestHeaders, longestSync]
  rcases le_total seconds (2 ^ 31) with hs | hs
  · rw [min_eq_left hs, min_comm]
  · rw [min_eq_right hs]
    have h0 := le_longestChain height (2 ^ 31)
    have h1 := le_longestChain height seconds
    omega

theorem exceeds_of_count_lt (hs : 6 * seconds < 2 ^ 63)
    (hc : 6 * seconds / period < commitmentCount height (longestSync height seconds) offset
      period) :
    ¬NeverExceedsMaxCommitments height offset period seconds := by
  intro hne
  have hl := length_longestHeaders height seconds
  have hpos : 0 < longestSync height seconds := by
    by_contra hz
    rw [show longestSync height seconds = 0 by omega, commitmentCount, Nat.add_zero,
      Finset.Ioc_self] at hc
    simp at hc
  have hh : height + (longestHeaders height seconds).length < 2 ^ 31 := by
    rw [hl]
    unfold longestSync at hpos ⊢
    omega
  have hmem {header : WireHeader} (hm : header ∈ longestHeaders height seconds) :
      header ∈ fastestHeaders height 1 (min seconds (2 ^ 31)) := mem_of_mem_take hm
  have hmax : (syncFrom height offset period seconds).maxCommitments = 6 * seconds / period :=
    maxCommitmentsAt_of_nonneg (seconds_syncFrom height seconds) hs
  have he : (syncFrom height offset period seconds).maxCommitments <
      (syncFrom height offset period seconds).start.headerCommitments.length +
        (commitments (syncFrom height offset period seconds) height
          (longestHeaders height seconds)).length := by
    rw [hmax, length_commitments height hh, hl]
    exact hc.trans_le (le_add_left _ _)
  obtain ⟨st, hr⟩ := maxCommitments_of_lt height rfl rfl
    (show (syncFrom height offset period seconds).start.currentHeight = height from
      congrArg Nat.cast (nHeight_startAt height)) hh (Nat.zero_le _) he
  have hw : (startAt height).WindowBelow (1 : ℕ) := fun t ht => by
    rw [recentTimes_startAt height t ht]
    decide
  have ht := timesExceed_fastestHeaders (k := min seconds (2 ^ 31)) hw (by omega)
  rw [nHeight_startAt, ← take_append_drop (2 ^ 31 - 1 - height) (fastestHeaders _ _ _), map_append,
    timesExceed_append] at ht
  refine hne (syncFrom height offset period seconds) _ (longestHeaders height seconds)
    (nHeight_startAt height) rfl rfl rfl (seconds_syncFrom height seconds)
    (linked_of_zero fun header hm => prev_fastestHeaders (hmem hm)) ht.1 ?_ hh st hr
  intro header hm
  have hb := blockTime_fastestHeaders (by omega) (hmem hm)
  rw [sub_add_cancel]
  push_cast at hb
  omega

end

/-- The bound never turns away a chain with valid times if and only if the heights at the offset in
the longest such chain are not more than the bound. The product with six is an `int64_t`. -/
theorem neverExceedsMaxCommitments_iff (height offset period : ℕ) {seconds : ℤ}
    (hseconds : 6 * seconds < 2 ^ 63) :
    NeverExceedsMaxCommitments height offset period seconds ↔
      commitmentCount height (longestSync height seconds.toNat) offset period ≤
        6 * seconds.toNat / period := by
  rcases le_or_gt seconds 0 with hn | hp
  · refine ⟨fun _ => ?_, fun _ => neverExceeds_of_nonpos hn⟩
    rw [Int.toNat_of_nonpos hn, longestSync, longestChain, Nat.zero_min, commitmentCount,
      Nat.add_zero, Finset.Ioc_self]
    exact Nat.zero_le _
  obtain ⟨seconds, rfl⟩ := Int.eq_ofNat_of_zero_le hp.le
  rw [Int.toNat_natCast]
  have hs : 6 * seconds < 2 ^ 63 := by omega
  refine ⟨fun hne => ?_, neverExceeds_of_count_le hs⟩
  by_contra hlt
  exact exceeds_of_count_lt hs (not_le.mp hlt) hne

/-- From genesis, ten seconds have room for 49 blocks, of which one in twelve is at the offset, and
for a commitment at height one but not for any with a period of 632. -/
theorem neverExceedsMaxCommitments_genesis :
    NeverExceedsMaxCommitments 0 1 12 10 ∧ NeverExceedsMaxCommitments 0 0 50000 7200 ∧
      ¬NeverExceedsMaxCommitments 0 1 632 10 :=
  ⟨(neverExceedsMaxCommitments_iff 0 1 12 (by decide)).mpr (by decide +kernel),
    (neverExceedsMaxCommitments_iff 0 0 50000 (by decide)).mpr (by decide +kernel),
    fun h => absurd ((neverExceedsMaxCommitments_iff 0 1 632 (by decide)).mp h) (by decide +kernel)⟩

/-- A sync from genesis at its time, with a period longer than all the blocks that fit. -/
def rareCommitments : Config where
  getHash _ := 0
  hasher _ := false
  consensusParams := cDripParams
  commitmentPeriod := 50000
  redownloadBufferSize := 1
  commitOffset := 1
  chainStart := ⟨.genesis ⟨1, 1000000000, 0x1d00ffff#32⟩,
    ⟨⟨1, 1000000000, 0x1d00ffff#32⟩, 0, 0, 0⟩, 0, rfl⟩
  minimumRequiredWork := 0
  maxCommitments := maxCommitmentsAt (.genesis ⟨1, 1000000000, 0x1d00ffff#32⟩) 50000 1000000000

def rareHeader : WireHeader := ⟨⟨1, 1000000001, 0x1d00ffff#32⟩, 0, 0, 0⟩

/-- No commitment is allowed, and the first header after genesis needs one. -/
theorem rareCommitments_exceeded : ¬NeverExceedsMaxCommitments 0 1 50000 7200 := by
  intro h
  have hr : ∃ st, [rareHeader].foldlM (validateAndProcessSingleHeader rareCommitments)
      rareCommitments.start = .error (.maxCommitments, st) := ⟨_, rfl⟩
  obtain ⟨st, hr⟩ := hr
  refine h rareCommitments 1000000000 [rareHeader] rfl rfl rfl rfl ?_ ⟨rfl, trivial⟩ ⟨?_, trivial⟩
    ?_ ?_ st hr
  all_goals decide +kernel

end HeadersSync
end DripCore
