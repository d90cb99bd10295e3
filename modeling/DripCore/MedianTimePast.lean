import DripCore.BlockIndex
import DripCore.OrderStatistics

/-!
# Median time past along a branch

Each block time has to exceed the median of the times before it. The median of the last eleven times
then never decreases along a branch. Six blocks raise it by at least a second, since they fill more
than half of the window. Near the start of the chain the window is shorter, and as many blocks as
there are before do it.
-/
namespace DripCore.CBlockIndex
open List Nat OrderStatistics

def extendBy (b : CBlockIndex) (headers : List CBlockHeader) : CBlockIndex := headers.foldl extend b

/-- The rule behind `time-too-old`, at every block of a branch. -/
def TimesExceedMedian : CBlockIndex → Prop
  | genesis _ => True
  | extend p b => p.getMedianTimePast < b.getBlockTime ∧ p.TimesExceedMedian

/-- The rule at every block after an entry. -/
def NextTimesExceedMedian : CBlockIndex → List CBlockHeader → Prop
  | _, [] => True
  | b, header::headers =>
    b.getMedianTimePast < header.getBlockTime ∧ (b.extend header).NextTimesExceedMedian headers

section
variable (b : CBlockIndex)
include b

@[simp] theorem extendBy_nil : b.extendBy [] = b := rfl
@[simp] theorem extendBy_cons (header : CBlockHeader) (headers : List CBlockHeader) :
    b.extendBy (header::headers) = (b.extend header).extendBy headers := rfl

theorem nHeight_extendBy (headers : List CBlockHeader) :
    (b.extendBy headers).nHeight = b.nHeight+headers.length := by
  induction headers generalizing b with
  | nil => rfl
  | cons header headers ih =>
    rw [extendBy_cons,ih,length_cons,nHeight]
    omega

end

variable {b : CBlockIndex} {headers : List CBlockHeader}

theorem timesExceed_of_extendBy (h : (b.extendBy headers).TimesExceedMedian) :
    b.TimesExceedMedian ∧ b.NextTimesExceedMedian headers := by
  induction headers generalizing b with
  | nil => exact ⟨h,trivial⟩
  | cons header headers ih =>
    obtain ⟨⟨hr,hb⟩,hn⟩ := ih h
    exact ⟨hb,hr,hn⟩

theorem timesExceed_append {hs hs' : List CBlockHeader} : b.NextTimesExceedMedian (hs++hs') ↔
      b.NextTimesExceedMedian hs ∧ (b.extendBy hs).NextTimesExceedMedian hs' := by
  induction hs generalizing b with
  | nil => simp [NextTimesExceedMedian]
  | cons header hs ih => rw [cons_append,NextTimesExceedMedian,ih,NextTimesExceedMedian,
      extendBy_cons,and_assoc]

theorem recentTimes_take {m n : ℕ} (hm : m ≤ n) (b : CBlockIndex) :
    b.recentTimes m = (b.recentTimes n).take m := by
  induction b generalizing m n with
  | genesis b =>
    cases m with
    | zero => simp [recentTimes]
    | succ m =>
      obtain ⟨n,rfl⟩ := exists_eq_succ_of_ne_zero (show n ≠ 0 by omega)
      simp [recentTimes]
  | extend p b ih =>
    cases m with
    | zero => simp [recentTimes]
    | succ m =>
      obtain ⟨n,rfl⟩ := exists_eq_succ_of_ne_zero (show n ≠ 0 by omega)
      simp [recentTimes,ih (le_of_succ_le_succ hm)]

theorem length_recentTimes_le (n : ℕ) (b : CBlockIndex) : (b.recentTimes n).length ≤ n := by
  rw [recentTimes_take (le_refl n) b]
  exact length_take_le _ _

theorem recentTimes_ne_nil (b : CBlockIndex) : 0 < (b.recentTimes nMedianTimeSpan).length := by
  cases b with
  | genesis b => exact succ_pos _
  | extend p b => exact succ_pos _

theorem recentTimes_extend (p : CBlockIndex) (b : CBlockHeader) :
    (p.extend b).recentTimes nMedianTimeSpan =
      (b.getBlockTime::p.recentTimes nMedianTimeSpan).take nMedianTimeSpan := by
  rw [nMedianTimeSpan,recentTimes,recentTimes_take (show 10 ≤ 11 by decide) p,take_succ_cons]

theorem times_extendBy (b : CBlockIndex) (headers : List CBlockHeader) :
    (b.extendBy headers).recentTimes nMedianTimeSpan =
      ((headers.map CBlockHeader.getBlockTime).reverse++b.recentTimes nMedianTimeSpan).take
        nMedianTimeSpan := by
  induction headers generalizing b with
  | nil =>
    exact (take_of_length_le (length_recentTimes_le _ b)).symm
  | cons header headers ih =>
    rw [extendBy_cons,ih,recentTimes_extend,map_cons,reverse_cons,append_assoc,singleton_append]
    rw [take_append,take_append,take_take,min_eq_left (sub_le _ _)]

theorem le_medianTime_iff (b : CBlockIndex) (x : ℤ) : x ≤ b.getMedianTimePast ↔
      (b.recentTimes nMedianTimeSpan).countP (· < x) ≤
        (b.recentTimes nMedianTimeSpan).length / 2 := by
  have hp := b.recentTimes_ne_nil
  have hl : (b.recentTimes nMedianTimeSpan).length / 2 <
    (b.recentTimes nMedianTimeSpan).length := by
    omega
  rw [← le_kth_iff hl x 0,kth,getMedianTimePast,length_insertionSort]

theorem medianTime_le_extend {p : CBlockIndex} {b : CBlockHeader}
    (h : p.getMedianTimePast ≤ b.getBlockTime) :
    p.getMedianTimePast ≤ (p.extend b).getMedianTimePast := by
  have hc := (p.le_medianTime_iff _).mp (le_refl _)
  have hl := p.length_recentTimes_le nMedianTimeSpan
  rw [le_medianTime_iff,recentTimes_extend]
  have hd : ((b.getBlockTime::p.recentTimes nMedianTimeSpan).take nMedianTimeSpan).countP
      (· < p.getMedianTimePast) ≤
        (p.recentTimes nMedianTimeSpan).countP (· < p.getMedianTimePast) := by
    refine ((take_sublist _ _).countP_le).trans (le_of_eq ?_)
    exact countP_cons_of_neg (by simpa using h)
  rw [length_take,length_cons]
  omega

theorem length_recentTimes (n : ℕ) (b : CBlockIndex) :
    (b.recentTimes n).length = min n (b.nHeight + 1) := by
  induction b generalizing n with
  | genesis b => cases n <;> simp [recentTimes, nHeight]
  | extend p b ih =>
    cases n with
    | zero => simp [recentTimes]
    | succ n =>
      rw [recentTimes, length_cons, ih, nHeight]
      omega

/-- How many blocks are needed to raise the median after a height: six fill more than half of the
window, and a shorter window is doubled. -/
def raisingBlocks (height : ℕ) : ℕ := min (height + 1) 6

section
variable {b : CBlockIndex} {headers : List CBlockHeader} (h : b.NextTimesExceedMedian headers)
include h

theorem medianTime_mono : b.getMedianTimePast ≤ (b.extendBy headers).getMedianTimePast := by
  induction headers generalizing b with
  | nil => exact le_refl _
  | cons header headers ih => exact (medianTime_le_extend h.1.le).trans (ih h.2)

/-- Every block after `b` is later than the median of `b`. -/
theorem medianTime_lt_of_mem {header : CBlockHeader} (hm : header ∈ headers) :
    b.getMedianTimePast < header.getBlockTime := by
  induction headers generalizing b with
  | nil => exact absurd hm not_mem_nil
  | cons header' headers ih =>
    rcases mem_cons.mp hm with rfl | hm
    · exact h.1
    · exact (medianTime_le_extend h.1.le).trans_lt (ih h.2 hm)

theorem medianTime_raised (hl : headers.length = raisingBlocks b.nHeight) :
    b.getMedianTimePast + 1 ≤ (b.extendBy headers).getMedianTimePast := by
  rw [le_medianTime_iff, times_extendBy, take_append, countP_append, length_append]
  have hn : ((headers.map CBlockHeader.getBlockTime).reverse.take nMedianTimeSpan).countP
      (· < b.getMedianTimePast + 1) = 0 := by
    rw [countP_eq_zero]
    intro time ht
    obtain ⟨header, hh, rfl⟩ := mem_map.mp (mem_reverse.mp (mem_of_mem_take ht))
    have hlt := medianTime_lt_of_mem h hh
    simp only [decide_eq_true_eq]
    omega
  have hold := countP_le_length (p := (· < b.getMedianTimePast + 1))
    (l := (b.recentTimes nMedianTimeSpan).take (nMedianTimeSpan -
      (headers.map CBlockHeader.getBlockTime).reverse.length))
  rw [hn]
  rw [raisingBlocks] at hl
  simp only [length_take, length_reverse, length_map, nMedianTimeSpan, length_recentTimes]
    at hold ⊢
  omega

end

end DripCore.CBlockIndex
