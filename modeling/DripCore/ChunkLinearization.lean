import DripCore.CompareChunks
import DripCore.ConcavePolyline
import DripCore.DepGraph

/-!
# The chunks of a linearization

`ChunkLinearization` merges each transaction with the chunks before it while it has the higher
feerate. The chunks have falling feerates, and no beginning of the linearization is heavier, at any
feerate, than they allow. So linearizations are compared by the weights of their beginnings.
-/
namespace DripCore
open FeeFrac List PiecewiseLinear

/-- A new chunk is merged with the last chunks, which are listed from the last one on, as long as
its feerate is higher. -/
def absorbChunks : FeeFrac → List FeeFrac → List FeeFrac
  | new_chunk, [] => [new_chunk]
  | new_chunk, last::rest =>
    if new_chunk.feeRateCompare last = .gt then absorbChunks (new_chunk+last) rest
    else new_chunk::last::rest

def chunkLinearization (g : DepGraph) (linearization : List DepGraphIndex) : List FeeFrac :=
  (linearization.foldl (fun ret i => absorbChunks (g.feeRate i) ret) []).reverse

section
variable (K : Type*) [Field K]

def FeeFrac.segment (f : FeeFrac) : Segment K := ⟨f.size,f.fee⟩

variable {K} {f last : FeeFrac} {ret rest : List FeeFrac} {l : K}

theorem FeeFrac.weight_add (f h : FeeFrac) (l : K) :
    ((f+h).segment K).weight l = (f.segment K).weight l+(h.segment K).weight l := by
  simp only [segment,Segment.weight,add_fee,add_size,Int.cast_add]
  ring

theorem weight_absorbChunks (f : FeeFrac) (ret : List FeeFrac) (l : K) :
    totalWeight l ((absorbChunks f ret).map (segment K)) =
      (f.segment K).weight l+totalWeight l (ret.map (segment K)) := by
  induction ret generalizing f with
  | nil => rfl
  | cons last rest ih =>
    rw [absorbChunks]
    split_ifs with hg
    · rw [ih,weight_add,map_cons,weight_cons,add_assoc]
    · rw [map_cons,weight_cons]

/-- The chunks before a given one are the same as before, unless everything has been merged. -/
theorem suffix_absorbChunks {S : List FeeFrac} (h : S <:+ absorbChunks f ret) :
    S = absorbChunks f ret ∨ S <:+ ret := by
  induction ret generalizing f with
  | nil =>
    rcases suffix_cons_iff.mp h with h | h
    · exact .inl h
    · exact .inr h
  | cons last rest ih =>
    rw [absorbChunks] at h ⊢
    split_ifs at h ⊢ with hg
    · exact (ih h).imp_right fun hS => hS.trans (suffix_cons _ _)
    · exact suffix_cons_iff.mp h

theorem absorbChunks_size_pos (hf : 0 < f.size) (hr : ∀ c ∈ ret, 0 < c.size) :
    ∀ c ∈ absorbChunks f ret, 0 < c.size := by
  induction ret generalizing f with
  | nil =>
    intro c hc
    rwa [mem_singleton.mp hc]
  | cons last rest ih =>
    rw [absorbChunks]
    have hl := hr last mem_cons_self
    have he := fun c hc => hr c (mem_cons_of_mem _ hc)
    split_ifs with hg
    · exact ih (Int.add_pos hf hl) he
    · exact forall_mem_cons.mpr ⟨hf,hr⟩

/-- Chunks, from the last one on, of rising feerates. -/
def Rising (ret : List FeeFrac) : Prop := ret.Pairwise fun f c => f.fee*c.size ≤ c.fee*f.size

theorem rising_absorbChunks (hf : 0 < f.size) (hpos : ∀ c ∈ ret, 0 < c.size) (hr : Rising ret) :
    Rising (absorbChunks f ret) := by
  induction ret generalizing f with
  | nil => exact pairwise_singleton _ _
  | cons last rest ih =>
    obtain ⟨hl,hre⟩ := pairwise_cons.mp hr
    have hlast_pos := hpos last mem_cons_self
    rw [absorbChunks]
    split_ifs with hg
    · exact ih (Int.add_pos hf hlast_pos) (fun c hc => hpos c (mem_cons_of_mem _ hc)) hre
    · have he : f.fee*last.size ≤ last.fee*f.size := by
        rw [feeRateCompare,compare_gt_iff_gt] at hg
        exact not_lt.mp hg
      refine pairwise_cons.mpr ⟨fun c hc => ?_,hr⟩
      rcases mem_cons.mp hc with rfl | hc
      · exact he
      · have hc_pos := hpos c (mem_cons_of_mem _ hc)
        have ht := hl c hc
        -- Through the last chunk, whose size is positive.
        refine le_of_mul_le_mul_right ?_ hlast_pos
        nlinarith [mul_le_mul_of_nonneg_right he hc_pos.le,mul_le_mul_of_nonneg_right ht hf.le]

variable [LinearOrder K]

theorem excess_eq_total (h : ∀ c ∈ ret, 0 ≤ (c.segment K).weight l) :
    excess l (ret.map (segment K)) = totalWeight l (ret.map (segment K)) := by
  induction ret with
  | nil => rfl
  | cons last rest ih =>
    rw [map_cons,excess_cons,weight_cons,max_eq_left (h last mem_cons_self),
      ih fun c hc => h c (mem_cons_of_mem _ hc)]

variable [IsStrictOrderedRing K]

/-- With rising feerates, everything before a chunk of positive weight has positive weight. -/
theorem Rising.weight_nonneg (h : Rising (last::rest)) (hpos : ∀ c ∈ last::rest, 0 < c.size)
    (hl : 0 < (last.segment K).weight l) : ∀ c ∈ last::rest, 0 ≤ (c.segment K).weight l := by
  intro c hc
  rcases mem_cons.mp hc with rfl | hc
  · exact hl.le
  · have hlast_pos : (0 : K) < last.size := Int.cast_pos.mpr (hpos last mem_cons_self)
    have hc_pos : (0 : K) < c.size := Int.cast_pos.mpr (hpos c (mem_cons_of_mem _ hc))
    have he : (last.fee : K)*c.size ≤ c.fee*last.size := by
      exact_mod_cast (pairwise_cons.mp h).1 c hc
    have ht : l*last.size < last.fee := sub_pos.mp hl
    refine sub_nonneg.mpr (le_of_mul_le_mul_right ?_ hlast_pos)
    calc l*c.size*last.size = l*last.size*c.size := by ring
      _ ≤ last.fee*c.size := mul_le_mul_of_nonneg_right ht.le hc_pos.le
      _ ≤ c.fee*last.size := he

/-- Merging a chunk with ones of lower feerate does not lower the excess. -/
theorem excess_le_absorbChunks (hf : 0 < f.size) (hpos : ∀ c ∈ ret, 0 < c.size) (he : Rising ret) :
    excess l (ret.map (segment K)) ≤ excess l ((absorbChunks f ret).map (segment K)) := by
  induction ret generalizing f with
  | nil => exact excess_nonneg l _
  | cons last rest ih =>
    have hlast_pos := hpos last mem_cons_self
    rcases le_or_gt ((last.segment K).weight l) 0 with hw | hw
    · rw [absorbChunks]
      split_ifs with hg
      · rw [map_cons,excess_cons,max_eq_right hw,zero_add]
        exact ih (Int.add_pos hf hlast_pos) (fun c hc => hpos c (mem_cons_of_mem _ hc))
          (pairwise_cons.mp he).2
      · exact le_add_of_nonneg_left (le_max_right _ _)
    · -- All chunks so far count in full, and the new one only if it is absorbed.
      rw [excess_eq_total (he.weight_nonneg hpos hw)]
      by_cases hg : f.feeRateCompare last = .gt
      · have hp : 0 ≤ (f.segment K).weight l := by
          have hr : Rising [last,f] := by
            rw [feeRateCompare,compare_gt_iff_gt] at hg
            exact pairwise_pair.mpr (le_of_lt hg)
          refine hr.weight_nonneg ?_ hw f (by simp)
          exact forall_mem_cons.mpr ⟨hlast_pos,forall_mem_singleton.mpr hf⟩
        calc totalWeight l ((last::rest).map (segment K))
            ≤ (f.segment K).weight l+totalWeight l ((last::rest).map (segment K)) :=
              le_add_of_nonneg_left hp
          _ = totalWeight l ((absorbChunks f (last::rest)).map (segment K)) :=
            (weight_absorbChunks f _ l).symm
          _ ≤ _ := total_le_excess l _
      · rw [absorbChunks,if_neg hg,← excess_eq_total (he.weight_nonneg hpos hw)]
        exact le_add_of_nonneg_left (le_max_right _ _)

/-- The excess is the weight of the chunks before some place. -/
theorem Rising.exists_suffix (h : Rising ret) (hpos : ∀ c ∈ ret, 0 < c.size) (l : K) : ∃ S,
    S <:+ ret ∧
      excess l (ret.map (segment K)) = totalWeight l (S.map (segment K)) := by
  induction ret with
  | nil => exact ⟨[],suffix_rfl,rfl⟩
  | cons last rest ih =>
    rcases le_or_gt ((last.segment K).weight l) 0 with hw | hw
    · obtain ⟨S,hS,he⟩ := ih (pairwise_cons.mp h).2 fun c hc => hpos c (mem_cons_of_mem _ hc)
      refine ⟨S,hS.trans (suffix_cons _ _),?_⟩
      rw [map_cons,excess_cons,max_eq_right hw,zero_add,he]
    · exact ⟨last::rest,suffix_rfl,excess_eq_total (h.weight_nonneg hpos hw)⟩

end

section

/-- The chunks of a list of transactions, from the last one on. -/
def chunkFeerates (feerates : List FeeFrac) : List FeeFrac :=
  feerates.foldl (fun ret f => absorbChunks f ret) []

theorem chunked_eq (g : DepGraph) (linearization : List DepGraphIndex) :
    chunkLinearization g linearization = (chunkFeerates (linearization.map g.feeRate)).reverse := by
  rw [chunkLinearization,chunkFeerates,foldl_map]

theorem feerates_concat (feerates : List FeeFrac) (f : FeeFrac) :
    chunkFeerates (feerates++[f]) = absorbChunks f (chunkFeerates feerates) := by
  rw [chunkFeerates,foldl_append]
  rfl

variable {fe : List FeeFrac}

theorem feerates_rising (hpos : ∀ f ∈ fe, 0 < f.size) :
    (∀ c ∈ chunkFeerates fe, 0 < c.size) ∧ Rising (chunkFeerates fe) := by
  induction fe using reverseRecOn with
  | nil => exact ⟨fun c hc => absurd hc not_mem_nil,List.Pairwise.nil⟩
  | append_singleton fe f ih =>
    obtain ⟨hh,hr⟩ := ih fun c hc => hpos c (mem_append_left _ hc)
    have hf := hpos f (mem_append_right _ (mem_singleton_self f))
    rw [feerates_concat]
    exact ⟨absorbChunks_size_pos hf hh,rising_absorbChunks hf hh hr⟩

variable {K : Type*} [Field K]

theorem weight_feerates (fe : List FeeFrac) (l : K) :
    totalWeight l ((chunkFeerates fe).map (segment K)) =
      totalWeight l (fe.map (segment K)) := by
  induction fe using reverseRecOn with
  | nil => rfl
  | append_singleton fe f ih =>
    rw [feerates_concat,weight_absorbChunks,ih,add_comm]
    simp [totalWeight]

/-- The chunks before a place are a beginning of the list. -/
theorem exists_prefix_of_suffix {S : List FeeFrac} (h : S <:+ chunkFeerates fe) :
    ∃ q, q <+: fe ∧ ∀ l : K, totalWeight l (S.map (segment K)) =
      totalWeight l (q.map (segment K)) := by
  induction fe using reverseRecOn with
  | nil =>
    rw [suffix_nil.mp h]
    exact ⟨[],prefix_rfl,fun _ => rfl⟩
  | append_singleton fe f ih =>
    rw [feerates_concat] at h
    rcases suffix_absorbChunks h with he | h
    · refine ⟨fe++[f],prefix_rfl,fun l => ?_⟩
      rw [he,← feerates_concat,weight_feerates]
    · obtain ⟨q,hq,he⟩ := ih h
      exact ⟨q,hq.trans (prefix_append _ _),he⟩

theorem weight_reverse (l : K) (chunks : List FeeFrac) :
    totalWeight l (chunks.reverse.map (segment K)) = totalWeight l (chunks.map (segment K)) := by
  rw [totalWeight,totalWeight,map_reverse,map_reverse,sum_reverse]

variable [LinearOrder K]

theorem excess_reverse (l : K) (chunks : List FeeFrac) :
    excess l (chunks.reverse.map (segment K)) = excess l (chunks.map (segment K)) := by
  rw [excess,excess,map_reverse,map_reverse,sum_reverse]

variable [IsStrictOrderedRing K]

variable (hpos : ∀ f ∈ fe, 0 < f.size)
include hpos

/-- No beginning of the list is heavier than the chunks allow. -/
theorem weight_le_excess_chunks {q : List FeeFrac} (hq : q <+: fe) (l : K) :
    totalWeight l (q.map (segment K)) ≤ excess l ((chunkFeerates fe).map (segment K)) := by
  induction fe using reverseRecOn with
  | nil =>
    rw [prefix_nil.mp hq]
    exact le_rfl
  | append_singleton fe f ih =>
    rcases prefix_concat_iff.mp hq with rfl | hq
    · rw [← weight_feerates]
      exact total_le_excess l _
    · have hpos' := fun c hc => hpos c (mem_append_left _ hc)
      obtain ⟨hh,hr⟩ := feerates_rising hpos'
      rw [feerates_concat]
      refine (ih hpos' hq).trans (excess_le_absorbChunks ?_ hh hr)
      exact hpos f (mem_append_right _ (mem_singleton_self f))

theorem forward_chunks : Forward ((chunkFeerates fe).reverse.map (segment K)) :=
  forward_of_positive fun c hc => (feerates_rising hpos).1 c (mem_reverse.mp hc)

theorem concave_chunks : Concave ((chunkFeerates fe).reverse.map (segment K)) := by
  rw [Concave,pairwise_map,pairwise_reverse]
  refine (feerates_rising hpos).2.imp fun {f c} hl => ?_
  change (f.fee : K)*c.size ≤ c.fee*f.size
  exact_mod_cast hl

end

variable {K : Type*} [Field K]

/-- The weight of a list of transactions at a feerate. -/
def listWeight (g : DepGraph) (l : K) (txs : List DepGraphIndex) : K :=
  totalWeight l ((txs.map g.feeRate).map (segment K))

theorem totalWeight_eq (l : K) (se : List (Segment K)) :
    totalWeight l se = totalRise se-l*totalRun se := by
  induction se with
  | nil => simp [totalWeight,totalRise,totalRun]
  | cons s se ih =>
    rw [weight_cons,totalRise_cons,totalRun_cons,ih,Segment.weight]
    ring

theorem totalRise_eq (s : List (Segment K)) : totalRise s = totalWeight 0 s := by
  rw [totalWeight_eq,zero_mul,sub_zero]

theorem totalRun_eq (s : List (Segment K)) : totalRun s = totalWeight 0 s-totalWeight 1 s := by
  rw [totalWeight_eq,totalWeight_eq]
  ring

theorem weight_chunks (g : DepGraph) (linearization : List DepGraphIndex) (l : K) :
    totalWeight l ((chunkLinearization g linearization).map (segment K)) =
      listWeight g l linearization := by
  rw [chunked_eq,weight_reverse,weight_feerates,listWeight]

variable [LinearOrder K] [IsStrictOrderedRing K] {g : DepGraph}
variable {li li' : List DepGraphIndex}

/-- A linearization has the better diagram if its beginnings outweigh the other's at each feerate.
-/
theorem diagram_chunks_le (hpos : ∀ i ∈ li, 0 < (g.feeRate i).size)
    (hpos' : ∀ i ∈ li', 0 < (g.feeRate i).size)
    (hp : li'.Perm li)
    (h : ∀ (l : K) q, q <+: li' → ∃ r, r <+: li ∧ listWeight g l q ≤ listWeight g l r) {x : K}
    (hx : 0 ≤ x) :
    diagram (chunkLinearization g li') x ≤ diagram (chunkLinearization g li) x := by
  have hs : ∀ f ∈ li.map g.feeRate, 0 < f.size := forall_mem_map.mpr hpos
  have hs' : ∀ f ∈ li'.map g.feeRate, 0 < f.size := forall_mem_map.mpr hpos'
  have ht : ∀ l : K, totalWeight l ((chunkLinearization g li').map (segment K)) =
      totalWeight l ((chunkLinearization g li).map (segment K)) := by
    intro l
    rw [weight_chunks,weight_chunks]
    exact (((hp.map _).map _).map _).sum_eq
  have hc : Concave ((chunkLinearization g li).map (segment K)) := by
    rw [chunked_eq]
    exact concave_chunks hs
  have hf : Forward ((chunkLinearization g li).map (segment K)) := by
    rw [chunked_eq]
    exact forward_chunks hs
  have hf' : Forward ((chunkLinearization g li').map (segment K)) := by
    rw [chunked_eq]
    exact forward_chunks hs'
  change polyline ((chunkLinearization g li').map (segment K)) x ≤
    polyline ((chunkLinearization g li).map (segment K)) x
  refine hc.polyline_le hf hf' ?_ ?_ ?_ hx
  · rw [totalRun_eq,totalRun_eq,ht,ht]
  · rw [totalRise_eq,totalRise_eq,ht]
  · -- Both excesses are weights of beginnings.
    intro l
    rw [chunked_eq,chunked_eq,excess_reverse,excess_reverse]
    obtain ⟨hh',hri'⟩ := feerates_rising hs'
    obtain ⟨S,hS,hexcess⟩ := hri'.exists_suffix hh' l
    obtain ⟨q,hq,hw⟩ := exists_prefix_of_suffix (K := K) hS
    obtain ⟨txs,htx,rfl⟩ := prefix_map_iff.mp hq
    obtain ⟨r,hr,hl⟩ := h l txs htx
    rw [hexcess,hw]
    exact hl.trans (weight_le_excess_chunks hs (hr.map _) l)

end DripCore
