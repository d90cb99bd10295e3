import DripCore.Linearize

/-!
# Chunks as a concave envelope

The chunks of a linearization are consecutive groups of it, and their diagram is the least concave
function that no beginning of the linearization is above.

The merging loop of `ChunkLinearization` finds this envelope in one pass. What it merges is never
above the envelope, and what it keeps apart falls in feerate.
-/
namespace DripCore
open DepGraph FeeFrac List PiecewiseLinear

/-- As `absorbChunks`, with the transactions of the chunks. -/
def absorbInfos : SetInfo → List SetInfo → List SetInfo
  | new_chunk, [] => [new_chunk]
  | new_chunk, last::rest =>
    if new_chunk.feerate.feeRateCompare last.feerate = .gt
      then absorbInfos (new_chunk.add last) rest
    else new_chunk::last::rest

def chunkLinearizationInfo (g : DepGraph) (linearization : List DepGraphIndex) : List SetInfo :=
  (linearization.foldl (fun ret i => absorbInfos (.single g i) ret) []).reverse

namespace DepGraph
variable (g : DepGraph)

def listFeeRate (txs : List DepGraphIndex) : FeeFrac :=
  ⟨(txs.map fun i => (g.feeRate i).fee).sum,(txs.map fun i => (g.feeRate i).size).sum⟩

def groupInfo (txs : List DepGraphIndex) : SetInfo := ⟨txs.toFinset,g.listFeeRate txs⟩

/-- The concave functions that no beginning of a linearization is above. -/
def Majorants (linearization : List DepGraphIndex) : Set (ℝ → ℝ) :=
  {φ | ConcaveOn ℝ (Set.Icc (0 : ℝ) (g.listFeeRate linearization).size) φ ∧
    ∀ q, q <+: linearization → (g.listFeeRate q).fee ≤ φ (g.listFeeRate q).size}

end DepGraph

variable {g : DepGraph}

theorem listFeeRate_append (txs txs' : List DepGraphIndex) :
    g.listFeeRate (txs++txs') = g.listFeeRate txs'+g.listFeeRate txs := by
  simp [listFeeRate,FeeFrac.ext_iff,add_comm]

theorem groupInfo_append (txs txs' : List DepGraphIndex) :
    g.groupInfo (txs++txs') = (g.groupInfo txs').add (g.groupInfo txs) := by
  rw [groupInfo,listFeeRate_append,toFinset_append,Finset.union_comm]
  rfl

/-- Both loops merge the same groups. -/
theorem absorb_groups (new : List DepGraphIndex) (groups : List (List DepGraphIndex)) :
    ∃ groups' : List (List DepGraphIndex), groups'.reverse.flatten = groups.reverse.flatten++new ∧
      absorbChunks (g.listFeeRate new) (groups.map g.listFeeRate) = groups'.map g.listFeeRate ∧
      absorbInfos (g.groupInfo new) (groups.map g.groupInfo) = groups'.map g.groupInfo := by
  induction groups generalizing new with
  | nil => exact ⟨[new],by simp,rfl,rfl⟩
  | cons last groups ih =>
    rw [map_cons,map_cons,absorbInfos,absorbChunks]
    change ∃ groups', _ ∧ _ ∧ (if (g.listFeeRate new).feeRateCompare (g.listFeeRate last) = .gt
      then _ else _) = _
    split_ifs
    · obtain ⟨groups',hf,hc,hn⟩ := ih (last++new)
      refine ⟨groups',by simp [hf],by rwa [← listFeeRate_append],?_⟩
      rwa [← groupInfo_append]
    · exact ⟨new::last::groups,by simp,rfl,rfl⟩

theorem exists_groups (g : DepGraph) (l : List DepGraphIndex) :
    ∃ groups : List (List DepGraphIndex), groups.flatten = l ∧
      chunkLinearization g l = groups.map g.listFeeRate ∧
      chunkLinearizationInfo g l = groups.map g.groupInfo := by
  suffices h : ∃ groups : List (List DepGraphIndex), groups.reverse.flatten = l ∧
      l.foldl (fun ret i => absorbChunks (g.feeRate i) ret) [] = groups.map g.listFeeRate ∧
      l.foldl (fun ret i => absorbInfos (.single g i) ret) [] = groups.map g.groupInfo by
    obtain ⟨groups,hf,hc,hn⟩ := h
    refine ⟨groups.reverse,hf,?_,?_⟩
    · rw [chunkLinearization,hc,map_reverse]
    · rw [chunkLinearizationInfo,hn,map_reverse]
  induction l using reverseRecOn with
  | nil => exact ⟨[],rfl,rfl,rfl⟩
  | append_singleton l i ih =>
    obtain ⟨groups,rfl,hc,hn⟩ := ih
    have ho : g.listFeeRate [i] = g.feeRate i := by simp [listFeeRate]
    have hs : g.groupInfo [i] = .single g i := by rw [groupInfo,ho]; rfl
    obtain ⟨groups',hf,hc',hn'⟩ := absorb_groups (g := g) [i] groups
    refine ⟨groups',hf,?_,?_⟩
    · rw [foldl_append,hc,← hc',ho]
      rfl
    · rw [foldl_append,hn,← hn',hs]
      rfl

theorem totalRise_listFeeRate (txs : List DepGraphIndex) :
    totalRise ((txs.map g.feeRate).map (segment ℝ)) = (g.listFeeRate txs).fee := by
  simp [totalRise,listFeeRate,FeeFrac.segment,Function.comp_def]

theorem totalRun_listFeeRate (txs : List DepGraphIndex) :
    totalRun ((txs.map g.feeRate).map (segment ℝ)) = (g.listFeeRate txs).size := by
  simp [totalRun,listFeeRate,FeeFrac.segment,Function.comp_def]

/-- The chunks are consecutive groups of falling feerate, and their diagram is the least of the
concave functions that no beginning of the linearization is above. -/
theorem chunkLinearization_concave_envelope (g : DepGraph) (linearization : List DepGraphIndex)
    (hpos : ∀ i ∈ linearization, 0 < (g.feeRate i).size) :
    (∃ groups : List (List DepGraphIndex), groups.flatten = linearization ∧ [] ∉ groups ∧
      chunkLinearization g linearization = groups.map g.listFeeRate ∧
      chunkLinearizationInfo g linearization = groups.map g.groupInfo) ∧
    (chunkLinearization g linearization).Pairwise (fun a b => a.feeRateCompare b ≠ .lt) ∧
    diagram (chunkLinearization g linearization) ∈ g.Majorants linearization ∧
    ∀ φ ∈ g.Majorants linearization, ∀ x : ℝ, 0 ≤ x → x ≤ (g.listFeeRate linearization).size →
      diagram (chunkLinearization g linearization) x ≤ φ x := by
  have hs : ∀ f ∈ linearization.map g.feeRate, 0 < f.size := forall_mem_map.mpr hpos
  have ho := forward_chunks (K := ℝ) hs
  have hc := concave_chunks (K := ℝ) hs
  obtain ⟨hh,hri⟩ := feerates_rising hs
  have ht : totalRun ((chunkLinearization g linearization).map (segment ℝ)) =
      (g.listFeeRate linearization).size := by
    rw [totalRun_eq,weight_chunks,weight_chunks,
      ← totalRun_listFeeRate,totalRun_eq,listWeight,listWeight]
  have hra {q : List DepGraphIndex} (hq : q <+: linearization) :
      ((g.listFeeRate q).size : ℝ) ∈ Set.Icc (0 : ℝ) (g.listFeeRate linearization).size := by
    obtain ⟨rest,rfl⟩ := hq
    have hu (txs) (h : ∀ i ∈ txs, i ∈ q++rest) : 0 ≤ (g.listFeeRate txs).size :=
      sum_nonneg (forall_mem_map.mpr fun i hi => (hpos i (h i hi)).le)
    have hq := hu q fun i => mem_append_left _
    have hre := hu rest fun i => mem_append_right _
    rw [listFeeRate_append,add_size]
    exact ⟨by exact_mod_cast hq,by exact_mod_cast le_add_of_nonneg_left hre⟩
  rw [← chunked_eq] at ho hc
  refine ⟨?_,?_,⟨ht ▸ hc.concaveOn_polyline ho,fun q hq => ?_⟩,fun φ hφ x hx hx' => ?_⟩
  · obtain ⟨groups,hfl,heq,hin⟩ := exists_groups g linearization
    refine ⟨groups,hfl,fun hn => ?_,heq,hin⟩
    have hm := mem_map_of_mem (f := g.listFeeRate) hn
    rw [← heq,chunked_eq,mem_reverse] at hm
    exact absurd (hh _ hm) (by simp [listFeeRate])
  · rw [chunked_eq,pairwise_reverse]
    refine hri.imp fun hl hlt => ?_
    exact absurd (compare_lt_iff_lt.mp hlt) (not_lt.mpr hl)
  · refine hc.le_polyline ho (ht ▸ (hra hq).2) fun l => ?_
    rw [← totalRise_listFeeRate,← totalRun_listFeeRate,← totalWeight_eq,chunked_eq,excess_reverse]
    exact weight_le_excess_chunks hs (hq.map _) l
  · -- The ends of the segments are beginnings of the linearization.
    have he {q} (hq : q <+: (chunkLinearization g linearization).map (segment ℝ)) :
        totalRun q ∈ Set.Icc (0 : ℝ) (g.listFeeRate linearization).size ∧
          totalRise q ≤ φ (totalRun q) := by
      obtain ⟨p,hp,rfl⟩ := prefix_map_iff.mp hq
      rw [chunked_eq,← reverse_suffix,reverse_reverse] at hp
      obtain ⟨f,hf,hw⟩ := exists_prefix_of_suffix (K := ℝ) hp
      obtain ⟨txs,htx,rfl⟩ := prefix_map_iff.mp hf
      simp only [weight_reverse] at hw
      rw [totalRise_eq,totalRun_eq,hw,hw,← totalRun_eq,← totalRise_eq,
        totalRise_listFeeRate,totalRun_listFeeRate]
      exact ⟨hra htx,hφ.2 txs htx⟩
    obtain ⟨q,r,hq,hr,a,b,ha,hb,hab,rfl,hris⟩ := exists_between_ends ho hx (ht ▸ hx')
    change polyline ((chunkLinearization g linearization).map (segment ℝ)) _ ≤ _
    rw [← hris]
    calc a*totalRise q+b*totalRise r ≤ a*φ (totalRun q)+b*φ (totalRun r) := by
          gcongr
          · exact (he hq).2
          · exact (he hr).2
      _ ≤ φ (a*totalRun q+b*totalRun r) := hφ.1.2 (he hq).1 (he hr).1 ha hb hab

theorem concave_envelope_example : chunkLinearization exampleGraph [0, 1, 2] = [⟨13, 3⟩] ∧
    diagram [⟨13, 3⟩] ∈ exampleGraph.Majorants [0, 1, 2] := by
  have hr : chunkLinearization exampleGraph [0,1,2] = [⟨13,3⟩] := by decide +kernel
  have he := chunkLinearization_concave_envelope exampleGraph [0,1,2] (by decide +kernel)
  rw [hr] at he
  exact ⟨hr,he.2.2.1⟩

end DripCore
