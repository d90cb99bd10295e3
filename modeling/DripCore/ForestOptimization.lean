import DripCore.ForestLoading

/-!
# Optimizing the forest

A step takes a chunk from the queue and looks for an active dependency whose top is better. If there
is one, the chunk is split there and the parts are merged again; the state becomes no worse. Every
chunk that could be split is in the queue.
-/
namespace DripCore
open Chunking Finset List SpanningForestState

namespace SpanningForestState
variable {σ : Type*} {R : RandomContext σ} {g : DepGraph} {st st' : SpanningForestState σ}
variable {d e : DepIdx} {x : TxIdx} {A : Finset TxIdx}

/-- An active dependency whose top is better than its chunk. -/
structure Improvable (g : DepGraph) (st : SpanningForestState σ) (e : DepIdx) : Prop where
  active : e ∈ activeDeps g st
  lt : rate g.fee g.size (chunkOf g st e.1) < rate g.fee g.size (tops st e)

theorem SameOutside.improvable (h : SameOutside g st st' A) (ho : e.1 ∉ A)
    (hm : Improvable g st' e) : Improvable g st e := by
  have hac := (h.active e ho).mp hm.active
  have hl := hm.lt
  rw [h.chunk e.1 ho,tops,h.top e hac ho] at hl
  exact ⟨hac,hl⟩

/-- The chunks that can be split are in the queue, those of `A` perhaps not. -/
def Covered (g : DepGraph) (st : SpanningForestState σ) (A : Finset TxIdx) : Prop :=
  ∀ e, Improvable g st e → e.1 ∈ A ∨ st.chunk_rep e.1 ∈ st.suboptimal_chunks

theorem mergeSequence_eq (dw : Bool) (hva : Valid g st) (hx : x ∈ g.positions) :
    ∃ st1, MergedAll g dw st x (st1.chunk_rep x) st1 ∧ mergeSequence R g dw x st =
      { st1 with suboptimal_chunks := st.suboptimal_chunks++[st1.chunk_rep x] } := by
  have hm := mergedAll_mergeLoop (R := R) dw hva hx
  have hre := hm.rep
  refine ⟨_,hre ▸ hm,?_⟩
  rw [mergeSequence]
  dsimp only
  rw [hm.queue,← hre]

theorem Covered.mergeSequence (h : Covered g st A) (dw : Bool) (hva : Valid g st)
    (hx : x ∈ g.positions) : Covered g (mergeSequence R g dw x st) (A \ chunkOf g st x) := by
  obtain ⟨st1,hm,hq⟩ := mergeSequence_eq (R := R) dw hva hx
  rw [hq]
  intro e he
  by_cases hme : e.1 ∈ chunkOf g st1 x
  · right
    rw [hm.valid.rep_eq x hx _ hme]
    exact List.mem_append_right _ (List.mem_singleton_self _)
  · have hb : Improvable g st e := hm.outside.improvable hme ⟨he.active,he.lt⟩
    refine (h e hb).imp (fun hA => mem_sdiff.mpr ⟨hA,fun hx' => hme ?_⟩) fun hre => ?_
    · exact hm.subset x hx'
    · rw [hm.outside.rep _ hme]
      exact mem_append_left _ hre

section

theorem sameOutside_deactivate (hva : Valid g st) (hac : d ∈ activeDeps g st) :
    SameOutside g st (deactivate g d st) (chunkOf g st d.1) := by
  have ht := hva.forest.top_subset d hac
  have hn : ∀ v ∉ chunkOf g st d.1, v ∉ chunkOf g st d.1 \ tops st d ∧ v ∉ tops st d :=
    fun v hv => ⟨fun hB => hv (mem_sdiff.mp hB).1,fun hT => hv (ht hT)⟩
  refine ⟨fun v hv => ?_,fun v hv => ?_,fun e he => ?_,fun e he ho => ?_⟩
  · rw [chunk_rep_deactivate hva hac,if_neg (hn v hv).1,if_neg (hn v hv).2]
  · rw [chunkOf_deactivate hva hac,cutChunk_of_notMem ht hv]
  · rw [activeDeps_deactivate hva hac,mem_erase,and_iff_right]
    rintro rfl
    exact he (hva.isChunking.self _ (dep_of_active hac).parent_mem)
  · have hd : e ≠ d := by
      rintro rfl
      exact ho (hva.isChunking.self _ (dep_of_active hac).parent_mem)
    rw [top_deactivate hva hac he hd,if_neg (hn _ ho).2,if_neg (hn _ ho).1]

variable (hva : Valid g st) (hac : d ∈ activeDeps g st)
include hva hac

theorem chunkOf_deactivate_top : chunkOf g (deactivate g d st) d.1 = tops st d := by
  rw [chunkOf_deactivate hva hac,cut_of_mem_top (hva.forest.parent_top d hac)]

theorem chunkOf_deactivate_bottom :
    chunkOf g (deactivate g d st) d.2 = chunkOf g st d.1 \ tops st d := by
  rw [chunkOf_deactivate hva hac,cut_of_mem_bottom (hva.forest.child_bottom hac)]

theorem merge_deactivate : merge (chunkOf g (deactivate g d st) d.1)
    (chunkOf g (deactivate g d st) d.2)
      (chunkOf g (deactivate g d st)) = chunkOf g st := by
  rw [chunkOf_deactivate_top hva hac,chunkOf_deactivate_bottom hva hac,chunkOf_deactivate hva hac]
  exact hva.forest.merge_cutChunk hac

theorem chunkOf_deactivate_ne :
    chunkOf g (deactivate g d st) d.2 ≠ chunkOf g (deactivate g d st) d.1 := by
  intro he
  have hs := (valid_deactivate hva hac).isChunking.self d.2 (dep_of_active hac).child_mem
  rw [he,chunkOf_deactivate_top hva hac] at hs
  exact hva.forest.child_top d hac hs

/-- Deactivating the dependency splits its chunk into a better and a worse part. -/
theorem isSplit_deactivate (hl :
    rate g.fee g.size (chunkOf g st d.1) < rate g.fee g.size (tops st d))
    (ho : InOrder g st) :
    IsSplit g.Dep g.fee g.size g.positions (chunkOf g (deactivate g d st)) d.1 d.2 := by
  have hd := dep_of_active hac
  refine ⟨(valid_deactivate hva hac).isChunking,hd.parent_mem,hd.child_mem,
    chunkOf_deactivate_ne hva hac,?_,?_⟩
  · rw [merge_deactivate hva hac]
    exact ho
  · rw [chunkOf_deactivate_top hva hac,chunkOf_deactivate_bottom hva hac,
      union_sdiff_of_subset (hva.forest.top_subset d hac)]
    exact hl

/-- What an improvement makes of a topological state. -/
structure Improved (g : DepGraph) (st st' : SpanningForestState σ) : Prop where
  ordered : Ordered g.Dep g.fee g.size g.positions (chunkOf g st')
  excess_le : ∀ l, excess g.fee g.size g.positions l (chunkOf g st) ≤
    excess g.fee g.size g.positions l (chunkOf g st')

/-- A split makes one more chunk, which pays for the merges that follow. -/
theorem cost_le_of_work_le (hw : work g st' ≤ work g (deactivate g d st)) :
    st'.cost ≤ st.cost+g.txCount*g.txCount := by
  have hd := dep_of_active hac
  have hs := (valid_deactivate hva hac).isChunking.card_chunks_merge hd.parent_mem
    hd.child_mem (chunkOf_deactivate_ne hva hac)
  rw [merge_deactivate hva hac] at hs
  have hsi : _ ≤ g.txCount+1 := hva.isChunking.card_chunks_add_le hd.parent_mem
  have hl : (chunkOf g st d.1).card ≤ g.txCount := card_le_card (hva.chunkOf_subset hd.parent_mem)
  have ht : 1 < (chunkOf g st d.1).card := one_lt_card.mpr
    ⟨d.1,hva.isChunking.self _ hd.parent_mem,d.2,hva.forest.child_mem d hac,hd.ne⟩
  have ho : 1 ≤ (chunks g.positions (chunkOf g st')).card :=
    card_pos.mpr ⟨_,mem_image_of_mem _ hd.parent_mem⟩
  rw [work,work,← hs,deactivate_eq hva hac] at hw
  change _ ≤ st.cost+(chunkOf g st d.1).card+_ at hw
  nlinarith [Nat.mul_le_mul_left g.txCount hsi,Nat.mul_le_mul_left g.txCount ho]

variable (R) in
theorem improve_spec : Valid g (improve R g d st) ∧ st.cost < (improve R g d st).cost ∧
      (improve R g d st).cost ≤ st.cost+g.txCount*g.txCount ∧
      (∃ top b, top ∈ g.positions ∧ b ∈ g.positions ∧
        (improve R g d st).suboptimal_chunks = st.suboptimal_chunks++[top,b]) ∧
      (g.PositiveSizes → Improvable g st d → InOrder g st → Improved g st (improve R g d st)) := by
  have hde := dep_of_active hac
  have hva1 := valid_deactivate hva hac
  obtain ⟨st2,hu,he2⟩ := mergeSequence_eq (R := R) false hva1 hde.parent_mem
  have hva2 := hu.valid.congr st2.rng ((deactivate g d st).suboptimal_chunks++[st2.chunk_rep d.1])
  obtain ⟨st3,hd,he3⟩ := mergeSequence_eq (R := R) true hva2 hde.child_mem
  have he : improve R g d st = { st3 with suboptimal_chunks :=
      (deactivate g d st).suboptimal_chunks++[st2.chunk_rep d.1]++[st3.chunk_rep d.2] } := by
    rw [improve,he2,he3]
  rw [he]
  refine ⟨hd.valid.congr _ _,?_,?_,⟨st2.chunk_rep d.1,st3.chunk_rep d.2,
    hu.valid.rep_mem_positions hde.parent_mem,hd.valid.rep_mem_positions hde.child_mem,?_⟩,
    fun hp hm ho => ?_⟩
  · have hc : st.cost < (deactivate g d st).cost := by
      rw [deactivate_eq hva hac]
      exact Nat.lt_add_of_pos_right (card_pos.mpr ⟨d.1,hva.isChunking.self _ hde.parent_mem⟩)
    exact hc.trans_le (hu.cost.trans hd.cost)
  · exact cost_le_of_work_le hva hac (hd.work.trans hu.work)
  · rw [deactivate_eq hva hac]
    exact append_assoc _ _ _
  · obtain ⟨-,ho',hexcess⟩ := (isSplit_deactivate hva hac hm.lt ho).improved
        (fun p c hde => ⟨hde.parent_mem,hde.child_mem⟩) hp.size_pos (hu.run hp) (hd.run hp)
    rw [merge_deactivate hva hac] at hexcess
    exact ⟨ho',hexcess⟩

theorem covered_improve (hc : Covered g st (chunkOf g st d.1)) :
    Covered g (improve R g d st) ∅ := by
  have hd := dep_of_active hac
  have hva1 := valid_deactivate hva hac
  have hq : (deactivate g d st).suboptimal_chunks = st.suboptimal_chunks := by
    rw [deactivate_eq hva hac]
  have hc1 : Covered g (deactivate g d st) (chunkOf g st d.1) := by
    intro e he
    by_cases hm : e.1 ∈ chunkOf g st d.1
    · exact .inl hm
    · have hs := sameOutside_deactivate hva hac
      rw [hq,hs.rep _ hm]
      exact hc e (hs.improvable hm he)
  have hc2 := hc1.mergeSequence (R := R) false hva1 hd.parent_mem
  obtain ⟨st2,hu,heq⟩ := mergeSequence_eq (R := R) false hva1 hd.parent_mem
  have hva2 := hu.valid.congr st2.rng ((deactivate g d st).suboptimal_chunks++[st2.chunk_rep d.1])
  rw [heq] at hc2
  have hc3 := hc2.mergeSequence (R := R) true hva2 hd.child_mem
  -- The better part has been put in the queue by the first run, and the worse one by the second.
  have hn : (chunkOf g st d.1 \ chunkOf g (deactivate g d st) d.1) \ chunkOf g st2 d.2 = ∅ := by
    rw [sdiff_eq_empty_iff_subset,chunkOf_deactivate_top hva hac,
      ← chunkOf_deactivate_bottom hva hac]
    exact hu.subset d.2
  rw [improve,heq]
  intro e he
  exact hn ▸ hc3 e he

end

section

theorem popChunk_none {queue : List TxIdx} (h : popChunk st queue = none) : ∀ v ∈ queue,
    st.chunk_rep v ≠ v := by
  induction queue with
  | nil => exact fun v hv => absurd hv not_mem_nil
  | cons chunk queue ih =>
    rw [popChunk] at h
    split_ifs at h with hre
    exact forall_mem_cons.mpr ⟨hre,ih h⟩

/-- What comes before the chunk in the queue are no representatives. -/
theorem popChunk_some {queue rest : List TxIdx} {chunk : TxIdx}
    (h : popChunk st queue = some (chunk,rest)) : st.chunk_rep chunk = chunk ∧
      ∃ s, queue = s++chunk::rest ∧ ∀ v ∈ s, st.chunk_rep v ≠ v := by
  induction queue with
  | nil => exact absurd h (by simp [popChunk])
  | cons first queue ih =>
    rw [popChunk] at h
    split_ifs at h with hre
    · obtain ⟨rfl,rfl⟩ := Prod.mk.inj (Option.some.inj h)
      exact ⟨hre,[],rfl,fun v hv => absurd hv not_mem_nil⟩
    · obtain ⟨hch,s,rfl,hs⟩ := ih h
      exact ⟨hch,first::s,rfl,forall_mem_cons.mpr ⟨hre,hs⟩⟩

/-- The search for a dependency has a result if and only if there is one. -/
structure SplitSearched (st : SpanningForestState σ) (chunk_feerate : FeeFrac) (seen : List DepIdx)
    (search : SplitSearch σ) : Prop where
  none_le : search.candidate_dep = none → ∀ e ∈ seen,
    ¬(st.active e ∧ (st.top_setinfo e).feerate.feeRateCompare chunk_feerate = .gt)
  tiebreak : search.candidate_dep = none → search.candidate_tiebreak = 0
  some_gt : ∀ e ∈ search.candidate_dep, e ∈ seen ∧ st.active e ∧
    (st.top_setinfo e).feerate.feeRateCompare chunk_feerate = .gt

theorem SplitSearched.considerDep {cf : FeeFrac} {s : List DepIdx}
    {search : SplitSearch σ} (h : SplitSearched st cf s search) (e : DepIdx) :
    SplitSearched st cf (s++[e]) (considerDep R st cf search e) := by
  have hm : ∀ e' ∈ search.candidate_dep, e' ∈ s++[e] ∧ st.active e' ∧
      (st.top_setinfo e').feerate.feeRateCompare cf = .gt := fun e' he' =>
    ⟨mem_append_left _ (h.some_gt e' he').1,(h.some_gt e' he').2⟩
  rw [SpanningForestState.considerDep]
  split_ifs with hg
  · dsimp only
    split_ifs with ht
    · -- There is a candidate already.
      have hs : search.candidate_dep ≠ none := by
        intro hn
        rw [h.tiebreak hn] at ht
        exact Nat.not_lt_zero _ ht
      exact ⟨fun hn => absurd hn hs,fun hn => absurd hn hs,hm⟩
    · refine ⟨fun hn => absurd hn (Option.some_ne_none e),
        fun hn => absurd hn (Option.some_ne_none e),fun e' he' => ?_⟩
      obtain rfl := Option.some.inj he'
      exact ⟨List.mem_append_right _ (List.mem_singleton_self e),hg⟩
  · refine ⟨fun hn e' he' => ?_,h.tiebreak,hm⟩
    rcases mem_append.mp he' with he' | he'
    · exact h.none_le hn e' he'
    · exact List.mem_singleton.mp he' ▸ hg

theorem split_searchDep (chunk : TxIdx) : SplitSearched st (st.chunk_setinfo chunk).feerate
      ((g.toList (st.chunk_setinfo chunk).transactions).flatMap g.childDeps)
        (searchDep R g st chunk) := by
  rw [searchDep,← foldl_flatMap]
  induction (g.toList (st.chunk_setinfo chunk).transactions).flatMap g.childDeps
    using reverseRecOn with
  | nil =>
    exact ⟨fun _ e he => absurd he not_mem_nil,fun _ => rfl,
      fun e he => absurd he (Option.not_mem_none e)⟩
  | append_singleton deps e ih =>
    rw [foldl_append]
    exact ih.considerDep e

theorem Valid.improvable_iff (hva : Valid g st) (ho : g.PositiveSizes) (hd : g.Dep e.1 e.2) :
    st.active e ∧ (st.top_setinfo e).feerate.feeRateCompare
        (st.chunk_setinfo (st.chunk_rep e.1)).feerate = .gt ↔ Improvable g st e := by
  have hp := hd.parent_mem
  have hc : e ∈ activeDeps g st →
      (st.top_setinfo e).feerate.feeRateCompare (st.chunk_setinfo (st.chunk_rep e.1)).feerate =
        compare (rate g.fee g.size (tops st e)) (rate g.fee g.size (chunkOf g st e.1)) := by
    intro hac
    have ht := (hva.forest.top_subset e hac).trans (hva.chunkOf_subset hp)
    rw [chunkOf_of_mem hp]
    exact SetInfo.feeRateCompare_eq (hva.top_exact e hac) (hva.chunk_exact _ hp)
      ((hva.top_exact e hac).size_pos ho ht ⟨e.1,hva.forest.parent_top e hac⟩)
      (hva.size_pos ho hp)
  constructor
  · rintro ⟨hac,hg⟩
    have hm := mem_activeDeps.mpr ⟨hd,hac⟩
    rw [hc hm,compare_gt_iff_gt] at hg
    exact ⟨hm,hg⟩
  · rintro ⟨hm,hl⟩
    refine ⟨(mem_activeDeps.mp hm).2,?_⟩
    rw [hc hm,compare_gt_iff_gt]
    exact hl

variable {c : TxIdx} (hva : Valid g st) (hch : c ∈ g.positions) (hre : st.chunk_rep c = c)
include hva hch hre

theorem mem_flatMap_childDeps :
    e ∈ (g.toList (st.chunk_setinfo c).transactions).flatMap g.childDeps ↔
      e.1 ∈ chunkOf g st c ∧ g.Dep e.1 e.2 := by
  have ht : (st.chunk_setinfo c).transactions = chunkOf g st c := by
    rw [chunkOf_of_mem hch,hre]
  rw [mem_flatMap,ht]
  constructor
  · rintro ⟨tx,hx,he⟩
    obtain ⟨rfl,hd⟩ := DepGraph.mem_childDeps.mp he
    exact ⟨(DepGraph.mem_toList (hva.chunkOf_subset hch)).mp hx,hd⟩
  · rintro ⟨he,hd⟩
    exact ⟨e.1,(DepGraph.mem_toList (hva.chunkOf_subset hch)).mpr he,
      DepGraph.mem_childDeps.mpr ⟨rfl,hd⟩⟩

theorem not_improvable_of_searchDep (hp : g.PositiveSizes)
    (hn : (searchDep R g st c).candidate_dep = none) (he : Improvable g st e) :
    e.1 ∉ chunkOf g st c := by
  intro hm
  have hd := dep_of_active he.active
  have hre' : st.chunk_rep e.1 = c := (hva.rep_eq c hch _ hm).trans hre
  refine (split_searchDep (R := R) (g := g) c).none_le hn e
    ((mem_flatMap_childDeps hva hch hre).mpr ⟨hm,hd⟩) ?_
  rw [← hre']
  exact (hva.improvable_iff hp hd).mpr he

theorem improvable_of_searchDep (hs : (searchDep R g st c).candidate_dep = some e) :
    e.1 ∈ chunkOf g st c ∧ e ∈ activeDeps g st ∧ (g.PositiveSizes → Improvable g st e) := by
  obtain ⟨he,hg⟩ := (split_searchDep (R := R) (g := g) c).some_gt e hs
  obtain ⟨hm,hd⟩ := (mem_flatMap_childDeps hva hch hre).mp he
  have hre' : st.chunk_rep e.1 = c := (hva.rep_eq c hch _ hm).trans hre
  rw [← hre'] at hg
  exact ⟨hm,mem_activeDeps.mpr ⟨hd,hg.1⟩,fun hp => (hva.improvable_iff hp hd).mp hg⟩

end

/-- A topological state whose queue has all chunks that can be split. -/
structure Optimizing (g : DepGraph) (st : SpanningForestState σ) : Prop extends Sound g st where
  ordered : Ordered g.Dep g.fee g.size g.positions (chunkOf g st)
  covered : Covered g st ∅

theorem Optimizing.rep_mem (h : Optimizing g st) (he : Improvable g st e) :
    st.chunk_rep e.1 ∈ st.suboptimal_chunks :=
  (h.covered e he).resolve_left (notMem_empty _)

theorem Optimizing.not_improvable (h : Optimizing g st) (hq : st.suboptimal_chunks = []) :
    ¬Improvable g st e := fun he => not_mem_nil (hq ▸ h.rep_mem he)

/-- A step has made the queue shorter, or else it has added to the cost. -/
def Progress (st st' : SpanningForestState σ) : Prop :=
  st'.suboptimal_chunks.length < st.suboptimal_chunks.length ∧ st'.cost = st.cost ∨
    st'.suboptimal_chunks.length ≤ st.suboptimal_chunks.length+1 ∧ st.cost < st'.cost

section
variable {ch : TxIdx} {q : List TxIdx}
variable (hpop : popChunk st st.suboptimal_chunks = some (ch,q))
include hpop

theorem Sound.pop_mem (h : Sound g st) : ch ∈ g.positions ∧ ∀ v ∈ q, v ∈ g.positions := by
  obtain ⟨-,s,he,-⟩ := popChunk_some hpop
  have hm := h.queue_mem
  rw [he] at hm
  exact forall_mem_cons.mp (forall_mem_append.mp hm).2

/-- Without the chunk and the entries before it, the queue still has all other chunks. -/
theorem Optimizing.covered_pop (h : Optimizing g st) (rng : σ) :
    Covered g { st with suboptimal_chunks := q, rng := rng } (chunkOf g st ch) := by
  intro e he
  have he' : Improvable g st e := ⟨he.active,he.lt⟩
  have hp := (dep_of_active he'.active).parent_mem
  obtain ⟨hre,s,hq,hs⟩ := popChunk_some hpop
  have hm := h.rep_mem he'
  rw [hq,List.mem_append,List.mem_cons] at hm
  rcases hm with hm | hm | hm
  · exact absurd (h.valid.rep_rep hp) (hs _ hm)
  · left
    have ha : chunkOf g st e.1 = chunkOf g st ch :=
      chunkOf_eq_of_rep hp (h.pop_mem hpop).1 (hm.trans hre.symm)
    exact ha ▸ h.valid.isChunking.self e.1 hp
  · exact .inr hm

theorem length_pop : q.length < st.suboptimal_chunks.length := by
  obtain ⟨-,s,he,-⟩ := popChunk_some hpop
  rw [he,length_append,length_cons]
  omega

end

theorem Sound.optimizeStep (h : Sound g st) : Sound g (optimizeStep R g st).2 ∧
      (optimizeStep R g st).2.cost ≤ st.cost+g.txCount*g.txCount ∧
      ((optimizeStep R g st).1 = false → (optimizeStep R g st).2.suboptimal_chunks = []) ∧
      ((optimizeStep R g st).1 = true → Progress st (optimizeStep R g st).2) ∧
      (g.PositiveSizes → Optimizing g st →
        Optimizing g (optimizeStep R g st).2 ∧ Improved g st (optimizeStep R g st).2) := by
  have hva := h.valid
  rw [SpanningForestState.optimizeStep]
  cases hpop : popChunk st st.suboptimal_chunks with
  | none =>
    have hs : Sound g { st with suboptimal_chunks := [] } :=
      ⟨hva.congr _ _,fun v hv => absurd hv not_mem_nil⟩
    refine ⟨hs,Nat.le_add_right _ _,fun _ => rfl,fun ht => absurd ht Bool.false_ne_true,
      fun _ h => ⟨⟨hs,h.ordered,fun e he => ?_⟩,h.ordered,fun _ => le_rfl⟩⟩
    have he' : Improvable g st e := ⟨he.active,he.lt⟩
    exact absurd (hva.rep_rep (dep_of_active he'.active).parent_mem)
      (popChunk_none hpop _ (h.rep_mem he'))
  | some p =>
    obtain ⟨chunk,queue⟩ := p
    have hre := (popChunk_some hpop).1
    obtain ⟨hch,hq⟩ := h.pop_mem hpop
    have hl := length_pop hpop
    have hva' := hva.congr (searchDep R g st chunk).rng queue
    dsimp only
    cases hse : (searchDep R g st chunk).candidate_dep with
    | none =>
      refine ⟨⟨hva',hq⟩,Nat.le_add_right _ _,fun hf => ?_,fun _ => .inl ⟨hl,rfl⟩,
        fun hp h => ⟨⟨⟨hva',hq⟩,h.ordered,fun e he => ?_⟩,h.ordered,fun _ => le_rfl⟩⟩
      · rw [Bool.not_eq_false'] at hf
        exact isEmpty_iff.mp hf
      · have ho := not_improvable_of_searchDep hva hch hre hp hse ⟨he.active,he.lt⟩
        exact .inr ((h.covered_pop hpop _ e he).resolve_left ho)
    | some dep =>
      obtain ⟨hm,hac,him⟩ := improvable_of_searchDep hva hch hre hse
      obtain ⟨hva1,hc,hcost_le,⟨top,b,hto,hb,heq⟩,himp⟩ := improve_spec R hva' hac
      have hs : Sound g (improve R g dep
          { st with suboptimal_chunks := queue, rng := (searchDep R g st chunk).rng }) := by
        refine ⟨hva1,?_⟩
        rw [heq]
        refine forall_mem_append.mpr ⟨hq,?_⟩
        simp [hto,hb]
      refine ⟨hs,hcost_le,fun hf => ?_,fun _ => .inr ⟨?_,hc⟩,fun hp h => ?_⟩
      · rw [heq] at hf
        simp at hf
      · rw [heq,length_append]
        simp only [length_cons,length_nil]
        omega
      · have hlt := himp hp ⟨hac,(him hp).lt⟩ h.ordered
        have ha : chunkOf g st dep.1 = chunkOf g st chunk := hva.isChunking.eq_of_mem chunk hch _ hm
        have hco := h.covered_pop hpop (searchDep R g st chunk).rng
        rw [← ha] at hco
        exact ⟨⟨hs,hlt.ordered,covered_improve (R := R) hva' hac hco⟩,hlt.ordered,hlt.excess_le⟩

theorem Improved.trans {st'' : SpanningForestState σ} (h : Improved g st st')
    (h' : Improved g st' st'') : Improved g st st'' :=
  ⟨h'.ordered,fun l => (h.excess_le l).trans (h'.excess_le l)⟩

/-- However it ends, the state is topological and no worse; if by itself, nothing is left to
improve. -/
theorem Optimizing.optimizeLoop (h : Optimizing g st) (hp : g.PositiveSizes) (mi fuel : ℕ) :
    Improved g st (optimizeLoop R g mi fuel st).2 ∧ ((optimizeLoop R g mi fuel st).1 = true →
        ∀ e, ¬Improvable g (optimizeLoop R g mi fuel st).2 e) := by
  induction fuel generalizing st with
  | zero => exact ⟨⟨h.ordered,fun _ => le_rfl⟩,fun ht => absurd ht Bool.false_ne_true⟩
  | succ fuel ih =>
    obtain ⟨-,-,hd,-,hs⟩ := h.toSound.optimizeStep (R := R)
    obtain ⟨hs,hm⟩ := hs hp h
    rw [optimizeLoop]
    generalize optimizeStep R g st = result at hs hm hd
    obtain ⟨m,st'⟩ := result
    cases m with
    | false => exact ⟨hm,fun _ e => hs.not_improvable (hd rfl)⟩
    | true =>
      dsimp only
      split_ifs
      · obtain ⟨hr,ho⟩ := ih hs
        exact ⟨hm.trans hr,ho⟩
      · exact ⟨hm,fun ht => ht.elim⟩

/-- The last step adds to a cost below the limit, and the fuel is never used up. -/
theorem Sound.optimizeLoop (h : Sound g st) {mi : ℕ} (hc : st.cost < mi) (fuel : ℕ) :
    Valid g (optimizeLoop R g mi fuel st).2 ∧ (optimizeLoop R g mi fuel st).2.cost ≤
      mi+g.txCount*g.txCount ∧
      (st.suboptimal_chunks.length+3*(mi-st.cost) < fuel → ∀ m,
        optimizeLoop R g mi (fuel+m) st = optimizeLoop R g mi fuel st) := by
  induction fuel generalizing st with
  | zero =>
    exact ⟨h.valid,hc.le.trans (Nat.le_add_right _ _),fun hf => absurd hf (Nat.not_lt_zero _)⟩
  | succ fuel ih =>
    obtain ⟨hs,hcost_le,-,hp,-⟩ := h.optimizeStep (R := R)
    simp only [Nat.succ_add,optimizeLoop]
    generalize SpanningForestState.optimizeStep R g st = result at hs hcost_le hp
    obtain ⟨c,st'⟩ := result
    have hb : st'.cost ≤ mi+g.txCount*g.txCount := hcost_le.trans (Nat.add_le_add_right hc.le _)
    cases c with
    | false => exact ⟨hs.valid,hb,fun _ _ => rfl⟩
    | true =>
      dsimp only
      split_ifs with hc'
      · obtain ⟨hva,hr,he⟩ := ih hs hc'
        refine ⟨hva,hr,fun hf => he ?_⟩
        rcases hp rfl with ⟨hl,hq⟩ | ⟨hl,ht⟩ <;> dsimp only at * <;> omega
      · exact ⟨hs.valid,hb,fun _ _ => rfl⟩

theorem Sound.startOptimizing (h : Sound g st) :
    Sound g (startOptimizing R g st) ∧ (startOptimizing R g st).suboptimal_chunks.length ≤
        st.suboptimal_chunks.length+g.txCount ∧
      (startOptimizing R g st).cost = st.cost ∧
      (InOrder g st → Optimizing g (startOptimizing R g st) ∧
        Improved g st (startOptimizing R g st)) := by
  obtain ⟨rng,queue,hq,hl,hm,hr⟩ := enqueueChunks_eq (R := R) (g := g) st
  have hs : Sound g { st with rng := rng, suboptimal_chunks := queue } :=
    ⟨h.valid.congr rng queue,fun v hv => (hm v hv).elim (h.queue_mem v) id⟩
  rw [SpanningForestState.startOptimizing,hq]
  refine ⟨hs,hl,rfl,fun ho =>
    ⟨⟨hs,ho,fun e he => .inr ?_⟩,ho,fun _ => le_rfl⟩⟩
  have hp := (dep_of_active he.active).parent_mem
  exact hr _ (h.valid.rep_mem_positions hp) (h.valid.rep_rep hp)

end SpanningForestState
end DripCore
