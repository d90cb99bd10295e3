import DripCore.ForestMerging
import DripCore.IncrementalChunking

/-!
# Topological states

A state is topological when every chunk is lower than the chunks that it depends on. Loading a
linearization gives one that is no worse, and so does merging chunks while two are out of order.

The loops are proved with invariants that say which transactions are still to be visited.
-/
namespace DripCore
open Chunking Finset List

/-- All transactions of the graph, none before one of its ancestors. -/
structure DepGraph.IsTopological (g : DepGraph) (linearization : List TxIdx) : Prop where
  perm : linearization.Perm (g.toList g.positions)
  pairwise : linearization.Pairwise fun a b => b ∉ g.ancestors a

instance (g : DepGraph) (linearization : List TxIdx) : Decidable (g.IsTopological linearization) :=
  decidable_of_iff
    (linearization.Perm (g.toList g.positions) ∧ linearization.Pairwise fun a b =>
      b ∉ g.ancestors a)
    ⟨fun h => ⟨h.1,h.2⟩,fun h => ⟨h.perm,h.pairwise⟩⟩

namespace DepGraph
variable {g : DepGraph} {l : List TxIdx}
variable {v : TxIdx}

variable (h : g.IsTopological l)
include h

theorem IsTopological.mem_iff : v ∈ l ↔ v ∈ g.positions := by
  rw [h.perm.mem_iff,mem_toList (Finset.Subset.refl _)]

theorem IsTopological.nodup : l.Nodup := h.perm.nodup_iff.mpr (g.nodup_toList _)

theorem IsTopological.mem_of_ancestor {q : List TxIdx} (hq : q <+: l) {a : TxIdx}
    (hv : v ∈ q) (ha : a ∈ g.ancestors v) : a ∈ q := by
  obtain ⟨r,rfl⟩ := hq
  have hs := h.mem_iff.mp (mem_append_left r hv)
  have has := h.mem_iff.mpr (ancestors_subset_positions hs ha)
  refine (mem_append.mp has).resolve_right fun hr => ?_
  exact (pairwise_append.mp h.pairwise).2.2 v hv a hr ha

end DepGraph

namespace SpanningForestState
variable {σ : Type*} {R : RandomContext σ} {g : DepGraph} {st : SpanningForestState σ}

theorem Valid.card_chunks_le (_ : Valid g st) :
    (chunks g.positions (chunkOf g st)).card ≤ g.txCount := card_image_le

variable {x : TxIdx} {li : List TxIdx}

theorem mergedAll_mergeLoop (dw : Bool) (hv : Valid g st) (hx : x ∈ g.positions) :
    MergedAll g dw st x (mergeLoop R g dw g.txCount (st.chunk_rep x) st).1
      (mergeLoop R g dw g.txCount (st.chunk_rep x) st).2 :=
  (mergeLoop_spec hv hx g.txCount hv.card_chunks_le).1

/-- A state that stands for a forest, with transactions in its queue. -/
structure Sound (g : DepGraph) (st : SpanningForestState σ) : Prop where
  valid : Valid g st
  queue_mem : ∀ v ∈ st.suboptimal_chunks, v ∈ g.positions

theorem sound_init (g : DepGraph) (rng : σ) : Sound g (init g rng) :=
  ⟨valid_init g rng,fun _ hv => absurd hv not_mem_nil⟩

/-- What loading a linearization makes of the initial state. -/
structure Loaded (g : DepGraph) (q : List TxIdx) (st : SpanningForestState σ) : Prop where
  valid : Valid g st
  chunked : Chunked g.Dep g.fee g.size g.positions q (chunkOf g st)

theorem loaded_init (g : DepGraph) (rng : σ) : Loaded g [] (init g rng) where
  valid := valid_init g rng
  chunked := chunked_nil fun _ hv => chunkOf_of_mem hv

theorem Loaded.append {q : List TxIdx} (h : Loaded g q st) (hp : g.PositiveSizes)
    (hq : ∀ v ∈ q, v ∈ g.positions) (hx : x ∈ g.positions) (hxq : x ∉ q)
    (ha : ∀ p, g.Dep p x → p ∈ q) :
    Loaded g (q++[x]) (mergeLoop R g false g.txCount (st.chunk_rep x) st).2 := by
  have hm := mergedAll_mergeLoop (R := R) false h.valid hx
  exact ⟨hm.valid,h.chunked.append hp.size_pos hq hx hxq ha (hm.run hp)⟩

theorem Sound.loadLinearization (h : Sound g st) (he : ∀ v ∈ li, v ∈ g.positions) :
    Sound g (loadLinearization R g li st) ∧ work g (loadLinearization R g li st) ≤ work g st ∧
      (loadLinearization R g li st).suboptimal_chunks = st.suboptimal_chunks := by
  induction li generalizing st with
  | nil => exact ⟨h,le_rfl,rfl⟩
  | cons x li ih =>
    obtain ⟨hx,he⟩ := forall_mem_cons.mp he
    have hm := mergedAll_mergeLoop (R := R) false h.valid hx
    obtain ⟨hs,hw,hqu⟩ := ih ⟨hm.valid,hm.queue ▸ h.queue_mem⟩ he
    exact ⟨hs,hw.trans hm.work,hqu.trans hm.queue⟩

theorem loaded_loadLinearization (rng : σ) (hp : g.PositiveSizes) (h : g.IsTopological li) :
    Loaded g li (loadLinearization R g li (init g rng)) := by
  have hr : ∀ q, q <+: li → Loaded g q (loadLinearization R g q (init g rng)) := by
    intro q
    induction q using reverseRecOn with
    | nil => exact fun _ => loaded_init g rng
    | append_singleton q x ih =>
      intro hq
      have hq' : q <+: li := (prefix_append q [x]).trans hq
      have hx : x ∈ q++[x] := List.mem_append_right _ (List.mem_singleton_self x)
      have hn := nodup_append.mp (h.nodup.sublist hq.sublist)
      have hxq : x ∉ q := fun he => hn.2.2 x he x (List.mem_singleton_self x) rfl
      rw [loadLinearization,foldl_append]
      refine (ih hq').append hp (fun v hv => h.mem_iff.mp (hq'.subset hv))
        (h.mem_iff.mp (hq.subset hx)) hxq fun p hd => ?_
      refine (mem_append.mp (h.mem_of_ancestor hq hx hd.mem_ancestors)).resolve_right ?_
      exact fun hpx => hd.ne (List.mem_singleton.mp hpx)
  exact hr li prefix_rfl

abbrev InOrder (g : DepGraph) (st : SpanningForestState σ) : Prop :=
  Ordered g.Dep g.fee g.size g.positions (chunkOf g st)

/-- The chunks of a loaded linearization are in order and no worse than it. -/
theorem Loaded.ordered (h : Loaded g li st) (ht : g.IsTopological li) : InOrder g st ∧ ∀ l r,
    r <+: li →
        weight g.fee g.size l r.toFinset ≤ excess g.fee g.size g.positions l (chunkOf g st) := by
  have ha : li.toFinset = g.positions := by
    ext v
    rw [mem_toFinset,ht.mem_iff]
  have ho := h.chunked.ordered
  rw [ha] at ho
  refine ⟨ho,fun l r hr => ?_⟩
  have hl := h.chunked.weight_le l r hr
  rwa [ha,Finset.sdiff_self,Finset.sum_empty,add_zero] at hl

theorem swapBack_perm {α : Type*} (l : List α) (j : ℕ) : (swapBack l j).Perm l := by
  rw [swapBack]
  split
  next a b ha hb =>
    obtain ⟨hj,ha⟩ := List.getElem?_eq_some_iff.mp ha
    rw [getLast?_eq_getElem?] at hb
    obtain ⟨hl,hb⟩ := List.getElem?_eq_some_iff.mp hb
    rw [← ha,← hb]
    exact set_set_perm hj hl
  next => exact List.Perm.refl l

theorem enqueueChunk_eq (st : SpanningForestState σ) (tx : TxIdx) :
    ∃ rng queue, enqueueChunk R st tx = { st with rng := rng, suboptimal_chunks := queue } ∧
      queue.Perm (st.suboptimal_chunks++[tx].filter fun v => st.chunk_rep v = v) := by
  rw [enqueueChunk]
  split_ifs with hre
  · refine ⟨_,_,rfl,?_⟩
    rw [List.filter_singleton,decide_eq_true hre]
    split_ifs
    · exact swapBack_perm _ _
    · exact List.Perm.refl _
  · exact ⟨st.rng,st.suboptimal_chunks,rfl,by simp [hre]⟩

theorem foldl_enqueueChunk (st : SpanningForestState σ) (txs : List TxIdx) :
    ∃ rng queue,
      txs.foldl (enqueueChunk R) st = { st with rng := rng, suboptimal_chunks := queue } ∧
      queue.Perm (st.suboptimal_chunks++txs.filter fun v => st.chunk_rep v = v) := by
  induction txs generalizing st with
  | nil => exact ⟨st.rng,st.suboptimal_chunks,rfl,by simp⟩
  | cons tx txs ih =>
    obtain ⟨rng,queue,he,hp⟩ := enqueueChunk_eq (R := R) st tx
    obtain ⟨rng',queue',he',hp'⟩ := ih { st with rng := rng, suboptimal_chunks := queue }
    refine ⟨rng',queue',?_,?_⟩
    · rw [foldl_cons,he,he']
    · refine hp'.trans ((hp.append_right _).trans ?_)
      rw [append_assoc,← filter_append]
      exact List.Perm.refl _

theorem enqueueChunks_eq (st : SpanningForestState σ) :
    ∃ rng queue, enqueueChunks R g st = { st with rng := rng, suboptimal_chunks := queue } ∧
      queue.length ≤ st.suboptimal_chunks.length+g.txCount ∧
      (∀ v ∈ queue, v ∈ st.suboptimal_chunks ∨ v ∈ g.positions) ∧
      ∀ v ∈ g.positions, st.chunk_rep v = v → v ∈ queue := by
  obtain ⟨rng,queue,he,hp⟩ := foldl_enqueueChunk (R := R) st (g.toList g.positions)
  have hme : ∀ v, v ∈ g.toList g.positions ↔ v ∈ g.positions :=
    fun v => DepGraph.mem_toList (Finset.Subset.refl _)
  refine ⟨rng,queue,he,?_,fun v hv => ?_,fun v hv hre => ?_⟩
  · rw [hp.length_eq,length_append]
    have hc : (g.toList g.positions).length ≤ g.txCount := by
      rw [← toFinset_card_of_nodup (g.nodup_toList _)]
      exact card_le_card fun v hv => (hme v).mp (mem_toFinset.mp hv)
    have hf := length_filter_le (fun v => decide (st.chunk_rep v = v)) (g.toList g.positions)
    omega
  · rw [hp.mem_iff,mem_append] at hv
    exact hv.imp_right fun hv => (hme v).mp (mem_filter.mp hv).1
  · rw [hp.mem_iff,mem_append]
    exact .inr (mem_filter.mpr ⟨(hme v).mpr hv,decide_eq_true hre⟩)

/-- A dependency between two chunks that are out of order. -/
structure Misplaced (g : DepGraph) (st : SpanningForestState σ) (p c : TxIdx) : Prop where
  pos : g.PositiveSizes
  dep : g.Dep p c
  ne : chunkOf g st p ≠ chunkOf g st c
  le : rate g.fee g.size (chunkOf g st p) ≤ rate g.fee g.size (chunkOf g st c)

/-- Every two chunks that are out of order have one of them in the queue. -/
structure Pending (g : DepGraph) (st : SpanningForestState σ) : Prop extends Sound g st where
  covered : ∀ p c, Misplaced g st p c →
    st.chunk_rep p ∈ st.suboptimal_chunks ∨ st.chunk_rep c ∈ st.suboptimal_chunks

theorem Pending.ordered (h : Pending g st) (hp : g.PositiveSizes)
    (hqu : st.suboptimal_chunks = []) :
    InOrder g st where
  chunk_subset v hv := h.valid.chunkOf_subset hv
  closed p c hd _ := hd.parent_mem
  lt p c hd _ hn := by
    by_contra hl
    have he := h.covered p c ⟨hp,hd,hn,not_lt.mp hl⟩
    rw [hqu] at he
    exact he.elim not_mem_nil not_mem_nil

/-- The number of entries and chunks. Each iteration makes it smaller. -/
def pendingWork (g : DepGraph) (st : SpanningForestState σ) : ℕ :=
  st.suboptimal_chunks.length+(chunks g.positions (chunkOf g st)).card

variable {x : TxIdx} {q : List TxIdx}

/-- A chunk that is settled both ways is in order with all others. -/
theorem settled_both_ways (hv : Valid g st) (hx : x ∈ g.positions)
    (hu : Settled (g.orient false) (g.orientFee false) g.size (chunkOf g st) x)
    (hd : Settled (g.orient true) (g.orientFee true) g.size (chunkOf g st) x) {p c : TxIdx}
    (h : Misplaced g st p c) : p ∉ chunkOf g st x ∧ c ∉ chunkOf g st x := by
  have he : ∀ v ∈ chunkOf g st x, chunkOf g st v = chunkOf g st x := hv.isChunking.eq_of_mem x hx
  constructor
  · intro hp
    have hc : c ∉ chunkOf g st x := fun hc => h.ne ((he p hp).trans (he c hc).symm)
    have hl : g.orate true (chunkOf g st x) < g.orate true (chunkOf g st c) := hd c p h.dep hp hc
    rw [DepGraph.orate_eq,DepGraph.orate_eq,if_pos rfl,if_pos rfl,neg_lt_neg_iff,← he p hp] at hl
    exact absurd h.le (not_le.mpr hl)
  · intro hc
    have hp : p ∉ chunkOf g st x := fun hp => h.ne ((he p hp).trans (he c hc).symm)
    have hl := hu p c h.dep hc hp
    rw [← he c hc] at hl
    exact absurd h.le (not_le.mpr hl)

/-- A merge in either direction, or else the chunk is in order with all others. -/
theorem mergeEither_cases (hv : Valid g st) (hx : x ∈ g.positions) (df : Bool) :
    (∃ rng, mergeEither R g df (st.chunk_rep x) st = (none,{ st with rng := rng }) ∧
      ∀ p c, Misplaced g st p c → p ∉ chunkOf g st x ∧ c ∉ chunkOf g st x) ∨
    ∃ y rep st', mergeEither R g df (st.chunk_rep x) st = (some rep,st') ∧
      Merged g st x y rep st' := by
  rw [mergeEither]
  rcases mergeStep_cases (R := R) hv hx df with
    ⟨rng,he,hs⟩ | ⟨y,rep,st',he,-,hm⟩
  · rw [he]
    rcases mergeStep_cases (R := R) (hv.congr rng st.suboptimal_chunks) hx (!df) with
      ⟨rng',he',hs'⟩ | ⟨y,rep,st',he',-,hm⟩
    · left
      refine ⟨rng',he',fun p c h => ?_⟩
      cases df with
      | false => exact settled_both_ways hv hx (hs h.pos) (hs' h.pos) h
      | true => exact settled_both_ways hv hx (hs' h.pos) (hs h.pos) h
    · exact .inr ⟨y,rep,st',he',hm.of_congr⟩
  · rw [he]
    exact .inr ⟨y,rep,st',rfl,hm⟩

section
variable (h : Pending g st) (hqu : st.suboptimal_chunks = x::q)
include h hqu

theorem Pending.head_mem : x ∈ g.positions := h.queue_mem x (hqu ▸ mem_cons_self)

omit h in
theorem pendingWork_drop (rng : σ) :
    pendingWork g { st with rng := rng, suboptimal_chunks := q } < pendingWork g st := by
  refine Nat.add_lt_add_right ?_ _
  rw [hqu]
  exact Nat.lt_succ_self _

/-- An entry that is no representative, or whose chunk is in order, can be dropped. -/
theorem Pending.drop (rng : σ)
    (hx : ∀ p c, Misplaced g st p c → st.chunk_rep p ≠ x ∧ st.chunk_rep c ≠ x) :
    Pending g { st with rng := rng, suboptimal_chunks := q } := by
  refine ⟨⟨h.valid.congr rng q,fun v hv => ?_⟩,fun p c hpc => ?_⟩
  · exact h.queue_mem v (hqu ▸ mem_cons_of_mem x hv)
  · have hpc' : Misplaced g st p c := ⟨hpc.pos,hpc.dep,hpc.ne,hpc.le⟩
    obtain ⟨hp,hc⟩ := hx p c hpc'
    have ho := h.covered p c hpc'
    rw [hqu] at ho
    exact ho.imp (fun he => (mem_cons.mp he).resolve_left hp)
      (fun he => (mem_cons.mp he).resolve_left hc)

variable (hre : st.chunk_rep x = x)
include hre

theorem Pending.rep_ne {v : TxIdx} (hv : v ∈ g.positions) (hn : v ∉ chunkOf g st x) :
    st.chunk_rep v ≠ x := by
  intro he
  have hs : chunkOf g st v = chunkOf g st x := chunkOf_eq_of_rep hv (h.head_mem hqu)
    (he.trans hre.symm)
  exact hn (hs ▸ h.valid.isChunking.self v hv)

variable {rng : σ} {y rep : TxIdx} {st' : SpanningForestState σ}
  (hm : Merged g { st with rng := rng, suboptimal_chunks := q } x y rep st')
include hm

/-- After a merge, only chunks next to the merged one can newly be out of order. -/
theorem Pending.merged : Pending g { st' with suboptimal_chunks :=
    st'.suboptimal_chunks++[rep] } := by
  have ha' := hm.valid
  have hx := h.head_mem hqu
  have hs : x ∈ chunkOf g st x∪chunkOf g st y := mem_union_left _ (h.valid.isChunking.self x hx)
  have hh : chunkOf g st' x = chunkOf g st x∪chunkOf g st y := by
    rw [hm.chunk]
    exact merge_of_mem hs
  have hn : ∀ v, v ∈ chunkOf g st x∪chunkOf g st y →
    st'.chunk_rep v ∈ st'.suboptimal_chunks++[rep] := by
    intro v he
    rw [← hh] at he
    rw [ha'.rep_eq x hx v he,← hm.rep]
    exact List.mem_append_right _ (List.mem_singleton_self rep)
  have hold : ∀ v ∈ g.positions, v ∉ chunkOf g st x∪chunkOf g st y →
      st.chunk_rep v ∈ st.suboptimal_chunks → st'.chunk_rep v ∈ st'.suboptimal_chunks++[rep] := by
    intro v hv he hin
    rw [hqu] at hin
    rw [hm.outside.rep v he,hm.queue]
    refine mem_append_left _ ((mem_cons.mp hin).resolve_left ?_)
    exact h.rep_ne hqu hre hv fun hvx => he (mem_union_left _ hvx)
  refine ⟨⟨ha'.congr _ _,fun v hv => ?_⟩,fun p c hpc => ?_⟩
  · rcases mem_append.mp hv with hv | hv
    · rw [hm.queue] at hv
      exact h.queue_mem v (hqu ▸ mem_cons_of_mem x hv)
    · rw [List.mem_singleton.mp hv,hm.rep]
      exact ha'.rep_mem_positions hx
  · by_cases hp : p ∈ chunkOf g st x∪chunkOf g st y
    · exact .inl (hn p hp)
    · by_cases hc : c ∈ chunkOf g st x∪chunkOf g st y
      · exact .inr (hn c hc)
      · have hpe : chunkOf g st' p = chunkOf g st p := hm.outside.chunk p hp
        have hce : chunkOf g st' c = chunkOf g st c := hm.outside.chunk c hc
        have ho := h.covered p c ⟨hpc.pos,hpc.dep,hpe ▸ hce ▸ hpc.ne,hpe ▸ hce ▸ hpc.le⟩
        exact ho.imp (hold p hpc.dep.parent_mem hp) (hold c hpc.dep.child_mem hc)

omit hre in
theorem pendingWork_merged : pendingWork g { st' with suboptimal_chunks :=
    st'.suboptimal_chunks++[rep] } <
      pendingWork g st := by
  have hc := hm.card_chunks (h.valid.congr rng q) (h.head_mem hqu)
  have hl : (st'.suboptimal_chunks++[rep]).length = st.suboptimal_chunks.length := by
    rw [hm.queue,hqu]
    exact length_append
  change (st'.suboptimal_chunks++[rep]).length+(chunks g.positions (chunkOf g st')).card <
    st.suboptimal_chunks.length+(chunks g.positions (chunkOf g st)).card
  rw [hl,Nat.add_lt_add_iff_left]
  exact Nat.lt_of_succ_le hc.le

end

theorem Pending.makeTopologicalStep (h : Pending g st) (hqu : st.suboptimal_chunks = x::q) :
    Pending g (makeTopologicalStep R g x { st with suboptimal_chunks := q }) ∧
      work g (makeTopologicalStep R g x { st with suboptimal_chunks := q }) ≤ work g st ∧
      pendingWork g (makeTopologicalStep R g x { st with suboptimal_chunks := q }) <
        pendingWork g st := by
  rw [SpanningForestState.makeTopologicalStep]
  by_cases hre : st.chunk_rep x = x
  · rw [if_pos hre]
    have hv := h.valid.congr (R.randbool st.rng).2 q
    have ha := mergeEither_cases (R := R) hv (h.head_mem hqu) (!(R.randbool st.rng).1)
    dsimp only at ha ⊢
    rw [hre] at ha
    rcases ha with ⟨rng,he,hs⟩ | ⟨y,rep,st',he,hm⟩
    · rw [he]
      refine ⟨h.drop hqu rng fun p c hpc => ?_,le_rfl,pendingWork_drop hqu rng⟩
      obtain ⟨hp,hc⟩ := hs p c ⟨hpc.pos,hpc.dep,hpc.ne,hpc.le⟩
      exact ⟨h.rep_ne hqu hre hpc.dep.parent_mem hp,h.rep_ne hqu hre hpc.dep.child_mem hc⟩
    · have hw := hm.work_le hv (h.head_mem hqu)
      rw [he]
      exact ⟨h.merged hqu hre hm,hw,pendingWork_merged h hqu hm⟩
  · rw [if_neg hre]
    refine ⟨h.drop hqu st.rng fun p c hpc => ⟨?_,?_⟩,le_rfl,pendingWork_drop hqu st.rng⟩
    · exact fun he => hre (he ▸ h.valid.rep_rep hpc.dep.parent_mem)
    · exact fun he => hre (he ▸ h.valid.rep_rep hpc.dep.child_mem)

theorem Pending.makeTopologicalLoop (h : Pending g st) (fuel : ℕ) :
    Pending g (makeTopologicalLoop R g fuel st) ∧ work g (makeTopologicalLoop R g fuel st) ≤
      work g st ∧
      (pendingWork g st ≤ fuel → (makeTopologicalLoop R g fuel st).suboptimal_chunks = []) := by
  induction fuel generalizing st with
  | zero =>
    refine ⟨h,le_rfl,fun hf => eq_nil_of_length_eq_zero ?_⟩
    exact (Nat.add_eq_zero_iff.mp (Nat.le_zero.mp hf)).1
  | succ fuel ih =>
    rw [SpanningForestState.makeTopologicalLoop]
    cases hqu : st.suboptimal_chunks with
    | nil => exact ⟨h,le_rfl,fun _ => hqu⟩
    | cons chunk q =>
      obtain ⟨hs,hw,hl⟩ := h.makeTopologicalStep (R := R) hqu
      obtain ⟨hd,hw',he⟩ := ih hs
      exact ⟨hd,hw'.trans hw,fun hf => he (by omega)⟩

/-- Merging in any order ends with the chunks in order. -/
theorem Sound.makeTopological (h : Sound g st) (fuel : ℕ) :
    Pending g (makeTopologicalLoop R g fuel (enqueueChunks R g st)) ∧
      work g (makeTopologicalLoop R g fuel (enqueueChunks R g st)) ≤ work g st ∧
      (st.suboptimal_chunks.length+2*g.txCount ≤ fuel →
        (makeTopologicalLoop R g fuel (enqueueChunks R g st)).suboptimal_chunks = []) := by
  obtain ⟨rng,q,hq,hl,hqu,hr⟩ := enqueueChunks_eq (R := R) (g := g) st
  have hp : Pending g { st with rng := rng, suboptimal_chunks := q } := by
    refine ⟨⟨h.valid.congr rng q,fun v hv => (hqu v hv).elim (h.queue_mem v) id⟩,
      fun p c hpc => .inl ?_⟩
    have ha := hpc.dep.parent_mem
    exact hr _ (h.valid.rep_mem_positions ha) (h.valid.rep_rep ha)
  obtain ⟨hd,hw,he⟩ := hp.makeTopologicalLoop (R := R) fuel
  rw [hq]
  refine ⟨hd,hw,fun hf => he ?_⟩
  have hc := hp.valid.card_chunks_le
  rw [pendingWork]
  dsimp only at hc ⊢
  omega

end SpanningForestState
end DripCore
