import DripCore.ForestLoading

/-!
# Reading a linearization off a topological state

`GetLinearization` puts out chunk after chunk, always the best of those whose dependencies on other
chunks are done, and within a chunk any transaction whose parents are done. What is counted are the
dependencies not yet released.
-/
namespace DripCore
open Chunking DepGraph Finset Function List Prod SpanningForestState

namespace DepGraph
variable {g : DepGraph}

theorem IsAcyclic.card_ancestors_lt (h : g.IsAcyclic) {p c : TxIdx} (hd : g.Dep p c) :
    (g.ancestors p).card < (g.ancestors c).card := by
  refine card_lt_card ⟨fun a ha => ?_,fun hs => ?_⟩
  · exact mem_ancestors_trans hd.child_mem hd.mem_ancestors ha
  · exact hd.ne (h.antisymm hd.child_mem hd.mem_ancestors (hs (mem_ancestors_self hd.child_mem)))

/-- What has all parents of its members has all their ancestors. -/
theorem IsAcyclic.mem_of_closed (h : g.IsAcyclic) {S : Set TxIdx}
    (hc : ∀ p c, g.Dep p c → c ∈ S → p ∈ S) {a v : TxIdx} (hv : v ∈ g.positions) (hs : v ∈ S)
    (ha : a ∈ g.ancestors v) : a ∈ S := by
  induction hca : (g.ancestors v).card using Nat.strong_induction_on generalizing v with
  | _ n ih =>
    by_cases hav : a = v
    · exact hav ▸ hs
    · obtain ⟨p,hp,hap⟩ := exists_reducedParent hv ha hav
      have hd : g.Dep p v := ⟨hv,hp⟩
      exact ih _ (hca ▸ h.card_ancestors_lt hd) hd.parent_mem (hc p v hd hs) hap rfl

end DepGraph

namespace SpanningForestState
variable {σ : Type*} {R : RandomContext σ} {g : DepGraph} {st : SpanningForestState σ}
variable {ls : LinearizationState σ} {C : Finset TxIdx} {D : Finset DepIdx} {d : DepIdx}

/-- The transactions of the chunk `C` that are ready when the dependencies of `D` are left. -/
structure ReadyTxs (g : DepGraph) (C : Finset TxIdx) (D : Finset DepIdx)
    (ls : LinearizationState σ) : Prop where
  tx_deps : ∀ v ∈ g.positions, ls.tx_deps v = (D.filter fun d => d.2 = v).card
  nodup : ls.ready_tx.Nodup
  mem_iff : ∀ v, v ∈ ls.ready_tx ↔ (v ∈ C ∧ v ∉ ls.ret) ∧ ∀ d ∈ D, d.2 ≠ v

/-- The chunks other than `C` that are ready when the dependencies of `D` are left. -/
structure ReadyChunks (g : DepGraph) (st : SpanningForestState σ) (C : Finset TxIdx)
    (D : Finset DepIdx) (ls : LinearizationState σ) : Prop where
  chunk_deps : ∀ r, ls.chunk_deps r =
    (D.filter fun d => st.chunk_rep d.2 = r ∧ st.chunk_rep d.1 ≠ r).card
  nodup : (ls.ready_chunks.map fst).Nodup
  mem_iff : ∀ r, r ∈ ls.ready_chunks.map fst ↔
    (r ∈ g.positions ∧ st.chunk_rep r = r ∧ r ∉ C ∧ r ∉ ls.ret) ∧
      ∀ d ∈ D, st.chunk_rep d.2 = r → st.chunk_rep d.1 = r

@[simp] theorem ret_releaseTx (child : TxIdx) : (releaseTx C ls child).ret = ls.ret := by
  rw [releaseTx]
  split_ifs <;> rfl

theorem ReadyChunks.releaseTx (h : ReadyChunks g st C D ls) (child : TxIdx) :
    ReadyChunks g st C D (releaseTx C ls child) := by
  rw [SpanningForestState.releaseTx]
  split_ifs
  · exact ⟨h.chunk_deps,h.nodup,h.mem_iff⟩
  · exact ⟨h.chunk_deps,h.nodup,h.mem_iff⟩

@[simp] theorem ret_releaseChunk (rep : TxIdx) : (releaseChunk R ls rep).ret = ls.ret := by
  rw [releaseChunk]
  split_ifs <;> rfl

theorem ReadyTxs.releaseChunk (h : ReadyTxs g C D ls) (rep : TxIdx) :
    ReadyTxs g C D (releaseChunk R ls rep) := by
  rw [SpanningForestState.releaseChunk]
  split_ifs
  · exact ⟨h.tx_deps,h.nodup,h.mem_iff⟩
  · exact ⟨h.tx_deps,h.nodup,h.mem_iff⟩

theorem card_filter_erase {P : DepIdx → Prop} [DecidablePred P] (hd : d ∈ D) (hP : P d) :
    ((D.erase d).filter P).card = (D.filter P).card-1 := by
  rw [filter_erase,card_erase_of_mem (mem_filter.mpr ⟨hd,hP⟩)]

theorem ReadyTxs.release (h : ReadyTxs g C D ls) (hd : d ∈ D) (hc : d.2 ∈ g.positions)
    (hre : d.2 ∉ ls.ret) : ReadyTxs g C (D.erase d) (releaseTx C ls d.2) := by
  have hco : ls.tx_deps d.2-1 = ((D.erase d).filter fun e => e.2 = d.2).card := by
    rw [card_filter_erase (P := fun e => e.2 = d.2) hd rfl,h.tx_deps d.2 hc]
  have hde : ∀ v ∈ g.positions, update ls.tx_deps d.2 (ls.tx_deps d.2-1) v =
      ((D.erase d).filter fun e => e.2 = v).card := by
    intro v hv
    by_cases hvd : v = d.2
    · rw [hvd,update_self,hco]
    · rw [update_of_ne hvd,h.tx_deps v hv,filter_erase,erase_eq_of_notMem]
      exact fun hm => hvd (mem_filter.mp hm).2.symm
  have hz : ls.tx_deps d.2-1 = 0 ↔ ∀ e ∈ D.erase d, e.2 ≠ d.2 := by
    rw [hco,card_eq_zero,filter_eq_empty_iff]
  have ho : ∀ v, v ≠ d.2 → ((∀ e ∈ D.erase d, e.2 ≠ v) ↔ ∀ e ∈ D, e.2 ≠ v) := by
    intro v hv
    refine ⟨fun ha e he hq => ha e (mem_erase.mpr ⟨?_,he⟩) hq,
      fun ha e he => ha e (mem_of_mem_erase he)⟩
    rintro rfl
    exact hv hq.symm
  have hn : d.2 ∉ ls.ready_tx := fun hm => ((h.mem_iff d.2).mp hm).2 d hd rfl
  rw [releaseTx]
  simp only [update_self]
  split_ifs with hr
  · refine ⟨hde,?_,fun v => ?_⟩
    · rw [← concat_eq_append]
      exact h.nodup.concat hn
    · rw [List.mem_append,List.mem_singleton,h.mem_iff]
      by_cases hvd : v = d.2
      · subst hvd
        exact iff_of_true (.inr rfl) ⟨⟨hr.2,hre⟩,hz.mp hr.1⟩
      · rw [ho v hvd,or_iff_left hvd]
  · refine ⟨hde,h.nodup,fun v => ?_⟩
    by_cases hvd : v = d.2
    · subst hvd
      exact iff_of_false hn fun han => hr ⟨hz.mpr han.2,han.1.1⟩
    · rw [ho v hvd]
      exact h.mem_iff v

theorem ReadyChunks.release (h : ReadyChunks g st C D ls) (hd : d ∈ D)
    (hne : st.chunk_rep d.1 ≠ st.chunk_rep d.2) (hrep : st.chunk_rep d.2 ∈ g.positions)
    (hrep_rep : st.chunk_rep (st.chunk_rep d.2) = st.chunk_rep d.2) (hC : st.chunk_rep d.2 ∉ C)
    (ht : st.chunk_rep d.2 ∉ ls.ret) :
    ReadyChunks g st C (D.erase d) (releaseChunk R ls (st.chunk_rep d.2)) := by
  have hc : ls.chunk_deps (st.chunk_rep d.2)-1 = ((D.erase d).filter fun e =>
      st.chunk_rep e.2 = st.chunk_rep d.2 ∧ st.chunk_rep e.1 ≠ st.chunk_rep d.2).card := by
    rw [card_filter_erase hd ⟨rfl,hne⟩,h.chunk_deps]
  have hde : ∀ r, update ls.chunk_deps (st.chunk_rep d.2) (ls.chunk_deps (st.chunk_rep d.2)-1) r =
        ((D.erase d).filter fun e => st.chunk_rep e.2 = r ∧ st.chunk_rep e.1 ≠ r).card := by
    intro r
    by_cases hr : r = st.chunk_rep d.2
    · rw [hr,update_self,hc]
    · rw [update_of_ne hr,h.chunk_deps,filter_erase,erase_eq_of_notMem]
      exact fun hm => hr (mem_filter.mp hm).2.1.symm
  have hz : ls.chunk_deps (st.chunk_rep d.2)-1 = 0 ↔ ∀ e ∈ D.erase d,
      st.chunk_rep e.2 = st.chunk_rep d.2 → st.chunk_rep e.1 = st.chunk_rep d.2 := by
    rw [hc,card_eq_zero,filter_eq_empty_iff]
    simp only [not_and,not_not]
  have ho : ∀ r, r ≠ st.chunk_rep d.2 →
    ((∀ e ∈ D.erase d, st.chunk_rep e.2 = r → st.chunk_rep e.1 = r) ↔
        ∀ e ∈ D, st.chunk_rep e.2 = r → st.chunk_rep e.1 = r) := by
    intro r hr
    refine ⟨fun ha e he hq => ha e (mem_erase.mpr ⟨?_,he⟩) hq,
      fun ha e he => ha e (mem_of_mem_erase he)⟩
    rintro rfl
    exact hr hq.symm
  have hn : st.chunk_rep d.2 ∉ ls.ready_chunks.map fst :=
    fun hm => hne (((h.mem_iff _).mp hm).2 d hd rfl)
  rw [releaseChunk]
  simp only [update_self]
  split_ifs with hre
  · rw [addReadyChunk]
    refine ⟨hde,?_,fun r => ?_⟩
    · rw [List.map_append,List.map_singleton,← List.concat_eq_append]
      exact h.nodup.concat hn
    · rw [List.map_append,List.mem_append,List.map_singleton,List.mem_singleton,h.mem_iff]
      by_cases hr : r = st.chunk_rep d.2
      · subst hr
        exact iff_of_true (.inr rfl) ⟨⟨hrep,hrep_rep,hC,ht⟩,hz.mp hre⟩
      · rw [ho r hr,or_iff_left hr]
  · refine ⟨hde,h.nodup,fun r => ?_⟩
    by_cases hr : r = st.chunk_rep d.2
    · subst hr
      exact iff_of_false hn fun han => hre (hz.mpr han.2)
    · rw [ho r hr]
      exact h.mem_iff r

/-- A dependency within a chunk counts for no chunk. -/
theorem ReadyChunks.release_inner (h : ReadyChunks g st C D ls)
    (hq : st.chunk_rep d.1 = st.chunk_rep d.2) : ReadyChunks g st C (D.erase d) ls := by
  refine ⟨fun r => ?_,h.nodup,fun r => ?_⟩
  · rw [h.chunk_deps,filter_erase,erase_eq_of_notMem]
    intro hm
    obtain ⟨h2,h1⟩ := (mem_filter.mp hm).2
    exact h1 (hq.trans h2)
  · rw [h.mem_iff]
    refine and_congr_right fun _ => ⟨fun ha e he => ha e (mem_of_mem_erase he),fun ha e he h2 => ?_⟩
    by_cases hd : e = d
    · rw [hd] at h2 ⊢
      exact hq.trans h2
    · exact ha e (mem_erase.mpr ⟨hd,he⟩) h2

section

/-- What has been put out, while the chunk `C` is being put out and the dependencies `D` are left.
-/
structure Emitting (g : DepGraph) (st : SpanningForestState σ) (C : Finset TxIdx)
    (D : Finset DepIdx)
    (ls : LinearizationState σ) : Prop where
  txs : ReadyTxs g C D ls
  chunks : ReadyChunks g st C D ls
  deps : D ⊆ g.deps
  free : ∀ d ∈ D, d.2 ∉ ls.ret
  internal : ∀ d ∈ D, d.2 ∈ C → d.1 ∈ C
  mem : ∀ v ∈ ls.ret, v ∈ g.positions
  nodup : ls.ret.Nodup
  pairwise : ls.ret.Pairwise fun a b => b ∉ g.ancestors a
  whole : ∀ v ∈ ls.ret, v ∉ C → chunkOf g st v ⊆ ls.ret.toFinset

def pendingDeps (g : DepGraph) (ret : List TxIdx) : Finset DepIdx := g.deps.filter fun d =>
    d.1 ∉ ret

theorem mem_pendingDeps {ret : List TxIdx} : d ∈ pendingDeps g ret ↔ g.Dep d.1 d.2 ∧ d.1 ∉ ret := by
  rw [pendingDeps,Finset.mem_filter,mem_deps]

variable {x tx : TxIdx}

theorem Valid.transactions_rep (_ : Valid g st) (hx : x ∈ g.positions) (hrep : st.chunk_rep x = x) :
    (st.chunk_setinfo x).transactions = chunkOf g st x := by
  rw [chunkOf_of_mem hx,hrep]

section
variable (hva : Valid g st) (hx : x ∈ g.positions) (hrep : st.chunk_rep x = x)
include hva hx hrep

theorem Emitting.releaseChild (h : Emitting g st (chunkOf g st x) D ls) {child : TxIdx}
    (hd : (tx,child) ∈ D) (htx : tx ∈ chunkOf g st x) :
    Emitting g st (chunkOf g st x) (D.erase (tx,child)) (releaseChild R st x ls child) ∧
      (releaseChild R st x ls child).ret = ls.ret := by
  have hde : g.Dep tx child := mem_deps.mp (h.deps hd)
  have hc := hde.child_mem
  have hrep_tx : st.chunk_rep tx = x := (hva.rep_eq x hx tx htx).trans hrep
  have ht := h.txs.release hd hc (h.free _ hd)
  have hre : (SpanningForestState.releaseChild R st x ls child).ret = ls.ret := by
    rw [SpanningForestState.releaseChild]
    split_ifs
    · rw [ret_releaseChunk,ret_releaseTx]
    · rw [ret_releaseTx]
  have hr : ReadyTxs g (chunkOf g st x) (D.erase (tx,child))
    (SpanningForestState.releaseChild R st x ls child) ∧
      ReadyChunks g st (chunkOf g st x) (D.erase (tx,child))
        (SpanningForestState.releaseChild R st x ls child) := by
    rw [SpanningForestState.releaseChild,hva.transactions_rep hx hrep]
    split_ifs with hn
    · have hrep_child := hva.rep_mem_positions hc
      have ho : st.chunk_rep child ∉ chunkOf g st x := fun hm =>
        hn ((hva.rep_rep hc).symm.trans ((hva.rep_eq x hx _ hm).trans hrep))
      have hu : st.chunk_rep child ∉ ls.ret := by
        intro hm
        have hs := h.whole _ hm ho
        rw [chunkOf_eq_of_rep hrep_child hc (hva.rep_rep hc)] at hs
        exact h.free _ hd (mem_toFinset.mp (hs (hva.isChunking.self child hc)))
      refine ⟨ht.releaseChunk _,
        (h.chunks.releaseTx child).release (d := (tx,child)) hd ?_ hrep_child
        (hva.rep_rep hc) ho ?_⟩
      · exact fun hq => hn (hq ▸ hrep_tx)
      · rwa [ret_releaseTx]
    · exact ⟨ht,(h.chunks.releaseTx child).release_inner (hrep_tx.trans (not_not.mp hn).symm)⟩
  refine ⟨⟨hr.1,hr.2,(erase_subset _ _).trans h.deps,?_,?_,?_,?_,?_,?_⟩,hre⟩
  · exact fun e he => hre ▸ h.free e (mem_of_mem_erase he)
  · exact fun e he => h.internal e (mem_of_mem_erase he)
  · exact hre ▸ h.mem
  · exact hre ▸ h.nodup
  · exact hre ▸ h.pairwise
  · exact hre ▸ h.whole

/-- Releasing the children of a transaction takes away all dependencies on it. -/
theorem Emitting.releaseChildren {children : List TxIdx} (h : Emitting g st (chunkOf g st x) D ls)
    (hm : ∀ child ∈ children, (tx,child) ∈ D) (hn : children.Nodup)
    (ht : tx ∈ chunkOf g st x) :
    Emitting g st (chunkOf g st x) (D.filter fun d => ¬(d.1 = tx ∧ d.2 ∈ children))
        (children.foldl (SpanningForestState.releaseChild R st x) ls) ∧
      (children.foldl (SpanningForestState.releaseChild R st x) ls).ret = ls.ret := by
  induction children generalizing D ls with
  | nil => simpa using h
  | cons child children ih =>
    obtain ⟨ho,hn⟩ := nodup_cons.mp hn
    obtain ⟨hs,hr⟩ := h.releaseChild (R := R) hva hx hrep (hm child mem_cons_self) ht
    have hm' : ∀ c ∈ children, (tx,c) ∈ D.erase (tx,child) := by
      intro c hc
      refine mem_erase.mpr ⟨fun he => ho ?_,hm c (mem_cons_of_mem _ hc)⟩
      exact (Prod.mk.inj he).2 ▸ hc
    obtain ⟨hre,hr'⟩ := ih hs hm' hn
    have hf : ((D.erase (tx,child)).filter fun d => ¬(d.1 = tx ∧ d.2 ∈ children)) =
        D.filter fun d => ¬(d.1 = tx ∧ d.2 ∈ child::children) := by
      ext e
      simp only [Finset.mem_filter,Finset.mem_erase,List.mem_cons,Prod.ext_iff,ne_eq]
      tauto
    rw [hf] at hre
    exact ⟨hre,hr'.trans hr⟩

end

variable (hva : Valid g st) (hac : g.IsAcyclic)

include hac in
/-- What is put out has all its ancestors. -/
theorem Emitting.closed (h : Emitting g st C (pendingDeps g ls.ret) ls) {a v : TxIdx}
    (hv : v ∈ ls.ret)
    (ha : a ∈ g.ancestors v) : a ∈ ls.ret := by
  refine hac.mem_of_closed (S := fun u => u ∈ ls.ret) (fun p c hd hc => ?_) (h.mem v hv) hv ha
  by_contra hp
  exact h.free (p,c) (mem_pendingDeps.mpr ⟨hd,hp⟩) hc

include hac in
theorem Emitting.emit (h : Emitting g st C (pendingDeps g ls.ret) ls) (hC : C ⊆ g.positions)
    {re : List TxIdx} (hp : ls.ready_tx.Perm (re++[tx])) (rng : σ) :
    Emitting g st C (pendingDeps g ls.ret)
      { ls with ready_tx := re, rng := rng, ret := ls.ret++[tx] } := by
  have hm : ∀ v, v ∈ ls.ready_tx ↔ v ∈ re ∨ v = tx := fun v => by
    rw [hp.mem_iff,List.mem_append,List.mem_singleton]
  have hn := hp.nodup_iff.mp h.txs.nodup
  rw [← concat_eq_append,nodup_concat] at hn
  obtain ⟨⟨ht,htx⟩,hf⟩ := (h.txs.mem_iff tx).mp ((hm tx).mpr (.inr rfl))
  have hre : ∀ v, v ∈ ls.ret++[tx] ↔ v ∈ ls.ret ∨ v = tx := fun v => by
    rw [List.mem_append,List.mem_singleton]
  refine ⟨⟨h.txs.tx_deps,hn.2,fun v => ?_⟩,⟨h.chunks.chunk_deps,h.chunks.nodup,fun r => ?_⟩,
    h.deps,fun d hd => ?_,h.internal,fun v hv => ?_,?_,?_,fun v hv hc => ?_⟩
  · dsimp only
    rw [hre,not_or]
    by_cases hvt : v = tx
    · subst hvt
      exact iff_of_false hn.1 fun han => han.1.2.2 rfl
    · have hif := h.txs.mem_iff v
      rw [hm v,or_iff_left hvt] at hif
      rw [hif,and_iff_left hvt]
  · dsimp only
    rw [h.chunks.mem_iff,hre,not_or]
    refine and_congr_left fun _ => and_congr_right fun _ => and_congr_right fun _ =>
      and_congr_right fun hr => (and_iff_left fun he => hr ?_).symm
    exact he ▸ ht
  · rw [hre,not_or]
    exact ⟨h.free d hd,hf d hd⟩
  · rcases (hre v).mp hv with hv | rfl
    · exact h.mem v hv
    · exact hC ht
  · rw [← concat_eq_append]
    exact h.nodup.concat htx
  · refine pairwise_append.mpr ⟨h.pairwise,pairwise_singleton _ _,fun a ha b hb => ?_⟩
    rw [List.mem_singleton.mp hb]
    exact fun hanc => htx (h.closed hac ha hanc)
  · rw [toFinset_append]
    rcases (hre v).mp hv with hv | rfl
    · exact (h.whole v hv hc).trans subset_union_left
    · exact absurd ht hc

variable (hx : x ∈ g.positions) (hrep : st.chunk_rep x = x)
include hva hac hx hrep

theorem Emitting.outputTx (h : Emitting g st (chunkOf g st x) (pendingDeps g ls.ret) ls)
    {r : List TxIdx} (hp : ls.ready_tx.Perm (r++[tx])) (rng : σ) :
    Emitting g st (chunkOf g st x) (pendingDeps g (ls.ret++[tx]))
        (outputTx R g st x { ls with ready_tx := r, rng := rng } tx) ∧
      (outputTx R g st x { ls with ready_tx := r, rng := rng } tx).ret = ls.ret++[tx] := by
  have hr : tx ∈ ls.ready_tx :=
    hp.mem_iff.mpr (List.mem_append_right _ (List.mem_singleton_self tx))
  obtain ⟨⟨ht,htx⟩,-⟩ := (h.txs.mem_iff tx).mp hr
  have hm : ∀ child ∈ g.toList (g.children tx), (tx,child) ∈ pendingDeps g ls.ret := by
    intro child hc
    rw [mem_toList (children_subset tx)] at hc
    exact mem_pendingDeps.mpr ⟨mem_children.mp hc,htx⟩
  have hd : ((pendingDeps g ls.ret).filter fun d =>
      ¬(d.1 = tx ∧ d.2 ∈ g.toList (g.children tx))) = pendingDeps g (ls.ret++[tx]) := by
    ext d
    rw [Finset.mem_filter,mem_pendingDeps,mem_pendingDeps,List.mem_append,List.mem_singleton,
      not_or,and_assoc]
    refine and_congr_right fun hde => and_congr_right fun _ => not_congr (and_iff_left_of_imp ?_)
    rintro rfl
    exact (mem_toList (children_subset d.1)).mpr (mem_children.mpr hde)
  have he := h.emit hac (hva.chunkOf_subset hx) hp rng
  have hre := he.releaseChildren (R := R) hva hx hrep hm (g.nodup_toList _) ht
  rwa [hd] at hre

omit hva hx hrep in
/-- While the chunk is not complete, one of its transactions is ready. -/
theorem Emitting.chunk_subset (h : Emitting g st (chunkOf g st x) (pendingDeps g ls.ret) ls)
    (hr : ls.ready_tx = []) : chunkOf g st x ⊆ ls.ret.toFinset := by
  by_contra ho
  obtain ⟨w,hwC,hw⟩ := not_subset.mp ho
  obtain ⟨v,hv,hm⟩ := exists_min_image (chunkOf g st x \ ls.ret.toFinset)
    (fun u => (g.ancestors u).card) ⟨w,mem_sdiff.mpr ⟨hwC,hw⟩⟩
  obtain ⟨hc,hvr⟩ := mem_sdiff.mp hv
  rw [mem_toFinset] at hvr
  have hn : v ∉ ls.ready_tx := hr ▸ not_mem_nil
  rw [h.txs.mem_iff] at hn
  push Not at hn
  obtain ⟨d,hd,rfl⟩ := hn ⟨hc,hvr⟩
  obtain ⟨he,hpr⟩ := mem_pendingDeps.mp hd
  have hp := hm d.1 (mem_sdiff.mpr ⟨h.internal d hd hc,fun hme => hpr (mem_toFinset.mp hme)⟩)
  exact absurd (hac.card_ancestors_lt he) (not_lt.mpr hp)

omit hva hac hx hrep in
theorem card_sdiff_append_lt {A : Finset TxIdx} {ret xs : List TxIdx} {v : TxIdx} (hv : v ∈ A)
    (hr : v ∉ ret) (hxs : v ∈ xs) :
    (A \ (ret++xs).toFinset).card < (A \ ret.toFinset).card := by
  rw [toFinset_append]
  refine card_lt_card ⟨sdiff_subset_sdiff (Finset.Subset.refl A) subset_union_left,fun hs => ?_⟩
  have hm := hs (mem_sdiff.mpr ⟨hv,fun hm => hr (mem_toFinset.mp hm)⟩)
  exact (Finset.mem_sdiff.mp hm).2 (Finset.mem_union_right _ (mem_toFinset.mpr hxs))

omit hva hac hx hrep in
theorem exists_picked {r : List TxIdx} (he : r ≠ []) (pos : ℕ) :
    ∃ tx, (if pos ≠ r.length-1 then swapBack r pos else r).getLast? = some tx ∧
      r.Perm ((if pos ≠ r.length-1 then swapBack r pos else r).dropLast++[tx]) := by
  have hp : (if pos ≠ r.length-1 then swapBack r pos else r).Perm r := by
    split_ifs
    · exact swapBack_perm r pos
    · exact List.Perm.refl r
  generalize (if pos ≠ r.length-1 then swapBack r pos else r) = swapped at hp
  have hs : swapped ≠ [] := fun hn => he (hn ▸ hp).nil_eq.symm
  refine ⟨swapped.getLast hs,getLast?_eq_getLast_of_ne_nil hs,?_⟩
  rw [dropLast_append_getLast]
  exact hp.symm

theorem Emitting.outputLoop (fuel : ℕ)
    (h : Emitting g st (chunkOf g st x) (pendingDeps g ls.ret) ls)
    (hf : (chunkOf g st x \ ls.ret.toFinset).card ≤ fuel) :
    ∃ xs, (∀ v ∈ xs, v ∈ chunkOf g st x) ∧ (outputLoop R g st x fuel ls).ret = ls.ret++xs ∧
      (outputLoop R g st x fuel ls).ready_tx = [] ∧
      Emitting g st (chunkOf g st x) (pendingDeps g (ls.ret++xs))
        (outputLoop R g st x fuel ls) := by
  have hd : ∀ ls : LinearizationState σ,
      Emitting g st (chunkOf g st x) (pendingDeps g ls.ret) ls → ls.ready_tx = [] →
      ∃ xs, (∀ v ∈ xs, v ∈ chunkOf g st x) ∧ ls.ret = ls.ret++xs ∧ ls.ready_tx = [] ∧
        Emitting g st (chunkOf g st x) (pendingDeps g (ls.ret++xs)) ls := by
    intro ls h hn
    refine ⟨[],fun v hv => absurd hv not_mem_nil,(append_nil _).symm,hn,?_⟩
    rwa [append_nil]
  induction fuel generalizing ls with
  | zero =>
    refine hd ls h (eq_nil_iff_forall_not_mem.mpr fun v hv => ?_)
    obtain ⟨⟨hc,hvr⟩,-⟩ := (h.txs.mem_iff v).mp hv
    have hm : v ∈ chunkOf g st x \ ls.ret.toFinset :=
      mem_sdiff.mpr ⟨hc,fun hm => hvr (mem_toFinset.mp hm)⟩
    rw [card_eq_zero.mp (Nat.le_zero.mp hf)] at hm
    exact notMem_empty v hm
  | succ fuel ih =>
    rw [outputLoop]
    split_ifs with hn
    · exact hd ls h hn
    · obtain ⟨tx,hl,hp⟩ := exists_picked hn (R.randrange ls.ready_tx.length ls.rng).1
      obtain ⟨⟨ht,htx⟩,-⟩ := (h.txs.mem_iff tx).mp
        (hp.mem_iff.mpr (List.mem_append_right _ (List.mem_singleton_self tx)))
      obtain ⟨hs,he⟩ := h.outputTx (R := R) hva hac hx hrep hp
        (R.randrange ls.ready_tx.length ls.rng).2
      have hlt : (chunkOf g st x \ (ls.ret++[tx]).toFinset).card <
        (chunkOf g st x \ ls.ret.toFinset).card :=
        card_sdiff_append_lt ht htx (List.mem_singleton_self tx)
      rw [← he] at hs hlt
      obtain ⟨xs,hxs,hxs_ret,hr,hre⟩ := ih hs (by omega)
      dsimp only
      rw [hl]
      refine ⟨tx::xs,forall_mem_cons.mpr ⟨ht,hxs⟩,?_,hr,?_⟩
      · rw [hxs_ret,he,append_assoc,singleton_append]
      · rwa [he,append_assoc] at hre

omit hac hrep in
/-- A chunk is put out as a whole or not at all. -/
theorem Emitting.notMem_ret (h : Emitting g st ∅ D ls) (hr : x ∉ ls.ret) : ∀ v ∈ chunkOf g st x,
    v ∉ ls.ret := by
  intro v hv hvr
  have hs := h.whole v hvr (notMem_empty v)
  rw [hva.isChunking.eq_of_mem x hx v hv] at hs
  exact hr (mem_toFinset.mp (hs (hva.isChunking.self x hx)))

omit hac in
/-- A ready chunk is taken from the heap, and its ready transactions are collected. -/
theorem Emitting.start {e : TxIdx × ℕ} {heap : List (TxIdx × ℕ)}
    (h : Emitting g st ∅ (pendingDeps g ls.ret) ls) (he : e.1 = x)
    (hp : ls.ready_chunks.Perm (e::heap)) :
    Emitting g st (chunkOf g st x) (pendingDeps g ls.ret)
      { ls with
        ready_chunks := heap
        ready_tx := ls.ready_tx++(g.toList (chunkOf g st x)).filter fun tx =>
          ls.tx_deps tx = 0 } := by
  have hm := hp.map fst
  rw [List.map_cons,he] at hm
  obtain ⟨hxh,hh⟩ := nodup_cons.mp (hm.nodup_iff.mp h.chunks.nodup)
  obtain ⟨⟨-,-,-,hxr⟩,hxd⟩ := (h.chunks.mem_iff x).mp (hm.mem_iff.mpr mem_cons_self)
  have hn : ls.ready_tx = [] := eq_nil_iff_forall_not_mem.mpr fun v hv =>
    notMem_empty v ((h.txs.mem_iff v).mp hv).1.1
  have hne := h.notMem_ret hva hx hxr
  have hz : ∀ v ∈ g.positions, ls.tx_deps v = 0 ↔ ∀ d ∈ pendingDeps g ls.ret, d.2 ≠ v := by
    intro v hv
    rw [h.txs.tx_deps v hv,card_eq_zero,filter_eq_empty_iff]
  rw [hn,nil_append]
  refine ⟨⟨h.txs.tx_deps,(g.nodup_toList _).filter _,fun v => ?_⟩,
    ⟨h.chunks.chunk_deps,hh,fun r => ?_⟩,h.deps,h.free,fun d hd hdC => ?_,h.mem,h.nodup,
    h.pairwise,fun v hv _ => h.whole v hv (notMem_empty v)⟩
  · rw [mem_filter,mem_toList (hva.chunkOf_subset hx),decide_eq_true_iff]
    constructor
    · rintro ⟨hv,hde⟩
      exact ⟨⟨hv,hne v hv⟩,(hz v (hva.chunkOf_subset hx hv)).mp hde⟩
    · rintro ⟨⟨hv,-⟩,hde⟩
      exact ⟨hv,(hz v (hva.chunkOf_subset hx hv)).mpr hde⟩
  · have hre := h.chunks.mem_iff r
    rw [hm.mem_iff,List.mem_cons] at hre
    by_cases hrx : r = x
    · subst hrx
      exact iff_of_false hxh fun ha => ha.1.2.2.1 (hva.isChunking.self r hx)
    · rw [or_iff_right hrx] at hre
      refine hre.trans (and_congr_left fun _ => and_congr_right fun _ => and_congr_right fun hr =>
        and_congr_left fun _ => iff_of_true (notMem_empty r) fun hme => hrx ?_)
      exact hr.symm.trans ((hva.rep_eq x hx r hme).trans hrep)
  · have hdep := (mem_pendingDeps.mp hd).1
    have hc : st.chunk_rep d.2 = x := (hva.rep_eq x hx _ hdC).trans hrep
    have hpa : chunkOf g st d.1 = chunkOf g st x :=
      chunkOf_eq_of_rep hdep.parent_mem hx ((hxd d hd hc).trans hrep.symm)
    exact hpa ▸ hva.isChunking.self d.1 hdep.parent_mem

omit hac hrep in
theorem Emitting.finish (h : Emitting g st (chunkOf g st x) D ls) (he : ls.ready_tx = [])
    (hs : chunkOf g st x ⊆ ls.ret.toFinset) : Emitting g st ∅ D ls := by
  refine ⟨⟨h.txs.tx_deps,h.txs.nodup,fun v => ?_⟩,⟨h.chunks.chunk_deps,h.chunks.nodup,fun r => ?_⟩,
    h.deps,h.free,fun d _ hd => absurd hd (notMem_empty _),h.mem,h.nodup,h.pairwise,
    fun v hv _ => ?_⟩
  · rw [he]
    exact iff_of_false not_mem_nil fun ha => notMem_empty v ha.1.1
  · rw [h.chunks.mem_iff]
    refine and_congr_left fun _ => and_congr_right fun _ => and_congr_right fun _ =>
      and_congr_left fun hr => iff_of_true (fun hm => hr ?_) (notMem_empty r)
    exact mem_toFinset.mp (hs hm)
  · by_cases hvx : v ∈ chunkOf g st x
    · rwa [hva.isChunking.eq_of_mem x hx v hvx]
    · exact h.whole v hv hvx

theorem Emitting.outputChunk {e : TxIdx × ℕ} {heap : List (TxIdx × ℕ)}
    (h : Emitting g st ∅ (pendingDeps g ls.ret) ls) (he : e.1 = x) (hxr : x ∉ ls.ret)
    (hp : ls.ready_chunks.Perm (e::heap)) :
    ∃ xs, xs.toFinset = chunkOf g st x ∧
      (outputChunk R g st x { ls with ready_chunks := heap }).ret = ls.ret++xs ∧
      Emitting g st ∅ (pendingDeps g (ls.ret++xs))
        (outputChunk R g st x { ls with ready_chunks := heap }) := by
  let start : LinearizationState σ :=
    { ls with
      ready_chunks := heap
      ready_tx := ls.ready_tx++(g.toList (chunkOf g st x)).filter fun tx => ls.tx_deps tx = 0 }
  have ht : Emitting g st (chunkOf g st x) (pendingDeps g start.ret) start :=
    h.start hva hx hrep he hp
  have hu : (chunkOf g st x \ ls.ret.toFinset).card ≤ g.txCount :=
    card_le_card (sdiff_subset.trans (hva.chunkOf_subset hx))
  obtain ⟨xs,hxs,hre,hr,hd⟩ := ht.outputLoop (R := R) hva hac hx hrep g.txCount hu
  rw [SpanningForestState.outputChunk,hva.transactions_rep hx hrep]
  rw [← hre] at hd
  have hs := hd.chunk_subset hac hr
  rw [hre,toFinset_append] at hs
  refine ⟨xs,?_,hre,?_⟩
  · refine Finset.Subset.antisymm (fun v hv => hxs v (mem_toFinset.mp hv)) fun v hv => ?_
    refine (mem_union.mp (hs hv)).resolve_left fun hvr => ?_
    exact h.notMem_ret hva hx hxr v hv (mem_toFinset.mp hvr)
  · have hf := hd.finish hva hx hr (hd.chunk_subset hac hr)
    rwa [hre] at hf

end

section
variable (hva : Valid g st) (hpos : g.PositiveSizes)
include hva hpos

theorem rate_le_iff {v w : TxIdx} (hv : v ∈ g.positions) (hw : w ∈ g.positions)
    (hv_rep : st.chunk_rep v = v) (hw_rep : st.chunk_rep w = w) :
    rate g.fee g.size (chunkOf g st v) ≤ rate g.fee g.size (chunkOf g st w) ↔
      (st.chunk_setinfo v).feerate.fee*(st.chunk_setinfo w).feerate.size ≤
        (st.chunk_setinfo w).feerate.fee*(st.chunk_setinfo v).feerate.size := by
  have hexact_v := hva.chunk_exact v hv
  have hexact_w := hva.chunk_exact w hw
  have hpos_v := hva.size_pos hpos hv
  have hpos_w := hva.size_pos hpos hw
  rw [hv_rep] at hexact_v hpos_v
  rw [hw_rep] at hexact_w hpos_w
  rw [← hva.transactions_rep hv hv_rep,← hva.transactions_rep hw hw_rep,hexact_v.rate_eq,
    hexact_w.rate_eq,div_le_div_iff₀ (Int.cast_pos.mpr hpos_v) (Int.cast_pos.mpr hpos_w)]
  exact_mod_cast Iff.rfl

/-- The order of the heap is one by feerate in the first place. -/
theorem rate_le_of_chunkLess {a b : TxIdx × ℕ} (ha : a.1 ∈ g.positions) (hb : b.1 ∈ g.positions)
    (ha_rep : st.chunk_rep a.1 = a.1) (hb_rep : st.chunk_rep b.1 = b.1) :
    (chunkLess st a b = true →
      rate g.fee g.size (chunkOf g st a.1) ≤ rate g.fee g.size (chunkOf g st b.1)) ∧
    (chunkLess st a b = false →
      rate g.fee g.size (chunkOf g st b.1) ≤ rate g.fee g.size (chunkOf g st a.1)) := by
  rw [rate_le_iff hva hpos ha hb ha_rep hb_rep,rate_le_iff hva hpos hb ha hb_rep ha_rep,chunkLess]
  split_ifs with hn
  · exact ⟨FeeFrac.le_of_less,FeeFrac.le_of_not_less⟩
  · rw [not_not.mp hn]
    exact ⟨fun _ => le_rfl,fun _ => le_rfl⟩
  · rw [not_not.mp hn]
    exact ⟨fun _ => le_rfl,fun _ => le_rfl⟩

omit hva hpos in
theorem popHeap_none {heap : List (TxIdx × ℕ)} (h : popHeap st heap = none) : heap = [] := by
  cases heap with
  | nil => rfl
  | cons e heap =>
    rw [popHeap] at h
    split at h
    · exact absurd h (Option.some_ne_none _)
    · split_ifs at h

theorem popHeap_some {heap rest : List (TxIdx × ℕ)} {best : TxIdx × ℕ}
    (hh : ∀ e ∈ heap, e.1 ∈ g.positions ∧ st.chunk_rep e.1 = e.1)
    (h : popHeap st heap = some (best,rest)) : heap.Perm (best::rest) ∧
      ∀ e ∈ heap, rate g.fee g.size (chunkOf g st e.1) ≤
        rate g.fee g.size (chunkOf g st best.1) := by
  induction heap generalizing best rest with
  | nil => exact absurd h (by simp [popHeap])
  | cons en heap ih =>
    obtain ⟨⟨hen,hentry_rep⟩,hh⟩ := forall_mem_cons.mp hh
    rw [popHeap] at h
    cases hp : popHeap st heap with
    | none =>
      rw [hp] at h
      obtain ⟨rfl,rfl⟩ := Prod.mk.inj (Option.some.inj h)
      rw [popHeap_none hp]
      exact ⟨List.Perm.refl _,fun e he => List.mem_singleton.mp he ▸ le_rfl⟩
    | some p =>
      obtain ⟨best',rest'⟩ := p
      obtain ⟨hpe,hb⟩ := ih hh hp
      obtain ⟨hb',hbest_rep⟩ := hh best' (hpe.mem_iff.mpr mem_cons_self)
      obtain ⟨hl,hn⟩ := rate_le_of_chunkLess hva hpos (a := best')
        (b := en) hb' hen hbest_rep hentry_rep
      rw [hp] at h
      dsimp only at h
      split_ifs at h with hc
      · obtain ⟨rfl,rfl⟩ := Prod.mk.inj (Option.some.inj h)
        refine ⟨hpe.cons en,forall_mem_cons.mpr ⟨le_rfl,fun e he => ?_⟩⟩
        exact (hb e he).trans (hl hc)
      · obtain ⟨rfl,rfl⟩ := Prod.mk.inj (Option.some.inj h)
        refine ⟨(hpe.cons en).trans (List.Perm.swap _ _ _),?_⟩
        exact forall_mem_cons.mpr ⟨hn (Bool.not_eq_true _ ▸ hc),hb⟩

end

section
variable (hva : Valid g st) (hor : InOrder g st)
include hva hor

/-- As long as there are chunks left, the best of them are ready. -/
theorem Emitting.exists_ready (h : Emitting g st ∅ (pendingDeps g ls.ret) ls) {w : TxIdx}
    (hw : w ∈ g.positions) (hr : w ∉ ls.ret) :
    ∃ r ∈ ls.ready_chunks.map fst, ∀ u ∈ g.positions, u ∉ ls.ret →
      rate g.fee g.size (chunkOf g st u) ≤ rate g.fee g.size (chunkOf g st r) := by
  have hs : ∀ u, u ∈ g.positions \ ls.ret.toFinset ↔ u ∈ g.positions ∧ u ∉ ls.ret := fun u => by
    rw [mem_sdiff,mem_toFinset]
  obtain ⟨v,hv,hm⟩ := exists_max_image (g.positions \ ls.ret.toFinset)
    (fun u => rate g.fee g.size (chunkOf g st u)) ⟨w,(hs w).mpr ⟨hw,hr⟩⟩
  obtain ⟨hvs,hvr⟩ := (hs v).mp hv
  have hrep := hva.rep_mem_positions hvs
  have ha : chunkOf g st (st.chunk_rep v) = chunkOf g st v :=
    chunkOf_eq_of_rep hrep hvs (hva.rep_rep hvs)
  refine ⟨st.chunk_rep v,?_,fun u hu hur => ?_⟩
  · rw [h.chunks.mem_iff]
    refine ⟨⟨hrep,hva.rep_rep hvs,notMem_empty _,fun hme => ?_⟩,fun d hd hc => ?_⟩
    · exact h.notMem_ret hva hvs hvr _ (hva.rep_mem v hvs) hme
    · -- A chunk above it would be better, and is not done.
      obtain ⟨hde,hp⟩ := mem_pendingDeps.mp hd
      by_contra hne
      have hh : chunkOf g st d.2 = chunkOf g st v := chunkOf_eq_of_rep hde.child_mem hvs hc
      have hn : chunkOf g st d.1 ≠ chunkOf g st d.2 := by
        intro he
        have hme := hva.isChunking.self d.1 hde.parent_mem
        rw [he,hh] at hme
        exact hne (hva.rep_eq v hvs _ hme)
      have hl := hor.lt d.1 d.2 hde hde.child_mem hn
      rw [hh] at hl
      exact absurd (hm d.1 ((hs _).mpr ⟨hde.parent_mem,hp⟩)) (not_le.mpr hl)
  · rw [ha]
    exact hm u ((hs u).mpr ⟨hu,hur⟩)

theorem Emitting.linearizationLoop (hpos : g.PositiveSizes) (hac : g.IsAcyclic) (fuel : ℕ)
    (h : Emitting g st ∅ (pendingDeps g ls.ret) ls)
    (hem : Emitted g.fee g.size g.positions (chunkOf g st) ls.ret)
    (hf : (g.positions \ ls.ret.toFinset).card ≤ fuel) :
    ∃ ls', (linearizationLoop R g st fuel ls).ret = ls'.ret ∧
      Emitting g st ∅ (pendingDeps g ls'.ret) ls' ∧
      Emitted g.fee g.size g.positions (chunkOf g st) ls'.ret ∧ ∀ v ∈ g.positions, v ∈ ls'.ret := by
  induction fuel generalizing ls with
  | zero =>
    refine ⟨ls,rfl,h,hem,fun v hv => ?_⟩
    by_contra hvr
    have hme : v ∈ g.positions \ ls.ret.toFinset :=
      mem_sdiff.mpr ⟨hv,fun hme => hvr (mem_toFinset.mp hme)⟩
    rw [card_eq_zero.mp (Nat.le_zero.mp hf)] at hme
    exact notMem_empty v hme
  | succ fuel ih =>
    rw [linearizationLoop]
    cases hp : popHeap st ls.ready_chunks with
    | none =>
      refine ⟨ls,rfl,h,hem,fun v hv => ?_⟩
      by_contra hvr
      obtain ⟨r,hr,-⟩ := h.exists_ready hva hor hv hvr
      rw [popHeap_none hp] at hr
      exact not_mem_nil hr
    | some p =>
      obtain ⟨⟨x,tiebreak⟩,heap⟩ := p
      have hh : ∀ e ∈ ls.ready_chunks, e.1 ∈ g.positions ∧ st.chunk_rep e.1 = e.1 := by
        intro e he
        obtain ⟨⟨hr,hrep,-⟩,-⟩ := (h.chunks.mem_iff e.1).mp (mem_map_of_mem he)
        exact ⟨hr,hrep⟩
      obtain ⟨hpe,hb⟩ := popHeap_some hva hpos hh hp
      have hme : (x,tiebreak) ∈ ls.ready_chunks := hpe.mem_iff.mpr mem_cons_self
      obtain ⟨⟨hx,hrep,-,hxr⟩,-⟩ := (h.chunks.mem_iff x).mp (mem_map_of_mem hme)
      have hm : ∀ u ∈ g.positions, u ∉ ls.ret →
          rate g.fee g.size (chunkOf g st u) ≤ rate g.fee g.size (chunkOf g st x) := by
        intro u hu hur
        obtain ⟨r,hr,hl⟩ := h.exists_ready hva hor hu hur
        obtain ⟨e,he,rfl⟩ := mem_map.mp hr
        exact (hl u hu hur).trans (hb e he)
      obtain ⟨xs,hxs,hre,hs⟩ := h.outputChunk (R := R) hva hac hx hrep rfl hxr hpe
      have ht : (g.positions \ (ls.ret++xs).toFinset).card <
        (g.positions \ ls.ret.toFinset).card := by
        refine card_sdiff_append_lt hx hxr (mem_toFinset.mp ?_)
        rw [hxs]
        exact hva.isChunking.self x hx
      have hem' := hem.append hpos.size_pos hva.isChunking hx hxr hm hxs
      rw [← hre] at hs ht hem'
      exact ih hs hem' (by omega)

end

theorem toFinset_positions (g : DepGraph) : (g.toList g.positions).toFinset = g.positions := by
  ext v
  rw [mem_toFinset,mem_toList (Finset.Subset.refl _)]

theorem pendingDeps_nil (g : DepGraph) : pendingDeps g [] = g.deps := filter_true_of_mem fun _ _ =>
    not_mem_nil

theorem card_filter_child {v : TxIdx} (hv : v ∈ g.positions) (P : TxIdx → Prop) [DecidablePred P] :
    (g.deps.filter fun d => d.2 = v ∧ P d.1).card = ((g.parents v).filter P).card := by
  have hm : (g.deps.filter fun d => d.2 = v ∧ P d.1) = ((g.parents v).filter P).image fun p =>
    (p,v) := by
    ext d
    rw [Finset.mem_filter,mem_deps,Finset.mem_image]
    constructor
    · rintro ⟨hd,rfl,hP⟩
      exact ⟨d.1,mem_filter.mpr ⟨(mem_parents hv).mpr hd,hP⟩,rfl⟩
    · rintro ⟨p,hp,rfl⟩
      obtain ⟨hp,hP⟩ := mem_filter.mp hp
      exact ⟨(mem_parents hv).mp hp,rfl,hP⟩
  rw [hm,card_image_of_injective _ fun p q h => (Prod.mk.inj h).1]

theorem countTxDeps_eq {v : TxIdx} (hv : v ∈ g.positions) :
    countTxDeps g v = (g.deps.filter fun d => d.2 = v).card := by
  have hc := card_filter_child hv fun _ => True
  simp only [and_true,Finset.filter_true] at hc
  exact hc.symm

theorem countChunkDeps_eq (g : DepGraph) (st : SpanningForestState σ) (r : TxIdx) :
    countChunkDeps g st r =
      (g.deps.filter fun d => st.chunk_rep d.2 = r ∧ st.chunk_rep d.1 ≠ r).card := by
  rw [countChunkDeps,← sum_toFinset _ (g.nodup_toList _),toFinset_positions]
  rw [card_eq_sum_card_fiberwise (f := snd) (t := g.positions)]
  · refine sum_congr rfl fun v hv => ?_
    rw [Finset.filter_filter]
    split_ifs with hrep
    · rw [← card_filter_child hv]
      congr 1
      refine filter_congr fun d _ => ⟨?_,?_⟩
      · rintro ⟨rfl,hn⟩
        exact ⟨⟨hrep,hn⟩,rfl⟩
      · rintro ⟨⟨-,hn⟩,rfl⟩
        exact ⟨rfl,hn⟩
    · rw [eq_comm,card_eq_zero,filter_eq_empty_iff]
      rintro d-⟨⟨hrep',-⟩,rfl⟩
      exact hrep hrep'
  · intro d hd
    exact (mem_deps.mp (mem_filter.mp hd).1).child_mem

theorem foldl_addReadyChunk {reps : List TxIdx} (hn : reps.Nodup)
    (hne : ∀ r ∈ reps, r ∉ ls.ready_chunks.map fst)
    (hre : (ls.ready_chunks.map fst).Nodup) :
    ∃ re rng, reps.foldl (fun ls rep => if ls.chunk_deps rep = 0 then addReadyChunk R ls rep
      else ls) ls
        = { ls with ready_chunks := re, rng := rng } ∧ (re.map fst).Nodup ∧
      ∀ r, r ∈ re.map fst ↔ r ∈ ls.ready_chunks.map fst ∨ r ∈ reps ∧ ls.chunk_deps r = 0 := by
  induction reps generalizing ls with
  | nil => exact ⟨ls.ready_chunks,ls.rng,rfl,hre,fun r => by simp⟩
  | cons rep reps ih =>
    obtain ⟨hrep,hn⟩ := nodup_cons.mp hn
    obtain ⟨hrep_new,hne⟩ := forall_mem_cons.mp hne
    rw [foldl_cons]
    split_ifs with hz
    · have hm : (addReadyChunk R ls rep).ready_chunks.map fst = ls.ready_chunks.map fst++[rep] :=
        map_append
      have hne' : ∀ r ∈ reps, r ∉ (addReadyChunk R ls rep).ready_chunks.map fst := by
        intro r hr
        rw [hm,List.mem_append,List.mem_singleton,not_or]
        exact ⟨hne r hr,fun he => hrep (he ▸ hr)⟩
      have hre' : ((addReadyChunk R ls rep).ready_chunks.map fst).Nodup := by
        rw [hm,← concat_eq_append]
        exact hre.concat hrep_new
      obtain ⟨re,rng,he,hre',hme⟩ := ih hn hne' hre'
      refine ⟨re,rng,he,hre',fun r => ?_⟩
      rw [hme,hm,List.mem_append,List.mem_singleton,List.mem_cons,or_assoc]
      refine or_congr_right ⟨?_,?_⟩
      · rintro (rfl | ⟨hr,hd⟩)
        · exact ⟨.inl rfl,hz⟩
        · exact ⟨.inr hr,hd⟩
      · rintro ⟨rfl | hr,hd⟩
        · exact .inl rfl
        · exact .inr ⟨hr,hd⟩
    · obtain ⟨re,rng,he,hre',hme⟩ := ih hn hne hre
      refine ⟨re,rng,he,hre',fun r => ?_⟩
      rw [hme,List.mem_cons]
      refine or_congr_right ⟨fun hr => ⟨.inr hr.1,hr.2⟩,?_⟩
      rintro ⟨rfl | hr,hd⟩
      · exact absurd hd hz
      · exact ⟨hr,hd⟩

theorem emitting_init (hva : Valid g st) : Emitting g st ∅ (pendingDeps g [])
    (initLinearization R g st) ∧
      (initLinearization R g st).ret = [] := by
  have hre : g.positions.image st.chunk_rep ⊆ g.positions := by
    intro r hr
    obtain ⟨v,hv,rfl⟩ := mem_image.mp hr
    exact hva.rep_mem_positions hv
  let start : LinearizationState σ :=
    { ret := []
      ready_chunks := []
      chunk_deps := countChunkDeps g st
      tx_deps := countTxDeps g
      ready_tx := []
      rng := st.rng }
  have hs : start.ready_chunks.map fst = [] := rfl
  obtain ⟨re,rng,he,hn,hm⟩ := foldl_addReadyChunk (R := R)
    (g.nodup_toList (g.positions.image st.chunk_rep))
    (fun r _ => hs ▸ not_mem_nil) (hs ▸ nodup_nil)
  rw [hs] at hm
  have hin : initLinearization R g st = { start with ready_chunks := re, rng := rng } := he
  have hchunk_deps : ∀ r, countChunkDeps g st r = ((pendingDeps g []).filter fun d =>
      st.chunk_rep d.2 = r ∧ st.chunk_rep d.1 ≠ r).card := fun r => by
    rw [pendingDeps_nil,countChunkDeps_eq]
  rw [hin]
  refine ⟨⟨⟨fun v hv => ?_,nodup_nil,fun v => ?_⟩,⟨hchunk_deps,hn,fun r => ?_⟩,
    filter_subset _ _,fun d _ => not_mem_nil,fun d _ hd => absurd hd (notMem_empty _),
    fun v hv => absurd hv not_mem_nil,nodup_nil,List.Pairwise.nil,
    fun v hv => absurd hv not_mem_nil⟩,rfl⟩
  · rw [pendingDeps_nil]
    exact countTxDeps_eq hv
  · exact iff_of_false not_mem_nil fun ha => notMem_empty v ha.1.1
  · rw [hm,or_iff_right not_mem_nil,mem_toList hre]
    have hz : start.chunk_deps r = 0 ↔ ∀ d ∈ pendingDeps g [], st.chunk_rep d.2 = r →
      st.chunk_rep d.1 = r := by
      rw [show start.chunk_deps r = _ from hchunk_deps r,card_eq_zero,filter_eq_empty_iff]
      simp only [not_and,not_not]
    rw [hz]
    refine and_congr_left fun _ => ⟨fun hr => ?_,fun hr => ?_⟩
    · obtain ⟨v,hv,rfl⟩ := mem_image.mp hr
      exact ⟨hva.rep_mem_positions hv,hva.rep_rep hv,notMem_empty _,not_mem_nil⟩
    · exact mem_image.mpr ⟨r,hr.1,hr.2.1⟩

/-- The result is topological, and for each feerate a prefix has the excess as weight. -/
theorem linearization_spec (hva : Valid g st) (hpos : g.PositiveSizes) (hac : g.IsAcyclic)
    (hor : InOrder g st) :
    g.IsTopological (getLinearization R g st) ∧ ∀ l, ∃ r, r <+: getLinearization R g st ∧
      excess g.fee g.size g.positions l (chunkOf g st) ≤ weight g.fee g.size l r.toFinset := by
  obtain ⟨hin,hn⟩ := emitting_init (R := R) hva
  have he := emitted_nil g.fee g.size g.positions (chunkOf g st)
  rw [← hn] at hin he
  obtain ⟨ls,hr,hd,he,ha⟩ := hin.linearizationLoop (R := R) hva hor hpos
    hac g.txCount he (card_le_card sdiff_subset)
  have hm : ∀ v, v ∈ ls.ret ↔ v ∈ g.positions := fun v => ⟨hd.mem v,ha v⟩
  have hf : ls.ret.toFinset = g.positions := by
    ext v
    rw [mem_toFinset,hm]
  rw [getLinearization,hr]
  refine ⟨⟨?_,hd.pairwise⟩,?_⟩
  · rw [perm_ext_iff_of_nodup hd.nodup (g.nodup_toList _)]
    intro v
    rw [hm,mem_toList (Finset.Subset.refl _)]
  · have hh := he.heavy
    rwa [hf] at hh

end SpanningForestState
end DripCore
