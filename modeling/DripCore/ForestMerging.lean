import DripCore.ChunkImprovement
import DripCore.ForestActivation
import Mathlib.Algebra.Order.Archimedean.Real.Basic
import Mathlib.Tactic.Tauto

/-!
# Merging chunks

`MergeStep` finds the lowest chunk that a chunk depends on, or downwards the highest one that
depends on it, and activates a dependency between the two. Downwards is upwards with the
dependencies turned round and the fees negated. A sequence of steps is a run of upward merges.
-/
namespace DripCore
open Chunking DepGraph Finset List Nat Option

namespace DepGraph
variable (g : DepGraph)

noncomputable def fee (v : TxIdx) : ℝ := (g.feeRate v).fee

noncomputable def size (v : TxIdx) : ℝ := (g.feeRate v).size

/-- The dependencies as seen in a direction of merging. -/
def orient (downWard : Bool) : TxIdx → TxIdx → Prop := if downWard then flip g.Dep else g.Dep

noncomputable def orientFee (downWard : Bool) : TxIdx → ℝ :=
  if downWard then fun v => -g.fee v else g.fee

def PositiveSizes : Prop := ∀ v ∈ g.positions, 0 < (g.feeRate v).size

instance : Decidable g.PositiveSizes := inferInstanceAs (Decidable (∀ v ∈ g.positions, _))

variable {g}

theorem PositiveSizes.size_pos (h : g.PositiveSizes) : ∀ v ∈ g.positions, 0 < g.size v :=
  fun v hv => Int.cast_pos.mpr (h v hv)

variable {downWard : Bool} {tx : TxIdx}

theorem orient_mem {p c : TxIdx} (h : g.orient downWard p c) : p ∈ g.positions ∧
    c ∈ g.positions := by
  cases downWard with
  | false => exact ⟨Dep.parent_mem h,Dep.child_mem h⟩
  | true => exact ⟨Dep.child_mem h,Dep.parent_mem h⟩

def neighbours (g : DepGraph) (downWard : Bool) (tx : TxIdx) : Finset TxIdx :=
  if downWard then g.children tx else g.parents tx

theorem mem_neighbours {v : TxIdx} (ht : tx ∈ g.positions) : v ∈ g.neighbours downWard tx ↔
    g.orient downWard v tx := by
  cases downWard with
  | false => exact mem_parents ht
  | true => exact mem_children

theorem neighbours_subset (ht : tx ∈ g.positions) : g.neighbours downWard tx ⊆ g.positions :=
  fun _ hv => (orient_mem ((mem_neighbours ht).mp hv)).1

/-- The rate of a set of transactions in a direction of merging. -/
noncomputable def orate (g : DepGraph) (downWard : Bool) (S : Finset TxIdx) : ℝ :=
  rate (g.orientFee downWard) g.size S

theorem orate_eq (downWard : Bool) (S : Finset TxIdx) :
    g.orate downWard S = if downWard then -rate g.fee g.size S else rate g.fee g.size S := by
  cases downWard with
  | false => rfl
  | true => exact rate_dual S

end DepGraph

theorem compare_neg_neg (a b : ℝ) : compare (-a) (-b) = compare b a := by
  rcases lt_trichotomy a b with h | h | h
  · rw [compare_gt_iff_gt.mpr h,compare_gt_iff_gt]
    exact neg_lt_neg h
  · rw [h,compare_eq_iff_eq.mpr rfl,compare_eq_iff_eq.mpr rfl]
  · rw [compare_lt_iff_lt.mpr h,compare_lt_iff_lt]
    exact neg_lt_neg h

namespace SetInfo
variable {g : DepGraph} {a b : SetInfo}

theorem Exact.rate_eq (h : a.Exact g) :
    rate g.fee g.size a.transactions = (a.feerate.fee : ℝ) / a.feerate.size := by
  rw [h,rate,sumFeeRate]
  simp only [Int.cast_sum,fee,DepGraph.size]

theorem Exact.size_pos (h : a.Exact g) (hp : g.PositiveSizes) (hs : a.transactions ⊆ g.positions)
    (hn : a.transactions.Nonempty) : 0 < a.feerate.size := by
  rw [h]
  exact sum_pos (fun v hv => hp v (hs hv)) hn

theorem feeRateCompare_eq (ha : a.Exact g) (hb : b.Exact g) (hp : 0 < a.feerate.size)
    (hbp : 0 < b.feerate.size) : a.feerate.feeRateCompare b.feerate =
      compare (rate g.fee g.size a.transactions) (rate g.fee g.size b.transactions) := by
  rw [ha.rate_eq,hb.rate_eq]
  have hp' : (0 : ℝ) < a.feerate.size := Int.cast_pos.mpr hp
  have hbp' : (0 : ℝ) < b.feerate.size := Int.cast_pos.mpr hbp
  have hl : (a.feerate.fee : ℝ) / a.feerate.size < b.feerate.fee / b.feerate.size ↔
      a.feerate.fee*b.feerate.size < b.feerate.fee*a.feerate.size := by
    rw [div_lt_div_iff₀ hp' hbp']
    exact_mod_cast Iff.rfl
  have hg : (b.feerate.fee : ℝ) / b.feerate.size < a.feerate.fee / a.feerate.size ↔
      b.feerate.fee*a.feerate.size < a.feerate.fee*b.feerate.size := by
    rw [div_lt_div_iff₀ hbp' hp']
    exact_mod_cast Iff.rfl
  rw [FeeFrac.feeRateCompare]
  rcases lt_trichotomy (a.feerate.fee*b.feerate.size) (b.feerate.fee*a.feerate.size) with h | h | h
  · rw [compare_lt_iff_lt.mpr h,eq_comm,compare_lt_iff_lt,hl]
    exact h
  · rw [compare_eq_iff_eq.mpr h,eq_comm,compare_eq_iff_eq,div_eq_div_iff hp'.ne' hbp'.ne']
    exact_mod_cast h
  · rw [compare_gt_iff_gt.mpr h,eq_comm,compare_gt_iff_gt]
    exact hg.mpr h

end SetInfo

namespace SpanningForestState
variable {σ : Type*} {R : RandomContext σ} {g : DepGraph} {st : SpanningForestState σ}
variable {downWard : Bool} {x : TxIdx}
variable {v : TxIdx} {A : Finset TxIdx}

theorem Valid.size_pos (h : Valid g st) (hp : g.PositiveSizes) (hv : v ∈ g.positions) :
    0 < (st.chunk_setinfo (st.chunk_rep v)).feerate.size := by
  refine (h.chunk_exact v hv).size_pos hp ?_ ?_
  · rw [← chunkOf_of_mem hv]
    exact h.chunkOf_subset hv
  · rw [← chunkOf_of_mem hv]
    exact ⟨v,h.isChunking.self v hv⟩

theorem Valid.compare_eq (h : Valid g st) (hp : g.PositiveSizes) (downWard : Bool) {w : TxIdx}
    (hv : v ∈ g.positions) (hw : w ∈ g.positions) :
    (if downWard then
      (st.chunk_setinfo (st.chunk_rep v)).feerate.feeRateCompare
        (st.chunk_setinfo (st.chunk_rep w)).feerate
    else (st.chunk_setinfo (st.chunk_rep w)).feerate.feeRateCompare
        (st.chunk_setinfo (st.chunk_rep v)).feerate) =
      compare (g.orate downWard (chunkOf g st w)) (g.orate downWard (chunkOf g st v)) := by
  have hexact_v := h.chunk_exact v hv
  have hexact_w := h.chunk_exact w hw
  rw [orate_eq,orate_eq,chunkOf_of_mem hv,chunkOf_of_mem hw,
    SetInfo.feeRateCompare_eq hexact_v hexact_w (h.size_pos hp hv) (h.size_pos hp hw),
    SetInfo.feeRateCompare_eq hexact_w hexact_v (h.size_pos hp hw) (h.size_pos hp hv)]
  cases downWard with
  | false => rfl
  | true => exact (compare_neg_neg _ _).symm

section

/-- The chunk that the search compares with: the best one so far, or else the chunk itself. -/
def bestRep (x : TxIdx) (search : MergeSearch σ) : TxIdx := search.best_other_chunk_rep.getD x

/-- The search for a chunk to merge that of `x` with, when `seen` has been considered. -/
structure Searched (g : DepGraph) (st : SpanningForestState σ) (downWard : Bool) (x : TxIdx)
    (seen : Finset TxIdx) (search : MergeSearch σ) : Prop where
  feerate : search.best_other_chunk_feerate =
    (st.chunk_setinfo (st.chunk_rep (bestRep x search))).feerate
  tiebreak : search.best_other_chunk_rep = none → search.best_other_chunk_tiebreak = 0
  none_lt : g.PositiveSizes → search.best_other_chunk_rep = none → ∀ v ∈ seen,
    g.orate downWard (chunkOf g st x) < g.orate downWard (chunkOf g st v)
  mem : ∀ r ∈ search.best_other_chunk_rep, r ∈ g.positions ∧ st.chunk_rep r = r ∧
    ∃ v ∈ seen, chunkOf g st v = chunkOf g st r
  le : g.PositiveSizes → ∀ r ∈ search.best_other_chunk_rep,
    g.orate downWard (chunkOf g st r) ≤ g.orate downWard (chunkOf g st x)
  least : g.PositiveSizes → ∀ r ∈ search.best_other_chunk_rep, ∀ v ∈ seen,
    g.orate downWard (chunkOf g st r) ≤ g.orate downWard (chunkOf g st v)

theorem Searched.congr_explored {seen : Finset TxIdx} {search : MergeSearch σ}
    (h : Searched g st downWard x seen search) (explored : Finset TxIdx) :
    Searched g st downWard x seen { search with explored := explored } :=
  ⟨h.feerate,h.tiebreak,h.none_lt,h.mem,h.le,h.least⟩

variable {seen : Finset TxIdx} {s : MergeSearch σ}

section
variable (h : Searched g st downWard x seen s)
include h

theorem Searched.best_mem (hx : x ∈ g.positions) : bestRep x s ∈ g.positions := by
  rw [bestRep]
  cases hb : s.best_other_chunk_rep with
  | none => exact hx
  | some r => exact (h.mem r hb).1

theorem Searched.best_le (hp : g.PositiveSizes) :
    g.orate downWard (chunkOf g st (bestRep x s)) ≤ g.orate downWard (chunkOf g st x) := by
  rw [bestRep]
  cases hb : s.best_other_chunk_rep with
  | none => exact le_rfl
  | some r => exact h.le hp r hb

theorem Searched.best_le_seen (hp : g.PositiveSizes) (hv : v ∈ seen) :
    g.orate downWard (chunkOf g st (bestRep x s)) ≤ g.orate downWard (chunkOf g st v) := by
  rw [bestRep]
  cases hb : s.best_other_chunk_rep with
  | none => exact (h.none_lt hp hb v hv).le
  | some r => exact h.least hp r hb v hv

end

theorem explored_considerChunk (rep : TxIdx) (s : MergeSearch σ) :
    (considerChunk R downWard st rep s).explored = s.explored := by
  unfold considerChunk
  dsimp only
  generalize (if downWard = true then _ else _ : Ordering) = cmp
  split_ifs <;> rfl

theorem explored_visitReached (fuel : ℕ) (new : Finset TxIdx) (s : MergeSearch σ) :
    (visitReached R g downWard st fuel new s).explored = s.explored := by
  induction fuel generalizing new s with
  | zero => rfl
  | succ fuel ih =>
    rw [visitReached]
    split
    · rfl
    · rw [ih,explored_considerChunk]

variable {f : TxIdx}

/-- A chunk that is no better than the best one changes nothing. -/
theorem Searched.keep (h : Searched g st downWard x seen s) {new : Finset TxIdx}
    (hne : ∀ v ∈ new, chunkOf g st v = chunkOf g st f) (hl : g.PositiveSizes →
      g.orate downWard (chunkOf g st (bestRep x s)) ≤ g.orate downWard (chunkOf g st f))
    (ht : g.PositiveSizes → s.best_other_chunk_rep = none →
      g.orate downWard (chunkOf g st x) < g.orate downWard (chunkOf g st f)) (rng : σ) :
    Searched g st downWard x (seen∪new) { s with rng := rng } where
  feerate := h.feerate
  tiebreak := h.tiebreak
  none_lt hp hn v hv := by
    rcases mem_union.mp hv with hv | hv
    · exact h.none_lt hp hn v hv
    · rw [hne v hv]
      exact ht hp hn
  mem r hr := by
    obtain ⟨hrp,hre,v,hv,he⟩ := h.mem r hr
    exact ⟨hrp,hre,v,mem_union_left _ hv,he⟩
  le := h.le
  least hp r hr v hv := by
    have hb : bestRep x s = r := by rw [bestRep,mem_def.mp hr,getD_some]
    rw [← hb]
    rcases mem_union.mp hv with hv | hv
    · exact h.best_le_seen hp hv
    · rw [hne v hv]
      exact hl hp

variable (hva : Valid g st) (hx : x ∈ g.positions) {new : Finset TxIdx}
include hva hx

/-- Considering the chunk of a transaction accounts for all its transactions. -/
theorem Searched.considerChunk (h : Searched g st downWard x seen s) (hf : f ∈ g.positions)
    (hm : f ∈ new)
    (he : ∀ v ∈ new, chunkOf g st v = chunkOf g st f) :
    Searched g st downWard x (seen∪new) (considerChunk R downWard st (st.chunk_rep f) s) := by
  have hc := fun hp => hva.compare_eq hp downWard (h.best_mem hx) hf
  have hr := hva.rep_rep hf
  have hh : chunkOf g st (st.chunk_rep f) = chunkOf g st f :=
    chunkOf_eq_of_rep (hva.rep_mem_positions hf) hf hr
  rw [← h.feerate] at hc
  rw [SpanningForestState.considerChunk]
  dsimp only
  generalize (if downWard = true then _ else _ : Ordering) = cmp at hc ⊢
  split_ifs with hg hb
  · have hl := fun hp => compare_gt_iff_gt.mp ((hc hp).symm.trans hg)
    refine h.keep he (fun hp => (hl hp).le) (fun hp hn => ?_) s.rng
    have hl := hl hp
    rwa [bestRep,hn] at hl
  · have hle := fun hp => not_lt.mp (mt compare_gt_iff_gt.mpr (hc hp ▸ hg))
    refine ⟨?_,?_,?_,?_,?_,?_⟩
    · exact congrArg (fun r => (st.chunk_setinfo r).feerate) hr.symm
    · exact fun hn => absurd hn (some_ne_none _)
    · exact fun _ hn => absurd hn (some_ne_none _)
    · rintro r ⟨⟩
      exact ⟨hva.rep_mem_positions hf,hr,f,mem_union_right _ hm,hh.symm⟩
    · rintro hp r ⟨⟩
      rw [hh]
      exact (hle hp).trans (h.best_le hp)
    · rintro hp r ⟨⟩ v hv
      rw [hh]
      rcases mem_union.mp hv with hv | hv
      · exact (hle hp).trans (h.best_le_seen hp hv)
      · rw [he v hv]
  · -- An equal one that loses the tiebreak, which there is only against another chunk.
    rw [not_or] at hb
    refine h.keep he (fun hp => ?_)
      (fun _ hn => absurd ((h.tiebreak hn).le.trans (zero_le _)) hb.2) _
    exact not_lt.mp (mt compare_lt_iff_lt.mpr (hc hp ▸ hb.1))

theorem Searched.visitReached (fuel : ℕ) (hn : new ⊆ g.positions) (hu : new.card ≤ fuel)
    (h : Searched g st downWard x seen s) :
    Searched g st downWard x (seen∪new) (visitReached R g downWard st fuel new s) := by
  induction fuel generalizing new seen s with
  | zero =>
    rw [card_eq_zero.mp (le_zero.mp hu),union_empty]
    exact h
  | succ fuel ih =>
    rw [SpanningForestState.visitReached]
    cases hh : (g.toList new).head? with
    | none =>
      have he : new = ∅ := by
        rw [eq_empty_iff_forall_notMem]
        intro v hv
        rw [← mem_toList hn,head?_eq_none_iff.mp hh] at hv
        exact not_mem_nil hv
      rw [he,union_empty]
      exact h
    | some f =>
      have hfirst_new : f ∈ new := (mem_toList hn).mp (mem_of_mem_head? hh)
      have hf := hn hfirst_new
      have hs := hva.isChunking.self f hf
      have ht := h.considerChunk (R := R) hva hx hf (mem_inter.mpr ⟨hfirst_new,hs⟩) fun v hv =>
          hva.isChunking.eq_of_mem f hf v (mem_inter.mp hv).2
      have hr : (new \ chunkOf g st f).card ≤ fuel := by
        have hl : (new \ chunkOf g st f).card < new.card := card_lt_card
          ⟨sdiff_subset,fun hsu => (mem_sdiff.mp (hsu hfirst_new)).2 hs⟩
        omega
      have hd := ih (sdiff_subset.trans hn) hr ht
      rw [union_assoc,union_comm (new∩_),sdiff_union_inter] at hd
      dsimp only
      rwa [← chunkOf_of_mem hf]

/-- After the transactions of a list, their neighbours have been considered. -/
theorem Searched.foldl_visitTx {txs : List TxIdx} (htxs : ∀ tx ∈ txs, tx ∈ chunkOf g st x)
    (he : chunkOf g st x ⊆ s.explored)
    (h : Searched g st downWard x (s.explored \ chunkOf g st x) s) :
    Searched g st downWard x ((s.explored∪txs.toFinset.biUnion (g.neighbours downWard)) \ chunkOf g
      st x)
      (txs.foldl (visitTx R g downWard st) s) := by
  induction txs generalizing s with
  | nil => simpa using h
  | cons tx txs ih =>
    have htx := hva.chunkOf_subset hx (htxs tx mem_cons_self)
    have hn : g.neighbours downWard tx \ s.explored ⊆ g.positions :=
      sdiff_subset.trans (neighbours_subset htx)
    have hs := Searched.visitReached (R := R) hva hx _ hn le_rfl
      (h.congr_explored (s.explored∪(g.neighbours downWard tx \ s.explored)))
    have he' : (visitTx R g downWard st s tx).explored = s.explored∪g.neighbours downWard tx := by
      rw [visitTx,explored_visitReached]
      exact union_sdiff_self_eq_union
    have hse : s.explored \ chunkOf g st x∪g.neighbours downWard tx \ s.explored =
        (s.explored∪g.neighbours downWard tx) \ chunkOf g st x := by
      ext v
      simp only [mem_union,mem_sdiff]
      tauto
    rw [hse,← he'] at hs
    have hr := ih (fun t ht => htxs t (mem_cons_of_mem _ ht))
      (he'.symm ▸ he.trans subset_union_left) hs
    rwa [he',union_assoc,← biUnion_insert,← toFinset_cons] at hr

/-- The search considers exactly the other chunks next to the chunk. -/
theorem searched_searchChunk : Searched g st downWard x
    ((chunkOf g st x).biUnion (g.neighbours downWard) \ chunkOf g st x)
    (searchChunk R g downWard st (st.chunk_rep x)) := by
  have hc : (st.chunk_setinfo (st.chunk_rep x)).transactions = chunkOf g st x :=
    (chunkOf_of_mem hx).symm
  have ht : (g.toList (chunkOf g st x)).toFinset = chunkOf g st x := by
    ext v
    rw [List.mem_toFinset,mem_toList (hva.chunkOf_subset hx)]
  rw [searchChunk,hc]
  let start : MergeSearch σ :=
    { explored := chunkOf g st x
      best_other_chunk_feerate := (st.chunk_setinfo (st.chunk_rep x)).feerate
      best_other_chunk_rep := none
      best_other_chunk_tiebreak := 0
      rng := st.rng }
  have hs : Searched g st downWard x (start.explored \ chunkOf g st x) start := by
    rw [sdiff_self]
    refine ⟨rfl,fun _ => rfl,?_,?_,?_,?_⟩
    · exact fun _ _ v hv => absurd hv (notMem_empty v)
    · exact fun r hr => absurd hr (not_mem_none r)
    · exact fun _ r hr => absurd hr (not_mem_none r)
    · exact fun _ r hr => absurd hr (not_mem_none r)
  have htx : ∀ tx ∈ g.toList (chunkOf g st x), tx ∈ chunkOf g st x :=
    fun tx => (mem_toList (hva.chunkOf_subset hx)).mp
  have hd := hs.foldl_visitTx (R := R) hva hx htx (Finset.Subset.refl _)
  rw [ht,union_sdiff_left] at hd
  exact hd

theorem mem_next {v : TxIdx} :
    v ∈ (chunkOf g st x).biUnion (g.neighbours downWard) \ chunkOf g st x ↔
      (∃ c ∈ chunkOf g st x, g.orient downWard v c) ∧ v ∉ chunkOf g st x := by
  rw [mem_sdiff,mem_biUnion]
  refine and_congr_left fun _ => exists_congr fun c => and_congr_right fun hc => ?_
  exact mem_neighbours (hva.chunkOf_subset hx hc)

theorem settled_of_search_none (ho : g.PositiveSizes)
    (hn : (searchChunk R g downWard st (st.chunk_rep x)).best_other_chunk_rep = none) :
    Settled (g.orient downWard) (g.orientFee downWard) g.size (chunkOf g st) x := by
  intro p c hd hc hp
  have hs : Searched g st downWard x _ (searchChunk R g downWard st (st.chunk_rep x)) :=
    searched_searchChunk hva hx
  exact hs.none_lt ho hn p ((mem_next hva hx).mpr ⟨⟨c,hc,hd⟩,hp⟩)

theorem isMergeUp_of_search {r : TxIdx}
    (hs : (searchChunk R g downWard st (st.chunk_rep x)).best_other_chunk_rep = some r) :
    r ∈ g.positions ∧ st.chunk_rep r = r ∧ chunkOf g st r ≠ chunkOf g st x ∧
      (∃ p ∈ chunkOf g st r, ∃ c ∈ chunkOf g st x, g.orient downWard p c) ∧ (g.PositiveSizes →
        IsMergeUp (g.orient downWard) (g.orientFee downWard) g.size (chunkOf g st) x r) := by
  have hse : Searched g st downWard x _ (searchChunk R g downWard st (st.chunk_rep x)) :=
    searched_searchChunk hva hx
  obtain ⟨hr,hre,v,hv,he⟩ := hse.mem r hs
  obtain ⟨⟨c,hc,hde⟩,hvx⟩ := (mem_next hva hx).mp hv
  have hvs := hva.isChunking.self v (orient_mem hde).1
  have hn : chunkOf g st r ≠ chunkOf g st x := by
    rw [← he]
    exact fun ha => hvx (ha ▸ hvs)
  refine ⟨hr,hre,hn,⟨v,he ▸ hvs,c,hc,hde⟩,fun ho =>
    ⟨hn,⟨v,he ▸ hvs,c,hc,hde⟩,hse.le ho r hs,fun p d hde' hd hp => ?_⟩⟩
  exact hse.least ho r hs p ((mem_next hva hx).mpr ⟨⟨d,hd,hde'⟩,hp⟩)

end

section
variable {bo : Finset TxIdx}
variable {pick : ℕ} {txs : List TxIdx}

theorem pickChildDep_some {deps : List DepIdx}
    (h : pick < (deps.filter fun d => decide (d.2 ∈ bo)).length) :
    ∃ d ∈ deps, d.2 ∈ bo ∧ pickChildDep bo deps pick = some d := by
  induction deps generalizing pick with
  | nil => exact absurd h (not_lt_zero _)
  | cons dep deps ih =>
    rw [pickChildDep]
    by_cases hm : dep.2 ∈ bo
    · rw [List.filter_cons_of_pos (by simpa using hm),List.length_cons] at h
      rw [if_pos hm]
      by_cases hz : pick = 0
      · exact ⟨dep,mem_cons_self,hm,if_pos hz⟩
      · obtain ⟨d,hd,hd',he⟩ := @ih (pick-1) (by omega)
        exact ⟨d,mem_cons_of_mem _ hd,hd',(if_neg hz).trans he⟩
    · rw [List.filter_cons_of_neg (by simpa using hm)] at h
      obtain ⟨d,hd,hd',he⟩ := ih h
      exact ⟨d,mem_cons_of_mem _ hd,hd',(if_neg hm).trans he⟩

theorem length_childDeps (tx : TxIdx) :
    ((g.childDeps tx).filter fun d => decide (d.2 ∈ bo)).length = (g.children tx∩bo).card := by
  rw [childDeps,List.filter_map,List.length_map]
  rw [← List.toFinset_card_of_nodup ((g.nodup_toList _).filter _)]
  congr 1
  ext c
  rw [List.mem_toFinset,List.mem_filter,mem_toList (children_subset tx),Finset.mem_inter]
  exact and_congr_right fun _ => decide_eq_true_iff

theorem pickDep_some (h : pick < countDeps g bo txs) :
    ∃ d, d.1 ∈ txs ∧ d.2 ∈ bo ∧ g.Dep d.1 d.2 ∧ pickDep g bo txs pick = some d := by
  induction txs generalizing pick with
  | nil => exact absurd h (not_lt_zero _)
  | cons tx txs ih =>
    rw [countDeps,List.map_cons,List.sum_cons] at h
    by_cases hl : pick < (g.children tx∩bo).card
    · obtain ⟨d,hd,hm,he⟩ := pickChildDep_some (length_childDeps tx ▸ hl)
      obtain ⟨ht,hde⟩ := mem_childDeps.mp hd
      exact ⟨d,ht ▸ mem_cons_self,hm,hde,(if_pos hl).trans he⟩
    · obtain ⟨d,hd,hm,hde,he⟩ := @ih (pick-(g.children tx∩bo).card) (by rw [countDeps]; omega)
      exact ⟨d,mem_cons_of_mem _ hd,hm,hde,(if_neg hl).trans he⟩

theorem countDeps_pos {p c : TxIdx} (hp : p ∈ txs) (hc : c ∈ bo) (hd : g.Dep p c) :
    0 < countDeps g bo txs := by
  have ha : 0 < (g.children p∩bo).card := card_pos.mpr ⟨c,mem_inter.mpr ⟨mem_children.mpr hd,hc⟩⟩
  exact ha.trans_le (single_le_sum (fun _ _ => zero_le _) _ (mem_map_of_mem hp))

end

theorem Valid.congr (h : Valid g st) (rng : σ) (queue : List TxIdx) :
    Valid g { st with rng := rng, suboptimal_chunks := queue } :=
  ⟨h.forest,h.rep_mem,h.rep_eq,h.chunk_exact,h.top_exact⟩

/-- A state in which the chunks outside a set are as before. -/
structure SameOutside (g : DepGraph) (st st' : SpanningForestState σ) (A : Finset TxIdx) :
    Prop where
  rep : ∀ v ∉ A, st'.chunk_rep v = st.chunk_rep v
  chunk : ∀ v ∉ A, chunkOf g st' v = chunkOf g st v
  active : ∀ e : DepIdx, e.1 ∉ A → (e ∈ activeDeps g st' ↔ e ∈ activeDeps g st)
  top : ∀ e ∈ activeDeps g st, e.1 ∉ A → st'.top_setinfo e = st.top_setinfo e

theorem SameOutside.refl (st : SpanningForestState σ) (A : Finset TxIdx) : SameOutside g st st A :=
  ⟨fun _ _ => rfl,fun _ _ => rfl,fun _ _ => Iff.rfl,fun _ _ _ => rfl⟩

variable {rng : σ} {d : DepIdx}

theorem SameOutside.of_congr {queue : List TxIdx} {st' : SpanningForestState σ}
    (h : SameOutside g { st with rng := rng, suboptimal_chunks := queue } st' A) :
    SameOutside g st st' A :=
  ⟨h.rep,h.chunk,h.active,h.top⟩

theorem SameOutside.trans {st1 st2 : SpanningForestState σ} {B : Finset TxIdx}
    (h : SameOutside g st st1 A) (h' : SameOutside g st1 st2 B) (ha : A ⊆ B) :
    SameOutside g st st2 B where
  rep v hv := (h'.rep v hv).trans (h.rep v fun hA => hv (ha hA))
  chunk v hv := (h'.chunk v hv).trans (h.chunk v fun hA => hv (ha hA))
  active e he := (h'.active e he).trans (h.active e fun hA => he (ha hA))
  top e he ho := by
    have hA : e.1 ∉ A := fun hA => ho (ha hA)
    rw [h'.top e ((h.active e hA).mpr he) ho,h.top e he hA]

theorem sameOutside_activate (h : Valid g st) (hd : g.Dep d.1 d.2)
    (hn : chunkOf g st d.2 ≠ chunkOf g st d.1) :
    SameOutside g st (activate g d st).2 (chunkOf g st d.1∪chunkOf g st d.2) where
  rep v hv := by rw [chunk_rep_activate h hd,if_neg hv]
  chunk v hv := by rw [chunkOf_activate h hd,merge_of_notMem hv]
  active e he := by
    rw [activeDeps_activate h hd,mem_insert,or_iff_right]
    rintro rfl
    exact he (mem_union_left _ (h.isChunking.self _ hd.parent_mem))
  top e he ho := by
    rw [mem_union,not_or] at ho
    rw [top_activate h hd hn he,if_neg ho.1,if_neg ho.2]

/-- The cost so far, and all transactions for each chunk: no merge costs more. -/
def work (g : DepGraph) (st : SpanningForestState σ) : ℕ :=
  st.cost+g.txCount*(chunks g.positions (chunkOf g st)).card

/-- What a merge of the chunk of `x` with that of `y` makes of a state. -/
structure Merged (g : DepGraph) (st : SpanningForestState σ) (x y rep : TxIdx)
    (st' : SpanningForestState σ) : Prop where
  mem : y ∈ g.positions
  ne : chunkOf g st y ≠ chunkOf g st x
  valid : Valid g st'
  chunk : chunkOf g st' = merge (chunkOf g st x) (chunkOf g st y) (chunkOf g st)
  rep : rep = st'.chunk_rep x
  queue : st'.suboptimal_chunks = st.suboptimal_chunks
  cost : st'.cost = st.cost+(chunkOf g st x ∪ chunkOf g st y).card
  outside : SameOutside g st st' (chunkOf g st x ∪ chunkOf g st y)

variable {y rep : TxIdx} {st' : SpanningForestState σ}

theorem Merged.of_congr (h : Merged g { st with rng := rng } x y rep st') :
    Merged g st x y rep st' :=
  ⟨h.mem,h.ne,h.valid,h.chunk,h.rep,h.queue,h.cost,h.outside.of_congr⟩

variable (hva : Valid g st) (hx : x ∈ g.positions)
include hva hx

theorem Merged.card_chunks (h : Merged g st x y rep st') :
    (chunks g.positions (chunkOf g st')).card+1 = (chunks g.positions (chunkOf g st)).card := by
  rw [h.chunk]
  exact hva.isChunking.card_chunks_merge hx h.mem h.ne

theorem Merged.work_le (h : Merged g st x y rep st') : work g st' ≤ work g st := by
  have hc : (chunkOf g st x∪chunkOf g st y).card ≤ g.txCount :=
    card_le_card (union_subset (hva.chunkOf_subset hx) (hva.chunkOf_subset h.mem))
  rw [work,work,← h.card_chunks hva hx,h.cost,Nat.mul_succ]
  omega

theorem merged_activate (hd : g.Dep d.1 d.2) (hy : y ∈ g.positions)
    (hn : chunkOf g st y ≠ chunkOf g st x)
    (he : chunkOf g st d.1 = chunkOf g st x ∧ chunkOf g st d.2 = chunkOf g st y ∨
      chunkOf g st d.1 = chunkOf g st y ∧ chunkOf g st d.2 = chunkOf g st x) :
    Merged g st x y (st.chunk_rep d.1) (activate g d st).2 := by
  have hs := hva.isChunking.self x hx
  obtain ⟨hu,hm,hends_ne⟩ : chunkOf g st d.1∪chunkOf g st d.2 = chunkOf g st x∪chunkOf g st y ∧
      merge (chunkOf g st d.1) (chunkOf g st d.2) (chunkOf g st) =
        merge (chunkOf g st x) (chunkOf g st y) (chunkOf g st) ∧
      chunkOf g st d.2 ≠ chunkOf g st d.1 := by
    rcases he with ⟨h1,h2⟩ | ⟨h1,h2⟩
    · rw [h1,h2]
      exact ⟨rfl,rfl,hn⟩
    · rw [h1,h2]
      exact ⟨union_comm _ _,merge_comm _ _ _,hn.symm⟩
  refine ⟨hy,hn,valid_activate hva hd hends_ne,?_,?_,?_,?_,?_⟩
  · rw [chunkOf_activate hva hd,hm]
  · rw [chunk_rep_activate hva hd,hu,if_pos (mem_union_left _ hs)]
  · rw [activate_eq hva hd]
  · rw [activate_eq hva hd,hu]
  · rw [← hu]
    exact sameOutside_activate hva hd hends_ne

omit hx in
theorem mergeChunks_eq {tr br p c : TxIdx} (ht : tr ∈ g.positions)
    (hb : br ∈ g.positions) (htop_rep : st.chunk_rep tr = tr)
    (hbottom_rep : st.chunk_rep br = br) (hp : p ∈ chunkOf g st tr)
    (hc : c ∈ chunkOf g st br) (hde : g.Dep p c) :
    ∃ d rng, d.1 ∈ chunkOf g st tr ∧ d.2 ∈ chunkOf g st br ∧ g.Dep d.1 d.2 ∧
      mergeChunks R g tr br st =
        (some (st.chunk_rep d.1),(activate g d { st with rng := rng }).2) := by
  have hs := hva.chunkOf_subset ht
  have htop_txn : (st.chunk_setinfo tr).transactions = chunkOf g st tr := by
    rw [chunkOf_of_mem ht,htop_rep]
  have hbottom_txn : (st.chunk_setinfo br).transactions = chunkOf g st br := by
    rw [chunkOf_of_mem hb,hbottom_rep]
  rw [mergeChunks,htop_txn,hbottom_txn]
  dsimp only
  have ho := countDeps_pos ((mem_toList hs).mpr hp) hc hde
  obtain ⟨d,hd,hm,hde',he⟩ := pickDep_some (R.randrange_lt _ st.rng ho)
  rw [he]
  exact ⟨d,_,(mem_toList hs).mp hd,hm,hde',rfl⟩

/-- A step merges with the lowest chunk next to the chunk, or there is none that is low enough. -/
theorem mergeStep_cases (downWard : Bool) :
    (∃ rng, mergeStep R g downWard st (st.chunk_rep x) = (none,{ st with rng := rng }) ∧
      (g.PositiveSizes → Settled (g.orient downWard)
        (g.orientFee downWard) g.size (chunkOf g st) x)) ∨
    ∃ y rep st', mergeStep R g downWard st (st.chunk_rep x) = (some rep,st') ∧ (g.PositiveSizes →
      IsMergeUp (g.orient downWard) (g.orientFee downWard) g.size (chunkOf g st) x y) ∧
      Merged g st x y rep st' := by
  rw [mergeStep]
  cases hb : (searchChunk R g downWard st (st.chunk_rep x)).best_other_chunk_rep with
  | none => exact .inl ⟨_,rfl,fun ho => settled_of_search_none hva hx ho hb⟩
  | some y =>
    right
    obtain ⟨hy,hyr,hn,⟨p,hp,c,hc,hde⟩,hme⟩ := isMergeUp_of_search hva hx hb
    have hxr := hva.rep_mem_positions hx
    have hr := hva.rep_rep hx
    have hh : chunkOf g st (st.chunk_rep x) = chunkOf g st x := chunkOf_eq_of_rep hxr hx hr
    have hva' := hva.congr (searchChunk R g downWard st (st.chunk_rep x)).rng st.suboptimal_chunks
    have hxe := hva.isChunking.eq_of_mem x hx
    have hye := hva.isChunking.eq_of_mem y hy
    cases downWard with
    | false =>
      obtain ⟨d,rng,hd1,hd2,hd,he⟩ :=
        mergeChunks_eq (R := R) hva' hy hxr hyr hr hp (hh.symm ▸ hc) hde
      have hm := merged_activate (hva.congr rng st.suboptimal_chunks) hx hd hy hn
        (.inr ⟨hye _ hd1,hxe _ (hh ▸ hd2)⟩)
      exact ⟨y,_,_,he,hme,hm.of_congr⟩
    | true =>
      obtain ⟨d,rng,hd1,hd2,hd,he⟩ :=
        mergeChunks_eq (R := R) hva' hxr hy hr hyr (hh.symm ▸ hc) hp hde
      have hm := merged_activate (hva.congr rng st.suboptimal_chunks) hx hd hy hn
        (.inl ⟨hxe _ (hh ▸ hd1),hye _ hd2⟩)
      exact ⟨y,_,_,he,hme,hm.of_congr⟩

/-- What a sequence of merges of the chunk of `x` makes of a state. -/
structure MergedAll (g : DepGraph) (downWard : Bool) (st : SpanningForestState σ) (x rep : TxIdx)
    (st' : SpanningForestState σ) : Prop where
  valid : Valid g st'
  run : g.PositiveSizes → MergesUp (g.orient downWard) (g.orientFee downWard) g.size g.positions x
    (chunkOf g st) (chunkOf g st')
  subset : ∀ v, chunkOf g st v ⊆ chunkOf g st' v
  rep : rep = st'.chunk_rep x
  queue : st'.suboptimal_chunks = st.suboptimal_chunks
  cost : st.cost ≤ st'.cost
  work : work g st' ≤ work g st
  outside : SameOutside g st st' (chunkOf g st' x)

/-- The loop merges until the chunk is settled; each merge leaves one chunk fewer. -/
theorem mergeLoop_spec (fuel : ℕ) (hf : (chunks g.positions (chunkOf g st)).card ≤ fuel) :
    MergedAll g downWard st x (mergeLoop R g downWard fuel (st.chunk_rep x) st).1
      (mergeLoop R g downWard fuel (st.chunk_rep x) st).2 ∧
    ∀ m, mergeLoop R g downWard (fuel+m) (st.chunk_rep x) st =
      mergeLoop R g downWard fuel (st.chunk_rep x) st := by
  induction fuel generalizing st with
  | zero =>
    have hmem : chunkOf g st x ∈ chunks g.positions (chunkOf g st) := mem_image_of_mem _ hx
    rw [card_eq_zero.mp (le_zero.mp hf)] at hmem
    exact absurd hmem (notMem_empty _)
  | succ fuel ih =>
    simp only [Nat.succ_add,mergeLoop]
    rcases mergeStep_cases (R := R) hva hx downWard with
      ⟨rng,hq,hse⟩ | ⟨y,rep,st1,hq,hme,hm⟩
    · rw [hq]
      have ha : SameOutside g st st (chunkOf g st x) := SameOutside.refl st _
      exact ⟨⟨hva.congr rng st.suboptimal_chunks,fun hp => .done (hse hp),
        fun _ => Subset.rfl,rfl,rfl,le_rfl,le_rfl,ha.rep,ha.chunk,ha.active,ha.top⟩,
        fun _ => rfl⟩
    · have hc := hm.card_chunks hva hx
      have hs := hva.isChunking.self x hx
      have hmerged_x : chunkOf g st1 x = chunkOf g st x∪chunkOf g st y := by
        rw [hm.chunk,merge_of_mem (mem_union_left _ hs)]
      obtain ⟨hr,he⟩ := ih hm.valid (by omega)
      rw [hq]
      rw [hm.rep]
      refine ⟨⟨hr.valid,fun hp => ?_,fun v => ?_,hr.rep,hr.queue.trans hm.queue,
        ?_,hr.work.trans (hm.work_le hva hx),?_⟩,he⟩
      · exact .step hm.mem (hme hp) (hm.chunk ▸ hr.run hp)
      · refine (hva.isChunking.subset_merge hx hm.mem v).trans ?_
        rw [← hm.chunk]
        exact hr.subset v
      · exact (hm.cost ▸ Nat.le_add_right _ _).trans hr.cost
      · exact hm.outside.trans hr.outside (hmerged_x ▸ hr.subset x)

end SpanningForestState
end DripCore
