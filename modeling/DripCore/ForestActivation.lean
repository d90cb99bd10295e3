import DripCore.SpanningForest
import DripCore.SpanningForestState

/-!
# Activating and deactivating dependencies

The state stands for a forest: its chunks, its active dependencies and their tops. Activating a
dependency between two chunks links them and deactivating one cuts its chunk.
-/
namespace DripCore
open DepGraph Finset Function SpanningForestState

namespace DepGraph
variable {g : DepGraph} {p c tx : TxIdx} {d : DepIdx}

/-- A transaction and one of its reduced parents. -/
def Dep (g : DepGraph) (p c : TxIdx) : Prop := c ∈ g.positions ∧ p ∈ g.getReducedParents c

instance (p c : TxIdx) : Decidable (g.Dep p c) := inferInstanceAs (Decidable (_ ∧ _))

def deps (g : DepGraph) : Finset DepIdx :=
  (g.positions ×ˢ g.positions).filter fun d => d.1 ∈ g.getReducedParents d.2

section
variable (h : g.Dep p c)
include h

theorem Dep.child_mem : c ∈ g.positions := h.1

theorem Dep.mem_ancestors : p ∈ g.ancestors c := mem_ancestors_of_reduced h.2

theorem Dep.parent_mem : p ∈ g.positions := ancestors_subset_positions h.1 h.mem_ancestors

theorem Dep.ne : p ≠ c := ne_of_mem_reduced h.2

end

theorem mem_deps : d ∈ g.deps ↔ g.Dep d.1 d.2 := by
  rw [deps,mem_filter,mem_product]
  refine ⟨fun h => ⟨h.1.2,h.2⟩,fun h => ⟨⟨?_,h.1⟩,h.2⟩⟩
  exact Dep.parent_mem h

theorem mem_children : c ∈ g.children p ↔ g.Dep p c := mem_filter

theorem mem_parents (hc : c ∈ g.positions) : p ∈ g.parents c ↔ g.Dep p c := (and_iff_right hc).symm

theorem children_subset (p : TxIdx) : g.children p ⊆ g.positions := filter_subset _ _

theorem mem_childDeps : d ∈ g.childDeps tx ↔ d.1 = tx ∧ g.Dep d.1 d.2 := by
  rw [childDeps,List.mem_map]
  constructor
  · rintro ⟨c,hc,rfl⟩
    exact ⟨rfl,mem_children.mp ((mem_toList (children_subset tx)).mp hc)⟩
  · rintro ⟨rfl,hd⟩
    exact ⟨d.2,(mem_toList (children_subset d.1)).mpr (mem_children.mpr hd),rfl⟩

theorem nodup_childDeps (g : DepGraph) (tx : TxIdx) : (g.childDeps tx).Nodup :=
  (nodup_toList g _).map fun _ _ h => (Prod.mk.inj h).2

end DepGraph

def DepGraph.sumFeeRate (g : DepGraph) (S : Finset TxIdx) : FeeFrac :=
  ⟨∑ v ∈ S, (g.feeRate v).fee,∑ v ∈ S, (g.feeRate v).size⟩

def SetInfo.Exact (g : DepGraph) (info : SetInfo) : Prop :=
    info.feerate = g.sumFeeRate info.transactions

namespace SetInfo
variable {g : DepGraph} {a b : SetInfo}

theorem exact_single (g : DepGraph) (tx : TxIdx) : (single g tx).Exact g := by
  rw [Exact,single,sumFeeRate,sum_singleton,sum_singleton]

theorem Exact.add (ha : a.Exact g) (hb : b.Exact g) (h : Disjoint a.transactions b.transactions) :
    (a.add b).Exact g := by
  rw [Exact] at ha hb ⊢
  simp only [SetInfo.add,sumFeeRate,sum_union h,ha,hb]
  rfl

theorem Exact.sub (ha : a.Exact g) (hb : b.Exact g) (h : b.transactions ⊆ a.transactions) :
    (a.sub b).Exact g := by
  have hf := sum_sdiff h (f := fun v => (g.feeRate v).fee)
  have hs := sum_sdiff h (f := fun v => (g.feeRate v).size)
  rw [SetInfo.sub,ha,hb]
  ext
  · exact sub_eq_of_eq_add hf.symm
  · exact sub_eq_of_eq_add hs.symm

end SetInfo

namespace SpanningForestState
variable {σ : Type*} {g : DepGraph} {st : SpanningForestState σ}

variable (s : Bool) (q : TxIdx) (dc : SetInfo)

theorem foldl_updateDep {deps : List DepIdx} (hn : deps.Nodup) (st : SpanningForestState σ) :
    deps.foldl (updateDep s q dc) st =
      { st with
        top_setinfo := fun d => if d ∈ deps ∧ st.active d then
          changeTop s q dc (st.top_setinfo d) else st.top_setinfo d } := by
  induction deps generalizing st with
  | nil => simp
  | cons dep deps ih =>
    obtain ⟨he,hn⟩ := List.nodup_cons.mp hn
    rw [List.foldl_cons,ih hn,updateDep]
    split_ifs with hac
    all_goals
      simp only [mk.injEq,true_and,and_true]
      funext d
      by_cases hd : d = dep
      · subst hd
        simp [he,hac]
      · simp [hd]

theorem updateTx_eq (chunk_rep tx : TxIdx) (st : SpanningForestState σ) :
    updateTx g s q dc chunk_rep st tx =
      { st with
        chunk_rep := update st.chunk_rep tx chunk_rep
        top_setinfo := fun d => if (d.1 = tx ∧ g.Dep d.1 d.2) ∧ st.active d then
          changeTop s q dc (st.top_setinfo d) else st.top_setinfo d } := by
  rw [updateTx,foldl_updateDep _ _ _ (g.nodup_childDeps tx)]
  simp only [mem_childDeps]

theorem foldl_updateTx (chunk_rep : TxIdx) {txs : List TxIdx} (hn : txs.Nodup)
    (st : SpanningForestState σ) :
    txs.foldl (updateTx g s q dc chunk_rep) st =
      { st with
        chunk_rep := fun v => if v ∈ txs then chunk_rep else st.chunk_rep v
        top_setinfo := fun d => if (d.1 ∈ txs ∧ g.Dep d.1 d.2) ∧ st.active d then
          changeTop s q dc (st.top_setinfo d) else st.top_setinfo d } := by
  induction txs generalizing st with
  | nil => simp
  | cons tx txs ih =>
    obtain ⟨ht,hn⟩ := List.nodup_cons.mp hn
    rw [List.foldl_cons,ih hn,updateTx_eq]
    simp only [mk.injEq,true_and,and_true]
    constructor
    · funext v
      by_cases hv : v = tx
      · subst hv
        simp
      · simp [hv]
    · funext d
      by_cases hd : d.1 = tx
      · simp [hd,ht]
      · simp [hd]

theorem updateChunk_eq {chunk : Finset TxIdx} (hc : chunk ⊆ g.positions) (chunk_rep : TxIdx)
    (st : SpanningForestState σ) :
    updateChunk g s q dc chunk chunk_rep st =
      { st with
        chunk_rep := fun v => if v ∈ chunk then chunk_rep else st.chunk_rep v
        top_setinfo := fun d => if (d.1 ∈ chunk ∧ g.Dep d.1 d.2) ∧ st.active d then
          changeTop s q dc (st.top_setinfo d) else st.top_setinfo d } := by
  rw [updateChunk,foldl_updateTx _ _ _ _ (g.nodup_toList chunk)]
  simp only [mem_toList hc]

open Chunking
variable {d : DepIdx} {v : TxIdx}

def chunkOf (g : DepGraph) (st : SpanningForestState σ) (v : TxIdx) : Finset TxIdx :=
  if v ∈ g.positions then (st.chunk_setinfo (st.chunk_rep v)).transactions else ∅

def activeDeps (g : DepGraph) (st : SpanningForestState σ) : Finset DepIdx :=
  g.deps.filter fun d => st.active d = true

def tops (st : SpanningForestState σ) (d : DepIdx) : Finset TxIdx := (st.top_setinfo d).transactions

/-- The state stands for a forest. -/
structure Valid (g : DepGraph) (st : SpanningForestState σ) : Prop where
  forest : IsForest g.positions Prod.fst Prod.snd (activeDeps g st) (tops st) (chunkOf g st)
  rep_mem : ∀ v ∈ g.positions, st.chunk_rep v ∈ chunkOf g st v
  rep_eq : ∀ v ∈ g.positions, ∀ w ∈ chunkOf g st v, st.chunk_rep w = st.chunk_rep v
  chunk_exact : ∀ v ∈ g.positions, (st.chunk_setinfo (st.chunk_rep v)).Exact g
  top_exact : ∀ d ∈ activeDeps g st, (st.top_setinfo d).Exact g

theorem chunkOf_of_mem (hv : v ∈ g.positions) :
    chunkOf g st v = (st.chunk_setinfo (st.chunk_rep v)).transactions := if_pos hv

theorem chunkOf_of_notMem (hv : v ∉ g.positions) : chunkOf g st v = ∅ := if_neg hv

theorem chunkOf_eq_of_rep {w : TxIdx} (hv : v ∈ g.positions) (hw : w ∈ g.positions)
    (h : st.chunk_rep v = st.chunk_rep w) : chunkOf g st v = chunkOf g st w := by
  rw [chunkOf_of_mem hv,chunkOf_of_mem hw,h]

theorem mem_activeDeps : d ∈ activeDeps g st ↔ g.Dep d.1 d.2 ∧ st.active d = true := by
  rw [activeDeps,mem_filter,mem_deps]

theorem Valid.isChunking (h : Valid g st) : IsChunking g.positions (chunkOf g st) :=
    h.forest.isChunking

section
variable (h : Valid g st) (hv : v ∈ g.positions)
include h hv

theorem Valid.chunkOf_subset : chunkOf g st v ⊆ g.positions := h.isChunking.subset v hv

theorem Valid.rep_mem_positions : st.chunk_rep v ∈ g.positions :=
    h.chunkOf_subset hv (h.rep_mem v hv)

theorem Valid.rep_rep : st.chunk_rep (st.chunk_rep v) = st.chunk_rep v :=
    h.rep_eq v hv _ (h.rep_mem v hv)

end

theorem valid_init (g : DepGraph) (rng : σ) : Valid g (init g rng) := by
  have hc : ∀ v ∈ g.positions, chunkOf g (init g rng) v = {v} := fun v hv => if_pos hv
  have hac : activeDeps g (init g rng) = ∅ := filter_eq_empty_iff.mpr fun _ _ => by
    simp [init]
  refine ⟨?_,?_,?_,?_,?_⟩
  · rw [hac]
    exact isForest_singletons hc _ _ _
  · intro v hv
    rw [hc v hv]
    exact mem_singleton_self v
  · intro v hv w hw
    rw [hc v hv] at hw
    rw [mem_singleton.mp hw]
  · exact fun v _ => SetInfo.exact_single g v
  · rw [hac]
    exact fun d hd => absurd hd (notMem_empty d)

theorem txs_changeTop (s : Bool) (q : TxIdx) (change top : SetInfo) :
    (changeTop s q change top).transactions =
      if q ∈ top.transactions then
        if s then top.transactions \ change.transactions
        else top.transactions∪change.transactions
      else top.transactions := by
  rw [changeTop]
  split_ifs <;> rfl

section
variable {q : TxIdx} {ch top : SetInfo}

variable (hto : top.Exact g) (hcha : ch.Exact g)
include hto hcha

theorem exact_changeTop_add (h : Disjoint top.transactions ch.transactions) :
    (changeTop false q ch top).Exact g := by
  rw [changeTop,if_neg Bool.false_ne_true]
  split_ifs
  · exact hto.add hcha h
  · exact hto

theorem exact_changeTop_sub (h : q ∈ top.transactions → ch.transactions ⊆ top.transactions) :
    (changeTop true q ch top).Exact g := by
  rw [changeTop,if_pos rfl]
  split_ifs with hm
  · exact hto.sub hcha (h hm)
  · exact hto

end

section
variable (h : Valid g st) (hd : g.Dep d.1 d.2)
include h hd

theorem activate_eq : activate g d st = (st.chunk_rep d.1,
    { st with
      chunk_rep := fun v => if v ∈ chunkOf g st d.1∪chunkOf g st d.2 then st.chunk_rep d.1
        else st.chunk_rep v
      chunk_setinfo := update st.chunk_setinfo (st.chunk_rep d.1)
        ((st.chunk_setinfo (st.chunk_rep d.1)).add (st.chunk_setinfo (st.chunk_rep d.2)))
      active := update st.active d true
      top_setinfo := update (fun e =>
        if (e.1 ∈ chunkOf g st d.2 ∧ g.Dep e.1 e.2) ∧ st.active e = true then
          changeTop false d.2 (st.chunk_setinfo (st.chunk_rep d.1))
            (if (e.1 ∈ chunkOf g st d.1 ∧ g.Dep e.1 e.2) ∧ st.active e = true then
              changeTop false d.1 (st.chunk_setinfo (st.chunk_rep d.2)) (st.top_setinfo e)
            else st.top_setinfo e)
        else if (e.1 ∈ chunkOf g st d.1 ∧ g.Dep e.1 e.2) ∧ st.active e = true then
          changeTop false d.1 (st.chunk_setinfo (st.chunk_rep d.2)) (st.top_setinfo e)
        else st.top_setinfo e) d (st.chunk_setinfo (st.chunk_rep d.1))
      cost := st.cost+(chunkOf g st d.1∪chunkOf g st d.2).card }) := by
  have hto := h.chunkOf_subset hd.parent_mem
  have hb := h.chunkOf_subset hd.child_mem
  rw [chunkOf_of_mem hd.parent_mem] at hto ⊢
  rw [chunkOf_of_mem hd.child_mem] at hb ⊢
  unfold activate
  dsimp only
  rw [updateChunk_eq _ _ _ hto,updateChunk_eq _ _ _ hb]
  simp only [Prod.mk.injEq,mk.injEq,true_and]
  refine ⟨?_,rfl⟩
  funext v
  by_cases hto' : v ∈ (st.chunk_setinfo (st.chunk_rep d.1)).transactions <;>
    by_cases hb' : v ∈ (st.chunk_setinfo (st.chunk_rep d.2)).transactions <;>
    simp [hto']

theorem chunk_rep_activate (v : TxIdx) : (activate g d st).2.chunk_rep v =
    if v ∈ chunkOf g st d.1∪chunkOf g st d.2 then st.chunk_rep d.1 else st.chunk_rep v := by
  rw [activate_eq h hd]

theorem chunk_activate (hv : v ∈ g.positions) :
    (activate g d st).2.chunk_setinfo ((activate g d st).2.chunk_rep v) =
      if v ∈ chunkOf g st d.1∪chunkOf g st d.2 then
        (st.chunk_setinfo (st.chunk_rep d.1)).add (st.chunk_setinfo (st.chunk_rep d.2))
      else st.chunk_setinfo (st.chunk_rep v) := by
  rw [activate_eq h hd]
  dsimp only
  split_ifs with hm
  · rw [update_self]
  · rw [update_of_ne]
    intro he
    apply hm
    rw [← chunkOf_eq_of_rep hv hd.parent_mem he]
    exact mem_union_left _ (h.isChunking.self v hv)

theorem chunkOf_activate : chunkOf g (activate g d st).2 =
    merge (chunkOf g st d.1) (chunkOf g st d.2) (chunkOf g st) := by
  have hs : chunkOf g st d.1∪chunkOf g st d.2 ⊆ g.positions :=
    union_subset (h.chunkOf_subset hd.parent_mem) (h.chunkOf_subset hd.child_mem)
  funext v
  by_cases hv : v ∈ g.positions
  · rw [chunkOf_of_mem hv,chunk_activate h hd hv]
    split_ifs with hm
    · rw [merge_of_mem hm,SetInfo.add,chunkOf_of_mem hd.parent_mem,chunkOf_of_mem hd.child_mem]
    · rw [merge_of_notMem hm,chunkOf_of_mem hv]
  · rw [merge_of_notMem fun hm => hv (hs hm),chunkOf_of_notMem hv,chunkOf_of_notMem hv]

theorem activeDeps_activate : activeDeps g (activate g d st).2 = insert d (activeDeps g st) := by
  ext e
  rw [mem_insert,mem_activeDeps,mem_activeDeps,activate_eq h hd]
  by_cases he : e = d
  · subst he
    simp [hd]
  · simp [he]

theorem top_activate_self : (activate g d st).2.top_setinfo d =
    st.chunk_setinfo (st.chunk_rep d.1) := by
  rw [activate_eq h hd]
  dsimp only
  rw [update_self]

variable (hne : chunkOf g st d.2 ≠ chunkOf g st d.1)
include hne

theorem notMem_activeDeps : d ∉ activeDeps g st := by
  intro hm
  exact hne (h.isChunking.eq_of_mem _ hd.parent_mem _ (h.forest.child_mem d hm))

variable {e : DepIdx}

theorem top_activate (he : e ∈ activeDeps g st) : (activate g d st).2.top_setinfo e =
      if e.1 ∈ chunkOf g st d.1 then
        changeTop false d.1 (st.chunk_setinfo (st.chunk_rep d.2)) (st.top_setinfo e)
      else if e.1 ∈ chunkOf g st d.2 then
        changeTop false d.2 (st.chunk_setinfo (st.chunk_rep d.1)) (st.top_setinfo e)
      else st.top_setinfo e := by
  have hed : e ≠ d := fun hq => notMem_activeDeps h hd hne (hq ▸ he)
  have hac := mem_activeDeps.mp he
  have hdi := disjoint_left.mp (h.isChunking.disjoint_of_ne hd.parent_mem hd.child_mem hne.symm)
  rw [activate_eq h hd]
  dsimp only
  rw [update_of_ne hed]
  by_cases hX : e.1 ∈ chunkOf g st d.1
  · simp [hdi hX,hac]
  · by_cases hY : e.1 ∈ chunkOf g st d.2 <;> simp [hX,hac]

theorem tops_activate (he : e ∈ insert d (activeDeps g st)) : tops (activate g d st).2 e =
      linkTop Prod.fst Prod.snd d (chunkOf g st d.1) (chunkOf g st d.2) (tops st) e := by
  by_cases hed : e = d
  · subst hed
    rw [tops,top_activate_self h hd,linkTop,if_pos rfl,chunkOf_of_mem hd.parent_mem]
  · have he := (mem_insert.mp he).resolve_left hed
    rw [tops,top_activate h hd hne he,linkTop]
    split_ifs with hX hp hY hc
    · rw [txs_changeTop,chunkOf_of_mem hd.child_mem]
      exact if_pos hp
    · rw [txs_changeTop]
      exact if_neg hp
    · rw [txs_changeTop,chunkOf_of_mem hd.parent_mem]
      exact if_pos hc
    · rw [txs_changeTop]
      exact if_neg hc
    · rfl

theorem top_exact_activate (he : e ∈ activeDeps g st) :
    ((activate g d st).2.top_setinfo e).Exact g := by
  have hdi := h.isChunking.disjoint_of_ne hd.parent_mem hd.child_mem hne.symm
  have hx := h.top_exact e he
  have hs : ∀ v ∈ g.positions, e.1 ∈ chunkOf g st v →
    (st.top_setinfo e).transactions ⊆ chunkOf g st v := fun v hv hm =>
    h.isChunking.eq_of_mem v hv _ hm ▸ h.forest.top_subset e he
  rw [top_activate h hd hne he]
  split_ifs with hX hY
  · refine exact_changeTop_add hx (h.chunk_exact _ hd.child_mem) ?_
    rw [← chunkOf_of_mem hd.child_mem]
    exact hdi.mono_left (hs _ hd.parent_mem hX)
  · refine exact_changeTop_add hx (h.chunk_exact _ hd.parent_mem) ?_
    rw [← chunkOf_of_mem hd.parent_mem]
    exact hdi.symm.mono_left (hs _ hd.child_mem hY)
  · exact hx

theorem valid_activate : Valid g (activate g d st).2 := by
  have hf := h.forest.link (notMem_activeDeps h hd hne) hd.parent_mem hd.child_mem hne
  refine ⟨?_,?_,?_,?_,?_⟩
  · rw [activeDeps_activate h hd,chunkOf_activate h hd]
    exact hf.congr_top fun e he => tops_activate h hd hne he
  · intro v hv
    rw [chunk_rep_activate h hd,chunkOf_activate h hd]
    split_ifs with hm
    · rw [merge_of_mem hm]
      exact mem_union_left _ (h.rep_mem _ hd.parent_mem)
    · rw [merge_of_notMem hm]
      exact h.rep_mem v hv
  · intro v hv w hw
    rw [chunkOf_activate h hd] at hw
    rw [chunk_rep_activate h hd,chunk_rep_activate h hd]
    by_cases hm : v ∈ chunkOf g st d.1∪chunkOf g st d.2
    · rw [merge_of_mem hm] at hw
      rw [if_pos hm,if_pos hw]
    · rw [merge_of_notMem hm] at hw
      rw [mem_union,not_or] at hm
      have hwm := h.isChunking.notMem_of_mem hv hd.parent_mem hm.1 hw
      have hwm' := h.isChunking.notMem_of_mem hv hd.child_mem hm.2 hw
      simp [hm,hwm,hwm',h.rep_eq v hv w hw]
  · intro v hv
    rw [chunk_activate h hd hv]
    split_ifs with hm
    · refine (h.chunk_exact _ hd.parent_mem).add (h.chunk_exact _ hd.child_mem) ?_
      rw [← chunkOf_of_mem hd.parent_mem,← chunkOf_of_mem hd.child_mem]
      exact h.isChunking.disjoint_of_ne hd.parent_mem hd.child_mem hne.symm
    · exact h.chunk_exact v hv
  · intro e he
    rw [activeDeps_activate h hd] at he
    rcases mem_insert.mp he with rfl | he
    · rw [top_activate_self h hd]
      exact h.chunk_exact _ hd.parent_mem
    · exact top_exact_activate h hd hne he

end

theorem dep_of_active (hac : d ∈ activeDeps g st) : g.Dep d.1 d.2 := (mem_activeDeps.mp hac).1

theorem txs_bottom (hac : d ∈ activeDeps g st) :
    ((st.chunk_setinfo (st.chunk_rep d.1)).sub (st.top_setinfo d)).transactions =
      chunkOf g st d.1 \ tops st d := by
  rw [SetInfo.sub,chunkOf_of_mem (dep_of_active hac).parent_mem,tops]

variable (h : Valid g st) (hac : d ∈ activeDeps g st)
include h hac

theorem deactivate_eq : deactivate g d st =
    { st with
      active := update st.active d false
      chunk_rep := fun v => if v ∈ chunkOf g st d.1 \ tops st d then d.2
        else if v ∈ tops st d then d.1 else st.chunk_rep v
      chunk_setinfo := update (update st.chunk_setinfo d.2
        ((st.chunk_setinfo (st.chunk_rep d.1)).sub (st.top_setinfo d))) d.1 (st.top_setinfo d)
      top_setinfo := fun e =>
        if (e.1 ∈ chunkOf g st d.1 \ tops st d ∧ g.Dep e.1 e.2) ∧
            update st.active d false e = true then
          changeTop true d.2 (st.top_setinfo d)
            (if (e.1 ∈ tops st d ∧ g.Dep e.1 e.2) ∧ update st.active d false e = true then
              changeTop true d.1 ((st.chunk_setinfo (st.chunk_rep d.1)).sub (st.top_setinfo d))
                (st.top_setinfo e)
            else st.top_setinfo e)
        else if (e.1 ∈ tops st d ∧ g.Dep e.1 e.2) ∧ update st.active d false e = true then
          changeTop true d.1 ((st.chunk_setinfo (st.chunk_rep d.1)).sub (st.top_setinfo d))
            (st.top_setinfo e)
        else st.top_setinfo e
      cost := st.cost+(chunkOf g st d.1).card } := by
  have hd := dep_of_active hac
  have hb := txs_bottom hac
  have hc := h.chunkOf_subset hd.parent_mem
  have hto : (st.top_setinfo d).transactions ⊆ g.positions := (h.forest.top_subset d hac).trans hc
  unfold deactivate
  dsimp only
  rw [hb,updateChunk_eq _ _ _ hto,updateChunk_eq _ _ _ (sdiff_subset.trans hc)]
  rw [chunkOf_of_mem hd.parent_mem]
  rfl

theorem chunk_rep_deactivate (v : TxIdx) : (deactivate g d st).chunk_rep v =
    if v ∈ chunkOf g st d.1 \ tops st d then d.2 else if v ∈ tops st d then d.1
    else st.chunk_rep v := by
  rw [deactivate_eq h hac]

theorem chunk_deactivate (hv : v ∈ g.positions) :
    (deactivate g d st).chunk_setinfo ((deactivate g d st).chunk_rep v) =
      if v ∈ chunkOf g st d.1 \ tops st d then
        (st.chunk_setinfo (st.chunk_rep d.1)).sub (st.top_setinfo d)
      else if v ∈ tops st d then st.top_setinfo d
      else st.chunk_setinfo (st.chunk_rep v) := by
  have hd := dep_of_active hac
  rw [deactivate_eq h hac]
  dsimp only
  split_ifs with hB hT
  · rw [update_of_ne hd.ne.symm,update_self]
  · rw [update_self]
  · -- The representative of another chunk is neither end of the dependency.
    have hc : v ∉ chunkOf g st d.1 := fun hc => hB (mem_sdiff.mpr ⟨hc,hT⟩)
    have ho : ∀ w ∈ chunkOf g st d.1, st.chunk_rep v ≠ w := by
      rintro _ hw rfl
      exact h.isChunking.notMem_of_mem hv hd.parent_mem hc (h.rep_mem v hv) hw
    rw [update_of_ne (ho _ (h.isChunking.self _ hd.parent_mem)),
      update_of_ne (ho _ (h.forest.child_mem d hac))]

/-- The chunk falls into the top of the dependency and the rest. -/
theorem chunkOf_deactivate : chunkOf g (deactivate g d st) =
    cutChunk (tops st d) (chunkOf g st d.1 \ tops st d) (chunkOf g st) := by
  have hd := dep_of_active hac
  have hc := h.chunkOf_subset hd.parent_mem
  have hto := h.forest.top_subset d hac
  funext v
  by_cases hv : v ∈ g.positions
  · rw [chunkOf_of_mem hv,chunk_deactivate h hac hv]
    split_ifs with hB hT
    · rw [txs_bottom hac,cut_of_mem_bottom hB]
    · rw [cut_of_mem_top hT,tops]
    · rw [← chunkOf_of_mem hv]
      exact (cutChunk_of_notMem hto fun hvC => hB (mem_sdiff.mpr ⟨hvC,hT⟩)).symm
  · rw [cutChunk_of_notMem hto fun hm => hv (hc hm),chunkOf_of_notMem hv,chunkOf_of_notMem hv]

theorem activeDeps_deactivate : activeDeps g (deactivate g d st) = (activeDeps g st).erase d := by
  ext e
  rw [mem_erase,mem_activeDeps,mem_activeDeps,deactivate_eq h hac]
  by_cases he : e = d
  · subst he
    simp
  · simp [he]

variable {e : DepIdx}

theorem top_deactivate (he : e ∈ activeDeps g st) (hed : e ≠ d) :
    (deactivate g d st).top_setinfo e =
      if e.1 ∈ tops st d then
        changeTop true d.1 ((st.chunk_setinfo (st.chunk_rep d.1)).sub (st.top_setinfo d))
          (st.top_setinfo e)
      else if e.1 ∈ chunkOf g st d.1 \ tops st d then
        changeTop true d.2 (st.top_setinfo d) (st.top_setinfo e)
      else st.top_setinfo e := by
  have hac' := mem_activeDeps.mp he
  rw [deactivate_eq h hac]
  by_cases hT : e.1 ∈ tops st d
  · have hB : e.1 ∉ chunkOf g st d.1 \ tops st d := fun hB => (mem_sdiff.mp hB).2 hT
    simp only [hT,hB,hac',update_of_ne hed,false_and,if_false,true_and]
  · by_cases hB : e.1 ∈ chunkOf g st d.1 \ tops st d
    · simp only [hT,hB,hac',update_of_ne hed,false_and,if_false,true_and]
    · simp only [hT,hB,false_and,if_false]

theorem tops_deactivate (he : e ∈ activeDeps g st) (hed : e ≠ d) : tops (deactivate g d st) e =
      cutTop Prod.fst Prod.snd d (tops st d) (chunkOf g st d.1 \ tops st d) (tops st) e := by
  rw [tops,top_deactivate h hac he hed,cutTop]
  split_ifs with hT hp hB hc
  · rw [txs_changeTop,txs_bottom hac]
    exact if_pos hp
  · rw [txs_changeTop]
    exact if_neg hp
  · rw [txs_changeTop]
    exact if_pos hc
  · rw [txs_changeTop]
    exact if_neg hc
  · rfl

theorem bottom_exact : ((st.chunk_setinfo (st.chunk_rep d.1)).sub (st.top_setinfo d)).Exact g := by
  have hd := dep_of_active hac
  refine (h.chunk_exact _ hd.parent_mem).sub (h.top_exact d hac) ?_
  rw [← chunkOf_of_mem hd.parent_mem]
  exact h.forest.top_subset d hac

theorem top_exact_deactivate (he : e ∈ activeDeps g st) (hed : e ≠ d) :
    ((deactivate g d st).top_setinfo e).Exact g := by
  have hx := h.top_exact e he
  rw [top_deactivate h hac he hed]
  split_ifs with hT hB
  · refine exact_changeTop_sub hx (bottom_exact h hac) fun hp w hw => ?_
    rw [txs_bottom hac] at hw
    have hc := (h.forest.across e he d hac hed.symm).mp hp
    exact (h.forest.bottom_uniform hac he hed hT hw).mpr hc
  · refine exact_changeTop_sub hx (h.top_exact d hac) fun hc w hw => ?_
    have hp := (h.forest.across e he d hac hed.symm).mpr hc
    exact (h.forest.top_uniform hac he hed hT hw).mpr hp
  · exact hx

theorem valid_deactivate : Valid g (deactivate g d st) := by
  have hd := dep_of_active hac
  have hto := h.forest.top_subset d hac
  refine ⟨?_,?_,?_,?_,?_⟩
  · rw [activeDeps_deactivate h hac,chunkOf_deactivate h hac]
    refine (h.forest.cut hac).congr_top fun e he => ?_
    obtain ⟨hed,he⟩ := mem_erase.mp he
    exact tops_deactivate h hac he hed
  · intro v hv
    rw [chunk_rep_deactivate h hac,chunkOf_deactivate h hac]
    split_ifs with hB hT
    · rw [cut_of_mem_bottom hB]
      exact h.forest.child_bottom hac
    · rw [cut_of_mem_top hT]
      exact h.forest.parent_top d hac
    · rw [cutChunk_of_notMem hto fun hvC => hB (mem_sdiff.mpr ⟨hvC,hT⟩)]
      exact h.rep_mem v hv
  · intro v hv w hw
    rw [chunkOf_deactivate h hac] at hw
    rw [chunk_rep_deactivate h hac,chunk_rep_deactivate h hac]
    by_cases hT : v ∈ tops st d
    · rw [cut_of_mem_top hT] at hw
      have hn : ∀ u ∈ tops st d, u ∉ chunkOf g st d.1 \ tops st d := fun u hu hm =>
        (mem_sdiff.mp hm).2 hu
      rw [if_neg (hn v hT),if_neg (hn w hw),if_pos hT,if_pos hw]
    by_cases hC : v ∈ chunkOf g st d.1
    · have hB := mem_sdiff.mpr ⟨hC,hT⟩
      rw [cut_of_mem_bottom hB] at hw
      rw [if_pos hB,if_pos hw]
    · rw [cutChunk_of_notMem hto hC] at hw
      have hc := h.isChunking.notMem_of_mem hv hd.parent_mem hC hw
      have ho : ∀ u, u ∉ chunkOf g st d.1 → u ∉ chunkOf g st d.1 \ tops st d ∧ u ∉ tops st d :=
        fun u hu => ⟨fun hm => hu (mem_sdiff.mp hm).1,fun hm => hu (hto hm)⟩
      rw [if_neg (ho v hC).1,if_neg (ho v hC).2,if_neg (ho w hc).1,if_neg (ho w hc).2]
      exact h.rep_eq v hv w hw
  · intro v hv
    rw [chunk_deactivate h hac hv]
    split_ifs with hB hT
    · exact bottom_exact h hac
    · exact h.top_exact d hac
    · exact h.chunk_exact v hv
  · intro e he
    rw [activeDeps_deactivate h hac] at he
    obtain ⟨hed,he⟩ := mem_erase.mp he
    exact top_exact_deactivate h hac he hed

end SpanningForestState
end DripCore
