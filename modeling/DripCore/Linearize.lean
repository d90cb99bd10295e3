import DripCore.ChunkLinearization
import DripCore.ForestLinearization
import DripCore.ForestOptimization

/-!
# `Linearize`

From the state that the algorithm ends with to the linearization that is returned: it is valid and
no worse than the old one, and if it is said to be optimal then no other one is better anywhere.

The work is counted as the source counts it. The loops end within their fuel for every choice of
random numbers, and the count exceeds the limit by at most the work of one step or of the start.
-/
namespace DripCore
open Chunking List SpanningForestState

variable {σ : Type*} {R : RandomContext σ} {g : DepGraph} {old_linearization : List TxIdx}

theorem listWeight_eq {q : List TxIdx} (hn : q.Nodup) (l : ℝ) :
    listWeight g l q = weight g.fee g.size l q.toFinset := by
  rw [weight,sum_toFinset _ hn,listWeight,PiecewiseLinear.totalWeight,map_map,map_map]
  rfl

variable {linearization : List TxIdx} {st : SpanningForestState σ}

/-- If its prefixes are no heavier than the chunks of a topological state, a linearization has no
better diagram than the one read off that state. -/
theorem diagram_le_linearized (hva : Valid g st) (hp : g.PositiveSizes) (ha : g.IsAcyclic)
    (ho : InOrder g st)
    (ht : g.IsTopological linearization) (hl : ∀ l r, r <+: linearization →
      weight g.fee g.size l r.toFinset ≤ excess g.fee g.size g.positions l (chunkOf g st)) {x : ℝ}
    (hx : 0 ≤ x) : diagram (chunkLinearization g linearization) x ≤
      diagram (chunkLinearization g (getLinearization R g st)) x := by
  obtain ⟨hn,hh⟩ := linearization_spec (R := R) hva hp ha ho
  refine diagram_chunks_le (fun v hv => hp v (hn.mem_iff.mp hv))
    (fun v hv => hp v (ht.mem_iff.mp hv)) (ht.perm.trans hn.perm.symm) ?_ hx
  intro l q hq
  obtain ⟨r,hr,hexcess⟩ := hh l
  refine ⟨r,hr,?_⟩
  rw [listWeight_eq (ht.nodup.sublist hq.sublist),listWeight_eq (hn.nodup.sublist hr.sublist)]
  exact (hl l q hq).trans hexcess

/-- The state that the linearization is read off. -/
structure Finished (g : DepGraph) (old_linearization : List TxIdx) (optimal : Bool)
    (st : SpanningForestState σ) : Prop where
  valid : Valid g st
  ordered : Ordered g.Dep g.fee g.size g.positions (chunkOf g st)
  le : ∀ l r, r <+: old_linearization →
    weight g.fee g.size l r.toFinset ≤ excess g.fee g.size g.positions l (chunkOf g st)
  optimal : optimal = true → ∀ e, ¬Improvable g st e

theorem excess_nonneg (fee size : TxIdx → ℝ) (s : Finset TxIdx) (l : ℝ)
    (chunk : TxIdx → Finset TxIdx) :
    0 ≤ excess fee size s l chunk := Finset.sum_nonneg fun _ _ => le_max_right _ _

section
variable (R g) (max_iterations : ℕ) (rng : σ) (old_linearization : List TxIdx)

/-- The state before the optimization. -/
def startForest : SpanningForestState σ :=
  if old_linearization ≠ [] then loadLinearization R g old_linearization (init g rng)
  else makeTopological R g (init g rng)

/-- The state at the end, and whether it is said to be optimal. -/
def finalForest : Bool × SpanningForestState σ :=
  if (startForest R g rng old_linearization).cost < max_iterations then
    optimizeLoop R g max_iterations (g.txCount+3*max_iterations+1)
      (startOptimizing R g (startForest R g rng old_linearization))
  else (false,startForest R g rng old_linearization)

theorem linearize_eq : linearize R g max_iterations rng old_linearization =
    (getLinearization R g (finalForest R g max_iterations rng old_linearization).2,
      (finalForest R g max_iterations rng old_linearization).1,
      (finalForest R g max_iterations rng old_linearization).2.cost) := rfl

variable {g old_linearization} (hold : old_linearization = [] ∨ g.IsTopological old_linearization)
include hold

theorem sound_startForest : Sound g (startForest R g rng old_linearization) ∧
    (startForest R g rng old_linearization).suboptimal_chunks = [] ∧
    (startForest R g rng old_linearization).cost ≤ g.txCount*g.txCount := by
  have hin := sound_init g rng
  have hw : work g (init g rng) ≤ g.txCount*g.txCount :=
    (Nat.zero_add _).trans_le (Nat.mul_le_mul_left _ hin.valid.card_chunks_le)
  have hc : ∀ st : SpanningForestState σ, work g st ≤ work g (init g rng) →
      st.cost ≤ g.txCount*g.txCount := fun st h => (Nat.le_add_right _ _).trans (h.trans hw)
  rw [startForest]
  split_ifs with hn
  · obtain ⟨hs,hl,hq⟩ := hin.loadLinearization (R := R) fun v hv =>
      (hold.resolve_left hn).mem_iff.mp hv
    exact ⟨hs,hq,hc _ hl⟩
  · obtain ⟨hp,hl,he⟩ := hin.makeTopological (R := R) (2*g.txCount)
    exact ⟨hp.toSound,he (Nat.zero_add _).le,hc _ hl⟩

theorem finished_finalForest (hp : g.PositiveSizes) :
    Finished g old_linearization (finalForest R g max_iterations rng old_linearization).1
      (finalForest R g max_iterations rng old_linearization).2 := by
  obtain ⟨hs,hq,-⟩ := sound_startForest R rng hold
  have hst : Finished g old_linearization false (startForest R g rng old_linearization) := by
    have hv := hs.valid
    rw [startForest] at hq hv ⊢
    split_ifs at hq hv ⊢ with hn
    · have ht := hold.resolve_left hn
      obtain ⟨hor,hl⟩ := (loaded_loadLinearization (R := R) rng hp ht).ordered ht
      exact ⟨hv,hor,hl,fun hf => absurd hf Bool.false_ne_true⟩
    · have he := ((sound_init g rng).makeTopological (R := R) (2*g.txCount)).1
      refine ⟨hv,he.ordered hp hq,fun l r hr => ?_,fun hf => absurd hf Bool.false_ne_true⟩
      rw [not_not.mp hn] at hr
      rw [prefix_nil.mp hr]
      exact excess_nonneg _ _ _ _ _
  obtain ⟨hs',-,hc',ho⟩ := hs.startOptimizing (R := R)
  obtain ⟨ho,hm⟩ := ho hst.ordered
  obtain ⟨hm',hop⟩ := ho.optimizeLoop (R := R) hp max_iterations (g.txCount+3*max_iterations+1)
  have ha := hm.trans hm'
  rw [finalForest]
  split_ifs with hc
  · exact ⟨(hs'.optimizeLoop (hc'.trans_lt hc) _).1,ha.ordered,
      fun l r hr => (hst.le l r hr).trans (ha.excess_le l),hop⟩
  · exact hst

end

/-- A child that pays for its parent, after a cheap transaction. -/
def exampleGraph : DepGraph :=
  (((DepGraph.empty.addTransaction ⟨3,1⟩).addTransaction ⟨1,1⟩).addTransaction ⟨9,
    1⟩).addDependencies
    {1} 2 (by decide) (by decide)

def exampleContext : RandomContext Unit where
  rand64 rng := (0,rng)
  randrange _ rng := (0,rng)
  randbool rng := (false,rng)
  randrange_lt _ _ h := h

/-- The loops end before their fuel is used up, and the cost stays below the limit but for the work
of one step or of the start. -/
theorem linearize_terminates_cost_le (R : RandomContext σ) (g : DepGraph) (hacyclic : g.IsAcyclic)
    (max_iterations : ℕ) (rng : σ) (old_linearization : List TxIdx)
    (hold : old_linearization = [] ∨ g.IsTopological old_linearization) :
    (linearize R g max_iterations rng old_linearization).2.2 ≤
      max_iterations + g.txCount * g.txCount ∧
    ((startForest R g rng old_linearization).cost < max_iterations → ∀ more,
      optimizeLoop R g max_iterations (g.txCount + 3 * max_iterations + 1 + more)
          (startOptimizing R g (startForest R g rng old_linearization)) =
        finalForest R g max_iterations rng old_linearization) ∧
    (makeTopological R g (init g rng)).suboptimal_chunks = [] ∧
    (∀ st, Valid g st → ∀ x ∈ g.positions, ∀ downWard more,
      mergeLoop R g downWard (g.txCount + more) (st.chunk_rep x) st =
        mergeLoop R g downWard g.txCount (st.chunk_rep x) st) ∧
    (g.PositiveSizes → g.IsTopological (linearize R g max_iterations rng old_linearization).1) := by
  obtain ⟨hs,hq,ht⟩ := sound_startForest R rng hold
  obtain ⟨hs',hl,hc',-⟩ := hs.startOptimizing (R := R)
  have ho := fun hc : (startForest R g rng old_linearization).cost < max_iterations =>
    hs'.optimizeLoop (R := R) (hc'.trans_lt hc) (g.txCount+3*max_iterations+1)
  rw [linearize_eq]
  refine ⟨?_,fun hc more => ?_,?_,fun st hv x hx downWard more => ?_,fun hp => ?_⟩
  · rw [finalForest]
    split_ifs with hc
    · exact (ho hc).2.1
    · exact ht.trans (Nat.le_add_left _ _)
  · rw [finalForest,if_pos hc]
    rw [hq,length_nil] at hl
    exact (ho hc).2.2 (by omega) more
  · exact ((sound_init g rng).makeTopological (R := R) (2*g.txCount)).2.2 (Nat.zero_add _).le
  · exact (mergeLoop_spec hv hx _ hv.card_chunks_le).2 more
  · have hf := finished_finalForest R max_iterations rng hold hp
    exact (linearization_spec hf.valid hp hacyclic hf.ordered).1

theorem linearize_cost_le_example : (linearize exampleContext exampleGraph 1 () []).2.2 ≤
    1 + 3 * 3 :=
  (linearize_terminates_cost_le exampleContext exampleGraph (by decide) 1 () [] (.inl rfl)).1

theorem chunks_size_pos (hp : g.PositiveSizes) (h : g.IsTopological linearization) :
    ∀ c ∈ chunkLinearization g linearization, 0 < c.size := by
  rw [chunked_eq]
  intro c hc
  refine (feerates_rising ?_).1 c (mem_reverse.mp hc)
  exact forall_mem_map.mpr fun v hv => hp v (h.mem_iff.mp hv)

/-- The linearization is valid, and its diagram is everywhere at least that of the old one. -/
theorem linearize_valid_never_worse (R : RandomContext σ) (g : DepGraph) (hacyclic : g.IsAcyclic)
    (hpos : g.PositiveSizes) (max_iterations : ℕ) (rng : σ) (old_linearization : List TxIdx)
    (hold : old_linearization = [] ∨ g.IsTopological old_linearization) :
    g.IsTopological (linearize R g max_iterations rng old_linearization).1 ∧
    (old_linearization ≠ [] → (∀ x : ℝ, 0 ≤ x → diagram (chunkLinearization g old_linearization) x ≤
        diagram (chunkLinearization g (linearize R g max_iterations rng old_linearization).1) x) ∧
      ∀ r, SumsFit .empty (chunkLinearization g old_linearization) →
        SumsFit .empty (chunkLinearization g
          (linearize R g max_iterations rng old_linearization).1) →
        compareChunks (chunkLinearization g (linearize R g max_iterations rng old_linearization).1)
          (chunkLinearization g old_linearization) = .ok r → r = .greater ∨ r = .equivalent) := by
  have hf := finished_finalForest R max_iterations rng hold hpos
  rw [linearize_eq]
  generalize finalForest R g max_iterations rng old_linearization = final at hf ⊢
  obtain ⟨optimal,st⟩ := final
  have hne := (linearization_spec (R := R) hf.valid hpos hacyclic hf.ordered).1
  refine ⟨hne,fun hn => ?_⟩
  have ht := hold.resolve_left hn
  have hl : ∀ x : ℝ, 0 ≤ x → diagram (chunkLinearization g old_linearization) x ≤
      diagram (chunkLinearization g (getLinearization R g st)) x := fun x hx =>
    diagram_le_linearized hf.valid hpos hacyclic hf.ordered ht hf.le hx
  refine ⟨hl,fun r hfi hfi' hr => ?_⟩
  have he := exactOrdering_of_ok (chunks_size_pos hpos hne) (chunks_size_pos hpos ht) hfi' hfi hr
  by_cases hlt : ∃ x : ℝ, 0 ≤ x ∧ diagram (chunkLinearization g old_linearization) x <
      diagram (chunkLinearization g (getLinearization R g st)) x
  · exact .inl (he.2.1.mpr ⟨hl,hlt⟩)
  · push Not at hlt
    exact .inr (he.1.mpr fun x hx => le_antisymm (hlt x hx) (hl x hx))

theorem linearize_valid_example :
    exampleGraph.IsTopological (linearize exampleContext exampleGraph 100 () [0, 1, 2]).1 ∧
    (∀ x : ℝ, 0 ≤ x → diagram (chunkLinearization exampleGraph [0, 1, 2]) x ≤
      diagram (chunkLinearization exampleGraph
        (linearize exampleContext exampleGraph 100 () [0, 1, 2]).1) x) ∧
    ∃ r, compareChunks (chunkLinearization exampleGraph
        (linearize exampleContext exampleGraph 100 () [0, 1, 2]).1)
      (chunkLinearization exampleGraph [0, 1, 2]) = .ok r ∧ (r = .greater ∨ r = .equivalent) := by
  obtain ⟨hv,hb⟩ := linearize_valid_never_worse exampleContext exampleGraph (by decide)
    (by decide) 100 () [0,1,2] (.inr (by decide))
  obtain ⟨hl,hc⟩ := hb (by decide)
  have ho : compareChunks (chunkLinearization exampleGraph
      (linearize exampleContext exampleGraph 100 () [0,1,2]).1)
      (chunkLinearization exampleGraph [0,1,2]) = .ok .greater := by decide +kernel
  exact ⟨hv,hl,.greater,ho,hc _ (by decide) (by decide +kernel) ho⟩

/-- If the linearization is said to be optimal, no valid one has a better diagram anywhere. -/
theorem linearize_optimal (R : RandomContext σ) (g : DepGraph) (hacyclic : g.IsAcyclic)
    (hpos : g.PositiveSizes) (max_iterations : ℕ) (rng : σ) (old_linearization : List TxIdx)
    (hold : old_linearization = [] ∨ g.IsTopological old_linearization)
    (hoptimal : (linearize R g max_iterations rng old_linearization).2.1 = true)
    (linearization : List TxIdx) (hlinearization : g.IsTopological linearization) (x : ℝ)
    (hx : 0 ≤ x) :
    diagram (chunkLinearization g linearization) x ≤
      diagram (chunkLinearization g (linearize R g max_iterations rng old_linearization).1) x := by
  have hf := finished_finalForest R max_iterations rng hold hpos
  rw [linearize_eq] at hoptimal ⊢
  refine diagram_le_linearized hf.valid hpos hacyclic hf.ordered hlinearization ?_ hx
  intro l r hr
  have hm : ∀ v ∈ r, v ∈ g.positions := fun v hv => hlinearization.mem_iff.mp (hr.subset hv)
  refine hf.valid.forest.weight_le_excess hpos.size_pos (fun e he => ?_)
    (fun v hv => hm v (mem_toFinset.mp hv)) fun e he hc => ?_
  · exact not_lt.mp fun hl => hf.optimal hoptimal e ⟨he,hl⟩
  · rw [mem_toFinset] at hc ⊢
    exact hlinearization.mem_of_ancestor hr hc (dep_of_active he).mem_ancestors

theorem linearize_optimal_example : (linearize exampleContext exampleGraph 100 () [0, 1, 2]).2.1 =
    true ∧
    diagram (chunkLinearization exampleGraph [1, 0, 2]) (1 : ℝ) ≤
      diagram (chunkLinearization exampleGraph
        (linearize exampleContext exampleGraph 100 () [0, 1, 2]).1) 1 :=
  ⟨by decide +kernel,
    linearize_optimal exampleContext exampleGraph (by decide) (by decide) 100 () [0,1,2]
      (.inr (by decide)) (by decide +kernel) [1,0,2] (by decide) 1 zero_le_one⟩

end DripCore
