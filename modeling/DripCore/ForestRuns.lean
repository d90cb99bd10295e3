import DripCore.Linearize

/-!
# Calls on a spanning forest in any order

`Linearize` makes a few of the calls that a `SpanningForestState` offers. Whatever calls are made,
the state stays sound, and from there `MakeTopological` and steps of the optimization lead to valid
linearizations, in the end to an optimal one.
-/
namespace DripCore
open Chunking List SpanningForestState

/-- Only transactions of the graph can be loaded. -/
inductive ForestCall (g : DepGraph) where
  | loadLinearization (old_linearization : List TxIdx)
    (mem : ∀ tx ∈ old_linearization, tx ∈ g.positions)
  | makeTopological
  | startOptimizing
  | optimizeStep

section
variable {σ : Type*} (R : RandomContext σ) (g : DepGraph)

/-- The queue may not be empty when `MakeTopological` is called; each entry takes a round. -/
def ForestCall.apply (st : SpanningForestState σ) : ForestCall g → SpanningForestState σ
  | loadLinearization old_linearization _ => st.loadLinearization R g old_linearization
  | makeTopological =>
    makeTopologicalLoop R g (st.suboptimal_chunks.length+2*g.txCount) (enqueueChunks R g st)
  | startOptimizing => st.startOptimizing R g
  | optimizeStep => (st.optimizeStep R g).2

def forestRun (rng : σ) (calls : List (ForestCall g)) : SpanningForestState σ :=
  calls.foldl (ForestCall.apply R g) (init g rng)

/-- Some steps of the optimization, from a topological state. -/
def optimized (st : SpanningForestState σ) (steps : ℕ) : SpanningForestState σ :=
  (fun st => (optimizeStep R g st).2)^[steps] (startOptimizing R g st)

variable {R g} {st : SpanningForestState σ}

theorem sound_run (calls : List (ForestCall g)) (h : Sound g st) :
    Sound g (calls.foldl (ForestCall.apply R g) st) := by
  induction calls generalizing st with
  | nil => exact h
  | cons c calls ih =>
    refine ih ?_
    cases c with
    | loadLinearization l hl => exact (h.loadLinearization hl).1
    | makeTopological => exact (h.makeTopological _).1.toSound
    | startOptimizing => exact h.startOptimizing.1
    | optimizeStep => exact h.optimizeStep.1

theorem optimizing_optimized (h : Sound g st) (ho : InOrder g st) (hp : g.PositiveSizes) (n : ℕ) :
    Optimizing g (optimized R g st n) ∧ Improved g st (optimized R g st n) := by
  induction n with
  | zero => exact h.startOptimizing.2.2.2 ho
  | succ n ih =>
    obtain ⟨hn,hm⟩ := ih
    obtain ⟨hs,hm'⟩ := hn.toSound.optimizeStep.2.2.2.2 hp hn
    rw [optimized,Function.iterate_succ_apply']
    exact ⟨hs,hm.trans hm'⟩

end

/-- After any calls, `MakeTopological` leaves the chunks in order, and steps of the optimization
keep them so and never lower the diagram. The state can be linearized after each step, and optimally
once a step says that nothing is left to do. -/
theorem forestRun_optimizes {σ : Type*} (R : RandomContext σ) (g : DepGraph)
    (hacyclic : g.IsAcyclic)
    (hpos : g.PositiveSizes) (rng : σ) (calls : List (ForestCall g)) :
    Sound g (forestRun R g rng calls) ∧
    ∀ st, st = ForestCall.apply R g (forestRun R g rng calls) .makeTopological → ∀ steps,
      Sound g (optimized R g st steps) ∧ Improved g st (optimized R g st steps) ∧
      g.IsTopological (getLinearization R g (optimized R g st steps)) ∧
      ((optimizeStep R g (optimized R g st steps)).1 = false →
        ∀ linearization, g.IsTopological linearization → ∀ x : ℝ, 0 ≤ x →
          diagram (chunkLinearization g linearization) x ≤ diagram (chunkLinearization g
            (getLinearization R g (optimized R g st (steps+1)))) x) := by
  have hr : Sound g (forestRun R g rng calls) := sound_run calls (sound_init g rng)
  refine ⟨hr,?_⟩
  rintro st rfl steps
  obtain ⟨ht,-,hq⟩ := hr.makeTopological (R := R) _
  have ho := optimizing_optimized (R := R) ht.toSound (ht.ordered hpos (hq le_rfl)) hpos
  obtain ⟨hs,hm⟩ := ho steps
  refine ⟨hs.toSound,hm,(linearization_spec hs.valid hpos hacyclic hs.ordered).1,
    fun hf l hl x hx => ?_⟩
  obtain ⟨hn,-⟩ := ho (steps+1)
  have he := hs.toSound.optimizeStep.2.2.1 hf
  rw [optimized,Function.iterate_succ_apply'] at hn ⊢
  refine diagram_le_linearized hn.valid hpos hacyclic hn.ordered hl (fun l r hr => ?_) hx
  refine hn.valid.forest.weight_le_excess hpos.size_pos (fun e hd => ?_)
    (fun v hv => hl.mem_iff.mp (hr.subset (mem_toFinset.mp hv))) fun e hd hc => ?_
  · exact not_lt.mp fun hlt => hn.not_improvable he ⟨hd,hlt⟩
  · rw [mem_toFinset] at hc ⊢
    exact hl.mem_of_ancestor hr hc (dep_of_active hd).mem_ancestors

/-- Before the forest is made topological, a part of another order is loaded into it. -/
theorem forestRun_optimizes_mixed :
    exampleGraph.IsTopological (getLinearization exampleContext exampleGraph
      (optimized exampleContext exampleGraph (ForestCall.apply exampleContext exampleGraph
        (forestRun exampleContext exampleGraph () [.startOptimizing,.optimizeStep,
          .loadLinearization [2,0] (by decide)]) .makeTopological) 1)) :=
  ((forestRun_optimizes exampleContext exampleGraph (by decide) (by decide) () _).2 _ rfl 1).2.2.1

end DripCore
