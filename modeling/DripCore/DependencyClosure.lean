import DripCore.DepGraph
import Mathlib.Logic.Relation

/-!
# The closure kept by a transaction graph

Whatever transactions and dependencies are added and removed, the ancestors of a transaction are
what paths of dependencies lead from. A removed transaction leaves the paths through it behind.
-/
namespace DripCore.DepGraph
open Finset Relation

/-- Trailing entries that are not in use are dropped. -/
def trim (used : Finset DepGraphIndex) : ℕ → ℕ
  | 0 => 0
  | n+1 => if n ∈ used then n+1 else trim used n

theorem lt_trim {used : Finset DepGraphIndex} {i n : ℕ} (hi : i ∈ used) (hn : i < n) :
    i < trim used n := by
  induction n with
  | zero => exact hn
  | succ n ih =>
    rw [trim]
    split_ifs with hu
    · exact hn
    · exact ih (lt_of_le_of_ne (Nat.le_of_lt_succ hn) fun he => hu (he ▸ hi))

def removeTransactions (g : DepGraph) (del : Finset DepGraphIndex) : DepGraph where
  entries i := ⟨g.feeRate i,g.ancestors i ∩ (g.used \ del),g.descendants i ∩ (g.used \ del)⟩
  positionRange := trim (g.used \ del) g.positionRange
  used := g.used \ del
  lt_of_used i hi := lt_trim hi (g.lt_of_used i (mem_sdiff.mp hi).1)
  ancestors_subset i hi := inter_subset_right
  self_mem i hi := mem_inter.mpr ⟨g.self_mem i (mem_sdiff.mp hi).1,hi⟩
  ancestors_trans i hi j hj := inter_subset_inter_right
    (g.ancestors_trans i (mem_sdiff.mp hi).1 j (mem_inter.mp hj).1)
  mem_descendants i hi j := by
    have hu := mem_sdiff.mp hi
    simp only [mem_inter,descendants,ancestors,g.mem_descendants i hu.1 j,hi]
    have hs : j ∈ g.used \ del → j ∈ g.used := fun h => (mem_sdiff.mp h).1
    tauto

/-- The graphs that calls lead to, with the dependencies that remain. -/
inductive Built : DepGraph → (DepGraphIndex → DepGraphIndex → Prop) → Prop
  | empty : Built .empty fun _ _ => False
  | addTransaction {g r} (h : Built g r) (feefrac : FeeFrac) : Built (g.addTransaction feefrac) r
  | addDependencies {g r} (h : Built g r) (parents : Finset DepGraphIndex) (child : DepGraphIndex)
    (hparents : parents ⊆ g.used) (hchild : child ∈ g.used) :
    Built (g.addDependencies parents child hparents hchild) fun p c => r p c ∨ p ∈ parents ∧
      c = child
  | removeTransactions {g r} (h : Built g r) (del : Finset DepGraphIndex) :
    Built (g.removeTransactions del) fun p c => p ∉ del ∧ c ∉ del ∧ TransGen r p c

/-- Dependencies are within the graph, and the ancestors are all that they lead from. -/
structure Exact (g : DepGraph) (r : DepGraphIndex → DepGraphIndex → Prop) : Prop where
  mem : ∀ p c, r p c → c ∈ g.used ∧ p ∈ g.ancestors c
  path : ∀ i ∈ g.used, ∀ a ∈ g.ancestors i, ReflTransGen r a i

variable {g : DepGraph} {r : DepGraphIndex → DepGraphIndex → Prop} {a i : DepGraphIndex}

theorem Exact.mem_ancestors (h : Exact g r) (hi : i ∈ g.used) (hp : ReflTransGen r a i) :
    a ∈ g.ancestors i := by
  induction hp using ReflTransGen.head_induction_on with
  | refl => exact g.self_mem i hi
  | head hr _ ih => exact g.ancestors_trans i hi _ ih (h.mem _ _ hr).2

theorem Exact.addTransaction (h : Exact g r) (f : FeeFrac) : Exact (g.addTransaction f) r := by
  have he {i} (hi : i ∈ g.used) : (g.addTransaction f).ancestors i = g.ancestors i :=
    congrArg DepGraphEntry.ancestors (Function.update_of_ne (g.ne_firstAvailable hi) _ _)
  refine ⟨fun p c hr => ?_,fun i hi a ha => ?_⟩
  · obtain ⟨hc,hp⟩ := h.mem p c hr
    exact ⟨mem_insert_of_mem hc,he hc ▸ hp⟩
  · rcases mem_insert.mp hi with rfl | hi
    · simp only [ancestors,DepGraph.addTransaction,Function.update_self] at ha
      rw [mem_singleton.mp ha]
    · exact h.path i hi a (he hi ▸ ha)

theorem mem_addDependencies {ps : Finset DepGraphIndex} {c : DepGraphIndex} (hp : ps ⊆ g.used)
    (hc : c ∈ g.used)
    (hi : i ∈ g.used) : a ∈ (g.addDependencies ps c hp hc).ancestors i ↔
      a ∈ g.ancestors i ∨ c ∈ g.ancestors i ∧ ∃ p ∈ ps, a ∈ g.ancestors p := by
  change a ∈ ite _ _ _ ↔ _
  have hd : i ∈ g.descendants c ↔ c ∈ g.ancestors i :=
    (mem_descendants_iff hc).trans (and_iff_right hi)
  have ht (j k : DepGraphIndex) : j ∈ g.ancestors i → k ∈ g.ancestors j → k ∈ g.ancestors i :=
    mem_ancestors_trans hi
  split_ifs <;> grind [mem_parentAncestors]

theorem Exact.addDependencies (h : Exact g r) {ps : Finset DepGraphIndex} {c : DepGraphIndex}
    (hp : ps ⊆ g.used) (hc : c ∈ g.used) :
    Exact (g.addDependencies ps c hp hc) fun p d => r p d ∨ p ∈ ps ∧ d = c := by
  have hm {a i} (hr : ReflTransGen r a i) : ReflTransGen (fun p d => r p d ∨ p ∈ ps ∧ d = c) a i :=
    hr.lift id fun _ _ => .inl
  refine ⟨?_,fun i hi a ha => ?_⟩
  · rintro p d (hr | ⟨hr,rfl⟩)
    · obtain ⟨hd,hr⟩ := h.mem p d hr
      exact ⟨hd,(mem_addDependencies hp hc hd).mpr (.inl hr)⟩
    · exact ⟨hc,(mem_addDependencies hp hc hc).mpr
        (.inr ⟨g.self_mem d hc,p,hr,g.self_mem p (hp hr)⟩)⟩
  · rcases (mem_addDependencies hp hc hi).mp ha with ha | ⟨hci,p,hps,ha⟩
    · exact hm (h.path i hi a ha)
    · exact ((hm (h.path p (hp hps) a ha)).tail (.inr ⟨hps,rfl⟩)).trans (hm (h.path i hi c hci))

theorem Exact.removeTransactions (h : Exact g r) (del : Finset DepGraphIndex) :
    Exact (g.removeTransactions del) fun p c => p ∉ del ∧ c ∉ del ∧ TransGen r p c := by
  refine ⟨fun p c ⟨hp,hc,hr⟩ => ?_,fun i hi a ha => ?_⟩
  · obtain ⟨d,-,hl⟩ := TransGen.tail'_iff.mp hr
    have hu := (h.mem d c hl).1
    have ha := h.mem_ancestors hu hr.to_reflTransGen
    exact ⟨mem_sdiff.mpr ⟨hu,hc⟩,mem_inter.mpr ⟨ha,mem_sdiff.mpr ⟨g.ancestors_subset c hu ha,hp⟩⟩⟩
  · obtain ⟨hi,hid⟩ := mem_sdiff.mp hi
    obtain ⟨ha,had⟩ := mem_inter.mp ha
    rcases reflTransGen_iff_eq_or_transGen.mp (h.path i hi a ha) with rfl | hr
    · rfl
    · exact .single ⟨(mem_sdiff.mp had).2,hid,hr⟩

theorem Built.exact (h : Built g r) : Exact g r := by
  induction h with
  | empty => exact ⟨nofun,nofun⟩
  | addTransaction _ f ih => exact ih.addTransaction f
  | addDependencies _ _ _ hp hc ih => exact ih.addDependencies hp hc
  | removeTransactions _ del ih => exact ih.removeTransactions del

/-- Ancestors and descendants are exactly what the dependencies lead from and to. -/
theorem built_closure_exact (g : DepGraph) (r : DepGraphIndex → DepGraphIndex → Prop)
    (h : Built g r)
    (i : DepGraphIndex) (hi : i ∈ g.positions) (j : DepGraphIndex) (hj : j ∈ g.positions) :
    (j ∈ g.ancestors i ↔ ReflTransGen r j i) ∧ (j ∈ g.descendants i ↔ ReflTransGen r i j) := by
  have he := h.exact
  rw [mem_descendants_iff hi,and_iff_right hj]
  exact ⟨⟨he.path i hi j,he.mem_ancestors hi⟩,⟨he.path j hj i,he.mem_ancestors hj⟩⟩

/-- When the parent is removed, the grandparent stays an ancestor. -/
theorem built_closure_exact_removed : ∃ g r, Built g r ∧ g.positions = {0, 2} ∧
    ReflTransGen r 0 2 := by
  have h := (((((Built.empty.addTransaction ⟨3,1⟩).addTransaction ⟨1,1⟩).addTransaction
    ⟨9,1⟩).addDependencies {0} 1 (by decide) (by decide)).addDependencies {1} 2 (by decide)
    (by decide)).removeTransactions {1}
  exact ⟨_,_,h,by decide,(built_closure_exact _ _ h 2 (by decide) 0 (by decide)).1.mp (by decide)⟩

end DripCore.DepGraph
