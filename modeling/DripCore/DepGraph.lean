import DripCore.FeeFrac
import Mathlib.Data.Finset.Card
import Mathlib.Data.Finset.Union

/-!
# The transaction graph of a cluster

`DepGraph` holds, for each position in use, a transaction's fee and size with all its ancestors and
descendants, itself included. Positions that are not in use are holes, whose entries are never read.
-/
namespace DripCore
open Finset Function List

abbrev DepGraphIndex := ℕ

structure DepGraphEntry where
  feerate : FeeFrac
  ancestors : Finset DepGraphIndex
  descendants : Finset DepGraphIndex
deriving DecidableEq

structure DepGraph where
  entries : DepGraphIndex → DepGraphEntry
  positionRange : ℕ
  used : Finset DepGraphIndex
  lt_of_used : ∀ i ∈ used, i < positionRange
  ancestors_subset : ∀ i ∈ used, (entries i).ancestors ⊆ used
  self_mem : ∀ i ∈ used, i ∈ (entries i).ancestors
  ancestors_trans : ∀ i ∈ used, ∀ j ∈ (entries i).ancestors,
    (entries j).ancestors ⊆ (entries i).ancestors
  mem_descendants : ∀ i ∈ used, ∀ j, j ∈ (entries i).descendants ↔
    j ∈ used ∧ i ∈ (entries j).ancestors

namespace DepGraph

def empty : DepGraph where
  entries _ := ⟨.empty,∅,∅⟩
  positionRange := 0
  used := ∅
  lt_of_used _ h := absurd h (notMem_empty _)
  ancestors_subset _ h := absurd h (notMem_empty _)
  self_mem _ h := absurd h (notMem_empty _)
  ancestors_trans _ h := absurd h (notMem_empty _)
  mem_descendants _ h := absurd h (notMem_empty _)

section
variable (g : DepGraph)

def positions : Finset DepGraphIndex := g.used

def txCount : ℕ := g.used.card

def feeRate (i : DepGraphIndex) : FeeFrac := (g.entries i).feerate

def ancestors (i : DepGraphIndex) : Finset DepGraphIndex := (g.entries i).ancestors

def descendants (i : DepGraphIndex) : Finset DepGraphIndex := (g.entries i).descendants

/-- The positions of a set in the order in which they are visited. -/
def toList (s : Finset DepGraphIndex) : List DepGraphIndex :=
  (List.range g.positionRange).filter fun i => decide (i ∈ s)

def reduceParents (parents : Finset DepGraphIndex) (parent : DepGraphIndex) :
    Finset DepGraphIndex :=
  if parent ∈ parents then insert parent (parents \ g.ancestors parent) else parents

def getReducedParents (i : DepGraphIndex) : Finset DepGraphIndex :=
  (g.toList ((g.ancestors i).erase i)).foldl g.reduceParents ((g.ancestors i).erase i)

/-- Whether no transaction is both a proper ancestor and a descendant of another. -/
def IsAcyclic : Prop := ∀ i ∈ g.positions, g.ancestors i ∩ g.descendants i = {i}

instance : Decidable g.IsAcyclic := inferInstanceAs (Decidable (∀ i ∈ g.used, _ = _))

end

section
variable {g : DepGraph} {i j k : DepGraphIndex} {s : Finset DepGraphIndex}

theorem mem_toList (hs : s ⊆ g.positions) : i ∈ g.toList s ↔ i ∈ s := by
  rw [toList,List.mem_filter,List.mem_range,decide_eq_true_eq]
  exact and_iff_right_of_imp fun hi => g.lt_of_used i (hs hi)

theorem nodup_toList (g : DepGraph) (s : Finset DepGraphIndex) : (g.toList s).Nodup :=
    nodup_range.filter _

section
variable (hi : i ∈ g.positions)
include hi

theorem ancestors_subset_positions : g.ancestors i ⊆ g.positions := g.ancestors_subset i hi

theorem mem_ancestors_self : i ∈ g.ancestors i := g.self_mem i hi

theorem mem_ancestors_trans (hj : j ∈ g.ancestors i) (hk : k ∈ g.ancestors j) : k ∈ g.ancestors i :=
  g.ancestors_trans i hi j hj hk

theorem mem_descendants_iff : j ∈ g.descendants i ↔ j ∈ g.positions ∧ i ∈ g.ancestors j :=
    g.mem_descendants i hi j

end

theorem IsAcyclic.antisymm (h : g.IsAcyclic) (hi : i ∈ g.positions) (hj : j ∈ g.ancestors i)
    (hji : i ∈ g.ancestors j) : j = i := by
  have hm : j ∈ g.ancestors i∩g.descendants i := mem_inter.mpr
    ⟨hj,(mem_descendants_iff hi).mpr ⟨ancestors_subset_positions hi hj,hji⟩⟩
  rw [h i hi] at hm
  exact Finset.mem_singleton.mp hm

end

section
variable {g : DepGraph} {i : DepGraphIndex}

theorem reduceParents_subset (l : List DepGraphIndex) (parents : Finset DepGraphIndex) :
    l.foldl g.reduceParents parents ⊆ parents := by
  induction l generalizing parents with
  | nil => exact Finset.Subset.refl _
  | cons p l ih =>
    refine (ih _).trans ?_
    rw [reduceParents]
    split_ifs with hp
    · exact insert_subset hp sdiff_subset
    · exact Finset.Subset.refl _

variable {a p : DepGraphIndex}

/-- The candidates that are left have everything among their ancestors that the candidates had. -/
theorem reduceParents_covers (l : List DepGraphIndex) {parents : Finset DepGraphIndex}
    (hpa : parents ⊆ g.positions) (hp : p ∈ parents) (ha : a ∈ g.ancestors p) :
    ∃ q ∈ l.foldl g.reduceParents parents, a ∈ g.ancestors q := by
  induction l generalizing parents p with
  | nil => exact ⟨p,hp,ha⟩
  | cons r l ih =>
    rw [foldl_cons,reduceParents]
    split_ifs with hr
    · have hs : insert r (parents \ g.ancestors r) ⊆ g.positions :=
        (insert_subset hr sdiff_subset).trans hpa
      by_cases hpr : p ∈ g.ancestors r
      · exact ih hs (mem_insert_self _ _) (mem_ancestors_trans (hpa hr) hpr ha)
      · exact ih hs (mem_insert_of_mem (mem_sdiff.mpr ⟨hp,hpr⟩)) ha
    · exact ih hpa hp ha

theorem reduced_subset : g.getReducedParents i ⊆ (g.ancestors i).erase i := reduceParents_subset _ _

theorem mem_ancestors_of_reduced (hp : p ∈ g.getReducedParents i) : p ∈ g.ancestors i :=
  mem_of_mem_erase (reduced_subset hp)

theorem ne_of_mem_reduced (hp : p ∈ g.getReducedParents i) : p ≠ i :=
    ne_of_mem_erase (reduced_subset hp)

theorem exists_reducedParent (hi : i ∈ g.positions) (ha : a ∈ g.ancestors i) (hn : a ≠ i) :
    ∃ p ∈ g.getReducedParents i, a ∈ g.ancestors p := by
  have hs := ancestors_subset_positions hi
  exact reduceParents_covers _ ((erase_subset _ _).trans hs) (mem_erase.mpr ⟨hn,ha⟩)
    (mem_ancestors_self (hs ha))

end

variable (g : DepGraph)

def firstAvailable : DepGraphIndex :=
  ((List.range (g.positionRange+1)).find? fun i => decide (i ∉ g.used)).getD g.positionRange

theorem firstAvailable_notMem : g.firstAvailable ∉ g.used := by
  rw [firstAvailable]
  cases hf : (List.range (g.positionRange+1)).find? fun i => decide (i ∉ g.used) with
  | none => exact fun hm => lt_irrefl _ (g.lt_of_used _ hm)
  | some i =>
    have hi := find?_some hf
    exact of_decide_eq_true hi

theorem ne_firstAvailable {i : DepGraphIndex} (hi : i ∈ g.used) : i ≠ g.firstAvailable :=
  fun he => g.firstAvailable_notMem (he ▸ hi)

/-- A new unconnected transaction in the first position that is free. -/
def addTransaction (feefrac : FeeFrac) : DepGraph where
  entries := update g.entries g.firstAvailable ⟨feefrac,{g.firstAvailable},{g.firstAvailable}⟩
  positionRange := max g.positionRange (g.firstAvailable+1)
  used := insert g.firstAvailable g.used
  lt_of_used i hi := by
    rcases mem_insert.mp hi with rfl | hi
    · exact lt_max_of_lt_right (Nat.lt_succ_self _)
    · exact lt_max_of_lt_left (g.lt_of_used i hi)
  ancestors_subset i hi := by
    rcases mem_insert.mp hi with rfl | hi
    · rw [update_self]
      exact singleton_subset_iff.mpr (mem_insert_self _ _)
    · rw [update_of_ne (g.ne_firstAvailable hi)]
      exact (g.ancestors_subset i hi).trans (subset_insert _ _)
  self_mem i hi := by
    rcases mem_insert.mp hi with rfl | hi
    · rw [update_self]
      exact Finset.mem_singleton_self _
    · rw [update_of_ne (g.ne_firstAvailable hi)]
      exact g.self_mem i hi
  ancestors_trans i hi j hj := by
    rcases mem_insert.mp hi with rfl | hi
    · rw [update_self] at hj
      rw [Finset.mem_singleton.mp hj]
    · rw [update_of_ne (g.ne_firstAvailable hi)] at hj ⊢
      rw [update_of_ne (g.ne_firstAvailable (g.ancestors_subset i hi hj))]
      exact g.ancestors_trans i hi j hj
  mem_descendants i hi j := by
    have hnew := g.firstAvailable_notMem
    by_cases hj : j = g.firstAvailable
    · subst hj
      rcases mem_insert.mp hi with rfl | hi
      · simp
      · rw [update_of_ne (g.ne_firstAvailable hi),g.mem_descendants i hi,
          update_self,Finset.mem_singleton]
        exact iff_of_false (fun hand => hnew hand.1) fun hand => g.ne_firstAvailable hi hand.2
    · rw [update_of_ne hj,mem_insert]
      rcases mem_insert.mp hi with rfl | hi
      · rw [update_self,Finset.mem_singleton]
        refine iff_of_false hj fun hand => hnew ?_
        exact g.ancestors_subset j (hand.1.resolve_left hj) hand.2
      · rw [update_of_ne (g.ne_firstAvailable hi),g.mem_descendants i hi,or_iff_right hj]

/-- The ancestors of the parents that are not yet ancestors of the child. -/
def parentAncestors (parents : Finset DepGraphIndex) (child : DepGraphIndex) :
    Finset DepGraphIndex :=
  (parents \ g.ancestors child).biUnion g.ancestors \ g.ancestors child

variable {g}

theorem mem_parentAncestors {parents : Finset DepGraphIndex} {child a : DepGraphIndex} :
    a ∈ g.parentAncestors parents child ↔
      (∃ p ∈ parents, p ∉ g.ancestors child ∧ a ∈ g.ancestors p) ∧ a ∉ g.ancestors child := by
  rw [parentAncestors,mem_sdiff,mem_biUnion]
  simp only [mem_sdiff,and_assoc]

/-- Adding parents to a child. The parents and the child must be in use. -/
def addDependencies (g : DepGraph) (parents : Finset DepGraphIndex) (child : DepGraphIndex)
    (hparents : parents ⊆ g.used) (hchild : child ∈ g.used) : DepGraph where
  entries i :=
    { g.entries i with
      ancestors := if i ∈ g.descendants child then g.ancestors i ∪ g.parentAncestors parents child
        else g.ancestors i
      descendants := if i ∈ g.parentAncestors parents child
        then g.descendants i ∪ g.descendants child else g.descendants i }
  positionRange := g.positionRange
  used := g.used
  lt_of_used := g.lt_of_used
  ancestors_subset i hi := by
    have hold := g.ancestors_subset i hi
    dsimp only
    split_ifs with hdesc
    · refine union_subset hold fun a ha => ?_
      obtain ⟨⟨p,hp,-,ha⟩,-⟩ := mem_parentAncestors.mp ha
      exact g.ancestors_subset p (hparents hp) ha
    · exact hold
  self_mem i hi := by
    have hself := g.self_mem i hi
    dsimp only
    split_ifs with hdesc
    · exact mem_union_left _ hself
    · exact hself
  ancestors_trans i hi j hj k hk := by
    dsimp only at hj hk ⊢
    by_cases hdesc : i ∈ g.descendants child
    · rw [if_pos hdesc,mem_union] at hj ⊢
      have hchildi := ((g.mem_descendants child hchild i).mp hdesc).2
      -- Either the new ancestors of `j` are among those of `i`, or they are old ones of a parent.
      have hcases : k ∈ g.ancestors j ∨ k ∈ g.parentAncestors parents child := by
        split_ifs at hk with hj'
        · exact mem_union.mp hk
        · exact .inl hk
      refine hcases.elim (fun hk => ?_) .inr
      rcases hj with hj | hj
      · exact .inl (g.ancestors_trans i hi j hj hk)
      · obtain ⟨⟨p,hp,hpc,hjp⟩,-⟩ := mem_parentAncestors.mp hj
        by_cases hkc : k ∈ g.ancestors child
        · exact .inl (g.ancestors_trans i hi child hchildi hkc)
        · exact .inr (mem_parentAncestors.mpr
            ⟨⟨p,hp,hpc,g.ancestors_trans p (hparents hp) j hjp hk⟩,hkc⟩)
    · rw [if_neg hdesc] at hj ⊢
      have hjdesc : j ∉ g.descendants child := by
        intro hmem
        refine hdesc ((g.mem_descendants child hchild i).mpr ⟨hi,?_⟩)
        exact g.ancestors_trans i hi j hj ((g.mem_descendants child hchild j).mp hmem).2
      rw [if_neg hjdesc] at hk
      exact g.ancestors_trans i hi j hj hk
  mem_descendants i hi j := by
    have hold := g.mem_descendants i hi j
    have hdesc := g.mem_descendants child hchild j
    dsimp only
    by_cases hi' : i ∈ g.parentAncestors parents child <;>
      by_cases hj' : j ∈ g.descendants child
    · rw [if_pos hi',if_pos hj',mem_union,mem_union]
      exact iff_of_true (.inr hj') ⟨(hdesc.mp hj').1,.inr hi'⟩
    · rw [if_pos hi',if_neg hj',mem_union,or_iff_left hj']
      exact hold
    · rw [if_neg hi',if_pos hj',mem_union,or_iff_left hi']
      exact hold
    · rw [if_neg hi',if_neg hj']
      exact hold

end DepGraph
end DripCore
