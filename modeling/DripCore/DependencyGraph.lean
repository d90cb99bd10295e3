import Mathlib.Logic.Relation
import Mathlib.Data.List.Basic

/-!
# Graphs of dependencies

A graph that only remembers which node is reached from which, so that a new dependency joins what
lies before it to what lies after it, and a removed node leaves its neighbours connected.
Representing a relation survives removals of all descendants, or of a node without parents.
-/
namespace DripCore
open List Relation

structure DependencyGraph (α : Type) where
  nodes : List α
  reach : α → α → Bool

namespace DependencyGraph
variable {α : Type}

section
variable {R : α → α → Prop} {x y : α}

/-- A path with a new edge is an old path, or passes the edge a first and a last time. -/
theorem transGen_or_edge {p c : α} : TransGen (fun x y => R x y ∨ x = p ∧ y = c) x y ↔
    TransGen R x y ∨ (x = p ∨ TransGen R x p) ∧ (c = y ∨ TransGen R c y) := by
  constructor
  · intro h
    induction h with
    | single h =>
      rcases h with h | ⟨rfl,rfl⟩
      · exact .inl (.single h)
      · exact .inr ⟨.inl rfl,.inl rfl⟩
    | tail _ h ih =>
      rcases h with h | ⟨rfl,rfl⟩
      · rcases ih with ih | ⟨hp,rfl | hc⟩
        · exact .inl (ih.tail h)
        · exact .inr ⟨hp,.inr (.single h)⟩
        · exact .inr ⟨hp,.inr (hc.tail h)⟩
      · rcases ih with ih | ⟨hp,_⟩
        · exact .inr ⟨.inr ih,.inl rfl⟩
        · exact .inr ⟨hp,.inl rfl⟩
  · have hm {a b : α} (ha : TransGen R a b) : TransGen (fun x y => R x y ∨ x = p ∧ y = c) a b :=
      ha.lift id fun _ _ => .inl
    have he : TransGen (fun x y => R x y ∨ x = p ∧ y = c) p c := .single (.inr ⟨rfl,rfl⟩)
    rintro (h | ⟨rfl | hp,rfl | hc⟩)
    · exact hm h
    · exact he
    · exact he.trans (hm hc)
    · exact (hm hp).trans he
    · exact ((hm hp).trans he).trans (hm hc)

variable {S : α → Prop}

theorem transGen_closed (hS : ∀ a b, S a → R a b → S b) (h : TransGen R x y) (hx : S x) : S y := by
  induction h with
  | single h => exact hS _ _ hx h
  | tail _ h ih => exact hS _ _ ih h

/-- Outside a set that paths do not leave, all paths stay outside. -/
theorem outside_closed (hS : ∀ a b, S a → R a b → S b) :
    TransGen (fun a b => R a b ∧ ¬S a ∧ ¬S b) x y ↔ TransGen R x y ∧ ¬S y := by
  constructor
  · intro h
    refine ⟨h.lift id fun _ _ => And.left,?_⟩
    cases h with
    | single h => exact h.2.2
    | tail _ h => exact h.2.2
  · rintro ⟨h,hy⟩
    induction h with
    | single h => exact .single ⟨h,fun hx => hy (hS _ _ hx h),hy⟩
    | tail _ h ih =>
      have hb := fun hb => hy (hS _ _ hb h)
      exact (ih hb).tail ⟨h,hb,hy⟩

/-- A node that nothing leads to is on no path from another node. -/
theorem transGen_ne_source {s : α} (hs : ∀ a, ¬R a s) :
    TransGen (fun a b => R a b ∧ a ≠ s ∧ b ≠ s) x y ↔ TransGen R x y ∧ x ≠ s := by
  have ht {a b : α} (h : R a b) : b ≠ s := fun hb => hs a (hb ▸ h)
  constructor
  · intro h
    refine ⟨h.lift id fun _ _ => And.left,?_⟩
    cases h using TransGen.head_induction_on with
    | single h => exact h.2.1
    | head h _ => exact h.2.1
  · rintro ⟨h,hx⟩
    induction h with
    | single h => exact .single ⟨h,hx,ht h⟩
    | tail hp h ih =>
      refine ih.tail ⟨h,?_,ht h⟩
      cases hp with
      | single h => exact ht h
      | tail _ h => exact ht h

end

def empty : DependencyGraph α := ⟨[],fun _ _ => false⟩

def addNode (g : DependencyGraph α) (x : α) : DependencyGraph α := { g with nodes := x::g.nodes }

/-- Reachability in the graph is the transitive closure of a relation between its nodes. -/
structure Represents (g : DependencyGraph α) (R : α → α → Prop) : Prop where
  left : ∀ {x y}, R x y → x ∈ g.nodes
  right : ∀ {x y}, R x y → y ∈ g.nodes
  reach : ∀ {x y}, g.reach x y = true ↔ TransGen R x y

variable {g : DependencyGraph α} {R R' : α → α → Prop}

theorem Represents.congr (h : g.Represents R) (hR : ∀ x y, R x y ↔ R' x y) : g.Represents R' := by
  have he : R = R' := funext fun x => funext fun y => propext (hR x y)
  exact he ▸ h

theorem represents_empty : (empty : DependencyGraph α).Represents fun _ _ => False where
  left := False.elim
  right := False.elim
  reach {x y} := by
    constructor
    · exact nofun
    · intro h
      cases h with
      | single h => exact h.elim
      | tail _ h => exact h.elim

theorem Represents.addNode (h : g.Represents R) (x : α) : (g.addNode x).Represents R where
  left hR := mem_cons_of_mem _ (h.left hR)
  right hR := mem_cons_of_mem _ (h.right hR)
  reach := h.reach

variable [DecidableEq α]

/-- A dependency between nodes that are not there has no effect. -/
def addDependency (g : DependencyGraph α) (parent child : α) : DependencyGraph α :=
  if parent ∈ g.nodes ∧ child ∈ g.nodes then
    { g with reach := fun x y =>
        g.reach x y || ((x == parent || g.reach x parent) && (child == y || g.reach child y)) }
  else g

def remove (g : DependencyGraph α) (x : α) : DependencyGraph α where
  nodes := g.nodes.filter (· ≠ x)
  reach a b := g.reach a b && decide (a ≠ x) && decide (b ≠ x)

def descendants (g : DependencyGraph α) (x : α) : List α :=
  if x ∈ g.nodes then g.nodes.filter fun y => y == x || g.reach x y else []

def descendantsUnion (g : DependencyGraph α) (xs : List α) : List α :=
  g.nodes.filter fun y => xs.any fun x => decide (x ∈ g.nodes) && (y == x || g.reach x y)

variable {x y : α}

theorem mem_descendants : y ∈ g.descendants x ↔ x ∈ g.nodes ∧ y ∈ g.nodes ∧
    (y = x ∨ g.reach x y = true) := by
  unfold descendants
  split_ifs with hx
  · simp [hx]
  · simp [hx]

variable {xs : List α}

theorem mem_descUnion : y ∈ g.descendantsUnion xs ↔ y ∈ g.nodes ∧ ∃ x ∈ xs,
    x ∈ g.nodes ∧ (y = x ∨ g.reach x y = true) := by
  simp [descendantsUnion]

theorem nodup_union (h : g.nodes.Nodup) (xs : List α) : (g.descendantsUnion xs).Nodup := h.filter _

def removeAll (g : DependencyGraph α) (xs : List α) : DependencyGraph α := xs.foldl remove g

theorem mem_removeAll : y ∈ (g.removeAll xs).nodes ↔ y ∈ g.nodes ∧ y ∉ xs := by
  induction xs generalizing g with
  | nil => simp [removeAll]
  | cons x xs ih =>
    rw [removeAll,foldl_cons,← removeAll,ih]
    simp only [remove,mem_filter,decide_eq_true_eq,mem_cons,not_or]
    exact and_assoc

theorem reach_removeAll : (g.removeAll xs).reach x y = true ↔ g.reach x y = true ∧ x ∉ xs ∧
    y ∉ xs := by
  induction xs generalizing g with
  | nil => simp [removeAll]
  | cons z xs ih =>
    rw [removeAll,foldl_cons,← removeAll,ih]
    simp only [remove,Bool.and_eq_true,decide_eq_true_eq,mem_cons]
    tauto

theorem Represents.addDependency (h : g.Represents R) {p c : α} (hp : p ∈ g.nodes)
    (hc : c ∈ g.nodes) :
    (g.addDependency p c).Represents fun x y => R x y ∨ x = p ∧ y = c := by
  rw [DependencyGraph.addDependency,if_pos ⟨hp,hc⟩]
  constructor
  · rintro x y (hR | ⟨rfl,rfl⟩)
    · exact h.left hR
    · exact hp
  · rintro x y (hR | ⟨rfl,rfl⟩)
    · exact h.right hR
    · exact hc
  · intro x y
    simp only [Bool.or_eq_true,Bool.and_eq_true,beq_iff_eq,h.reach,transGen_or_edge]

theorem nodes_addDependency (g : DependencyGraph α) (p c : α) :
    (g.addDependency p c).nodes = g.nodes := by
  unfold DependencyGraph.addDependency
  split_ifs <;> rfl

theorem Represents.removeAll (h : g.Represents R) (hs : ∀ a b, a ∈ xs → R a b → b ∈ xs) :
    (g.removeAll xs).Represents fun a b => R a b ∧ a ∉ xs ∧ b ∉ xs where
  left hR := mem_removeAll.mpr ⟨h.left hR.1,hR.2.1⟩
  right hR := mem_removeAll.mpr ⟨h.right hR.1,hR.2.2⟩
  reach {x y} := by
    rw [reach_removeAll,h.reach,outside_closed hs]
    constructor
    · exact fun hp => ⟨hp.1,hp.2.2⟩
    · rintro ⟨hp,hy⟩
      exact ⟨hp,fun hx => hy (transGen_closed hs hp hx),hy⟩

theorem Represents.remove_source (h : g.Represents R) {s : α} (hs : ∀ a, ¬R a s) :
    (g.remove s).Represents fun a b => R a b ∧ a ≠ s ∧ b ≠ s where
  left hR := mem_filter.mpr ⟨h.left hR.1,decide_eq_true hR.2.1⟩
  right hR := mem_filter.mpr ⟨h.right hR.1,decide_eq_true hR.2.2⟩
  reach {x y} := by
    rw [transGen_ne_source hs,← h.reach,DependencyGraph.remove]
    simp only [Bool.and_eq_true,decide_eq_true_eq]
    constructor
    · exact fun hp => hp.1
    · rintro ⟨hp,hx⟩
      refine ⟨⟨hp,hx⟩,fun hy => ?_⟩
      cases h.reach.mp hp with
      | single hR => exact hs _ (hy ▸ hR)
      | tail _ hR => exact hs _ (hy ▸ hR)

/-- The descendants of some nodes take along what depends on them. -/
theorem Represents.union_closed (h : g.Represents R) (xs : List α) (a b : α)
    (ha : a ∈ g.descendantsUnion xs) (hR : R a b) : b ∈ g.descendantsUnion xs := by
  rw [mem_descUnion] at ha ⊢
  obtain ⟨_,x,hx,hn,rfl | hr⟩ := ha
  · exact ⟨h.right hR,a,hx,hn,.inr (h.reach.mpr (.single hR))⟩
  · exact ⟨h.right hR,x,hx,hn,.inr (h.reach.mpr ((h.reach.mp hr).tail hR))⟩

theorem descendants_eq_union (x : α) : g.descendants x = g.descendantsUnion [x] := by
  unfold descendants descendantsUnion
  split_ifs with hx <;> simp [hx]

end DependencyGraph
end DripCore
