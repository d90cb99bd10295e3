import Mathlib.Data.List.Nodup
import Mathlib.Logic.Relation

/-!
# Rooted trees by parent pointers

A finite tree in which every node but the root points to its parent and knows its depth. The
ancestors of a node form a chain, one at every depth.
-/
namespace DripCore.ParentTree
open Option Relation.ReflTransGen

variable {B : Type} {parent : B → Option B} {depth : B → ℕ} {nodes : List B} {root : B}

/-- The first node is the second one or one of its ancestors. -/
def Anc (parent : B → Option B) : B → B → Prop := Relation.ReflTransGen fun p b => parent b = some p

def up (parent : B → Option B) : ℕ → B → Option B
  | 0, b => some b
  | k+1, b => (parent b).bind (up parent k)

def ancestorAt (parent : B → Option B) (depth : B → ℕ) (b : B) (d : ℕ) : Option B :=
  if depth b < d then none else up parent (depth b-d) b

structure IsTree (nodes : List B) (root : B) (parent : B → Option B) (depth : B → ℕ) : Prop where
  nodup : nodes.Nodup
  root_mem : root ∈ nodes
  parent_root : parent root = none
  depth_root : depth root = 0
  parent_of_mem : ∀ b ∈ nodes, b ≠ root → ∃ p ∈ nodes, parent b = some p ∧ depth b = depth p+1

theorem Anc.refl (b : B) : Anc parent b b := Relation.ReflTransGen.refl

variable {a b c p : B}

theorem Anc.trans (hab : Anc parent a b) (hc : Anc parent b c) : Anc parent a c :=
    Relation.ReflTransGen.trans hab hc

theorem anc_of_parent (h : parent b = some p) : Anc parent p b := .single h

theorem anc_step (h : parent b = some p) (a : B) : Anc parent a b ↔ a = b ∨ Anc parent a p := by
  constructor
  · intro hab
    rcases cases_tail hab with rfl | ⟨q,ha,hq⟩
    · exact .inl rfl
    · rw [h,some.injEq] at hq
      exact .inr (hq ▸ ha)
  · rintro (rfl | hp)
    · exact .refl _
    · exact hp.trans (anc_of_parent h)

theorem Anc.total (ha : Anc parent a c) (hc : Anc parent b c) : Anc parent a b ∨
    Anc parent b a := by
  induction ha using head_induction_on with
  | refl => exact .inr hc
  | @head a q hq haq ih =>
    rcases ih with hqb | hbq
    · exact .inl (head hq hqb)
    · rcases (anc_step hq b).mp hbq with rfl | hba
      · exact .inl (anc_of_parent hq)
      · exact .inr hba

theorem anc_of_up {k : ℕ} (h : up parent k b = some a) : Anc parent a b := by
  induction k generalizing b with
  | zero =>
    rw [up,some.injEq] at h
    exact h ▸ .refl _
  | succ k ih =>
    obtain ⟨p,hp,hu⟩ := bind_eq_some_iff.mp h
    exact (ih hu).trans (anc_of_parent hp)

namespace IsTree

variable (t : IsTree nodes root parent depth)
include t

variable {b a : B} {d : ℕ}

theorem parent_eq_none (hb : b ∈ nodes) : parent b = none ↔ b = root := by
  constructor
  · intro h
    by_contra hn
    obtain ⟨p,-,hp,-⟩ := t.parent_of_mem b hb hn
    rw [h] at hp
    exact absurd hp (by simp)
  · rintro rfl
    exact t.parent_root

theorem parent_spec (hb : b ∈ nodes) (h : parent b = some p) : p ∈ nodes ∧ depth b = depth p+1 := by
  have hn : b ≠ root := by
    rintro rfl
    rw [t.parent_root] at h
    exact absurd h (by simp)
  obtain ⟨q,hq,hp,hd⟩ := t.parent_of_mem b hb hn
  rw [h,some.injEq] at hp
  exact hp ▸ ⟨hq,hd⟩

section
variable {a b : B} (hab : Anc parent a b) (hb : b ∈ nodes)
include hab hb

theorem mem_of_anc : a ∈ nodes := by
  induction hab using head_induction_on with
  | refl => exact hb
  | head hp _ ih => exact (t.parent_spec ih hp).1

theorem up_of_anc : depth a ≤ depth b ∧ up parent (depth b-depth a) b = some a := by
  induction hab with
  | refl => simp [up]
  | @tail p c ha hp ih =>
    obtain ⟨hm,hd⟩ := t.parent_spec hb hp
    obtain ⟨hl,hu⟩ := ih hm
    refine ⟨by omega,?_⟩
    rw [show depth c-depth a = (depth p-depth a)+1 by omega,up,hp,bind_some,hu]

theorem depth_le_of_anc : depth a ≤ depth b := (t.up_of_anc hab hb).1

theorem eq_of_anc_of_depth (hd : depth a = depth b) : a = b := by
  have hu := (t.up_of_anc hab hb).2
  rw [hd,Nat.sub_self,up,some.injEq] at hu
  exact hu.symm

end

theorem anc_of_depth_le (ha : Anc parent a c) (hbc : Anc parent b c) (hc : c ∈ nodes)
    (hd : depth a ≤ depth b) : Anc parent a b := by
  rcases ha.total hbc with hab | hba
  · exact hab
  · have he := t.eq_of_anc_of_depth hba (t.mem_of_anc ha hc)
      (Nat.le_antisymm (t.depth_le_of_anc hba (t.mem_of_anc ha hc)) hd)
    exact he ▸ .refl _

theorem exists_up (hb : b ∈ nodes) {k : ℕ} (hk : k ≤ depth b) : ∃ a, up parent k b = some a ∧
    depth a+k = depth b := by
  induction k generalizing b with
  | zero => exact ⟨b,rfl,rfl⟩
  | succ k ih =>
    have hn : b ≠ root := by
      rintro rfl
      rw [t.depth_root] at hk
      omega
    obtain ⟨p,hp,ha,hd⟩ := t.parent_of_mem b hb hn
    obtain ⟨a,hu,hl⟩ := ih hp (by omega)
    exact ⟨a,by rw [up,ha,bind_some,hu],by omega⟩

theorem ancestorAt_eq_some (hb : b ∈ nodes) : ancestorAt parent depth b d = some a ↔
    Anc parent a b ∧ depth a = d := by
  unfold ancestorAt
  constructor
  · intro h
    split_ifs at h with hl
    have hab := anc_of_up h
    obtain ⟨a',hu,hd⟩ := t.exists_up hb (show depth b-d ≤ depth b by omega)
    rw [h,some.injEq] at hu
    exact ⟨hab,by rw [hu]; omega⟩
  · rintro ⟨hab,rfl⟩
    rw [if_neg (by have := t.depth_le_of_anc hab hb; omega)]
    exact (t.up_of_anc hab hb).2

theorem exists_ancestorAt (hb : b ∈ nodes) (hd : d ≤ depth b) : ∃ a,
    ancestorAt parent depth b d = some a := by
  obtain ⟨a,hu,-⟩ := t.exists_up hb (show depth b-d ≤ depth b by omega)
  exact ⟨a,by rw [ancestorAt,if_neg (by omega),hu]⟩

end IsTree
end DripCore.ParentTree
