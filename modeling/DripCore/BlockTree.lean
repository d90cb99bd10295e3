import DripCore.ParentTree
import Mathlib.Data.Nat.Bitwise

/-!
# The tree of block index entries

Entries point to their predecessor and to one further back, at a height that only depends on their
own. `GetAncestor` follows whichever pointer gets closer without going too far.

Skip pointers make no difference to the result, only to the number of steps. The chain state reads
ancestors through this fact.
-/
namespace DripCore
open ParentTree

/-- Turn the lowest one bit into a zero. -/
def invertLowestOne (n : ℕ) : ℕ := n &&& (n-1)

/-- The height the skip pointer of an entry goes back to. -/
def getSkipHeight (height : ℕ) : ℕ :=
  if height < 2 then 0
  else if height % 2 = 1 then invertLowestOne (invertLowestOne (height-1))+1
  else invertLowestOne height

theorem invertLowest_le (n : ℕ) : invertLowestOne n ≤ n-1 := Nat.and_le_right

theorem skipHeight_lt {height : ℕ} (h : 0 < height) : getSkipHeight height < height := by
  unfold getSkipHeight
  split_ifs with hs hd
  · exact h
  · have hn := invertLowest_le (height-1)
    have ho := invertLowest_le (invertLowestOne (height-1))
    omega
  · have hl := invertLowest_le height
    omega

/-- The block index: every entry but genesis is one above its predecessor, with its skip pointer. -/
structure BlockTree (B : Type) where
  blocks : List B
  genesis : B
  pprev : B → Option B
  pskip : B → Option B
  nHeight : B → ℕ
  isTree : IsTree blocks genesis pprev nHeight
  skip_genesis : pskip genesis = none
  skip_eq : ∀ b ∈ blocks, ∀ p, pprev b = some p →
    pskip b = ancestorAt pprev nHeight p (getSkipHeight (nHeight b))

namespace BlockTree
variable {B : Type} (t : BlockTree B)

/-- The loop of `GetAncestor`. It fails without a predecessor; the steps left bound its length. -/
def ancestorLoop (height : ℕ) : ℕ → B → ℕ → Option B
  | 0, pindexWalk, heightWalk => if height < heightWalk then none else some pindexWalk
  | steps+1, pindexWalk, heightWalk =>
    if height < heightWalk then
      let heightSkip := getSkipHeight heightWalk
      let heightSkipPrev := getSkipHeight (heightWalk-1)
      match t.pskip pindexWalk with
      | some pskip =>
        if heightSkip = height ∨ height < heightSkip ∧
            ¬ (heightSkipPrev+2 < heightSkip ∧ height ≤ heightSkipPrev) then
          ancestorLoop height steps pskip heightSkip
        else (t.pprev pindexWalk).bind fun pprev => ancestorLoop height steps pprev (heightWalk-1)
      | none => (t.pprev pindexWalk).bind fun pprev =>
        ancestorLoop height steps pprev (heightWalk-1)
    else some pindexWalk

def getAncestor (b : B) (height : ℕ) : Option B :=
  if t.nHeight b < height then none else t.ancestorLoop height (t.nHeight b) b (t.nHeight b)

abbrev IsAncestor (a b : B) : Prop := Anc t.pprev a b

variable {t}
variable {a b : B}

theorem mem_of_isAncestor (h : t.IsAncestor a b) (hb : b ∈ t.blocks) : a ∈ t.blocks :=
    t.isTree.mem_of_anc h hb

variable (hb : b ∈ t.blocks)
include hb

/-- A skip pointer goes to the ancestor at the skip height. -/
theorem pskip_spec (h : t.pskip b = some a) : t.IsAncestor a b ∧
    t.nHeight a = getSkipHeight (t.nHeight b) := by
  cases hr : t.pprev b with
  | none =>
    rw [(t.isTree.parent_eq_none hb).mp hr,t.skip_genesis] at h
    exact absurd h (by simp)
  | some p =>
    obtain ⟨hp,-⟩ := t.isTree.parent_spec hb hr
    rw [t.skip_eq b hb p hr,t.isTree.ancestorAt_eq_some hp] at h
    exact ⟨h.1.trans (anc_of_parent hr),h.2⟩

theorem ancestorLoop_eq_some (ha : t.IsAncestor a b) {steps : ℕ}
    (hst : t.nHeight b ≤ t.nHeight a+steps) :
    t.ancestorLoop (t.nHeight a) steps b (t.nHeight b) = some a := by
  induction steps generalizing b with
  | zero =>
    have hl := t.isTree.depth_le_of_anc ha hb
    rw [ancestorLoop,if_neg (by omega),t.isTree.eq_of_anc_of_depth ha hb (by omega)]
  | succ steps ih =>
    rw [ancestorLoop]
    split_ifs with ht
    · have hr : ((t.pprev b).bind fun pprev =>
          t.ancestorLoop (t.nHeight a) steps pprev (t.nHeight b-1)) = some a := by
        have hn : b ≠ t.genesis := fun he => by
          rw [he,t.isTree.depth_root] at ht
          exact absurd ht (Nat.not_lt_zero _)
        obtain ⟨p,hp,hr,hh⟩ := t.isTree.parent_of_mem b hb hn
        have hap : t.IsAncestor a p := by
          rcases (anc_step hr a).mp ha with rfl | hap
          · exact absurd ht (lt_irrefl _)
          · exact hap
        rw [hr,show t.nHeight b-1 = t.nHeight p by omega]
        exact ih hp hap (by omega)
      dsimp only
      cases hk : t.pskip b with
      | none => exact hr
      | some s =>
        obtain ⟨hs,hh⟩ := pskip_spec hb hk
        split_ifs with hf
        · have hl : t.nHeight a ≤ t.nHeight s := by omega
          have hbe := skipHeight_lt (show 0 < t.nHeight b by omega)
          rw [← hh]
          exact ih (mem_of_isAncestor hs hb) (t.isTree.anc_of_depth_le ha hs hb hl) (by omega)
        · exact hr
    · have hl := t.isTree.depth_le_of_anc ha hb
      rw [t.isTree.eq_of_anc_of_depth ha hb (by omega)]

theorem ancestor_eq_some {height : ℕ} : t.getAncestor b height = some a ↔
    t.IsAncestor a b ∧ t.nHeight a = height := by
  constructor
  · intro h
    rw [getAncestor] at h
    split_ifs at h with hl
    obtain ⟨a',ha'⟩ := t.isTree.exists_ancestorAt hb (not_lt.mp hl)
    obtain ⟨hab,rfl⟩ := (t.isTree.ancestorAt_eq_some hb).mp ha'
    rw [ancestorLoop_eq_some hb hab (Nat.le_add_left _ _),Option.some.injEq] at h
    exact h ▸ ⟨hab,rfl⟩
  · rintro ⟨hab,rfl⟩
    rw [getAncestor,if_neg (not_lt.mpr (t.isTree.depth_le_of_anc hab hb))]
    exact ancestorLoop_eq_some hb hab (Nat.le_add_left _ _)

theorem ancestor_eq_some_self : t.getAncestor b (t.nHeight a) = some a ↔ t.IsAncestor a b := by
  rw [ancestor_eq_some hb,and_iff_left rfl]

end BlockTree
end DripCore
