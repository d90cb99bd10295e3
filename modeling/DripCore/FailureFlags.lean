import DripCore.Chainstate

/-!
# Marking blocks as failed and reconsidering them

`SetBlockFailureFlags` marks the descendants of an invalid block; `ResetBlockFailureFlags` unmarks a
block with its ancestors and descendants. The latter forgets blocks on other branches above an
unmarked ancestor: they stay marked, although there may be no invalid block left below them.
-/
namespace DripCore
open BlockTree

/-- One of two entries is an ancestor of the other, as `ResetBlockFailureFlags` finds out. -/
def BlockTree.OnOneBranch {B : Type} (t : BlockTree B) (pindex block_index : B) : Prop :=
  t.getAncestor block_index (t.nHeight pindex) = some pindex ∨
    t.getAncestor pindex (t.nHeight block_index) = some block_index

instance {B : Type} [DecidableEq B] (t : BlockTree B) (pindex block_index : B) :
    Decidable (t.OnOneBranch pindex block_index) :=
  inferInstanceAs (Decidable (_ ∨ _))

theorem BlockTree.onOneBranch_iff {B : Type} {t : BlockTree B} {p b : B} (hp : p ∈ t.blocks)
    (hb : b ∈ t.blocks) : t.OnOneBranch p b ↔ t.IsAncestor p b ∨ t.IsAncestor b p := by
  rw [OnOneBranch,ancestor_eq_some_self hb,ancestor_eq_some_self hp]

namespace Chainstate
open ParentTree

variable {B : Type} [LinearOrder B]

/-- A block is marked as failed if and only if it or an ancestor was found invalid itself. -/
def FlagsExact (s : Chainstate B) : Prop := ∀ b ∈ s.tree.blocks, (s.nStatus b).failed = true ↔
    ∃ a, s.tree.IsAncestor a b ∧ (s.nStatus a).failedValid = true

omit [LinearOrder B] in
theorem flagsExact_iff_ancestor (s : Chainstate B) : s.FlagsExact ↔
    ∀ b ∈ s.tree.blocks, (s.nStatus b).failed = true ↔ ∃ a ∈ s.tree.blocks,
      s.tree.getAncestor b (s.tree.nHeight a) = some a ∧ (s.nStatus a).failedValid = true := by
  refine forall₂_congr fun b hb => iff_congr Iff.rfl (exists_congr fun a => ?_)
  rw [ancestor_eq_some_self hb]
  constructor
  · exact fun ⟨ha,hv⟩ => ⟨mem_of_isAncestor ha hb,ha,hv⟩
  · exact fun ⟨_,ha,hv⟩ => ⟨ha,hv⟩

instance (s : Chainstate B) : Decidable s.FlagsExact :=
    decidable_of_iff _ s.flagsExact_iff_ancestor.symm

def setBlockFailureFlags (s : Chainstate B) (invalid_block : B) : Chainstate B :=
  { s with
    nStatus b :=
      if b ∈ s.tree.blocks ∧ invalid_block ≠ b ∧
          s.tree.getAncestor b (s.tree.nHeight invalid_block) = some invalid_block then
        { s.nStatus b with failedValid := false, failedChild := true }
      else s.nStatus b }

section
variable {s : Chainstate B} {p b : B}

theorem failed_setFlags (hb : b ∈ s.tree.blocks) (hn : p ≠ b) (h : s.tree.IsAncestor p b) :
    ((s.setBlockFailureFlags p).nStatus b).failed = true := by
  have hc := (ancestor_eq_some_self hb).mpr h
  simp [setBlockFailureFlags,hb,hn,hc,BlockStatus.failed]

theorem nStatus_setFlags (hb : b ∈ s.tree.blocks) (h : s.tree.IsAncestor p b → p = b) :
    (s.setBlockFailureFlags p).nStatus b = s.nStatus b :=
  if_neg fun hc => hc.2.1 (h ((ancestor_eq_some_self hb).mp hc.2.2))

/-- If the marks are exact but above a block that was found invalid, marking its descendants makes
them exact. -/
theorem flagsExact_setBlockFailureFlags (hp : p ∈ s.tree.blocks)
    (hv : (s.nStatus p).failedValid = true)
    (hs : ∀ b ∈ s.tree.blocks, ¬s.tree.IsAncestor p b → ((s.nStatus b).failed = true ↔
      ∃ a, s.tree.IsAncestor a b ∧ (s.nStatus a).failedValid = true)) :
    (s.setBlockFailureFlags p).FlagsExact := by
  have hpv : ((s.setBlockFailureFlags p).nStatus p).failedValid = true := by
    rw [nStatus_setFlags hp fun _ => rfl,hv]
  intro b (hb : b ∈ s.tree.blocks)
  by_cases hpb : s.tree.IsAncestor p b
  · refine ⟨fun _ => ⟨p,hpb,hpv⟩,fun _ => ?_⟩
    by_cases he : p = b
    · rw [← he,BlockStatus.failed,hpv,Bool.true_or]
    · exact failed_setFlags hb he hpb
  · rw [nStatus_setFlags hb fun h => absurd h hpb,hs b hb hpb]
    -- No ancestor of the block is above the invalid one, so all keep their marks.
    refine exists_congr fun a => and_congr_right fun ha => ?_
    rw [nStatus_setFlags (mem_of_isAncestor ha hb) fun h => absurd (h.trans ha) hpb]

end

def resetBlock (pindex : B) (s : Chainstate B) (block_index : B) : Chainstate B :=
  if (s.nStatus block_index).failed = true ∧ s.tree.OnOneBranch pindex block_index then
    let s := { s with
      nStatus := Function.update s.nStatus block_index (s.nStatus block_index).clearFailed }
    let s := if (s.nStatus block_index).isValid .transactions && s.haveNumChainTxs block_index &&
        s.workLess s.tip block_index then s.insertCandidate block_index else s
    if s.bestInvalid = some block_index then { s with bestInvalid := none } else s
  else s

def resetBlockFailureFlags (s : Chainstate B) (pindex : B) : Chainstate B :=
  s.tree.blocks.foldl (resetBlock pindex) s

section
variable {s : Chainstate B} {p : B}

@[simp] theorem tree_resetBlock (b : B) : (resetBlock p s b).tree = s.tree := by
  unfold resetBlock insertCandidate
  dsimp only
  split_ifs <;> rfl

theorem nStatus_resetBlock (b : B) : (resetBlock p s b).nStatus = Function.update s.nStatus b
    (if s.tree.OnOneBranch p b then (s.nStatus b).clearFailed else s.nStatus b) := by
  unfold resetBlock
  by_cases hb : s.tree.OnOneBranch p b
  · rw [if_pos hb]
    by_cases hf : (s.nStatus b).failed = true
    · rw [if_pos ⟨hf,hb⟩]
      dsimp only
      split_ifs <;> rfl
    · rw [if_neg fun h => hf h.1,BlockStatus.clearFailed_eq_self (by simpa using hf),
        Function.update_eq_self]
  · rw [if_neg hb,if_neg fun h => hb h.2,Function.update_eq_self]

theorem nStatus_foldl_resetBlock (l : List B) (x : B) : (l.foldl (resetBlock p) s).nStatus x =
      if x ∈ l ∧ s.tree.OnOneBranch p x then (s.nStatus x).clearFailed else s.nStatus x := by
  induction l generalizing s with
  | nil => simp
  | cons b l ih =>
    rw [List.foldl_cons,ih,nStatus_resetBlock]
    by_cases hx : x = b
    · subst hx
      by_cases hb : s.tree.OnOneBranch p x
      · simp [hb,BlockStatus.clearFailed_twice]
      · simp [hb]
    · simp [hx]

/-- The marks of the ancestors and descendants are gone, and all others are as before. -/
theorem nStatus_resetFlags {b : B} (hb : b ∈ s.tree.blocks) :
    (s.resetBlockFailureFlags p).nStatus b =
      if s.tree.OnOneBranch p b then (s.nStatus b).clearFailed else s.nStatus b := by
  rw [resetBlockFailureFlags,nStatus_foldl_resetBlock]
  simp only [hb,true_and]

theorem tree_resetFlags : (s.resetBlockFailureFlags p).tree = s.tree := by
  have hf : ∀ l : List B, (l.foldl (resetBlock p) s).tree = s.tree := by
    intro l
    induction l generalizing s with
    | nil => rfl
    | cons b l ih => rw [List.foldl_cons,ih,tree_resetBlock]
  exact hf s.tree.blocks

theorem failed_resetFlags {b : B} (hp : p ∈ s.tree.blocks) (hb : b ∈ s.tree.blocks) :
    ((s.resetBlockFailureFlags p).nStatus b).failed = true ↔
      (s.nStatus b).failed = true ∧ ¬ s.tree.IsAncestor p b ∧ ¬ s.tree.IsAncestor b p := by
  rw [nStatus_resetFlags hb,← not_or,← onOneBranch_iff hp hb]
  split_ifs with hr <;> simp [hr]

theorem failedValid_reset {b : B} (hp : p ∈ s.tree.blocks) (hb : b ∈ s.tree.blocks) :
    ((s.resetBlockFailureFlags p).nStatus b).failedValid = true ↔
      (s.nStatus b).failedValid = true ∧ ¬ s.tree.IsAncestor p b ∧ ¬ s.tree.IsAncestor b p := by
  rw [nStatus_resetFlags hb,← not_or,← onOneBranch_iff hp hb]
  split_ifs with hr <;> simp [hr]

/-- Reconsidering a block keeps the marks exact if and only if every marked block on another branch
has an invalid block, itself or an ancestor, that is not an ancestor of the reconsidered one. -/
theorem flagsExact_resetBlockFailureFlags_iff (hs : s.FlagsExact) (hp : p ∈ s.tree.blocks) :
    (s.resetBlockFailureFlags p).FlagsExact ↔ ∀ b ∈ s.tree.blocks, (s.nStatus b).failed = true →
        ¬ s.tree.IsAncestor p b → ¬ s.tree.IsAncestor b p →
        ∃ a, s.tree.IsAncestor a b ∧ (s.nStatus a).failedValid = true ∧
          ¬ s.tree.IsAncestor a p := by
  unfold FlagsExact
  rw [tree_resetFlags]
  constructor
  · intro he b hb hf hpb hbp
    obtain ⟨a,hab,hv⟩ := (he b hb).mp ((failed_resetFlags hp hb).mpr ⟨hf,hpb,hbp⟩)
    have ha := (failedValid_reset hp (mem_of_isAncestor hab hb)).mp hv
    exact ⟨a,hab,ha.1,ha.2.2⟩
  · intro ho b hb
    rw [failed_resetFlags hp hb]
    constructor
    · rintro ⟨hf,hpb,hbp⟩
      obtain ⟨a,hab,hv,hap⟩ := ho b hb hf hpb hbp
      refine ⟨a,hab,(failedValid_reset hp (mem_of_isAncestor hab hb)).mpr ⟨hv,fun hpa => ?_,hap⟩⟩
      exact hpb (hpa.trans hab)
    · rintro ⟨a,hab,hv⟩
      obtain ⟨hv,hpa,hap⟩ := (failedValid_reset hp (mem_of_isAncestor hab hb)).mp hv
      refine ⟨(hs b hb).mpr ⟨a,hab,hv⟩,fun hpb => ?_,fun hbp => hap (hab.trans hbp)⟩
      rcases hab.total hpb with hap' | hpa'
      · exact hap hap'
      · exact hpa hpa'

end

/-- Genesis `0`, its child `1` and the two children `2` and `3` of the latter. -/
def forkTree : BlockTree (Fin 4) where
  blocks := [0,1,2,3]
  genesis := 0
  pprev b := [none,some 0,some 1,some 1].get b
  pskip b := [none,some 0,some 0,some 0].get b
  nHeight b := [0,1,2,2].get b
  isTree := ⟨by decide,by decide,by decide,by decide,by decide⟩
  skip_genesis := rfl
  skip_eq := by decide

/-- The child of genesis is invalid, and its children are marked. -/
def forkInvalidated : Chainstate (Fin 4) where
  tree := forkTree
  nChainWork b := [1,2,3,3].get b
  nStatus b := ⟨.scripts,true,true,b == 1,b == 2 || b == 3⟩
  nTx _ := 1
  chainTxCount b := [1,2,3,3].get b
  nSequenceId b := b
  nBlockSequenceId := 4
  setBlockIndexCandidates := [0]
  blocksUnlinked := []
  tip := 0
  bestHeader := 0
  bestInvalid := some 2

/-- Both children are invalid themselves. -/
def siblingsInvalidated : Chainstate (Fin 4) :=
  { forkInvalidated with nStatus := fun b => ⟨.scripts,true,true,b == 2 || b == 3,false⟩ }

/-- Reconsidering one invalid child leaves the other one marked, which is invalid itself. -/
theorem flagsExact_reset_siblings : siblingsInvalidated.FlagsExact ∧
    (siblingsInvalidated.resetBlockFailureFlags 2).FlagsExact ∧
      ((siblingsInvalidated.resetBlockFailureFlags 2).nStatus 3).failed = true := by
  have he : siblingsInvalidated.FlagsExact := by decide +kernel
  refine ⟨he,(flagsExact_resetBlockFailureFlags_iff he (by decide)).mpr ?_,by decide +kernel⟩
  intro b _ hf hd hu
  have hb : ∀ b, (siblingsInvalidated.nStatus b).failed = true → b = 2 ∨ b = 3 := by decide
  rcases hb b hf with rfl | rfl
  · exact absurd (.refl 2) hd
  · exact ⟨3,.refl 3,rfl,hu⟩

/-- Reconsidering one child leaves the other one marked, below no invalid block. -/
theorem not_flagsExact_reset_sibling :
    forkInvalidated.FlagsExact ∧ ¬ (forkInvalidated.resetBlockFailureFlags 2).FlagsExact := by
  decide +kernel

end Chainstate
end DripCore
