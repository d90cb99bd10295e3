import DripCore.BlockTree

/-!
# Skip pointers of growing trees

Entries are added to the tree of block index entries with the skip pointer that `BuildSkip` looks
up. An ancestor is then found at every height, and skip pointers of one height go to one height.
So `LastCommonAncestor`, which follows the pointers of two entries at once, never jumps over the
fork between them.
-/
namespace DripCore
open Function List Nat Option ParentTree

namespace BlockTree
variable {B : Type} {t : BlockTree B}
variable {b : B}

theorem exists_pskip (hb : b ∈ t.blocks) (hn : b ≠ t.genesis) : ∃ s, t.pskip b = some s := by
  obtain ⟨p,hp,hr,hh⟩ := t.isTree.parent_of_mem b hb hn
  have hl := skipHeight_lt (show 0 < t.nHeight b by omega)
  rw [t.skip_eq b hb p hr]
  exact t.isTree.exists_ancestorAt hp (by omega)

theorem ancestor_eq_ancestorAt (hb : b ∈ t.blocks) (height : ℕ) :
    t.getAncestor b height = ancestorAt t.pprev t.nHeight b height := by
  ext a
  rw [ancestor_eq_some hb,t.isTree.ancestorAt_eq_some hb]

section
variable [DecidableEq B]

/-- The block index of the genesis block alone. -/
def single (genesis : B) : BlockTree B where
  blocks := [genesis]
  genesis := genesis
  pprev _ := none
  pskip _ := none
  nHeight _ := 0
  isTree := ⟨nodup_singleton _,mem_singleton_self _,rfl,rfl,
    fun _ hb hne => absurd (mem_singleton.mp hb) hne⟩
  skip_genesis := rfl
  skip_eq _ _ _ h := by simp at h

/-- `BuildSkip` for an entry that is put above another one. -/
def buildSkip (t : BlockTree B) (pprev : B) : Option B :=
  t.getAncestor pprev (getSkipHeight (t.nHeight pprev+1))

/-- Pointers of a new entry do not change what older ones reach. -/
theorem ancestorAt_update {p b c : B} (hb : b ∉ t.blocks) (hc : c ∈ t.blocks) (height : ℕ) :
    ancestorAt (update t.pprev b (some p)) (update t.nHeight b (t.nHeight p+1)) c
      height = ancestorAt t.pprev t.nHeight c height := by
  have hn {c : B} (hc : c ∈ t.blocks) : c ≠ b := fun he => hb (he ▸ hc)
  have hu (k : ℕ) (c : B) (hc : c ∈ t.blocks) :
    up (update t.pprev b (some p)) k c = up t.pprev k c := by
    induction k generalizing c with
    | zero => rfl
    | succ k ih =>
      rw [up,up,update_of_ne (hn hc)]
      cases hp : t.pprev c with
      | none => rfl
      | some q => exact ih q (t.isTree.parent_spec hc hp).1
  rw [ancestorAt,ancestorAt,update_of_ne (hn hc),hu _ c hc]

/-- A new entry with its predecessor, its height and its skip pointer. -/
def addBlock (t : BlockTree B) (p b : B) (hp : p ∈ t.blocks) (hb : b ∉ t.blocks) : BlockTree B where
  blocks := b::t.blocks
  genesis := t.genesis
  pprev := update t.pprev b (some p)
  pskip := update t.pskip b (t.buildSkip p)
  nHeight := update t.nHeight b (t.nHeight p+1)
  isTree := by
    have hne {c : B} (hc : c ∈ t.blocks) : c ≠ b := fun heq => hb (heq ▸ hc)
    have hroot := hne t.isTree.root_mem
    refine ⟨nodup_cons.mpr ⟨hb,t.isTree.nodup⟩,mem_cons_of_mem b t.isTree.root_mem,?_,?_,?_⟩
    · rw [update_of_ne hroot,t.isTree.parent_root]
    · rw [update_of_ne hroot,t.isTree.depth_root]
    · intro c hc hgenesis
      rcases mem_cons.mp hc with rfl | hc
      · refine ⟨p,mem_cons_of_mem c hp,update_self ..,?_⟩
        rw [update_self,update_of_ne (hne hp)]
      · obtain ⟨q,hq,hprev,hheight⟩ := t.isTree.parent_of_mem c hc hgenesis
        refine ⟨q,mem_cons_of_mem b hq,?_,?_⟩
        · rw [update_of_ne (hne hc),hprev]
        · rw [update_of_ne (hne hc),update_of_ne (hne hq),hheight]
  skip_genesis := by
    have hne : t.genesis ≠ b := fun heq => hb (heq ▸ t.isTree.root_mem)
    rw [update_of_ne hne,t.skip_genesis]
  skip_eq c hc q hprev := by
    rcases mem_cons.mp hc with rfl | hc
    · rw [update_self,some.injEq] at hprev
      subst hprev
      rw [update_self,ancestorAt_update hb hp,update_self,buildSkip,ancestor_eq_ancestorAt hp]
    · have hne : c ≠ b := fun heq => hb (heq ▸ hc)
      rw [update_of_ne hne] at hprev
      rw [update_of_ne hne,ancestorAt_update hb (t.isTree.parent_spec hc hprev).1,
        update_of_ne hne,t.skip_eq c hc q hprev]

/-- The trees that come from genesis by adding entries. -/
inductive Grown : BlockTree B → Prop
  | single (genesis : B) : Grown (single genesis)
  | addBlock {t : BlockTree B} (ht : Grown t) (p b : B) (hp : p ∈ t.blocks) (hb : b ∉ t.blocks) :
      Grown (t.addBlock p b hp hb)

/-- Two blocks on top of genesis. -/
def fork : BlockTree ℕ :=
  ((single 0).addBlock 0 1 (by decide) (by decide)).addBlock 0 2 (by decide) (by decide)

theorem grown_fork : fork.Grown := .addBlock (.addBlock (.single 0) 0 1 _ _) 0 2 _ _

end

section

inductive PointerError where
  /-- `assert(pindexWalk->pprev)` fails, or the loop goes on for ever. -/
  | nullPointer
  deriving DecidableEq

/-- `GetAncestor` for any height; a null pointer is returned outside those below the entry. -/
def getAncestorOrNull (t : BlockTree B) (b : B) (height : ℤ) : Except PointerError (Option B) :=
  if (t.nHeight b : ℤ) < height ∨ height < 0 then .ok none
  else
    match t.ancestorLoop height.toNat (t.nHeight b) b (t.nHeight b) with
    | some pindexWalk => .ok (some pindexWalk)
    | none => .error .nullPointer

variable {b : B}

theorem ancestorOrNull_of_le (hb : b ∈ t.blocks) {height : ℕ} (h : height ≤ t.nHeight b) :
    ∃ a, up t.pprev (t.nHeight b-height) b = some a ∧
      t.getAncestorOrNull b height = .ok (some a) := by
  obtain ⟨a,ha⟩ := t.isTree.exists_ancestorAt hb h
  obtain ⟨hab,rfl⟩ := (t.isTree.ancestorAt_eq_some hb).mp ha
  refine ⟨a,(t.isTree.up_of_anc hab hb).2,?_⟩
  rw [getAncestorOrNull,if_neg (by omega),Int.toNat_natCast,
    ancestorLoop_eq_some hb hab (le_add_left _ _)]

theorem map_nHeight_pskip (hb : b ∈ t.blocks) : (t.pskip b).map t.nHeight =
      if t.nHeight b = 0 then none else some (getSkipHeight (t.nHeight b)) := by
  by_cases hg : b = t.genesis
  · rw [hg,t.skip_genesis,t.isTree.depth_root,if_pos rfl,map_none]
  · obtain ⟨s,hs⟩ := exists_pskip hb hg
    obtain ⟨p,-,-,hh⟩ := t.isTree.parent_of_mem b hb hg
    rw [hs,map_some,if_neg (by omega),(pskip_spec hb hs).2]

/-- An ancestor is found by predecessors, and skip pointers of equal heights go to equal heights. -/
theorem getAncestorOrNull_spec [DecidableEq B] : ∀ t : BlockTree B, t.Grown → ∀ b ∈ t.blocks,
      (∀ height : ℕ, height ≤ t.nHeight b → ∃ a, up t.pprev (t.nHeight b - height) b = some a ∧
        t.getAncestorOrNull b height = .ok (some a)) ∧
      (∀ height : ℤ, ¬ (0 ≤ height ∧ height ≤ t.nHeight b) →
        t.getAncestorOrNull b height = .ok none) ∧
      ∀ a ∈ t.blocks, t.nHeight a = t.nHeight b →
        (t.pskip a).map t.nHeight = (t.pskip b).map t.nHeight := by
  intro t _ b hb
  refine ⟨fun height h => ancestorOrNull_of_le hb h,?_,?_⟩
  · intro height h
    rw [getAncestorOrNull,if_pos (by omega)]
  · intro a ha he
    rw [map_nHeight_pskip ha,map_nHeight_pskip hb,he]

theorem getAncestorOrNull_fork :
    fork.getAncestorOrNull 1 0 = .ok (some 0) ∧ fork.getAncestorOrNull 1 2 = .ok none ∧
      (fork.pskip 2).map fork.nHeight = (fork.pskip 1).map fork.nHeight := by
  obtain ⟨hw,hb,hs⟩ := getAncestorOrNull_spec fork grown_fork 1 (by decide)
  obtain ⟨a,hu,h⟩ := hw 0 (zero_le _)
  obtain rfl : 0 = a := some.inj hu
  exact ⟨h,hb 2 (by decide),hs 2 (by decide) (by decide)⟩

end

variable [DecidableEq B]

/-- The inner loop of `LastCommonAncestor`. It fails when an assumption does not hold and on a null
pointer; the steps left bound its length. -/
def skipLoop (t : BlockTree B) : ℕ → B → B → Option (B × B)
  | 0, _, _ => none
  | steps+1, pa, pb =>
    if t.pskip pa = t.pskip pb then some (pa,pb)
    else
      match t.pskip pa, t.pskip pb with
      | some skipa, some skipb =>
        if t.nHeight pa = t.nHeight pb ∧ t.nHeight skipa = t.nHeight skipb then
          skipLoop t steps skipa skipb
        else none
      | _, _ => none

def commonLoop (t : BlockTree B) : ℕ → B → B → Option B
  | 0, _, _ => none
  | steps+1, pa, pb =>
    if pa = pb then some pa
    else
      match t.skipLoop (steps+1) pa pb with
      | some (pa,pb) =>
        match t.pprev pa, t.pprev pb with
        | some pa, some pb => commonLoop t steps pa pb
        | _, _ => none
      | none => none

def lastCommonAncestor (t : BlockTree B) (pa pb : B) : Option B :=
  if t.nHeight pb < t.nHeight pa then
    (t.getAncestor pa (t.nHeight pb)).bind fun pa => t.commonLoop (t.nHeight pb+1) pa pb
  else if t.nHeight pa < t.nHeight pb then
    (t.getAncestor pb (t.nHeight pa)).bind fun pb => t.commonLoop (t.nHeight pa+1) pa pb
  else t.commonLoop (t.nHeight pa+1) pa pb

variable (t) in
/-- Two different entries at one height. -/
structure Apart (pa pb : B) : Prop where
  mem_left : pa ∈ t.blocks
  mem_right : pb ∈ t.blocks
  height : t.nHeight pa = t.nHeight pb
  ne : pa ≠ pb

variable (t) in
/-- The ancestors that two entries have in common. -/
def Common (pa pb d : B) : Prop := t.IsAncestor d pa ∧ t.IsAncestor d pb

omit [DecidableEq B] in
theorem eq_of_isAncestor {a b c : B} (ha : t.IsAncestor a c) (hb : t.IsAncestor b c)
    (hc : c ∈ t.blocks) (h : t.nHeight a = t.nHeight b) : a = b :=
  t.isTree.eq_of_anc_of_depth (t.isTree.anc_of_depth_le ha hb hc h.le) (mem_of_isAncestor hb hc) h

namespace Apart
omit [DecidableEq B]
variable {pa pb : B} (h : t.Apart pa pb)
include h

theorem ne_genesis : pa ≠ t.genesis := by
  rintro rfl
  refine h.ne ?_
  by_contra hn
  obtain ⟨p,-,-,hh⟩ := t.isTree.parent_of_mem pb h.mem_right (Ne.symm hn)
  have hz := h.height
  rw [t.isTree.depth_root] at hz
  omega

theorem symm : t.Apart pb pa := ⟨h.mem_right,h.mem_left,h.height.symm,h.ne.symm⟩

/-- Ancestors of equal height that differ lie above all common ones. -/
theorem common_iff {qa qb : B} (ha : t.IsAncestor qa pa) (hb : t.IsAncestor qb pb)
    (hq : t.Apart qa qb) (d : B) : t.Common pa pb d ↔ t.Common qa qb d := by
  constructor
  · rintro ⟨hd,hdb⟩
    have hl : t.nHeight d < t.nHeight qa := by
      by_contra hle
      have hqa := t.isTree.anc_of_depth_le ha hd h.mem_left (by omega)
      have hqb := t.isTree.anc_of_depth_le hb hdb h.mem_right (by have := hq.height; omega)
      exact hq.ne (eq_of_isAncestor hqa hqb (mem_of_isAncestor hd h.mem_left) hq.height)
    exact ⟨t.isTree.anc_of_depth_le hd ha h.mem_left hl.le,
      t.isTree.anc_of_depth_le hdb hb h.mem_right (by have := hq.height; omega)⟩
  · rintro ⟨hd,hdb⟩
    exact ⟨hd.trans ha,hdb.trans hb⟩

end Apart

variable {pa pb : B} {s : ℕ}

theorem skipLoop_spec (h : t.Apart pa pb) (ht : t.nHeight pa < s) :
    ∃ qa qb, t.skipLoop s pa pb = some (qa,qb) ∧ t.Apart qa qb ∧
      t.nHeight qa ≤ t.nHeight pa ∧ ∀ d, t.Common pa pb d ↔ t.Common qa qb d := by
  induction s generalizing pa pb with
  | zero => omega
  | succ s ih =>
    rw [skipLoop]
    split_ifs with he
    · exact ⟨pa,pb,rfl,h,le_rfl,fun _ => Iff.rfl⟩
    · obtain ⟨sa,hsa⟩ := exists_pskip h.mem_left h.ne_genesis
      obtain ⟨sb,hb⟩ := exists_pskip h.mem_right h.symm.ne_genesis
      obtain ⟨hn,hhei⟩ := pskip_spec h.mem_left hsa
      obtain ⟨ha,hhe⟩ := pskip_spec h.mem_right hb
      rw [← h.height] at hhe
      have hh : t.nHeight sa = t.nHeight sb := hhei.trans hhe.symm
      have hs : t.Apart sa sb := ⟨mem_of_isAncestor hn h.mem_left,
        mem_of_isAncestor ha h.mem_right,hh,fun hs => he (by rw [hsa,hb,hs])⟩
      obtain ⟨p,-,-,hp⟩ := t.isTree.parent_of_mem pa h.mem_left h.ne_genesis
      have hlt := skipHeight_lt (show 0 < t.nHeight pa by omega)
      obtain ⟨qa,qb,hl,hq,hle,hc⟩ := ih hs (by omega)
      rw [hsa,hb]
      dsimp only
      rw [if_pos ⟨h.height,hh⟩]
      exact ⟨qa,qb,hl,hq,by omega,fun d => (h.common_iff hn ha hs d).trans (hc d)⟩

theorem commonLoop_spec (ha : pa ∈ t.blocks) (hb : pb ∈ t.blocks)
    (hh : t.nHeight pa = t.nHeight pb) (hs : t.nHeight pa < s) :
    ∃ c, t.commonLoop s pa pb = some c ∧ ∀ d, t.Common pa pb d ↔ t.IsAncestor d c := by
  induction s generalizing pa pb with
  | zero => omega
  | succ s ih =>
    rw [commonLoop]
    split_ifs with he
    · subst he
      exact ⟨pa,rfl,fun d => and_self_iff⟩
    · have h : t.Apart pa pb := ⟨ha,hb,hh,he⟩
      obtain ⟨qa,qb,hk,hq,hl,ho⟩ := skipLoop_spec h hs
      obtain ⟨ra,hra,hpr,hhe⟩ := t.isTree.parent_of_mem qa hq.mem_left hq.ne_genesis
      obtain ⟨rb,hrb,hp,hhei⟩ := t.isTree.parent_of_mem qb hq.mem_right hq.symm.ne_genesis
      have hr : t.nHeight ra = t.nHeight rb := by
        have := hq.height
        omega
      obtain ⟨c,hc,han⟩ := ih hra hrb hr (by omega)
      rw [hk]
      dsimp only
      rw [hpr,hp]
      refine ⟨c,hc,fun d => (ho d).trans (Iff.trans ?_ (han d))⟩
      -- Neither of the two different entries is an ancestor of the other one.
      constructor
      · rintro ⟨hda,hdb⟩
        have hn : d ≠ qa := fun hd =>
          hq.ne (t.isTree.eq_of_anc_of_depth (hd ▸ hdb) hq.mem_right hq.height)
        have hne : d ≠ qb := fun hd =>
          hq.ne.symm (t.isTree.eq_of_anc_of_depth (hd ▸ hda) hq.mem_left hq.height.symm)
        exact ⟨((anc_step hpr d).mp hda).resolve_left hn,((anc_step hp d).mp hdb).resolve_left hne⟩
      · rintro ⟨hda,hdb⟩
        exact ⟨hda.trans (anc_of_parent hpr),hdb.trans (anc_of_parent hp)⟩

omit [DecidableEq B] in
theorem common_rewind {pa pb qa : B} (ha : pa ∈ t.blocks) (hb : pb ∈ t.blocks)
    (hq : t.IsAncestor qa pa) (hh : t.nHeight qa = t.nHeight pb) (d : B) :
    t.Common pa pb d ↔ t.Common qa pb d := by
  constructor
  · rintro ⟨hda,hd⟩
    have hl := t.isTree.depth_le_of_anc hd hb
    exact ⟨t.isTree.anc_of_depth_le hda hq ha (by omega),hd⟩
  · rintro ⟨hda,hd⟩
    exact ⟨hda.trans hq,hd⟩

theorem commonAncestor_isAncestor (ha : pa ∈ t.blocks) (hb : pb ∈ t.blocks) :
    ∃ c, t.lastCommonAncestor pa pb = some c ∧ ∀ d, t.Common pa pb d ↔ t.IsAncestor d c := by
  have hr {pa pb : B} (ha : pa ∈ t.blocks) (hl : t.nHeight pb < t.nHeight pa) :
      ∃ qa ∈ t.blocks, t.getAncestor pa (t.nHeight pb) = some qa ∧ t.IsAncestor qa pa ∧
        t.nHeight qa = t.nHeight pb := by
    obtain ⟨qa,hq⟩ := t.isTree.exists_ancestorAt ha hl.le
    rw [← ancestor_eq_ancestorAt ha] at hq
    obtain ⟨hn,hh⟩ := (ancestor_eq_some ha).mp hq
    exact ⟨qa,mem_of_isAncestor hn ha,hq,hn,hh⟩
  rw [lastCommonAncestor]
  split_ifs with ht hl
  · obtain ⟨qa,hq,hg,hn,hh⟩ := hr ha ht
    obtain ⟨c,hc,ho⟩ := commonLoop_spec hq hb hh (show t.nHeight qa < t.nHeight pb+1 by omega)
    rw [hg]
    exact ⟨c,hc,fun d => (common_rewind ha hb hn hh d).trans (ho d)⟩
  · obtain ⟨qb,hqb,hg,hn,hh⟩ := hr hb hl
    obtain ⟨c,hc,ho⟩ := commonLoop_spec ha hqb hh.symm (lt_succ_self _)
    rw [hg]
    refine ⟨c,hc,fun d => Iff.trans ?_ (ho d)⟩
    exact and_comm.trans ((common_rewind hb ha hn hh d).trans and_comm)
  · exact commonLoop_spec ha hb (by omega) (lt_succ_self _)

/-- `LastCommonAncestor` finds the highest common ancestor of any two entries. -/
theorem lastCommonAncestor_spec : ∀ t : BlockTree B, t.Grown → ∀ a ∈ t.blocks, ∀ b ∈ t.blocks,
      ∃ c, t.lastCommonAncestor a b = some c ∧ t.IsAncestor c a ∧ t.IsAncestor c b ∧
        ∀ d, t.IsAncestor d a → t.IsAncestor d b → t.nHeight d ≤ t.nHeight c := by
  intro t _ a ha b hb
  obtain ⟨c,hc,ho⟩ := commonAncestor_isAncestor ha hb
  obtain ⟨hca,hcb⟩ := (ho c).mpr (.refl _)
  exact ⟨c,hc,hca,hcb,fun d hd hdb =>
    t.isTree.depth_le_of_anc ((ho d).mp ⟨hd,hdb⟩) (mem_of_isAncestor hca ha)⟩

theorem lastCommonAncestor_fork :
    ∃ c, fork.lastCommonAncestor 1 2 = some c ∧ fork.IsAncestor c 1 ∧ fork.IsAncestor c 2 ∧
      ∀ d, fork.IsAncestor d 1 → fork.IsAncestor d 2 → fork.nHeight d ≤ fork.nHeight c :=
  lastCommonAncestor_spec fork grown_fork 1 (by decide) 2 (by decide)

end BlockTree
end DripCore
