import DripCore.Linearize

/-!
# `FixLinearization`

From the back, each transaction is moved behind the last of its ancestors. What comes after it in
the vector is the list of those that have been placed already.

The loop is given twice: on the vector, with the indices of the source, and as a recursion over the
list. The two agree, the result is topological, and nothing has moved but behind its own ancestors.
-/
namespace DripCore
open DepGraph List

/-- Moves a transaction back until nothing is left that has to come before it. -/
def placeElem (elem : DepGraphIndex) : Finset DepGraphIndex → List DepGraphIndex →
    List DepGraphIndex
  | _, [] => [elem]
  | place_before, to_swap::rest =>
    if place_before = ∅ then elem::to_swap::rest
    else to_swap::placeElem elem (place_before.erase to_swap) rest

def fixLinearization (g : DepGraph) (linearization : List DepGraphIndex) : List DepGraphIndex :=
  linearization.foldr (fun elem done => placeElem elem (done.toFinset ∩ g.ancestors elem) done) []

/-- The inner loop on the vector. It stops without a result if `j` would go below zero. -/
def placeLoop (len : ℕ) : ℕ → List DepGraphIndex → Finset DepGraphIndex →
    Option (List DepGraphIndex × ℕ)
  | 0, linearization, place_before => if place_before = ∅ then some (linearization,0) else none
  | j+1, linearization, place_before =>
    if place_before = ∅ then some (linearization,j+1)
    else do
      let to_swap ← linearization[len-1-j]?
      placeLoop len j (linearization.set (len-1-(j+1)) to_swap) (place_before.erase to_swap)

/-- The round at distance `i` from the back. -/
def fixRound (g : DepGraph) (len : ℕ) (s : List DepGraphIndex × Finset DepGraphIndex) (i : ℕ) :
    Option (List DepGraphIndex × Finset DepGraphIndex) := do
  let elem ← s.1[len-1-i]?
  let (linearization,j) ← placeLoop len i s.1 (s.2 ∩ g.ancestors elem)
  return (linearization.set (len-1-j) elem,insert elem s.2)

/-- `FixLinearization` as it changes the vector in place. -/
def fixInPlace (g : DepGraph) (linearization : List DepGraphIndex) :
    Option (List DepGraphIndex) := do
  let s ← (range linearization.length).foldlM (fixRound g linearization.length) (linearization,∅)
  return s.1

/-- The vector is a part that is not touched, a place that is free, and what was placed before. -/
theorem placeLoop_eq {len : ℕ} {front rest : List DepGraphIndex} {x elem : DepGraphIndex}
    {pb : Finset DepGraphIndex} (hl : front.length+1+rest.length = len) (h : ∀ v ∈ pb, v ∈ rest) :
    ∃ l j, placeLoop len rest.length (front++x::rest) pb = some (l,j) ∧
      l.set (len-1-j) elem = front++placeElem elem pb rest := by
  induction rest generalizing front x pb with
  | nil =>
    have he : pb = ∅ := Finset.eq_empty_of_forall_notMem fun v hv => by simpa using h v hv
    refine ⟨_,_,if_pos he,?_⟩
    rw [length_nil] at hl
    rw [show len-1-0 = front.length by omega,set_append_right _ _ le_rfl,Nat.sub_self]
    rfl
  | cons ts rest ih =>
    rw [length_cons] at hl
    rw [length_cons,placeLoop,placeElem]
    split_ifs with he
    · refine ⟨_,_,rfl,?_⟩
      rw [show len-1-(rest.length+1) = front.length by omega,set_append_right _ _ le_rfl,
        Nat.sub_self]
      rfl
    · have hget : (front++x::ts::rest)[len-1-rest.length]? = some ts := by
        rw [show len-1-rest.length = front.length+1 by omega,getElem?_append_right (by omega),
          Nat.add_sub_cancel_left]
        rfl
      have hset : (front++x::ts::rest).set (len-1-(rest.length+1)) ts =
          (front++[ts])++ts::rest := by
        rw [show len-1-(rest.length+1) = front.length by omega,set_append_right _ _ le_rfl,
          Nat.sub_self,append_assoc]
        rfl
      obtain ⟨l,j,hp,hs⟩ := @ih (front++[ts]) ts (pb.erase ts)
        (by rw [length_append,length_singleton]; omega) fun v hv =>
          (mem_cons.mp (h v (Finset.mem_of_mem_erase hv))).resolve_left (Finset.ne_of_mem_erase hv)
      refine ⟨l,j,?_,?_⟩
      · rw [hget,Option.bind_eq_bind,Option.bind_some,hset,hp]
      · rw [hs,append_assoc]
        rfl

/-- A proper ancestor of `a` comes before it, but not before `b`. -/
def AncestorBetween (g : DepGraph) (l : List DepGraphIndex) (a b : DepGraphIndex) : Prop :=
  ∃ c ∈ g.ancestors a, c ≠ a ∧ l.idxOf b ≤ l.idxOf c ∧ l.idxOf c < l.idxOf a

variable {elem a b : DepGraphIndex} {done f back : List DepGraphIndex}

/-- After all that is passed comes something that had to come before. -/
theorem placeElem_spec {pb : Finset DepGraphIndex} (h : ∀ v ∈ pb, v ∈ done) :
    ∃ f back, done = f++back ∧ placeElem elem pb done = f++elem::back ∧
      (∀ v ∈ pb, v ∈ f) ∧ ∀ b ∈ f, ∃ c ∈ pb, f.idxOf b ≤ f.idxOf c := by
  induction done generalizing pb with
  | nil => exact ⟨[],[],rfl,rfl,h,nofun⟩
  | cons ts rest ih =>
    rw [placeElem]
    split_ifs with he
    · exact ⟨[],ts::rest,rfl,rfl,by simp [he],nofun⟩
    · obtain ⟨f,back,rfl,hq,hbe,hl⟩ := @ih (pb.erase ts) fun v hv =>
        (mem_cons.mp (h v (Finset.mem_of_mem_erase hv))).resolve_left (Finset.ne_of_mem_erase hv)
      refine ⟨ts::f,back,rfl,by rw [hq,cons_append],fun v hv => mem_cons.mpr ?_,fun b hb => ?_⟩
      · exact or_iff_not_imp_left.mpr fun hn => hbe v (Finset.mem_erase.mpr ⟨hn,hv⟩)
      · by_cases hb' : b = ts
        · obtain ⟨c,hc⟩ := Finset.nonempty_iff_ne_empty.mpr he
          exact ⟨c,hc,by simp [hb']⟩
        · obtain ⟨c,hc,hle⟩ := hl b ((mem_cons.mp hb).resolve_left hb')
          obtain ⟨hn,hc⟩ := Finset.mem_erase.mp hc
          refine ⟨c,hc,?_⟩
          rw [idxOf_cons_ne _ (Ne.symm hb'),idxOf_cons_ne _ hn.symm]
          exact Nat.succ_le_succ hle

/-- A new element does not change the order of the others. -/
theorem idxOf_lt_idxOf_iff (ha : a ≠ elem) (hb : b ≠ elem) :
    (f++elem::back).idxOf a < (f++elem::back).idxOf b ↔ (f++back).idxOf a < (f++back).idxOf b := by
  have hn : ∀ v, v ∈ f ↔ f.idxOf v < f.length := fun v => idxOf_lt_length_iff.symm
  simp only [idxOf_append,idxOf_cons_ne _ ha.symm,idxOf_cons_ne _ hb.symm,hn]
  split_ifs <;> omega

variable (g : DepGraph) (elem : DepGraphIndex) (linearization : List DepGraphIndex)

theorem fixed_cons : ∃ f back, fixLinearization g linearization = f++back ∧
    fixLinearization g (elem::linearization) = f++elem::back ∧
    (∀ v ∈ f++back, v ∈ g.ancestors elem → v ∈ f) ∧
    ∀ b ∈ f, ∃ c ∈ g.ancestors elem, c ∈ f ∧ f.idxOf b ≤ f.idxOf c := by
  have hm : ∀ v, v ∈ (fixLinearization g linearization).toFinset∩g.ancestors elem ↔
      v ∈ fixLinearization g linearization ∧ v ∈ g.ancestors elem := by simp
  obtain ⟨f,back,he,hp,hbe,hl⟩ := placeElem_spec fun v hv => ((hm v).mp hv).1
  refine ⟨f,back,he,hp,fun v hv ha => hbe v ((hm v).mpr ⟨he ▸ hv,ha⟩),?_⟩
  intro b hb
  obtain ⟨c,hc,hle⟩ := hl b hb
  exact ⟨c,((hm c).mp hc).2,hbe c hc,hle⟩

theorem fixed_perm : (fixLinearization g linearization).Perm linearization := by
  induction linearization with
  | nil => exact List.Perm.refl _
  | cons elem linearization ih =>
    obtain ⟨f,back,he,hc,-⟩ := fixed_cons g elem linearization
    rw [hc]
    exact perm_middle.trans ((he ▸ ih).cons elem)

/-- After the rounds of the back of the vector its front is as it was. -/
theorem fixRounds_eq (front back : List DepGraphIndex) :
    (range back.length).foldlM (fixRound g (front++back).length) (front++back,∅) =
      some (front++fixLinearization g back,back.toFinset) := by
  induction back generalizing front with
  | nil => rfl
  | cons elem back ih =>
    have hi := ih (front++[elem])
    rw [append_assoc,singleton_append] at hi
    have hp := fixed_perm g back
    obtain ⟨l,j,hl,hs⟩ := @placeLoop_eq (front++elem::back).length front (fixLinearization g back)
      elem elem (back.toFinset ∩ g.ancestors elem)
      (by rw [hp.length_eq,length_append,length_cons]; omega) fun v hv =>
        hp.mem_iff.mpr (mem_toFinset.mp (Finset.mem_inter.mp hv).1)
    have hget : (front++elem::fixLinearization g back)[(front++elem::back).length-1-back.length]? =
        some elem := by
      rw [length_append,length_cons,show front.length+(back.length+1)-1-back.length = front.length
        by omega,getElem?_append_right le_rfl,Nat.sub_self]
      rfl
    have hc : fixLinearization g (elem::back) =
        placeElem elem (back.toFinset ∩ g.ancestors elem) (fixLinearization g back) := by
      rw [← toFinset_eq_of_perm _ _ hp]
      rfl
    rw [hp.length_eq] at hl
    rw [length_cons,range_succ,foldlM_append,hi,append_assoc,singleton_append]
    simp only [foldlM_cons,foldlM_nil,fixRound,Option.bind_eq_bind,Option.bind_some,hget,hl,hs]
    rw [hc,toFinset_cons]
    rfl

/-- The vector ends up as the list. -/
theorem fixInPlace_eq : fixInPlace g linearization = some (fixLinearization g linearization) := by
  have h := fixRounds_eq g [] linearization
  rw [nil_append,nil_append] at h
  rw [fixInPlace,h]
  rfl

variable {g linearization}

/-- Nothing is placed before one of its ancestors. -/
theorem pairwise_fixed (hac : g.IsAcyclic) (hn : linearization.Nodup)
    (hm : ∀ v ∈ linearization, v ∈ g.positions) :
    (fixLinearization g linearization).Pairwise fun a b => b ∉ g.ancestors a := by
  induction linearization with
  | nil => exact List.Pairwise.nil
  | cons elem linearization ih =>
    obtain ⟨hne,hn⟩ := nodup_cons.mp hn
    obtain ⟨he,hm⟩ := forall_mem_cons.mp hm
    obtain ⟨f,back,hq,ho,hbe,hl⟩ := fixed_cons g elem linearization
    have hp := hq ▸ fixed_perm g linearization
    have hin : ∀ v ∈ f, v ∈ linearization := fun v hv => hp.mem_iff.mp (mem_append_left _ hv)
    obtain ⟨hf,hba,hr⟩ := pairwise_append.mp (hq ▸ ih hn hm)
    rw [ho]
    refine pairwise_append.mpr ⟨hf,pairwise_cons.mpr ⟨fun b hb han => ?_,hba⟩,
      fun a ha => forall_mem_cons.mpr ⟨fun han => ?_,hr a ha⟩⟩
    · exact (nodup_append.mp (hp.nodup_iff.mpr hn)).2.2 b (hbe b (mem_append_right _ hb) han) b hb
        rfl
    · -- Nothing that is passed is a descendant, since an ancestor comes after it.
      obtain ⟨c,hc,hcf,hle⟩ := hl a ha
      rcases hle.eq_or_lt with hs | ht
      · rw [(idxOf_inj ha).mp hs] at han
        exact hne (hac.antisymm he hc han ▸ hin c hcf)
      · have hca := pairwise_iff_getElem.mp hf _ _ (idxOf_lt_length_iff.mpr ha)
          (idxOf_lt_length_iff.mpr hcf) ht
        rw [getElem_idxOf,getElem_idxOf] at hca
        exact hca (mem_ancestors_trans (hm a (hin a ha)) han hc)

theorem fixed_eq_self (h : linearization.Pairwise fun a b => b ∉ g.ancestors a) :
    fixLinearization g linearization = linearization := by
  induction linearization with
  | nil => rfl
  | cons elem linearization ih =>
    obtain ⟨he,h⟩ := pairwise_cons.mp h
    obtain ⟨f,back,hq,ho,-,hl⟩ := fixed_cons g elem linearization
    rw [ih h] at hq
    cases f with
    | nil => rw [ho,hq,nil_append,nil_append]
    | cons b f =>
      obtain ⟨c,hc,hf,-⟩ := hl b mem_cons_self
      exact absurd hc (he c (hq ▸ mem_append_left _ hf))

/-- What was before another transaction and comes after it now has an ancestor from there on. -/
theorem between_fixed (hn : linearization.Nodup)
    (hbe : linearization.idxOf a < linearization.idxOf b)
    (hf : (fixLinearization g linearization).idxOf b < (fixLinearization g linearization).idxOf a) :
    AncestorBetween g (fixLinearization g linearization) a b := by
  induction linearization with
  | nil => exact absurd hbe (Nat.lt_irrefl _)
  | cons elem linearization ih =>
    obtain ⟨hw,hn⟩ := nodup_cons.mp hn
    obtain ⟨f,back,he,hco,-,hl⟩ := fixed_cons g elem linearization
    have hp := he ▸ fixed_perm g linearization
    have ho : ∀ v ∈ f++back, v ≠ elem := fun v hv he => hw (he ▸ hp.mem_iff.mp hv)
    have hb : b ≠ elem := by
      rintro rfl
      rw [idxOf_cons_self] at hbe
      exact Nat.not_lt_zero _ hbe
    rw [hco] at hf ⊢
    by_cases ha : a = elem
    · have hs : (f++elem::back).idxOf elem = f.length := by
        rw [idxOf_append_of_notMem fun h => ho elem (mem_append_left _ h) rfl,idxOf_cons_self]
        rfl
      rw [ha,hs] at hf
      have hbf : b ∈ f := by
        by_contra hbf
        rw [idxOf_append_of_notMem hbf] at hf
        omega
      obtain ⟨c,hc,hcf,hle⟩ := hl b hbf
      rw [ha]
      refine ⟨c,hc,ho c (mem_append_left _ hcf),?_,?_⟩
      · rwa [idxOf_append_of_mem hbf,idxOf_append_of_mem hcf]
      · rw [hs,idxOf_append_of_mem hcf]
        exact idxOf_lt_length_iff.mpr hcf
    · rw [idxOf_cons_ne _ (Ne.symm ha),idxOf_cons_ne _ hb.symm] at hbe
      rw [he] at ih
      obtain ⟨c,hc,hne,hle,ht⟩ := ih hn (Nat.lt_of_succ_lt_succ hbe)
        ((idxOf_lt_idxOf_iff hb ha).mp hf)
      have hce := ho c (idxOf_lt_length_iff.mp (ht.trans_le idxOf_le_length))
      exact ⟨c,hc,hne,not_lt.mp (mt (idxOf_lt_idxOf_iff hce hb).mp hle.not_gt),
        (idxOf_lt_idxOf_iff hce ha).mpr ht⟩

/-- The result is topological, and nothing has moved but behind its own ancestors. -/
theorem fixLinearization_repairs (g : DepGraph) (hacyclic : g.IsAcyclic)
    (linearization : List TxIdx)
    (hperm : linearization.Perm (g.toList g.positions)) :
    g.IsTopological (fixLinearization g linearization) ∧
    (g.IsTopological linearization → fixLinearization g linearization = linearization) ∧
    ∀ a b, linearization.idxOf a < linearization.idxOf b →
      (fixLinearization g linearization).idxOf b < (fixLinearization g linearization).idxOf a →
      AncestorBetween g (fixLinearization g linearization) a b := by
  have hn := hperm.nodup_iff.mpr (g.nodup_toList _)
  have hm : ∀ v ∈ linearization, v ∈ g.positions := fun v hv =>
    (mem_toList (Finset.Subset.refl _)).mp (hperm.mem_iff.mp hv)
  exact ⟨⟨(fixed_perm g linearization).trans hperm,
    pairwise_fixed hacyclic hn hm⟩,fun h => fixed_eq_self h.pairwise,
    fun _ _ => between_fixed hn⟩

theorem fixLinearization_repairs_example : fixLinearization exampleGraph [2, 0, 1] = [0, 1, 2] ∧
    exampleGraph.IsTopological [0, 1, 2] ∧ AncestorBetween exampleGraph [0, 1, 2] 2 0 := by
  have hr : fixLinearization exampleGraph [2,0,1] = [0,1,2] := by decide +kernel
  have hf := fixLinearization_repairs exampleGraph (by decide) [2,0,1] (by decide +kernel)
  rw [hr] at hf
  exact ⟨hr,hf.1,hf.2.2 2 0 (by decide) (by decide)⟩

end DripCore
