import DripCore.UpwardMerges

/-!
# From an order to chunks and back

The elements of an order are taken one after the other, each after what it depends on, and the chunk
of each is merged upwards. The excess is then at least the weight of every prefix. An order that
takes chunk after chunk, always one of the highest, has a prefix whose weight is the excess.
-/
namespace DripCore.Chunking
open List Finset
variable {V : Type*} [DecidableEq V] {K : Type*} [Field K] [LinearOrder K]

section
variable (dep : V → V → Prop) (fee size : V → K) (s : Finset V)

/-- The chunks after the elements of `q`; all others are still alone. -/
structure Chunked (q : List V) (chunk : V → Finset V) : Prop where
  isChunking : IsChunking s chunk
  ordered : Ordered dep fee size q.toFinset chunk
  single : ∀ v ∈ s, v ∉ q → chunk v = {v}
  weight_le : ∀ l r, r <+: q →
    weight fee size l r.toFinset+∑ v ∈ s \ q.toFinset, max (weight fee size l {v}) 0 ≤
      excess fee size s l chunk

/-- Whole chunks in an order, from the highest on. -/
structure Emitted (chunk : V → Finset V) (ret : List V) : Prop where
  mem : ∀ v ∈ ret, v ∈ s
  whole : ∀ v ∈ ret, chunk v ⊆ ret.toFinset
  high : ∀ v ∈ ret, ∀ w ∈ s, w ∉ ret → rate fee size (chunk w) ≤ rate fee size (chunk v)
  heavy : ∀ l, ∃ r, r <+: ret ∧ excess fee size ret.toFinset l chunk ≤ weight fee size l r.toFinset

end

variable {dep : V → V → Prop} {fee size : V → K} {s : Finset V} {ch ch' : V → Finset V}
variable {q : List V} {x : V} [IsStrictOrderedRing K]

/-- The chunks so far, together with whichever of the others have a positive weight. -/
theorem weight_add_singles_le (hc : IsChunking s ch) {F : Finset V} (hf : F ⊆ s)
    (hF : ∀ v ∈ F, ch v ⊆ F) (hs : ∀ v ∈ s, v ∉ F → ch v = {v}) (l : K) :
    weight fee size l F+∑ v ∈ s \ F, max (weight fee size l {v}) 0 ≤ excess fee size s l ch := by
  let rest := (s \ F).filter fun v => 0 ≤ weight fee size l {v}
  have hr : ∀ v ∈ rest, v ∈ s ∧ v ∉ F := fun v hv =>
    mem_sdiff.mp (mem_filter.mp hv).1
  have hd : Disjoint F rest := disjoint_right.mpr fun v hv => (hr v hv).2
  have hu : ∑ v ∈ s \ F, max (weight fee size l {v}) 0 = weight fee size l rest := by
    rw [weight,sum_filter]
    refine sum_congr rfl fun v _ => ?_
    rw [weight,Finset.sum_singleton]
    split_ifs with h
    · exact max_eq_left h
    · exact max_eq_right (not_le.mp h).le
  rw [hu,← weight_union hd]
  refine hc.weight_le_excess (union_subset hf fun v hv => (hr v hv).1) fun v hv => ?_
  rcases mem_union.mp hv with hv | hv
  · exact (hF v hv).trans subset_union_left
  · rw [hs v (hr v hv).1 (hr v hv).2,singleton_subset_iff]
    exact mem_union_right _ hv

theorem chunked_nil (h : ∀ v ∈ s, ch v = {v}) : Chunked dep fee size s [] ch where
  isChunking := isChunking_singletons h
  ordered := by
    refine ⟨fun v hv => ?_,fun p c _ hc => ?_,fun p c _ hc => ?_⟩
    · exact absurd hv (notMem_empty v)
    · exact absurd hc (notMem_empty c)
    · exact absurd hc (notMem_empty c)
  single v hv _ := h v hv
  weight_le l r hr := by
    rw [prefix_nil.mp hr]
    exact weight_add_singles_le (isChunking_singletons h) (empty_subset s)
      (fun v hv => absurd hv (notMem_empty v)) (fun v hv _ => h v hv) l

theorem Chunked.append (h : Chunked dep fee size s q ch) (hp : ∀ v ∈ s, 0 < size v)
    (hq : ∀ v ∈ q, v ∈ s) (hx : x ∈ s) (hxq : x ∉ q) (hpa : ∀ p, dep p x → p ∈ q)
    (hu : MergesUp dep fee size s x ch ch') : Chunked dep fee size s (q++[x]) ch' := by
  have hqs : q.toFinset ⊆ s := fun v hv => hq v (mem_toFinset.mp hv)
  have hf : x ∉ q.toFinset := fun hx => hxq (mem_toFinset.mp hx)
  have hchunk_x := h.single x hx hxq
  have ha : (q++[x]).toFinset = q.toFinset∪ch x := by
    rw [hchunk_x,toFinset_append]
    rfl
  have hm : Merging dep fee size q.toFinset ch x := by
    refine h.ordered.merging hf ?_ fun p c hd hc => .inr ?_
    · rw [hchunk_x]
      exact disjoint_singleton_left.mpr hf
    · rw [hchunk_x,Finset.mem_singleton] at hc
      exact mem_toFinset.mpr (hpa p (hc ▸ hd))
  obtain ⟨hh',ho⟩ := hu.isChunking_ordered hp h.isChunking hx hqs hm
  have hs : ∀ v ∈ s, v ∉ q++[x] → ch' v = {v} := by
    intro v hv hn
    rw [hu.eq_of_notMem hp h.isChunking hx hqs hm]
    · exact h.single v hv fun hvq => hn (mem_append_left _ hvq)
    · rwa [← ha,mem_toFinset]
  refine ⟨hh',ha ▸ ho,hs,fun l r hr => ?_⟩
  rcases prefix_concat_iff.mp hr with rfl | hr
  · refine weight_add_singles_le hh' ?_ ?_ ?_ l
    · rw [ha]
      exact union_subset hqs (h.isChunking.subset x hx)
    · rw [ha]
      exact ho.chunk_subset
    · exact fun v hv hn => hs v hv fun he => hn (mem_toFinset.mpr he)
  · -- What the run loses at most is what `x` had counted for among the others.
    have hb := h.weight_le l r hr
    have hl : excess fee size s l ch ≤ _ := hu.excess_le hp h.isChunking hx hqs hm
    have hsp : s \ q.toFinset = insert x (s \ (q++[x]).toFinset) := by
      ext v
      by_cases hvx : v = x
      · simp [hvx,hx,hxq]
      · simp [hvx]
    have hn : x ∉ s \ (q++[x]).toFinset := by simp
    rw [hsp,sum_insert hn] at hb
    rw [hchunk_x] at hl
    linarith

omit [IsStrictOrderedRing K] in
theorem emitted_nil (fee size : V → K) (s : Finset V) (ch : V → Finset V) :
    Emitted fee size s ch [] where
  mem _ hv := absurd hv not_mem_nil
  whole _ hv := absurd hv not_mem_nil
  high _ hv := absurd hv not_mem_nil
  heavy _ := ⟨[],prefix_rfl,le_rfl⟩

theorem Emitted.append {ret xs : List V} (h : Emitted fee size s ch ret)
    (hp : ∀ v ∈ s, 0 < size v) (hc : IsChunking s ch) (hx : x ∈ s) (hxr : x ∉ ret)
    (hm : ∀ w ∈ s, w ∉ ret → rate fee size (ch w) ≤ rate fee size (ch x))
    (hs : xs.toFinset = ch x) : Emitted fee size s ch (ret++xs) := by
  have hme : ∀ v, v ∈ xs ↔ v ∈ ch x := fun v => by rw [← mem_toFinset,hs]
  have hre : ret.toFinset ⊆ s := fun v hv => h.mem v (mem_toFinset.mp hv)
  have hh : ∀ v ∈ ret.toFinset, ch v ⊆ ret.toFinset := fun v hv =>
    h.whole v (mem_toFinset.mp hv)
  have hxr' : x ∉ ret.toFinset := fun hme => hxr (mem_toFinset.mp hme)
  refine ⟨fun v hv => ?_,fun v hv => ?_,fun v hv w hw ho => ?_,fun l => ?_⟩
  · rcases mem_append.mp hv with hv | hv
    · exact h.mem v hv
    · exact hc.subset x hx ((hme v).mp hv)
  · rw [toFinset_append]
    rcases mem_append.mp hv with hv | hv
    · exact (h.whole v hv).trans subset_union_left
    · rw [hc.eq_of_mem x hx v ((hme v).mp hv),hs]
      exact subset_union_right
  · have hwr : w ∉ ret := fun hw => ho (mem_append_left _ hw)
    rcases mem_append.mp hv with hv | hv
    · exact h.high v hv w hw hwr
    · rw [hc.eq_of_mem x hx v ((hme v).mp hv)]
      exact hm w hw hwr
  · rw [toFinset_append,hs,hc.excess_union hh hx hxr']
    rcases le_or_gt (weight fee size l (ch x)) 0 with hl | ht
    · obtain ⟨r,hr,hl'⟩ := h.heavy l
      refine ⟨r,hr.trans (prefix_append _ _),?_⟩
      rwa [max_eq_right hl,add_zero]
    · -- Everything before is at least as high, so all of it counts.
      have ha := (weight_pos_iff (hc.sum_size_pos hp hx)).mp ht
      have hn : ∀ v ∈ ret.toFinset, 0 ≤ weight fee size l (ch v) := fun v hv => by
        rw [weight_nonneg_iff (hc.sum_size_pos hp (hre hv))]
        exact ha.le.trans (h.high v (mem_toFinset.mp hv) x hx hxr)
      have hd : Disjoint ret.toFinset (ch x) := by
        rw [Finset.disjoint_left]
        intro v hv hvx
        have he := hc.eq_of_mem x hx v hvx
        exact hxr' (hh v hv (he ▸ hc.self x hx))
      refine ⟨ret++xs,prefix_rfl,?_⟩
      rw [toFinset_append,hs,weight_union hd,hc.excess_eq_weight hre hh hn,max_eq_left ht.le]

end DripCore.Chunking
