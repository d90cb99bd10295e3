import DripCore.ChunkPartition

/-!
# Merging a chunk upwards

A chunk is merged, again and again, with the lowest of the chunks that it depends on, as long as
that one is no higher. Started from a set `F` of chunks, each lower than those it depends on, this
ends with such a set again, and what the excess loses is at most what the chunk itself had.
-/
set_option linter.unusedSectionVars false

namespace DripCore.Chunking
open Finset
variable {V : Type*} [DecidableEq V] {K : Type*} [Field K] [LinearOrder K]

variable (dep : V → V → Prop) (fee size : V → K)

/-- The chunk of `y` is the lowest of those the chunk of `x` depends on, and no higher than it. -/
structure IsMergeUp (chunk : V → Finset V) (x y : V) : Prop where
  ne : chunk y ≠ chunk x
  above : ∃ p ∈ chunk y, ∃ c ∈ chunk x, dep p c
  le : rate fee size (chunk y) ≤ rate fee size (chunk x)
  least : ∀ p c, dep p c → c ∈ chunk x → p ∉ chunk x →
    rate fee size (chunk y) ≤ rate fee size (chunk p)

/-- Every chunk that the chunk of `x` depends on is higher. -/
def Settled (chunk : V → Finset V) (x : V) : Prop :=
  ∀ p c, dep p c → c ∈ chunk x → p ∉ chunk x → rate fee size (chunk x) < rate fee size (chunk p)

inductive MergesUp (s : Finset V) (x : V) : (V → Finset V) → (V → Finset V) → Prop
  | done {chunk : V → Finset V} (h : Settled dep fee size chunk x) : MergesUp s x chunk chunk
  | step {chunk chunk' : V → Finset V} {y : V} (hy : y ∈ s) (h : IsMergeUp dep fee size chunk x y)
      (hrest : MergesUp s x (merge (chunk x) (chunk y) chunk) chunk') : MergesUp s x chunk chunk'

/-- Chunks that depend only on each other, each lower than those it depends on. -/
structure Ordered (G : Finset V) (chunk : V → Finset V) : Prop where
  chunk_subset : ∀ v ∈ G, chunk v ⊆ G
  closed : ∀ p c, dep p c → c ∈ G → p ∈ G
  lt : ∀ p c, dep p c → c ∈ G → chunk p ≠ chunk c →
    rate fee size (chunk c) < rate fee size (chunk p)

/-- The chunk of `x` is being merged into the chunks of `F`. What depends on it is lower than it,
and lower than what it depends on. -/
structure Merging (F : Finset V) (chunk : V → Finset V) (x : V) : Prop where
  subset : ∀ v ∈ F, chunk v ⊆ F
  notMem : x ∉ F
  parents : ∀ p c, dep p c → c ∈ chunk x → p ∈ chunk x ∨ p ∈ F
  closed : ∀ p c, dep p c → c ∈ F → p ∈ chunk x ∨ p ∈ F
  lt : ∀ p c, dep p c → c ∈ F → p ∈ F → chunk p ≠ chunk c →
    rate fee size (chunk c) < rate fee size (chunk p)
  below : ∀ p c, dep p c → p ∈ chunk x → c ∈ F → rate fee size (chunk c) < rate fee size (chunk x)
  between : ∀ p c, dep p c → p ∈ chunk x → c ∈ F → ∀ q d, dep q d → d ∈ chunk x → q ∈ F →
    rate fee size (chunk c) < rate fee size (chunk q)

variable {dep fee size} {s F : Finset V} {chunk chunk' : V → Finset V}
variable {x y : V} {l a : K}

theorem Ordered.merging (h : Ordered dep fee size F chunk) (hx : x ∉ F)
    (hd : Disjoint (chunk x) F) (ha : ∀ p c, dep p c → c ∈ chunk x → p ∈ chunk x ∨ p ∈ F) :
    Merging dep fee size F chunk x where
  subset := h.chunk_subset
  notMem := hx
  parents := ha
  closed p c he hc := .inr (h.closed p c he hc)
  lt p c he hc _ := h.lt p c he hc
  below p c he hp hc := absurd (h.closed p c he hc) (disjoint_left.mp hd hp)
  between p c he hp hc := absurd (h.closed p c he hc) (disjoint_left.mp hd hp)

section
variable (hch : IsChunking s chunk) (hx : x ∈ s) (h : Merging dep fee size F chunk x)
include hch hx h

theorem Merging.notMem_chunk {v : V} (hv : v ∈ F) : v ∉ chunk x := by
  intro hvx
  have he := hch.eq_of_mem x hx v hvx
  exact h.notMem (h.subset v hv (he ▸ hch.self x hx))

theorem Merging.ordered (hs : Settled dep fee size chunk x) :
    Ordered dep fee size (F∪chunk x) chunk where
  chunk_subset v hv := by
    rcases mem_union.mp hv with hv | hv
    · exact (h.subset v hv).trans subset_union_left
    · rw [hch.eq_of_mem x hx v hv]
      exact subset_union_right
  closed p c hd hc := by
    rw [mem_union,or_comm]
    rcases mem_union.mp hc with hc | hc
    · exact h.closed p c hd hc
    · exact h.parents p c hd hc
  lt p c hd hc hn := by
    rcases mem_union.mp hc with hc | hc
    · rcases h.closed p c hd hc with hp | hp
      · rw [hch.eq_of_mem x hx p hp]
        exact h.below p c hd hp hc
      · exact h.lt p c hd hc hp hn
    · have hcx := hch.eq_of_mem x hx c hc
      rw [hcx] at hn ⊢
      exact hs p c hd hc fun hp => hn (hch.eq_of_mem x hx p hp)

variable (hy : y ∈ s) (hst : IsMergeUp dep fee size chunk x y)
include hy hst

theorem Merging.merged_subset : chunk y ⊆ F := by
  obtain ⟨p,hp,c,hc,hd⟩ := hst.above
  have he := hch.eq_of_mem y hy p hp
  have hpx : p ∉ chunk x := fun hpx => hst.ne (he.symm.trans (hch.eq_of_mem x hx p hpx))
  rw [← he]
  exact h.subset p ((h.parents p c hd hc).resolve_left hpx)

theorem Merging.sdiff_union : F \ chunk y∪(chunk x∪chunk y) = F∪chunk x := by
  rw [union_comm (chunk x),← union_assoc,sdiff_union_of_subset (h.merged_subset hch hx hy hst)]

variable (hFs : F ⊆ s)
include hFs

omit hy hst in
theorem Merging.merge_of_mem_sdiff {v : V} (hv : v ∈ F \ chunk y) :
    merge (chunk x) (chunk y) chunk v = chunk v := by
  obtain ⟨hf,hvy⟩ := mem_sdiff.mp hv
  refine merge_of_notMem fun hm => ?_
  exact (mem_union.mp hm).elim (h.notMem_chunk hch hx hf) hvy

/-- What depends on the merged chunk is lower than the chunk it was merged with. -/
theorem Merging.lt_merged {p c : V} (hde : dep p c) (hp : p ∈ chunk x∪chunk y)
    (hc : c ∈ F \ chunk y) : rate fee size (chunk c) < rate fee size (chunk y) := by
  obtain ⟨hf,hcy⟩ := mem_sdiff.mp hc
  have hs := h.merged_subset hch hx hy hst
  rcases mem_union.mp hp with hp | hp
  · obtain ⟨q,hq,d,hd,hde'⟩ := hst.above
    rw [← hch.eq_of_mem y hy q hq]
    exact h.between p c hde hp hf q d hde' hd (hs hq)
  · have hpy := hch.eq_of_mem y hy p hp
    rw [← hpy]
    refine h.lt p c hde hf (hs hp) fun he => hcy ?_
    rw [← hpy,he]
    exact hch.self c (hFs hf)

/-- What the merged chunk depends on is no lower than the chunk it was merged with. -/
theorem Merging.merged_le {q d : V} (hde : dep q d) (hd : d ∈ chunk x∪chunk y)
    (hq : q ∈ F \ chunk y) : rate fee size (chunk y) ≤ rate fee size (chunk q) := by
  obtain ⟨hf,hqy⟩ := mem_sdiff.mp hq
  have hs := h.merged_subset hch hx hy hst
  rcases mem_union.mp hd with hd | hd
  · exact hst.least q d hde hd (h.notMem_chunk hch hx hf)
  · have hdy := hch.eq_of_mem y hy d hd
    rw [← hdy]
    refine (h.lt q d hde (hs hd) hf fun he => hqy ?_).le
    rw [← hdy,← he]
    exact hch.self q (hFs hf)

variable [IsStrictOrderedRing K] (hpo : ∀ v ∈ s, 0 < size v)
include hpo

omit hFs h in
theorem IsMergeUp.le_merged : rate fee size (chunk y) ≤ rate fee size (chunk x∪chunk y) :=
  le_rate_union (hch.sum_size_pos hpo hx) (hch.sum_size_pos hpo hy)
    (hch.disjoint_of_ne hx hy hst.ne.symm) hst.le le_rfl

theorem Merging.step : Merging dep fee size (F \ chunk y) (merge (chunk x) (chunk y) chunk) x := by
  have hs : merge (chunk x) (chunk y) chunk x = chunk x∪chunk y :=
    merge_of_mem (mem_union_left _ (hch.self x hx))
  have hk : ∀ v ∈ F \ chunk y, merge (chunk x) (chunk y) chunk v = chunk v :=
    fun v hv => h.merge_of_mem_sdiff hch hx hFs hv
  have ha : ∀ p, p ∈ chunk x ∨ p ∈ F → p ∈ chunk x∪chunk y ∨ p ∈ F \ chunk y := by
    intro p hp
    rw [mem_union,mem_sdiff]
    tauto
  refine ⟨?_,?_,?_,?_,?_,?_,?_⟩
  · intro v hv w hw
    rw [hk v hv] at hw
    obtain ⟨hf,hvy⟩ := mem_sdiff.mp hv
    refine mem_sdiff.mpr ⟨h.subset v hf hw,fun hwy => hvy ?_⟩
    rw [← hch.eq_of_mem y hy w hwy,hch.eq_of_mem v (hFs hf) w hw]
    exact hch.self v (hFs hf)
  · exact fun hm => h.notMem (mem_sdiff.mp hm).1
  · intro p c he hc
    rw [hs] at hc ⊢
    apply ha
    rcases mem_union.mp hc with hc | hc
    · exact h.parents p c he hc
    · exact h.closed p c he (h.merged_subset hch hx hy hst hc)
  · intro p c he hc
    rw [hs]
    exact ha p (h.closed p c he (mem_sdiff.mp hc).1)
  · intro p c he hc hp hn
    rw [hk p hp,hk c hc] at hn ⊢
    exact h.lt p c he (mem_sdiff.mp hc).1 (mem_sdiff.mp hp).1 hn
  · intro p c he hp hc
    rw [hs] at hp ⊢
    rw [hk c hc]
    exact (h.lt_merged hch hx hy hst hFs he hp hc).trans_le (hst.le_merged hch hx hy hpo)
  · intro p c he hp hc q d he' hd hq
    rw [hs] at hp hd
    rw [hk c hc,hk q hq]
    exact (h.lt_merged hch hx hy hst hFs he hp hc).trans_le
      (h.merged_le hch hx hy hst hFs he' hd hq)

end

variable [IsStrictOrderedRing K] (hpo : ∀ v ∈ s, 0 < size v)
include hpo

/-- Whatever one merge keeps, the whole run keeps. -/
theorem MergesUp.induct (hr : MergesUp dep fee size s x chunk chunk') (hch : IsChunking s chunk)
    (hx : x ∈ s) (hFs : F ⊆ s) (h : Merging dep fee size F chunk x)
    (P : Finset V → (V → Finset V) → Prop)
    (hst : ∀ F1 chunk1 y, F1∪chunk1 x = F∪chunk x → IsChunking s chunk1 → F1 ⊆ s → y ∈ s →
      Merging dep fee size F1 chunk1 x → IsMergeUp dep fee size chunk1 x y → P F1 chunk1 →
      P (F1 \ chunk1 y) (merge (chunk1 x) (chunk1 y) chunk1)) (hP : P F chunk) :
    ∃ F', P F' chunk' ∧ IsChunking s chunk' ∧ F' ⊆ s ∧ F'∪chunk' x = F∪chunk x ∧
      Merging dep fee size F' chunk' x ∧ Settled dep fee size chunk' x := by
  induction hr generalizing F with
  | done hse => exact ⟨F,hP,hch,hFs,rfl,h,hse⟩
  | @step chunk chunk' y hy hm hre ih =>
    have hs : merge (chunk x) (chunk y) chunk x = chunk x∪chunk y :=
      merge_of_mem (mem_union_left _ (hch.self x hx))
    have he := @ih (F \ chunk y)
    rw [hs,h.sdiff_union hch hx hy hm] at he
    exact he (hch.merge hx hy) (sdiff_subset.trans hFs)
      (h.step hch hx hy hm hFs hpo) hst (hst F chunk y rfl hch hFs hy h hm hP)

theorem excess_merge_of_le (hch : IsChunking s chunk) (hx : x ∈ s) (hy : y ∈ s)
    (hn : chunk y ≠ chunk x) (hl : l ≤ rate fee size (chunk x))
    (hly : l ≤ rate fee size (chunk y)) :
    excess fee size s l (merge (chunk x) (chunk y) chunk) = excess fee size s l chunk := by
  have hm := hch.excess_merge fee size l hx hy hn
  rw [← weight_nonneg_iff (hch.sum_size_pos hpo hx)] at hl
  rw [← weight_nonneg_iff (hch.sum_size_pos hpo hy)] at hly
  rw [max_eq_left hl,max_eq_left hly,max_eq_left (add_nonneg hl hly)] at hm
  exact add_right_cancel hm

/-- While the chunk of `x` depends on one that is not above `l`, it has none above `l` merged into
it. -/
def ExcessKept (dep : V → V → Prop) (fee size : V → K) (s : Finset V) (l b : K) (x : V)
    (F : Finset V)
    (chunk : V → Finset V) : Prop :=
  b ≤ excess fee size s l chunk ∧ ∀ p c, dep p c → c ∈ chunk x → p ∈ F →
    rate fee size (chunk p) ≤ l →
      excess fee size s l chunk = b+max (weight fee size l (chunk x)) 0

theorem ExcessKept.step {b : K} (hk : ExcessKept dep fee size s l b x F chunk)
    (hch : IsChunking s chunk) (hFs : F ⊆ s) (hx : x ∈ s) (hy : y ∈ s)
    (h : Merging dep fee size F chunk x) (hst : IsMergeUp dep fee size chunk x y) :
    ExcessKept dep fee size s l b x (F \ chunk y) (merge (chunk x) (chunk y) chunk) := by
  have hs : merge (chunk x) (chunk y) chunk x = chunk x∪chunk y :=
    merge_of_mem (mem_union_left _ (hch.self x hx))
  have hd := hch.disjoint_of_ne hx hy hst.ne.symm
  rcases lt_or_ge l (rate fee size (chunk y)) with hl | hl
  · -- Both chunks are above `l`, and so is everything that the merged chunk depends on.
    have he := excess_merge_of_le hpo hch hx hy hst.ne (hl.le.trans hst.le) hl.le
    refine ⟨he ▸ hk.1,fun p c hde hc hp hle => ?_⟩
    rw [hs] at hc
    rw [h.merge_of_mem_sdiff hch hx hFs hp] at hle
    exact absurd (h.merged_le hch hx hy hst hFs hde hc hp) (not_le.mpr (hle.trans_lt hl))
  · obtain ⟨p,hp,c,hc,hde⟩ := hst.above
    have hb := hk.2 p c hde hc (h.merged_subset hch hx hy hst hp) (by rwa [hch.eq_of_mem y hy p hp])
    have hm := hch.excess_merge fee size l hx hy hst.ne
    have hn := weight_nonpos (hch.sum_size_pos hpo hy) hl
    have ha : excess fee size s l (merge (chunk x) (chunk y) chunk) =
        b+max (weight fee size l (chunk x∪chunk y)) 0 := by
      rw [weight_union hd]
      rw [max_eq_right hn] at hm
      linarith
    refine ⟨?_,fun _ _ _ _ _ _ => ?_⟩
    · rw [ha]
      exact le_add_of_nonneg_right (le_max_right _ _)
    · rw [ha,hs]

variable (hr : MergesUp dep fee size s x chunk chunk') (hch : IsChunking s chunk)
  (hx : x ∈ s) (hFs : F ⊆ s) (h : Merging dep fee size F chunk x)
include hr hch hx hFs h

theorem MergesUp.isChunking_ordered : IsChunking s chunk' ∧
    Ordered dep fee size (F∪chunk x) chunk' := by
  obtain ⟨F',-,hch',hFs',hu,h',hs⟩ := hr.induct hpo hch hx hFs h
    (fun _ _ => True) (fun _ _ _ _ _ _ _ _ _ _ => trivial) trivial
  rw [← hu]
  exact ⟨hch',h'.ordered hch' hx hs⟩

theorem MergesUp.eq_of_notMem {v : V} (hv : v ∉ F∪chunk x) : chunk' v = chunk v := by
  refine (hr.induct hpo hch hx hFs h (fun _ chunk1 => chunk1 v = chunk v) ?_ rfl).elim fun _ hr' =>
    hr'.1
  intro F1 chunk1 y hu hch1 _ hy h1 hm he
  rw [merge_of_notMem,he]
  intro hme
  apply hv
  rw [← hu,← h1.sdiff_union hch1 hx hy hm]
  exact mem_union_right _ hme

theorem MergesUp.lt_rate (hl : ∀ v ∈ F∪chunk x, a < rate fee size (chunk v)) :
    ∀ v ∈ F∪chunk x, a < rate fee size (chunk' v) := by
  refine (hr.induct hpo hch hx hFs h (fun _ chunk1 => ∀ v ∈ F∪chunk x,
    a < rate fee size (chunk1 v)) ?_ hl).elim
    fun _ hr' => hr'.1
  intro F1 chunk1 y hu hch1 _ hy h1 hm hl1 v hv
  by_cases he : v ∈ chunk1 x∪chunk1 y
  · have hx' : x ∈ F∪chunk x := mem_union_right _ (hch.self x hx)
    have hy' : y ∈ F1∪chunk1 x := mem_union_left _ (h1.merged_subset hch1 hx hy hm (hch1.self y hy))
    rw [merge_of_mem he]
    exact lt_rate_union (hch1.sum_size_pos hpo hx) (hch1.sum_size_pos hpo hy)
      (hch1.disjoint_of_ne hx hy hm.ne.symm) (hl1 x hx') (hl1 y (hu ▸ hy'))
  · rw [merge_of_notMem he]
    exact hl1 v hv

/-- The run loses no more than what the chunk of `x` had. -/
theorem MergesUp.excess_le :
    excess fee size s l chunk ≤ excess fee size s l chunk'+max (weight fee size l (chunk x)) 0 := by
  obtain ⟨F',hk,-⟩ := hr.induct hpo hch hx hFs h
    (ExcessKept dep fee size s l (excess fee size s l chunk-max (weight fee size l (chunk x)) 0) x)
    (fun F1 chunk1 y _ hch1 hFs1 hy h1 hm hk =>
      hk.step hpo hch1 hFs1 hx hy h1 hm)
    ⟨sub_le_self _ (le_max_right _ _),fun _ _ _ _ _ _ => (sub_add_cancel _ _).symm⟩
  exact sub_le_iff_le_add.mp hk.1

/-- Among chunks above `l`, the run loses nothing. -/
theorem MergesUp.excess_eq (hl : ∀ v ∈ F∪chunk x, l ≤ rate fee size (chunk v)) :
    excess fee size s l chunk' = excess fee size s l chunk := by
  refine (hr.induct hpo hch hx hFs h (fun _ chunk1 => (∀ v ∈ F∪chunk x,
    l ≤ rate fee size (chunk1 v)) ∧
      excess fee size s l chunk1 = excess fee size s l chunk) ?_ ⟨hl,rfl⟩).elim
    fun _ hr' => hr'.1.2
  intro F1 chunk1 y hu hch1 _ hy h1 hm ⟨hl1,he⟩
  have hx' : x ∈ F∪chunk x := mem_union_right _ (hch.self x hx)
  have hy' : y ∈ F1∪chunk1 x := mem_union_left _ (h1.merged_subset hch1 hx hy hm (hch1.self y hy))
  rw [hu] at hy'
  refine ⟨fun v hv => ?_,?_⟩
  · by_cases hme : v ∈ chunk1 x∪chunk1 y
    · rw [merge_of_mem hme]
      exact le_rate_union (hch1.sum_size_pos hpo hx) (hch1.sum_size_pos hpo hy)
        (hch1.disjoint_of_ne hx hy hm.ne.symm) (hl1 x hx') (hl1 y hy')
    · rw [merge_of_notMem hme]
      exact hl1 v hv
  · rw [excess_merge_of_le hpo hch1 hx hy hm.ne (hl1 x hx') (hl1 y hy'),he]

end DripCore.Chunking
