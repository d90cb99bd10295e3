import DripCore.UpwardMerges
import Mathlib.Algebra.Order.Group.MinMax

/-!
# Splitting a chunk and merging again

In an ordered division, a chunk is split into a top of higher feerate and a bottom. The top is
merged upwards and the bottom downwards, which is upwards with dependencies turned round and fees
negated. The division is ordered again, and its excess has not become smaller.
-/
set_option linter.unusedSectionVars false

namespace DripCore.Chunking
open Finset
variable {V : Type*} [DecidableEq V] {K : Type*} [Field K] [LinearOrder K] [IsStrictOrderedRing K]
variable {dep : V → V → Prop} {fee size : V → K} {s : Finset V} {ch : V → Finset V}
variable {chunk₁ ch₂ ch₃ : V → Finset V} {x y : V}

section
variable (hde : ∀ p c, dep p c → p ∈ s ∧ c ∈ s) (h : Ordered dep fee size s ch)
include hde h

theorem Ordered.dual : Ordered (flip dep) (fun v => -fee v) size s ch where
  chunk_subset := h.chunk_subset
  closed p c hf _ := (hde c p hf).2
  lt p c hf _ hn := by
    rw [rate_dual,rate_dual,neg_lt_neg_iff]
    exact h.lt c p hf (hde c p hf).2 hn.symm

/-- In an ordered division no merge takes place. -/
theorem Ordered.eq_of_mergesUp (hh : IsChunking s ch) (hx : x ∈ s)
    (hr : MergesUp dep fee size s x ch chunk₁) : chunk₁ = ch := by
  cases hr with
  | done _ => rfl
  | @step _ _ y hy hm _ =>
    obtain ⟨p,hp,c,hc,hde'⟩ := hm.above
    have hpy := hh.eq_of_mem y hy p hp
    have hcx := hh.eq_of_mem x hx c hc
    have hl := h.lt p c hde' (hde p c hde').2 (by rw [hpy,hcx]; exact hm.ne)
    rw [hpy,hcx] at hl
    exact absurd hm.le (not_le.mpr hl)

end

/-- The chunk of `x` and `y` has been split into two, and that of `x` is higher than before. -/
structure IsSplit (dep : V → V → Prop) (fee size : V → K) (s : Finset V) (chunk₁ : V → Finset V)
    (x y : V) : Prop where
  isChunking : IsChunking s chunk₁
  mem_top : x ∈ s
  mem_bottom : y ∈ s
  ne : chunk₁ y ≠ chunk₁ x
  ordered : Ordered dep fee size s (merge (chunk₁ x) (chunk₁ y) chunk₁)
  gain : rate fee size (chunk₁ x ∪ chunk₁ y) < rate fee size (chunk₁ x)

namespace IsSplit
variable (hsp : IsSplit dep fee size s chunk₁ x y)
include hsp

theorem disjoint : Disjoint (chunk₁ x) (chunk₁ y) :=
  hsp.isChunking.disjoint_of_ne hsp.mem_top hsp.mem_bottom hsp.ne.symm

theorem sum_size_pos (hpos : ∀ v ∈ s, 0 < size v) : 0 < ∑ v ∈ chunk₁ x∪chunk₁ y, size v :=
  sum_size_union_pos (hsp.isChunking.sum_size_pos hpos hsp.mem_top)
    (hsp.isChunking.sum_size_pos hpos hsp.mem_bottom) hsp.disjoint

theorem notMem_of_mem {v w : V} (hv : v ∈ s) (hvC : v ∉ chunk₁ x∪chunk₁ y) (hw : w ∈ chunk₁ v) :
    w ∉ chunk₁ x∪chunk₁ y := by
  rw [mem_union,not_or] at hvC ⊢
  exact ⟨hsp.isChunking.notMem_of_mem hv hsp.mem_top hvC.1 hw,
    hsp.isChunking.notMem_of_mem hv hsp.mem_bottom hvC.2 hw⟩

theorem bottom_lt (hpos : ∀ v ∈ s, 0 < size v) :
    rate fee size (chunk₁ y) < rate fee size (chunk₁ x∪chunk₁ y) := by
  have hpo := hsp.isChunking.sum_size_pos hpos hsp.mem_top
  have ho := hsp.isChunking.sum_size_pos hpos hsp.mem_bottom
  have hu := hsp.sum_size_pos hpos
  by_contra hl
  have ht := (weight_pos_iff hpo).mpr hsp.gain
  have hb := (weight_nonneg_iff ho).mpr (not_lt.mp hl)
  -- At its own feerate the whole chunk weighs nothing.
  have hz : weight fee size (rate fee size (chunk₁ x∪chunk₁ y)) (chunk₁ x∪chunk₁ y) = 0 := by
    rw [weight_eq,rate,div_mul_cancel₀ _ hu.ne',sub_self]
  rw [weight_union hsp.disjoint] at hz
  linarith

section
variable (hde : ∀ p c, dep p c → p ∈ s ∧ c ∈ s)
include hde

/-- The same split from below, with the dependencies turned round and the fees negated. -/
theorem dual (hpos : ∀ v ∈ s, 0 < size v) :
    IsSplit (flip dep) (fun v => -fee v) size s chunk₁ y x where
  isChunking := hsp.isChunking
  mem_top := hsp.mem_bottom
  mem_bottom := hsp.mem_top
  ne := hsp.ne.symm
  ordered := by
    rw [merge_comm]
    exact hsp.ordered.dual hde
  gain := by
    rw [rate_dual,rate_dual,neg_lt_neg_iff,union_comm]
    exact hsp.bottom_lt hpos

variable {c p : V}

theorem lt_of_parent (h : dep p c) (hc : c ∈ chunk₁ x∪chunk₁ y) (hp : p ∉ chunk₁ x∪chunk₁ y) :
    rate fee size (chunk₁ x∪chunk₁ y) < rate fee size (chunk₁ p) := by
  have hs := (hde p c h).1
  have hl := hsp.ordered.lt p c h (hde p c h).2
  rw [merge_of_mem hc,merge_of_notMem hp] at hl
  refine hl fun he => hp ?_
  rw [← he]
  exact hsp.isChunking.self p hs

theorem lt_of_child (h : dep p c) (hp : p ∈ chunk₁ x∪chunk₁ y) (hc : c ∉ chunk₁ x∪chunk₁ y) :
    rate fee size (chunk₁ c) < rate fee size (chunk₁ x∪chunk₁ y) := by
  have hs := (hde p c h).2
  have hl := hsp.ordered.lt p c h hs
  rw [merge_of_mem hp,merge_of_notMem hc] at hl
  refine hl fun he => hc ?_
  rw [he]
  exact hsp.isChunking.self c hs

section
variable (h : dep p c) (hp : p ∉ chunk₁ x ∪ chunk₁ y) (hc : c ∉ chunk₁ x ∪ chunk₁ y)
include h hp hc

theorem lt_of_outside (hn : chunk₁ p ≠ chunk₁ c) :
    rate fee size (chunk₁ c) < rate fee size (chunk₁ p) := by
  have hl := hsp.ordered.lt p c h (hde p c h).2
  rw [merge_of_notMem hp,merge_of_notMem hc] at hl
  exact hl hn

theorem le_of_outside : rate fee size (chunk₁ c) ≤ rate fee size (chunk₁ p) := by
  by_cases he : chunk₁ p = chunk₁ c
  · rw [he]
  · exact (hsp.lt_of_outside hde h hp hc he).le

end

/-- If the top depends on the bottom, it is merged with it again and nothing has changed. -/
theorem merged_back (hpos : ∀ v ∈ s, 0 < size v) (h : dep p c) (hp : p ∈ chunk₁ y)
    (hc : c ∈ chunk₁ x) (hup : MergesUp dep fee size s x chunk₁ ch₂) :
    ch₂ = merge (chunk₁ x) (chunk₁ y) chunk₁ := by
  have hh := hsp.isChunking
  have hb := hsp.bottom_lt hpos
  have hx : p ∉ chunk₁ x := fun hx => disjoint_left.mp hsp.disjoint hx hp
  have hpy := hh.eq_of_mem y hsp.mem_bottom p hp
  cases hup with
  | done hs =>
    have hl := hs p c h hc hx
    rw [hpy] at hl
    exact absurd (hl.trans hb) (not_lt.mpr hsp.gain.le)
  | @step _ _ z hz hm hr =>
    have he := hm.least p c h hc hx
    rw [hpy] at he
    obtain ⟨q,hq,d,hd,hqd⟩ := hm.above
    have hqz := hh.eq_of_mem z hz q hq
    -- Any other chunk that the top depends on is above the whole chunk.
    have hy : q ∈ chunk₁ y := by
      by_contra hy
      have hqx : q ∉ chunk₁ x := fun hqx =>
        hm.ne (hqz.symm.trans (hh.eq_of_mem x hsp.mem_top q hqx))
      have hl := hsp.lt_of_parent hde hqd (mem_union_left _ hd)
        (by rw [mem_union]; exact fun ho => ho.elim hqx hy)
      rw [hqz] at hl
      exact absurd (hl.trans_le he) (not_lt.mpr hb.le)
    rw [← hqz,hh.eq_of_mem y hsp.mem_bottom q hy] at hr
    exact hsp.ordered.eq_of_mergesUp hde (hh.merge hsp.mem_top hsp.mem_bottom) hsp.mem_top hr

end

/-- The other chunks above, and below, the split one. -/
def higher (fee size : V → K) (s : Finset V) (chunk₁ : V → Finset V) (x y : V) : Finset V :=
  s.filter fun v => v ∉ chunk₁ x ∪ chunk₁ y ∧
    rate fee size (chunk₁ x ∪ chunk₁ y) < rate fee size (chunk₁ v)

def lower (fee size : V → K) (s : Finset V) (chunk₁ : V → Finset V) (x y : V) : Finset V :=
  s.filter fun v => v ∉ chunk₁ x ∪ chunk₁ y ∧
    rate fee size (chunk₁ v) < rate fee size (chunk₁ x ∪ chunk₁ y)

omit hsp in
theorem mem_higher {v : V} : v ∈ higher fee size s chunk₁ x y ↔ v ∈ s ∧ v ∉ chunk₁ x∪chunk₁ y ∧
      rate fee size (chunk₁ x∪chunk₁ y) < rate fee size (chunk₁ v) := mem_filter

omit hsp in
theorem mem_lower {v : V} : v ∈ lower fee size s chunk₁ x y ↔ v ∈ s ∧ v ∉ chunk₁ x∪chunk₁ y ∧
      rate fee size (chunk₁ v) < rate fee size (chunk₁ x∪chunk₁ y) := mem_filter

omit hsp in
theorem lower_eq : lower fee size s chunk₁ x y = higher (fun v => -fee v) size s chunk₁ y x := by
  simp only [lower,higher,rate_dual,neg_lt_neg_iff,union_comm]

omit hsp in
theorem higher_subset : higher fee size s chunk₁ x y ⊆ s := filter_subset _ _

omit hsp in
theorem lower_subset : lower fee size s chunk₁ x y ⊆ s := filter_subset _ _

section
variable (hde : ∀ p c, dep p c → p ∈ s ∧ c ∈ s) (hap : ∀ p c, dep p c → p ∈ chunk₁ y → c ∉ chunk₁ x)
include hde

theorem ordered_higher : Ordered dep fee size (higher fee size s chunk₁ x y) chunk₁ where
  chunk_subset v hv w hw := by
    obtain ⟨hs,hvC,hl⟩ := mem_higher.mp hv
    refine mem_higher.mpr ⟨hsp.isChunking.subset v hs hw,hsp.notMem_of_mem hs hvC hw,?_⟩
    rwa [hsp.isChunking.eq_of_mem v hs w hw]
  closed p c h hc := by
    obtain ⟨hcs,hcC,hl⟩ := mem_higher.mp hc
    have hpC : p ∉ chunk₁ x∪chunk₁ y := fun hp =>
      lt_asymm hl (hsp.lt_of_child hde h hp hcC)
    exact mem_higher.mpr ⟨(hde p c h).1,hpC,hl.trans_le (hsp.le_of_outside hde h hpC hcC)⟩
  lt p c h hc hne := by
    obtain ⟨hcs,hcC,hl⟩ := mem_higher.mp hc
    have hpC : p ∉ chunk₁ x∪chunk₁ y := fun hp =>
      lt_asymm hl (hsp.lt_of_child hde h hp hcC)
    exact hsp.lt_of_outside hde h hpC hcC hne

omit hsp hde in
theorem disjoint_higher : Disjoint (chunk₁ x) (higher fee size s chunk₁ x y) :=
  disjoint_left.mpr fun _ hv hm => (mem_higher.mp hm).2.1 (mem_union_left _ hv)

include hap

theorem merging_top : Merging dep fee size (higher fee size s chunk₁ x y) chunk₁ x := by
  have hs := hsp.isChunking.self x hsp.mem_top
  refine (hsp.ordered_higher hde).merging (disjoint_left.mp disjoint_higher hs) disjoint_higher ?_
  intro p c h hc
  by_cases hpC : p ∈ chunk₁ x∪chunk₁ y
  · exact .inl ((mem_union.mp hpC).resolve_right fun hp => hap p c h hp hc)
  · exact .inr (mem_higher.mpr ⟨(hde p c h).1,hpC,hsp.lt_of_parent hde h (mem_union_left _ hc) hpC⟩)

/-- The merges of the top leave the bottom and the chunks below alone. -/
theorem merging_bottom (hpos : ∀ v ∈ s, 0 < size v)
    (hl : ∀ v ∈ lower fee size s chunk₁ x y∪chunk₁ y, ch₂ v = chunk₁ v) :
    Merging (flip dep) (fun v => -fee v) size (lower fee size s chunk₁ x y) ch₂ y := by
  have hd := hsp.dual hde hpos
  have hde' : ∀ p c, flip dep p c → p ∈ s ∧ c ∈ s := fun p c h => (hde c p h).symm
  have hm := hd.merging_top hde' fun p c h hp hc => hap c p h hc hp
  have ho := hd.ordered_higher hde'
  rw [lower_eq] at hl ⊢
  have hy := hl y (mem_union_right _ (hd.isChunking.self y hd.mem_top))
  have he := fun v hv => hl v (mem_union_left _ hv)
  refine Ordered.merging ⟨fun v hv => he v hv ▸ ho.chunk_subset v hv,ho.closed,?_⟩
    hm.notMem (hy.symm ▸ disjoint_higher) (hy.symm ▸ hm.parents)
  intro p c h hc
  rw [he c hc,he p (ho.closed p c h hc)]
  exact ho.lt p c h hc

omit hap hde in
theorem notMem_higher_of_lower {v : V} (hv : v ∈ lower fee size s chunk₁ x y∪chunk₁ y) :
    v ∉ higher fee size s chunk₁ x y∪chunk₁ x := by
  intro hm
  rcases mem_union.mp hv with hv | hv <;> rcases mem_union.mp hm with hm | hm
  · exact lt_asymm (mem_lower.mp hv).2.2 (mem_higher.mp hm).2.2
  · exact (mem_lower.mp hv).2.1 (mem_union_left _ hm)
  · exact (mem_higher.mp hm).2.1 (mem_union_right _ hv)
  · exact disjoint_left.mp hsp.disjoint hm hv

/-- What is neither above nor below has the feerate of the split chunk and is not touched. -/
theorem rate_of_notMem {v : V} (hv : v ∈ s) (hh : v ∉ higher fee size s chunk₁ x y∪chunk₁ x)
    (hl : v ∉ lower fee size s chunk₁ x y∪chunk₁ y) :
    rate fee size (chunk₁ v) = rate fee size (chunk₁ x∪chunk₁ y) := by
  rw [mem_union,not_or] at hh hl
  have hvC : v ∉ chunk₁ x∪chunk₁ y := by
    rw [mem_union]
    exact fun ho => ho.elim hh.2 hl.2
  refine le_antisymm (not_lt.mp fun ht => hh.1 ?_) (not_lt.mp fun ht => hl.1 ?_)
  · exact mem_higher.mpr ⟨hv,hvC,ht⟩
  · exact mem_lower.mpr ⟨hv,hvC,ht⟩

variable (hpos : ∀ v ∈ s, 0 < size v) (hup : MergesUp dep fee size s x chunk₁ ch₂)
  (hdo : MergesUp (flip dep) (fun v => -fee v) size s y ch₂ ch₃)
include hpos hup

theorem after_up : IsChunking s ch₂ ∧
    Ordered dep fee size (higher fee size s chunk₁ x y∪chunk₁ x) ch₂ :=
  hup.isChunking_ordered hpos hsp.isChunking hsp.mem_top higher_subset (hsp.merging_top hde hap)

variable {v : V} {l : K}

theorem eq_after_up (hv : v ∉ higher fee size s chunk₁ x y∪chunk₁ x) : ch₂ v = chunk₁ v :=
  hup.eq_of_notMem hpos hsp.isChunking hsp.mem_top higher_subset (hsp.merging_top hde hap) hv

omit hup in
theorem lt_rate_top : ∀ v ∈ higher fee size s chunk₁ x y∪chunk₁ x,
    rate fee size (chunk₁ x∪chunk₁ y) < rate fee size (chunk₁ v) := by
  intro v hv
  rcases mem_union.mp hv with hv | hv
  · exact (mem_higher.mp hv).2.2
  · rw [hsp.isChunking.eq_of_mem x hsp.mem_top v hv]
    exact hsp.gain

omit hup in
theorem rate_bottom_lt : ∀ v ∈ lower fee size s chunk₁ x y∪chunk₁ y,
    rate fee size (chunk₁ v) < rate fee size (chunk₁ x∪chunk₁ y) := by
  intro v hv
  rcases mem_union.mp hv with hv | hv
  · exact (mem_lower.mp hv).2.2
  · rw [hsp.isChunking.eq_of_mem y hsp.mem_bottom v hv]
    exact hsp.bottom_lt hpos

theorem eq_on_lower : ∀ v ∈ lower fee size s chunk₁ x y∪chunk₁ y, ch₂ v = chunk₁ v :=
  fun _ hv => hsp.eq_after_up hde hap hpos hup (hsp.notMem_higher_of_lower hv)

theorem bottom_eq : ch₂ y = chunk₁ y := hsp.eq_on_lower hde hap hpos hup y
    (mem_union_right _ (hsp.isChunking.self y hsp.mem_bottom))

theorem lt_rate_after_up : ∀ v ∈ higher fee size s chunk₁ x y∪chunk₁ x,
    rate fee size (chunk₁ x∪chunk₁ y) < rate fee size (ch₂ v) :=
  hup.lt_rate hpos hsp.isChunking hsp.mem_top higher_subset (hsp.merging_top hde hap)
    (hsp.lt_rate_top hde hap hpos)

include hdo

theorem after_down : IsChunking s ch₃ ∧ Ordered (flip dep) (fun v => -fee v) size
    (lower fee size s chunk₁ x y∪chunk₁ y) ch₃ := by
  have hm := hsp.merging_bottom hde hap hpos (hsp.eq_on_lower hde hap hpos hup)
  have hr := hdo.isChunking_ordered hpos (hsp.after_up hde hap hpos hup).1 hsp.mem_bottom
    lower_subset hm
  rwa [hsp.bottom_eq hde hap hpos hup] at hr

theorem eq_after_down (hv : v ∉ lower fee size s chunk₁ x y∪chunk₁ y) : ch₃ v = ch₂ v := by
  have hm := hsp.merging_bottom hde hap hpos (hsp.eq_on_lower hde hap hpos hup)
  refine hdo.eq_of_notMem hpos (hsp.after_up hde hap hpos hup).1 hsp.mem_bottom lower_subset hm ?_
  rwa [hsp.bottom_eq hde hap hpos hup]

theorem rate_lt_after_down : ∀ v ∈ lower fee size s chunk₁ x y∪chunk₁ y,
    rate fee size (ch₃ v) < rate fee size (chunk₁ x∪chunk₁ y) := by
  have hm := hsp.merging_bottom hde hap hpos (hsp.eq_on_lower hde hap hpos hup)
  have hl := hdo.lt_rate (a := -rate fee size (chunk₁ x∪chunk₁ y)) hpos
    (hsp.after_up hde hap hpos hup).1 hsp.mem_bottom lower_subset hm
  rw [hsp.bottom_eq hde hap hpos hup] at hl
  have hb : ∀ v ∈ lower fee size s chunk₁ x y∪chunk₁ y,
      -rate fee size (chunk₁ x∪chunk₁ y) < rate (fun v => -fee v) size (ch₂ v) := by
    intro v hv
    rw [rate_dual,neg_lt_neg_iff,hsp.eq_on_lower hde hap hpos hup v hv]
    exact hsp.rate_bottom_lt hde hap hpos v hv
  intro v hv
  have ha := hl hb v hv
  rwa [rate_dual,neg_lt_neg_iff] at ha

/-- The chunks above, those below and the others are each in order, and so are they together. -/
theorem ordered_after : Ordered dep fee size s ch₃ := by
  obtain ⟨hch,hl⟩ := hsp.after_down hde hap hpos hup hdo
  have hh := (hsp.after_up hde hap hpos hup).2
  have hrate_high := hsp.lt_rate_after_up hde hap hpos hup
  have hrate_low := hsp.rate_lt_after_down hde hap hpos hup hdo
  have heq_high : ∀ v ∈ higher fee size s chunk₁ x y∪chunk₁ x, ch₃ v = ch₂ v := fun v hv =>
    hsp.eq_after_down hde hap hpos hup hdo fun hv' => hsp.notMem_higher_of_lower hv' hv
  have heq_mid : ∀ v, v ∉ higher fee size s chunk₁ x y∪chunk₁ x →
      v ∉ lower fee size s chunk₁ x y∪chunk₁ y → ch₃ v = chunk₁ v := fun v hv hv' =>
    (hsp.eq_after_down hde hap hpos hup hdo hv').trans (hsp.eq_after_up hde hap hpos hup hv)
  refine ⟨hch.subset,fun p c h _ => (hde p c h).1,fun p c h _ hn => ?_⟩
  obtain ⟨hs,hcs⟩ := hde p c h
  by_cases hc : c ∈ higher fee size s chunk₁ x y∪chunk₁ x
  · have hp := hh.closed p c h hc
    rw [heq_high p hp,heq_high c hc] at hn ⊢
    exact hh.lt p c h hc hn
  by_cases hp' : p ∈ lower fee size s chunk₁ x y∪chunk₁ y
  · have ht := hl.lt c p h hp' hn.symm
    rwa [rate_dual,rate_dual,neg_lt_neg_iff] at ht
  -- Now the parent is at or above the feerate of the split chunk, and the child at or below it.
  have he : rate fee size (chunk₁ x∪chunk₁ y) ≤ rate fee size (ch₃ p) := by
    by_cases hp : p ∈ higher fee size s chunk₁ x y∪chunk₁ x
    · rw [heq_high p hp]
      exact (hrate_high p hp).le
    · rw [heq_mid p hp hp',hsp.rate_of_notMem hde hap hs hp hp']
  by_cases hc' : c ∈ lower fee size s chunk₁ x y∪chunk₁ y
  · exact (hrate_low c hc').trans_le he
  by_cases hp : p ∈ higher fee size s chunk₁ x y∪chunk₁ x
  · rw [heq_high p hp,heq_mid c hc hc',hsp.rate_of_notMem hde hap hcs hc hc']
    exact hrate_high p hp
  · rw [heq_mid p hp hp',heq_mid c hc hc'] at hn ⊢
    rw [mem_union,not_or] at hp hp' hc hc'
    refine hsp.lt_of_outside hde h ?_ ?_ hn
    · exact fun hm => (mem_union.mp hm).elim hp.2 hp'.2
    · exact fun hm => (mem_union.mp hm).elim hc.2 hc'.2

/-- For feerates above that of the split chunk only the merges of the top count. -/
theorem excess_le_of_ge (hl : rate fee size (chunk₁ x∪chunk₁ y) ≤ l) :
    excess fee size s l (merge (chunk₁ x) (chunk₁ y) chunk₁) ≤ excess fee size s l ch₃ := by
  have hh := (hsp.after_up hde hap hpos hup).1
  have hh' := (hsp.after_down hde hap hpos hup hdo).1
  have ho := hup.excess_le (l := l) hpos hsp.isChunking hsp.mem_top higher_subset
    (hsp.merging_top hde hap)
  have hk := hdo.excess_eq (l := -l) hpos hh hsp.mem_bottom lower_subset
    (hsp.merging_bottom hde hap hpos (hsp.eq_on_lower hde hap hpos hup))
  rw [hsp.bottom_eq hde hap hpos hup,hh.excess_dual,hh'.excess_dual] at hk
  have he := hk fun v hv => by
    rw [rate_dual,neg_le_neg_iff,hsp.eq_on_lower hde hap hpos hup v hv]
    exact (hsp.rate_bottom_lt hde hap hpos v hv).le.trans hl
  have hs := hsp.isChunking.excess_merge fee size l hsp.mem_top hsp.mem_bottom hsp.ne
  have hb : weight fee size l (chunk₁ y) ≤ 0 := weight_nonpos
    (hsp.isChunking.sum_size_pos hpos hsp.mem_bottom) ((hsp.bottom_lt hpos).le.trans hl)
  have hw : weight fee size l (chunk₁ x∪chunk₁ y) ≤ 0 := weight_nonpos (hsp.sum_size_pos hpos) hl
  rw [← weight_union hsp.disjoint,max_eq_right hb,max_eq_right hw] at hs
  linarith

/-- For feerates below that of the split chunk only the merges of the bottom count. -/
theorem excess_le_of_le (hl : l ≤ rate fee size (chunk₁ x∪chunk₁ y)) :
    excess fee size s l (merge (chunk₁ x) (chunk₁ y) chunk₁) ≤ excess fee size s l ch₃ := by
  have hh := (hsp.after_up hde hap hpos hup).1
  have hh' := (hsp.after_down hde hap hpos hup hdo).1
  have hk := hup.excess_eq (l := l) hpos hsp.isChunking hsp.mem_top higher_subset
    (hsp.merging_top hde hap)
    fun v hv => hl.trans (hsp.lt_rate_top hde hap hpos v hv).le
  have ho := hdo.excess_le (l := -l) hpos hh hsp.mem_bottom lower_subset
    (hsp.merging_bottom hde hap hpos (hsp.eq_on_lower hde hap hpos hup))
  rw [hsp.bottom_eq hde hap hpos hup,hh.excess_dual,hh'.excess_dual,weight_dual] at ho
  have hs := hsp.isChunking.excess_merge fee size l hsp.mem_top hsp.mem_bottom hsp.ne
  have ht : 0 ≤ weight fee size l (chunk₁ x) :=
    (weight_nonneg_iff (hsp.isChunking.sum_size_pos hpos hsp.mem_top)).mpr (hl.trans hsp.gain.le)
  have hw : 0 ≤ weight fee size l (chunk₁ x∪chunk₁ y) :=
    (weight_nonneg_iff (hsp.sum_size_pos hpos)).mpr hl
  rw [weight_union hsp.disjoint] at hw
  rw [max_eq_left ht,max_eq_left hw] at hs
  have ha : max (weight fee size l (chunk₁ y)) 0-max (-weight fee size l (chunk₁ y)) 0 =
      weight fee size l (chunk₁ y) := max_zero_sub_max_neg_zero_eq_self _
  linarith

end

/-- After the split and the merges the division is ordered and its excess is no smaller. -/
theorem improved (hde : ∀ p c, dep p c → p ∈ s ∧ c ∈ s) (hpos : ∀ v ∈ s, 0 < size v)
    (hup : MergesUp dep fee size s x chunk₁ ch₂)
    (hdo : MergesUp (flip dep) (fun v => -fee v) size s y ch₂ ch₃) :
    IsChunking s ch₃ ∧ Ordered dep fee size s ch₃ ∧ ∀ l,
      excess fee size s l (merge (chunk₁ x) (chunk₁ y) chunk₁) ≤ excess fee size s l ch₃ := by
  by_cases hap : ∀ p c, dep p c → p ∈ chunk₁ y → c ∉ chunk₁ x
  · refine ⟨(hsp.after_down hde hap hpos hup hdo).1,hsp.ordered_after hde hap hpos hup hdo,
      fun l => ?_⟩
    rcases le_total l (rate fee size (chunk₁ x∪chunk₁ y)) with hl | hl
    · exact hsp.excess_le_of_le hde hap hpos hup hdo hl
    · exact hsp.excess_le_of_ge hde hap hpos hup hdo hl
  · push Not at hap
    obtain ⟨p,c,h,hp,hc⟩ := hap
    have hh := hsp.isChunking.merge hsp.mem_top hsp.mem_bottom
    rw [hsp.merged_back hde hpos h hp hc hup] at hdo
    have hb := (hsp.ordered.dual hde).eq_of_mergesUp (fun p c h => (hde c p h).symm) hh
      hsp.mem_bottom hdo
    rw [hb]
    exact ⟨hh,hsp.ordered,fun l => le_rfl⟩

end IsSplit
end DripCore.Chunking
