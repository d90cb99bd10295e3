import Mathlib.Algebra.Order.BigOperators.Group.Finset
import Mathlib.Algebra.Order.Field.Basic
import Mathlib.Algebra.BigOperators.Ring.Finset
import Mathlib.Tactic.Abel
import Mathlib.Tactic.Linarith
import Mathlib.Tactic.Ring

/-!
# Divisions of a set into chunks

A chunk is given for each element. For a feerate `l`, the weight of a set is what its fees exceed
`l` times its size by, and the excess of a division is the sum of the positive weights of its
chunks. Merging two chunks changes a sum over the chunks in three terms.
-/
namespace DripCore.Chunking
open Finset
variable {V : Type*}

structure IsChunking (s : Finset V) (chunk : V → Finset V) : Prop where
  self : ∀ v ∈ s, v ∈ chunk v
  subset : ∀ v ∈ s, chunk v ⊆ s
  eq_of_mem : ∀ v ∈ s, ∀ w ∈ chunk v, chunk w = chunk v

variable {s X Y : Finset V} {chunk : V → Finset V} {u v w : V}

theorem isChunking_singletons (h : ∀ v ∈ s, chunk v = {v}) : IsChunking s chunk where
  self v hv := h v hv ▸ mem_singleton_self v
  subset v hv := h v hv ▸ singleton_subset_iff.mpr hv
  eq_of_mem v hv w hw := by
    rw [h v hv,mem_singleton] at hw
    rw [hw]

namespace IsChunking
variable (h : IsChunking s chunk) (hv : v ∈ s) (hw : w ∈ s)
include h hv hw

theorem mem_iff : w ∈ chunk v ↔ chunk w = chunk v := ⟨h.eq_of_mem v hv w,fun he => he ▸ h.self w hw⟩

theorem disjoint_of_ne (hne : chunk v ≠ chunk w) : Disjoint (chunk v) (chunk w) := by
  rw [disjoint_left]
  intro u hu huw
  exact hne ((h.eq_of_mem v hv u hu).symm.trans (h.eq_of_mem w hw u huw))

theorem notMem_of_mem (hvw : v ∉ chunk w) (hu : u ∈ chunk v) : u ∉ chunk w := by
  intro huw
  have hs := h.self v hv
  rw [← h.eq_of_mem v hv u hu,h.eq_of_mem w hw u huw] at hs
  exact hvw hs

end IsChunking

section
variable [DecidableEq V]

def chunks (s : Finset V) (chunk : V → Finset V) : Finset (Finset V) := s.image chunk

def merge (X Y : Finset V) (chunk : V → Finset V) (v : V) : Finset V :=
  if v ∈ X ∪ Y then X ∪ Y else chunk v

theorem merge_of_mem (h : v ∈ X∪Y) : merge X Y chunk v = X∪Y :=
  if_pos h

theorem merge_of_notMem (h : v ∉ X∪Y) : merge X Y chunk v = chunk v :=
  if_neg h

theorem merge_comm (X Y : Finset V) (chunk : V → Finset V) : merge X Y chunk = merge Y X chunk := by
  funext v
  rw [merge,merge,union_comm]

namespace IsChunking
variable {x y : V} (h : IsChunking s chunk)
include h

theorem eq_of_mem_chunks {C : Finset V} {v : V} (hC : C ∈ chunks s chunk) (hv : v ∈ C) :
    C = chunk v := by
  obtain ⟨w,hw,rfl⟩ := mem_image.mp hC
  exact (h.eq_of_mem w hw v hv).symm

theorem pairwiseDisjoint : (chunks s chunk : Set (Finset V)).PairwiseDisjoint id := by
  intro C hC D hD hne
  obtain ⟨v,hv,rfl⟩ := mem_image.mp hC
  obtain ⟨w,hw,rfl⟩ := mem_image.mp hD
  exact h.disjoint_of_ne hv hw hne

theorem biUnion_chunks : (chunks s chunk).biUnion id = s := by
  ext v
  rw [mem_biUnion]
  constructor
  · rintro ⟨C,hC,hv⟩
    obtain ⟨w,hw,rfl⟩ := mem_image.mp hC
    exact h.subset w hw hv
  · intro hv
    exact ⟨chunk v,mem_image_of_mem chunk hv,h.self v hv⟩

variable {M : Type*}

theorem sum_chunks [AddCommMonoid M] (f : V → M) : ∑ C ∈ chunks s chunk, ∑ v ∈ C, f v = ∑ v ∈ s,
    f v := by
  conv_rhs => rw [← h.biUnion_chunks]
  exact (sum_biUnion h.pairwiseDisjoint).symm

theorem sum_inter_chunks [AddCommMonoid M] (f : V → M) {S : Finset V} (hS : S ⊆ s) :
    ∑ C ∈ chunks s chunk, ∑ v ∈ S∩C, f v = ∑ v ∈ S, f v := by
  have hp := h.sum_chunks fun v => if v ∈ S then f v else 0
  rw [← sum_filter,filter_mem_eq_inter,inter_eq_right.mpr hS] at hp
  rw [← hp]
  refine sum_congr rfl fun C _ => ?_
  rw [← sum_filter,filter_mem_eq_inter,inter_comm]

variable (hx : x ∈ s) (hy : y ∈ s)
include hx hy

theorem merge : IsChunking s (merge (chunk x) (chunk y) chunk) where
  self v hv := by
    by_cases hm : v ∈ chunk x∪chunk y
    · rwa [merge_of_mem hm]
    · rw [merge_of_notMem hm]
      exact h.self v hv
  subset v hv := by
    by_cases hm : v ∈ chunk x∪chunk y
    · rw [merge_of_mem hm]
      exact union_subset (h.subset x hx) (h.subset y hy)
    · rw [merge_of_notMem hm]
      exact h.subset v hv
  eq_of_mem v hv w hw := by
    by_cases hm : v ∈ chunk x∪chunk y
    · rw [merge_of_mem hm] at hw ⊢
      rw [merge_of_mem hw]
    · rw [merge_of_notMem hm] at hw ⊢
      rw [merge_of_notMem,h.eq_of_mem v hv w hw]
      rw [mem_union,not_or] at hm ⊢
      exact ⟨h.notMem_of_mem hv hx hm.1 hw,h.notMem_of_mem hv hy hm.2 hw⟩

theorem subset_merge (v : V) : chunk v ⊆ Chunking.merge (chunk x) (chunk y) chunk v := by
  by_cases hm : v ∈ chunk x∪chunk y
  · rw [merge_of_mem hm]
    rcases mem_union.mp hm with hv | hv
    · rw [h.eq_of_mem x hx v hv]
      exact subset_union_left
    · rw [h.eq_of_mem y hy v hv]
      exact subset_union_right
  · rw [merge_of_notMem hm]

theorem chunks_merge : chunks s (Chunking.merge (chunk x) (chunk y) chunk) =
    insert (chunk x∪chunk y) (((chunks s chunk).erase (chunk x)).erase (chunk y)) := by
  ext C
  rw [mem_insert,mem_erase,mem_erase]
  constructor
  · intro hC
    obtain ⟨v,hv,rfl⟩ := mem_image.mp hC
    by_cases hm : v ∈ chunk x∪chunk y
    · exact .inl (merge_of_mem hm)
    · rw [merge_of_notMem hm]
      rw [mem_union,not_or] at hm
      have hs := h.self v hv
      exact .inr ⟨fun he => hm.2 (he ▸ hs),fun he => hm.1 (he ▸ hs),mem_image_of_mem chunk hv⟩
  · rintro (rfl | ⟨hc,hCx,hC⟩)
    · exact mem_image.mpr ⟨x,hx,merge_of_mem (mem_union_left _ (h.self x hx))⟩
    · obtain ⟨v,hv,rfl⟩ := mem_image.mp hC
      refine mem_image.mpr ⟨v,hv,merge_of_notMem fun hm => ?_⟩
      rcases mem_union.mp hm with hm | hm
      · exact hCx (h.eq_of_mem x hx v hm)
      · exact hc (h.eq_of_mem y hy v hm)

variable (hne : chunk y ≠ chunk x)
include hne

/-- Merging two chunks takes their terms from a sum and adds that of the union. -/
theorem sum_chunks_merge [AddCommMonoid M] (f : Finset V → M) :
    ∑ C ∈ chunks s (Chunking.merge (chunk x) (chunk y) chunk), f C+(f (chunk x)+f (chunk y)) =
      ∑ C ∈ chunks s chunk, f C+f (chunk x∪chunk y) := by
  have hm : chunk x ∈ chunks s chunk := mem_image_of_mem chunk hx
  have hme : chunk y ∈ (chunks s chunk).erase (chunk x) :=
    mem_erase.mpr ⟨hne,mem_image_of_mem chunk hy⟩
  have hn : chunk x∪chunk y ∉ ((chunks s chunk).erase (chunk x)).erase (chunk y) := by
    intro hmem
    have hmem' := mem_of_mem_erase (mem_of_mem_erase hmem)
    have he := h.eq_of_mem_chunks hmem' (mem_union_left _ (h.self x hx))
    exact (mem_erase.mp (mem_of_mem_erase hmem)).1 he
  rw [h.chunks_merge hx hy,sum_insert hn,← add_sum_erase _ f hm,← add_sum_erase _ f hme]
  abel

theorem card_chunks_merge : (chunks s (Chunking.merge (chunk x) (chunk y) chunk)).card+1 =
    (chunks s chunk).card := by
  have hs := h.sum_chunks_merge hx hy hne fun _ => 1
  rw [← card_eq_sum_ones,← card_eq_sum_ones] at hs
  omega

omit hy hne in
theorem card_chunks_add_le : (chunks s chunk).card+(chunk x).card ≤ s.card+1 := by
  have hs : chunks s chunk ⊆ insert (chunk x) ((s \ chunk x).image chunk) := by
    intro C hC
    obtain ⟨v,hv,rfl⟩ := mem_image.mp hC
    by_cases hvx : v ∈ chunk x
    · exact mem_insert.mpr (.inl (h.eq_of_mem x hx v hvx))
    · exact mem_insert_of_mem (mem_image_of_mem chunk (mem_sdiff.mpr ⟨hv,hvx⟩))
  have hc := (card_le_card hs).trans (card_insert_le _ _)
  have hr : ((s \ chunk x).image chunk).card ≤ (s \ chunk x).card := card_image_le
  have ht := card_sdiff_add_card_eq_card (h.subset x hx)
  omega

end IsChunking
end

section
variable {K : Type*} [Field K] (fee size : V → K)

def weight (l : K) (S : Finset V) : K := ∑ v ∈ S, (fee v-l*size v)

def rate (S : Finset V) : K := (∑ v ∈ S, fee v) / ∑ v ∈ S, size v

variable {fee size} {l a : K}

theorem weight_eq (l : K) (S : Finset V) : weight fee size l S = ∑ v ∈ S, fee v-l*∑ v ∈ S,
    size v := by
  rw [weight,sum_sub_distrib,mul_sum]

theorem weight_union [DecidableEq V] (h : Disjoint X Y) :
    weight fee size l (X∪Y) = weight fee size l X+weight fee size l Y :=
  sum_union h

theorem weight_dual (l : K) (S : Finset V) :
    weight (fun v => -fee v) size (-l) S = -weight fee size l S := by
  rw [weight,weight,← sum_neg_distrib]
  refine sum_congr rfl fun v _ => ?_
  ring

theorem rate_dual (S : Finset V) : rate (fun v => -fee v) size S = -rate fee size S := by
  rw [rate,rate,sum_neg_distrib,neg_div]

variable [LinearOrder K] [IsStrictOrderedRing K]

theorem weight_pos_iff (h : 0 < ∑ v ∈ X, size v) : 0 < weight fee size l X ↔
    l < rate fee size X := by
  rw [weight_eq,rate,lt_div_iff₀ h,sub_pos]

theorem weight_nonneg_iff (h : 0 < ∑ v ∈ X, size v) : 0 ≤ weight fee size l X ↔
    l ≤ rate fee size X := by
  rw [weight_eq,rate,le_div_iff₀ h,sub_nonneg]

theorem weight_nonpos (h : 0 < ∑ v ∈ X, size v) (hl : rate fee size X ≤ l) :
    weight fee size l X ≤ 0 :=
  not_lt.mp fun ht => not_lt.mpr hl ((weight_pos_iff h).mp ht)

theorem IsChunking.sum_size_pos (h : IsChunking s chunk) (hp : ∀ v ∈ s, 0 < size v) (hv : v ∈ s) :
    0 < ∑ w ∈ chunk v, size w :=
  sum_pos (fun w hw => hp w (h.subset v hv hw)) ⟨v,h.self v hv⟩

variable [DecidableEq V] (hX : 0 < ∑ v ∈ X, size v) (hY : 0 < ∑ v ∈ Y, size v) (hXY : Disjoint X Y)
include hX hY hXY

theorem sum_size_union_pos : 0 < ∑ v ∈ X∪Y, size v := by
  rw [sum_union hXY]
  exact add_pos hX hY

theorem lt_rate_union (hx : a < rate fee size X) (hy : a < rate fee size Y) :
    a < rate fee size (X∪Y) := by
  rw [← weight_pos_iff (sum_size_union_pos hX hY hXY),weight_union hXY]
  rw [← weight_pos_iff hX] at hx
  rw [← weight_pos_iff hY] at hy
  exact add_pos hx hy

theorem le_rate_union (hx : a ≤ rate fee size X) (hy : a ≤ rate fee size Y) :
    a ≤ rate fee size (X∪Y) := by
  rw [← weight_nonneg_iff (sum_size_union_pos hX hY hXY),weight_union hXY]
  rw [← weight_nonneg_iff hX] at hx
  rw [← weight_nonneg_iff hY] at hy
  exact add_nonneg hx hy

end

variable [DecidableEq V] {K : Type*} [Field K] [LinearOrder K]

def excess (fee size : V → K) (s : Finset V) (l : K) (chunk : V → Finset V) : K :=
  ∑ C ∈ chunks s chunk, max (weight fee size l C) 0

variable {fee size : V → K} {l : K}

theorem IsChunking.excess_merge (h : IsChunking s chunk) (fee size : V → K) (l : K) {x y : V}
    (hx : x ∈ s) (hy : y ∈ s) (hne : chunk y ≠ chunk x) :
    excess fee size s l (Chunking.merge (chunk x) (chunk y) chunk) +
        (max (weight fee size l (chunk x)) 0+max (weight fee size l (chunk y)) 0) =
      excess fee size s l chunk+max (weight fee size l (chunk x)+weight fee size l (chunk y))
        0 := by
  rw [excess,h.sum_chunks_merge hx hy hne,weight_union (h.disjoint_of_ne hx hy hne.symm),excess]

variable [IsStrictOrderedRing K]

/-- With the fees negated, the excess counts the negative weights. -/
theorem IsChunking.excess_dual (h : IsChunking s chunk) (l : K) :
    excess (fun v => -fee v) size s (-l) chunk = excess fee size s l chunk-weight fee size l s := by
  rw [excess,excess,weight,← h.sum_chunks,← sum_sub_distrib]
  refine sum_congr rfl fun C _ => ?_
  rw [weight_dual]
  rcases le_total (weight fee size l C) 0 with hl | hl
  · rw [max_eq_right hl,max_eq_left (neg_nonneg.mpr hl)]
    exact (zero_sub _).symm
  · rw [max_eq_left hl,max_eq_right (neg_nonpos.mpr hl)]
    exact (sub_self _).symm

variable {S : Finset V}

/-- A set whose part in each chunk is no heavier than the chunk is no heavier than the excess. -/
theorem IsChunking.weight_le_of_inter (h : IsChunking s chunk) (hS : S ⊆ s)
    (hl : ∀ v ∈ s, weight fee size l (S∩chunk v) ≤ max (weight fee size l (chunk v)) 0) :
    weight fee size l S ≤ excess fee size s l chunk := by
  rw [weight,← h.sum_inter_chunks _ hS]
  refine sum_le_sum fun C hC => ?_
  obtain ⟨v,hv,rfl⟩ := mem_image.mp hC
  exact hl v hv

theorem IsChunking.weight_le_excess (h : IsChunking s chunk) (hS : S ⊆ s)
    (hc : ∀ v ∈ S, chunk v ⊆ S) : weight fee size l S ≤ excess fee size s l chunk := by
  refine h.weight_le_of_inter hS fun v hv => ?_
  rcases eq_empty_or_nonempty (S∩chunk v) with he | ⟨w,hw⟩
  · rw [he]
    exact le_max_right _ _
  · have hwS := mem_of_mem_inter_left hw
    have hwv := mem_of_mem_inter_right hw
    have hs := hc w hwS
    rw [h.eq_of_mem v hv w hwv] at hs
    rw [inter_eq_right.mpr hs]
    exact le_max_left _ _

variable {F : Finset V} (h : IsChunking s chunk) (hFs : F ⊆ s) (hF : ∀ v ∈ F, chunk v ⊆ F)
include h hFs hF

omit [DecidableEq V] in
theorem IsChunking.restrict : IsChunking F chunk :=
  ⟨fun v hv => h.self v (hFs hv),hF,fun v hv => h.eq_of_mem v (hFs hv)⟩

omit hFs [IsStrictOrderedRing K] in
theorem IsChunking.excess_union {x : V} (hx : x ∈ s) (hf : x ∉ F) :
    excess fee size (F∪chunk x) l chunk =
      excess fee size F l chunk+max (weight fee size l (chunk x)) 0 := by
  have him : (chunk x).image chunk = {chunk x} := by
    rw [image_congr fun v hv => h.eq_of_mem x hx v hv,image_const ⟨x,h.self x hx⟩]
  have hn : chunk x ∉ F.image chunk := by
    intro hm
    obtain ⟨v,hv,he⟩ := mem_image.mp hm
    exact hf (hF v hv (he ▸ h.self x hx))
  rw [excess,chunks,image_union,him,union_comm,← insert_eq,sum_insert hn,add_comm]
  rfl

omit [IsStrictOrderedRing K] in
theorem IsChunking.excess_eq_weight (hn : ∀ v ∈ F, 0 ≤ weight fee size l (chunk v)) :
    excess fee size F l chunk = weight fee size l F := by
  rw [weight,← (h.restrict hFs hF).sum_chunks,excess]
  refine sum_congr rfl fun C hC => ?_
  obtain ⟨v,hv,rfl⟩ := mem_image.mp hC
  exact max_eq_left (hn v hv)

end DripCore.Chunking
