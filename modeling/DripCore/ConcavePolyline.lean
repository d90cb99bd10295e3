import DripCore.PiecewiseLinear
import Mathlib.Algebra.Order.BigOperators.Group.List
import Mathlib.Analysis.Convex.Function

/-!
# Concave piecewise linear functions

For a slope `l`, the excess of a list of segments is the sum of what they rise above `l`. No point
is further above the line of slope `l`, and with segments of falling slopes one reaches it, so
functions are compared by their excess for every slope.
-/
namespace DripCore.PiecewiseLinear
open List Segment
variable {K : Type*} [Field K]

def Segment.weight (l : K) (s : Segment K) : K := s.rise-l*s.run

def totalRun (segments : List (Segment K)) : K := (segments.map Segment.run).sum

def totalRise (segments : List (Segment K)) : K := (segments.map Segment.rise).sum

def totalWeight (l : K) (segments : List (Segment K)) : K := (segments.map (Segment.weight l)).sum

variable {s t : Segment K} {segments segments' : List (Segment K)} {l x : K}

theorem totalRun_cons : totalRun (s::segments) = s.run+totalRun segments := sum_cons

theorem totalRise_cons : totalRise (s::segments) = s.rise+totalRise segments := sum_cons

theorem weight_cons : totalWeight l (s::segments) = s.weight l+totalWeight l segments := sum_cons

variable [LinearOrder K]

def excess (l : K) (segments : List (Segment K)) :
    K := (segments.map fun s => max (s.weight l) 0).sum

/-- Segments of falling slopes. -/
def Concave (segments : List (Segment K)) : Prop :=
  segments.Pairwise fun s t => t.rise*s.run ≤ s.rise*t.run

theorem excess_cons : excess l (s::segments) = max (s.weight l) 0+excess l segments := sum_cons

variable [IsStrictOrderedRing K]

theorem excess_nonneg (l : K) (segments : List (Segment K)) : 0 ≤ excess l segments :=
    sum_nonneg fun a ha => by
    obtain ⟨s,-,rfl⟩ := mem_map.mp ha
    exact le_max_right _ _

theorem total_le_excess (l : K) (segments : List (Segment K)) :
    totalWeight l segments ≤ excess l segments := by
  induction segments with
  | nil => exact le_rfl
  | cons s segments ih =>
    rw [weight_cons,excess_cons]
    exact add_le_add (le_max_left _ _) ih

theorem totalRun_nonneg (h : Forward segments) : 0 ≤ totalRun segments := sum_nonneg fun a ha => by
    obtain ⟨s,hs,rfl⟩ := mem_map.mp ha
    exact (h s hs).le

theorem polyline_of_run_le (h : Forward segments) (hx : totalRun segments ≤ x) :
    polyline segments x = totalRise segments := by
  induction segments generalizing x with
  | nil => rfl
  | cons s segments ih =>
    rw [totalRun_cons] at hx
    have hr : s.run ≤ x := (le_add_of_nonneg_right (totalRun_nonneg h.tail)).trans hx
    rw [polyline_cons_of_ge h hr,ih h.tail (le_sub_iff_add_le'.mpr hx),totalRise_cons]

/-- No point is further above the line of slope `l` than the excess. -/
theorem polyline_le_excess (h : Forward segments) (hx : 0 ≤ x) (hx' : x ≤ totalRun segments)
    (l : K) :
    polyline segments x-l*x ≤ excess l segments := by
  induction segments generalizing x with
  | nil =>
    have hz : x = 0 := le_antisymm hx' hx
    rw [hz,mul_zero,sub_zero]
    exact le_rfl
  | cons s segments ih =>
    have hr := h.head
    rw [excess_cons]
    rcases le_total x s.run with hl | hg
    · -- On the first segment, the height is a fraction of what the segment rises.
      have hs : polyline (s::segments) x-l*x = x / s.run*s.weight l := by
        rw [polyline_cons_of_le hl,weight]
        field_simp
      have hf : x / s.run ≤ 1 := (div_le_one hr).mpr hl
      have hn : 0 ≤ x / s.run := div_nonneg hx hr.le
      have he := excess_nonneg l segments
      rw [hs]
      rcases le_total (s.weight l) 0 with hw | hw
      · have hm := mul_nonpos_of_nonneg_of_nonpos hn hw
        linarith [le_max_right (s.weight l) 0]
      · have hm := mul_le_mul_of_nonneg_right hf hw
        linarith [le_max_left (s.weight l) 0]
    · rw [totalRun_cons] at hx'
      have hh := ih h.tail (sub_nonneg.mpr hg) (sub_le_iff_le_add'.mpr hx')
      rw [polyline_cons_of_ge h hg]
      have ha : s.rise-l*s.run ≤ max (s.weight l) 0 := le_max_left _ _
      linarith

section
variable (h : Concave (s::segments)) (hfo : Forward (s::segments)) (ht : t ∈ segments)
include h hfo ht

theorem Concave.weight_nonneg : 0 ≤ s.weight (t.rise / t.run) := by
  have hr := hfo t (mem_cons_of_mem _ ht)
  have hl := (pairwise_cons.mp h).1 t ht
  rw [weight,sub_nonneg,div_mul_eq_mul_div,div_le_iff₀ hr]
  exact hl

theorem Concave.weight_nonpos : t.weight (s.rise / s.run) ≤ 0 := by
  have hl := (pairwise_cons.mp h).1 t ht
  rw [weight,sub_nonpos,div_mul_eq_mul_div,le_div_iff₀ hfo.head]
  exact hl

end

section
variable (h : Concave segments) (hfo : Forward segments)
include h hfo

/-- With falling slopes, the excess for the slope at a point is reached there. -/
theorem Concave.exists_eq_excess (hn : segments ≠ []) (hx : x ≤ totalRun segments) :
    ∃ t ∈ segments, polyline segments x = excess (t.rise / t.run) segments+t.rise / t.run*x := by
  induction segments generalizing x with
  | nil => exact absurd rfl hn
  | cons s segments ih =>
    have hr := hfo.head
    rcases le_or_gt x s.run with hl | hg
    · refine ⟨s,mem_cons_self,?_⟩
      have hz : excess (s.rise / s.run) segments = 0 := by
        refine sum_eq_zero fun a ha => ?_
        obtain ⟨t,ht,rfl⟩ := mem_map.mp ha
        exact max_eq_right (h.weight_nonpos hfo ht)
      have hs : s.weight (s.rise / s.run) = 0 := by
        rw [weight,div_mul_cancel₀ _ hr.ne',sub_self]
      rw [polyline_cons_of_le hl,excess_cons,hz,hs,max_self]
      ring
    · rw [totalRun_cons,← sub_le_iff_le_add'] at hx
      have hre : segments ≠ [] := by
        rintro rfl
        exact (sub_pos.mpr hg).not_ge hx
      obtain ⟨t,ht,he⟩ := ih (pairwise_cons.mp h).2 hfo.tail hre hx
      refine ⟨t,mem_cons_of_mem _ ht,?_⟩
      rw [polyline_cons_of_ge hfo hg.le,he,excess_cons,max_eq_left (h.weight_nonneg hfo ht),weight]
      ring

/-- With falling slopes, a point that the excess allows for every slope is not above the function.
-/
theorem Concave.le_polyline (hx : x ≤ totalRun segments) {y : K}
    (hl : ∀ l, y-l*x ≤ excess l segments) :
    y ≤ polyline segments x := by
  rcases eq_or_ne segments [] with rfl | hn
  · have hz := hl 0
    rwa [zero_mul,sub_zero] at hz
  · obtain ⟨t,-,he⟩ := h.exists_eq_excess hfo hn hx
    rw [he]
    linarith [hl (t.rise / t.run)]

/-- A concave function is above another one that ends at the same point, if its excess is. -/
theorem Concave.polyline_le (hfo' : Forward segments') (hu : totalRun segments' = totalRun segments)
    (hr : totalRise segments' = totalRise segments)
    (hexcess : ∀ l, excess l segments' ≤ excess l segments) (hx : 0 ≤ x) :
    polyline segments' x ≤ polyline segments x := by
  rcases le_total x (totalRun segments) with hl | hg
  · exact h.le_polyline hfo hl fun l =>
      (polyline_le_excess hfo' hx (hu ▸ hl) l).trans (hexcess l)
  · rw [polyline_of_run_le hfo hg,polyline_of_run_le hfo' (hu ▸ hg),hr]

theorem Concave.concaveOn_polyline : ConcaveOn K (Set.Icc 0 (totalRun segments))
    (polyline segments) := by
  refine ⟨convex_Icc _ _,fun x hx y hy a b ha hb hab => ?_⟩
  refine h.le_polyline hfo (convex_Icc _ _ hx hy ha hb hab).2 fun l => ?_
  have he := polyline_le_excess hfo hx.1 hx.2 l
  have he' := polyline_le_excess hfo hy.1 hy.2 l
  simp only [smul_eq_mul]
  calc a*polyline segments x+b*polyline segments y-l*(a*x+b*y)
      = a*(polyline segments x-l*x)+b*(polyline segments y-l*y) := by ring
    _ ≤ a*excess l segments+b*excess l segments := by gcongr
    _ = excess l segments := by rw [← add_mul,hab,one_mul]

end

/-- A point is between the ends of its segment. -/
theorem exists_between_ends (h : Forward segments) (hx : 0 ≤ x) (hx' : x ≤ totalRun segments) :
    ∃ q r, q <+: segments ∧ r <+: segments ∧ ∃ a b : K, 0 ≤ a ∧ 0 ≤ b ∧ a+b = 1 ∧
      a*totalRun q+b*totalRun r = x ∧
      a*totalRise q+b*totalRise r = polyline segments x := by
  induction segments generalizing x with
  | nil =>
    refine ⟨[],[],prefix_rfl,prefix_rfl,1,0,zero_le_one,le_rfl,add_zero 1,?_,?_⟩
    · rw [le_antisymm hx' hx]
      simp [totalRun]
    · simp [totalRise,polyline]
  | cons s segments ih =>
    have hu := h.head
    rcases le_total x s.run with hl | hg
    · refine ⟨[],[s], nil_prefix,by simp,1-x / s.run,x / s.run,
        sub_nonneg.mpr ((div_le_one hu).mpr hl),div_nonneg hx hu.le,sub_add_cancel _ _,?_,?_⟩
      · simp [totalRun,hu.ne']
      · rw [polyline_cons_of_le hl]
        simp only [totalRise,map_nil,sum_nil,mul_zero,map_cons,sum_cons,add_zero,zero_add]
        ring
    · rw [totalRun_cons,← sub_le_iff_le_add'] at hx'
      obtain ⟨q,r,hq,hr,a,b,ha,hb,hab,hu',hri⟩ := ih h.tail (sub_nonneg.mpr hg) hx'
      refine ⟨s::q,s::r,(prefix_cons_inj s).mpr hq,(prefix_cons_inj s).mpr hr,a,b,ha,hb,hab,?_,?_⟩
      · rw [totalRun_cons,totalRun_cons]
        linear_combination hu'+s.run*hab
      · rw [polyline_cons_of_ge h hg,totalRise_cons,totalRise_cons]
        linear_combination hri+s.rise*hab

end DripCore.PiecewiseLinear
