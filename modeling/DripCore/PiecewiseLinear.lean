import Mathlib.Algebra.Order.Field.Basic
import Mathlib.Tactic.FieldSimp
import Mathlib.Tactic.Linarith
import Mathlib.Tactic.Ring

/-!
# Piecewise linear functions

A list of segments with their runs and rises describes a function from the origin that is constant
after the last one. It is enough to compare two of them at the ends of intervals on which both are
affine.
-/
namespace DripCore.PiecewiseLinear

structure Segment (K : Type*) where
  run : K
  rise : K

variable {K : Type*} [Field K] [LinearOrder K]

def polyline : List (Segment K) → K → K
  | [], _ => 0
  | s::segments, x => if x ≤ s.run then s.rise*x / s.run else s.rise+polyline segments (x-s.run)

def Forward (segments : List (Segment K)) : Prop := ∀ s ∈ segments, 0 < s.run

variable {s : Segment K} {se : List (Segment K)} {x : K}

theorem Forward.head (h : Forward (s::se)) : 0 < s.run := h s List.mem_cons_self

theorem Forward.tail (h : Forward (s::se)) : Forward se :=
    fun t ht => h t (List.mem_cons_of_mem _ ht)

theorem polyline_cons_of_le (hx : x ≤ s.run) : polyline (s::se) x = s.rise*x / s.run :=
  if_pos hx

theorem polyline_zero (h : Forward se) : polyline se 0 = 0 := by
  cases se with
  | nil => rfl
  | cons s se => rw [polyline_cons_of_le h.head.le,mul_zero,zero_div]

theorem polyline_cons_of_ge (h : Forward (s::se)) (hx : s.run ≤ x) :
    polyline (s::se) x = s.rise+polyline se (x-s.run) := by
  rcases hx.eq_or_lt with rfl | hl
  · rw [polyline_cons_of_le le_rfl,sub_self,polyline_zero h.tail,add_zero,
      mul_div_cancel_right₀ _ h.head.ne']
  · exact if_neg hl.not_ge

/-- A function that is affine on an interval. -/
def AffineOn (f : K → K) (m m' : K) : Prop := ∃ a b, ∀ x, m ≤ x → x ≤ m' → f x = a+b*x

variable {f g : K → K} {m m' : K}

theorem AffineOn.sub (hf : AffineOn f m m') (hg : AffineOn g m m') :
    AffineOn (fun x => f x-g x) m m' := by
  obtain ⟨a,b,hf⟩ := hf
  obtain ⟨c,d,hg⟩ := hg
  refine ⟨a-c,b-d,fun x hx hx' => ?_⟩
  change f x-g x = _
  rw [hf x hx hx',hg x hx hx']
  ring

variable [IsStrictOrderedRing K]

/-- An affine function that is positive somewhere is positive at one of the ends. -/
theorem AffineOn.pos_at_end (h : AffineOn f m m') (hx : m ≤ x) (hx' : x ≤ m') (hp : 0 < f x) :
    0 < f m ∨ 0 < f m' := by
  obtain ⟨a,b,h⟩ := h
  rw [h x hx hx'] at hp
  rw [h m le_rfl (hx.trans hx'),h m' (hx.trans hx') le_rfl]
  rcases le_total 0 b with hb | hb
  · right
    linarith [mul_le_mul_of_nonneg_left hx' hb]
  · left
    linarith [mul_le_mul_of_nonpos_left hx hb]

/-- Beyond a point, one function exceeds another at an end of the next interval or beyond it. -/
theorem exists_lt_iff (hf : AffineOn f m m') (hg : AffineOn g m m') (hm : m ≤ m') :
    (∃ x, m ≤ x ∧ g x < f x) ↔ g m < f m ∨ g m' < f m' ∨ ∃ x, m' ≤ x ∧ g x < f x := by
  constructor
  · rintro ⟨x,hx,hl⟩
    rcases le_total x m' with hx' | hx'
    · rcases (hf.sub hg).pos_at_end hx hx' (sub_pos.mpr hl) with hp | hp
      · exact .inl (sub_pos.mp hp)
      · exact .inr (.inl (sub_pos.mp hp))
    · exact .inr (.inr ⟨x,hx',hl⟩)
  · rintro (hl | hl | ⟨x,hx,hl⟩)
    · exact ⟨m,le_rfl,hl⟩
    · exact ⟨m',hm,hl⟩
    · exact ⟨x,hm.trans hx,hl⟩

end DripCore.PiecewiseLinear
