import DripCore.FeeFrac
import Mathlib.Data.Prod.Lex
import Mathlib.Data.Rat.Floor
import Mathlib.Tactic.FieldSimp
import Mathlib.Tactic.LinearCombination
import Mathlib.Tactic.Linarith

/-!
# Wide products of fees and sizes

`Mul` and `Div` of `FeeFrac`, with 128-bit integers and as the fallback with a high and a low word.
A signed result outside its type is a failure; shifts to the left, unsigned arithmetic and
conversions wrap around, and shifts to the right round down. What the source assumes of the
arguments is assumed in the results.
-/
namespace DripCore
open ExceptRules

def IsInt64 (x : ℤ) : Prop := -2^63 ≤ x ∧ x < 2^63

def IsInt32 (x : ℤ) : Prop := -2^31 ≤ x ∧ x < 2^31

instance (x : ℤ) : Decidable (IsInt64 x) := inferInstanceAs (Decidable (_ ∧ _))

def checked64 (x : ℤ) : FeeFracResult ℤ := if IsInt64 x then .ok x else .error .signedOverflow

/-- The conversion to a signed type. -/
def toSigned (w : ℕ) (x : ℤ) : ℤ := x.bmod (2^w)

/-- What is added to a quotient that was rounded towards zero. -/
def correction (mod : ℤ) (round_down : Bool) : ℤ :=
  (if 0 < mod then 1 else 0)-if mod ≠ 0 ∧ round_down = true then 1 else 0

def mulFallback (a b : ℤ) : FeeFracResult (ℤ × ℤ) := do
  let low ← checked64 (a % 2^32*b)
  let high ← checked64 (a / 2^32*b)
  let sum ← checked64 (high+low / 2^32)
  return (sum,low % 2^32)

def divFallback (n : ℤ × ℤ) (d : ℤ) (round_down : Bool) : FeeFracResult ℤ := do
  let quot_high := n.1.tdiv d
  let n_low ← checked64 (toSigned 64 (n.1.tmod d*2^32)+n.2)
  let mod_low := toSigned 32 (n_low.tmod d)
  let quot_low ← checked64 (n_low.tdiv d+correction mod_low round_down)
  checked64 (toSigned 64 (quot_high*2^32)+quot_low)

def div128 (n d : ℤ) (round_down : Bool) : FeeFracResult ℤ :=
  checked64 (toSigned 64 (n.tdiv d)+correction (toSigned 32 (n.tmod d)) round_down)

inductive Platform where
  | int128
  | fallback

namespace Platform

def Wide : Platform → Type
  | int128 => ℤ
  | fallback => ℤ × ℤ

def mul : (p : Platform) → ℤ → ℤ → FeeFracResult p.Wide
  | int128, a, b => .ok (a*b : ℤ)
  | fallback, a, b => mulFallback a b

/-- The order of integers, or of pairs of words. -/
def order : (p : Platform) → p.Wide → p.Wide → Ordering
  | int128, x, y => cmp (α := ℤ) x y
  | fallback, x, y => (cmp x.1 y.1).then (cmp x.2 y.2)

def div : (p : Platform) → p.Wide → ℤ → Bool → FeeFracResult ℤ
  | int128, n, d, round_down => div128 n d round_down
  | fallback, n, d, round_down => divFallback n d round_down

variable (p : Platform)

def feeRateCompare (a b : FeeFrac) : FeeFracResult Ordering := do
  let cross_a ← p.mul a.fee b.size
  let cross_b ← p.mul b.fee a.size
  return p.order cross_a cross_b

/-- The operator `<=>`. -/
def spaceship (a b : FeeFrac) : FeeFracResult Ordering := do
  let cross_a ← p.mul a.fee b.size
  let cross_b ← p.mul b.fee a.size
  return (p.order cross_a cross_b).then (cmp b.size a.size)

def evaluateFee (f : FeeFrac) (round_down : Bool) (at_size : ℤ) : FeeFracResult ℤ :=
  if 0 ≤ f.fee ∧ f.fee < 0x200000000 then
    let product := f.fee*at_size % 2^64
    .ok (toSigned 64 (if round_down then product / f.size else (product+f.size-1) % 2^64 / f.size))
  else do
    let n ← p.mul f.fee at_size
    p.div n f.size round_down

def evaluateFeeDown (f : FeeFrac) (at_size : ℤ) : FeeFracResult ℤ := p.evaluateFee f true at_size

def evaluateFeeUp (f : FeeFrac) (at_size : ℤ) : FeeFracResult ℤ := p.evaluateFee f false at_size

end Platform

/-- The exact quotient, rounded down or up. -/
def roundedQuotient (round_down : Bool) (n d : ℤ) : ℤ :=
  if round_down then ⌊(n : ℚ) / d⌋ else ⌈(n : ℚ) / d⌉

variable {a b d n q x : ℤ} {r : Bool}

theorem checked64_ok (h : IsInt64 x) : checked64 x = .ok x := if_pos h

theorem toSigned_64 (h : IsInt64 x) : toSigned 64 x = x := Int.bmod_eq_of_le h.1 h.2

theorem toSigned_32 (h : IsInt32 x) : toSigned 32 x = x := Int.bmod_eq_of_le h.1 h.2

section
variable {α β : Type*} [LinearOrder α] [LinearOrder β]

theorem cmp_eq_of_iff {x y : α} {x' y' : β} (hl : x < y ↔ x' < y') (ht : y < x ↔ y' < x') :
    cmp x y = cmp x' y' := by
  simp only [cmp,cmpUsing,hl,ht]

theorem cmp_toLex (x y : α) (u v : β) :
    cmp (toLex (x,u)) (toLex (y,v)) = (cmp x y).then (cmp u v) := by
  rcases lt_trichotomy x y with h | rfl | h
  · rw [(cmp_eq_lt_iff _ _).mpr h,(cmp_eq_lt_iff _ _).mpr (Prod.Lex.toLex_lt_toLex.mpr (.inl h))]
    rfl
  · rw [cmp_self_eq_eq]
    refine cmp_eq_of_iff ?_ ?_ <;> simp [Prod.Lex.toLex_lt_toLex]
  · rw [(cmp_eq_gt_iff _ _).mpr h,(cmp_eq_gt_iff _ _).mpr (Prod.Lex.toLex_lt_toLex.mpr (.inl h))]
    rfl

end

section
variable (hd : 0 < d)
include hd

theorem quotient_true : roundedQuotient true n d = q ↔ q*d ≤ n ∧ n < (q+1)*d := by
  have hd' : (0 : ℚ) < d := Int.cast_pos.mpr hd
  rw [roundedQuotient,if_pos rfl,Int.floor_eq_iff,le_div_iff₀ hd',div_lt_iff₀ hd']
  norm_cast

theorem quotient_false : roundedQuotient false n d = q ↔ (q-1)*d < n ∧ n ≤ q*d := by
  have hd' : (0 : ℚ) < d := Int.cast_pos.mpr hd
  rw [roundedQuotient,if_neg Bool.false_ne_true,Int.ceil_eq_iff,lt_div_iff₀ hd',div_le_iff₀ hd']
  norm_cast

theorem quotient_eq_ediv : roundedQuotient r n d = if r then n / d else (n+d-1) / d := by
  cases r with
  | true => exact (quotient_true hd).mpr ⟨Int.ediv_mul_le n hd.ne',
    Int.lt_ediv_add_one_mul_self n hd⟩
  | false =>
    have he := Int.ediv_mul_le (n+d-1) hd.ne'
    have hl := Int.lt_ediv_add_one_mul_self (n+d-1) hd
    rw [add_mul,one_mul] at hl
    rw [if_neg Bool.false_ne_true]
    refine (quotient_false hd).mpr ⟨?_,?_⟩
    · rw [sub_mul,one_mul]
      omega
    · omega

theorem quotient_add : roundedQuotient r (d*q+n) d = q+roundedQuotient r n d := by
  have hn : (d : ℚ) ≠ 0 := Int.cast_ne_zero.mpr hd.ne'
  have hs : ((d*q+n : ℤ) : ℚ) / d = q+(n : ℚ) / d := by
    push_cast
    field_simp
  cases r with
  | true => simp only [roundedQuotient,if_true,hs,Int.floor_intCast_add]
  | false => simp only [roundedQuotient,Bool.false_eq_true,if_false,hs,Int.ceil_intCast_add]

theorem quotient_small (ht : -d < n) (hl : n < d) : roundedQuotient r n d = correction n r := by
  rw [correction]
  cases r with
  | true =>
    rw [quotient_true hd]
    rcases lt_trichotomy n 0 with h | h | h
    · rw [if_neg h.not_gt,if_pos ⟨h.ne,rfl⟩]
      omega
    · rw [if_neg h.not_gt,if_neg fun hn => hn.1 h]
      omega
    · rw [if_pos h,if_pos ⟨h.ne',rfl⟩]
      omega
  | false =>
    have hu : ¬ (n ≠ 0 ∧ false = true) := fun h => Bool.false_ne_true h.2
    rw [quotient_false hd,if_neg hu]
    split_ifs with h
    · omega
    · omega

/-- The correction turns rounding towards zero into rounding down or up. -/
theorem tdiv_add_correction : n.tdiv d+correction (n.tmod d) r = roundedQuotient r n d := by
  have hn := quotient_add hd (q := n.tdiv d) (n := n.tmod d) (r := r)
  rw [Int.mul_tdiv_add_tmod,quotient_small hd (Int.lt_tmod_of_pos n hd)
    (Int.tmod_lt_of_pos n hd)] at hn
  exact hn.symm

theorem quotient_le {z : ℤ} (hz : 0 ≤ z) (h : n ≤ z) : roundedQuotient r n d ≤ z := by
  have hl : (n : ℚ) / d ≤ z := by
    rw [div_le_iff₀ (Int.cast_pos.mpr hd)]
    exact_mod_cast h.trans (le_mul_of_one_le_right hz hd)
  cases r with
  | true => exact (Int.floor_le_ceil _).trans (Int.ceil_le.mpr hl)
  | false => exact Int.ceil_le.mpr hl

theorem le_quotient {z : ℤ} (hz : z ≤ 0) (h : z ≤ n) : z ≤ roundedQuotient r n d := by
  have hl : (z : ℚ) ≤ n / d := by
    rw [le_div_iff₀ (Int.cast_pos.mpr hd)]
    exact_mod_cast (mul_le_of_one_le_right hz hd).trans h
  cases r with
  | true => exact Int.le_floor.mpr hl
  | false => exact (Int.le_floor.mpr hl).trans (Int.floor_le_ceil _)

theorem tdiv_tmod_sign (n : ℤ) : 0 ≤ n.tdiv d ∧ 0 ≤ n.tmod d ∨ n.tdiv d ≤ 0 ∧ n.tmod d ≤ 0 := by
  rcases le_total 0 n with hn | hn
  · exact .inl ⟨Int.tdiv_nonneg hn hd.le,Int.tmod_nonneg d hn⟩
  · have hdi := Int.tdiv_nonneg (neg_nonneg.mpr hn) hd.le
    have hm := Int.tmod_nonneg d (neg_nonneg.mpr hn)
    rw [Int.neg_tdiv] at hdi
    rw [Int.neg_tmod] at hm
    exact .inr ⟨neg_nonneg.mp hdi,neg_nonneg.mp hm⟩

/-- Rounding towards zero stays in the range of the rounded quotient and zero. -/
theorem isInt64_tdiv (hq : IsInt64 (roundedQuotient r n d)) : IsInt64 (n.tdiv d) := by
  rw [← tdiv_add_correction hd,correction] at hq
  obtain ⟨hq,hq'⟩ := hq
  have hs := tdiv_tmod_sign hd n
  split_ifs at hq hq' <;> exact ⟨by omega,by omega⟩

end

/-- The two words of a product. -/
theorem mulFallback_eq (ha : IsInt64 a) (hb : IsInt32 b) : ∃ n, mulFallback a b = .ok n ∧
    IsInt64 n.1 ∧ 0 ≤ n.2 ∧ n.2 < 2^32 ∧ n.1*2^32+n.2 = a*b := by
  obtain ⟨ha,ha'⟩ := ha
  obtain ⟨hb,hb'⟩ := hb
  have hl : 0 ≤ a % 2^32 ∧ a % 2^32 < 2^32 := by omega
  have hh : -2^31 ≤ a / 2^32 ∧ a / 2^32 < 2^31 := by omega
  have ho : -2^63 ≤ a % 2^32*b ∧ a % 2^32*b < 2^63 := ⟨by nlinarith,by nlinarith⟩
  have hhi : -2^62 ≤ a / 2^32*b ∧ a / 2^32*b ≤ 2^62 := ⟨by nlinarith,by nlinarith⟩
  have hs : a*b = 2^32*(a / 2^32*b)+a % 2^32*b := by
    rw [← mul_assoc,← add_mul,Int.mul_ediv_add_emod]
  rw [mulFallback,hs]
  generalize a % 2^32*b = low at ho ⊢
  generalize a / 2^32*b = high at hhi ⊢
  have hw : IsInt64 (high+low / 2^32) := ⟨by omega,by omega⟩
  rw [checked64_ok ho,ok_bind,checked64_ok ⟨by omega,by omega⟩,ok_bind,checked64_ok hw]
  refine ⟨_,rfl,hw,?_,?_,?_⟩
  · omega
  · omega
  · omega

section
variable (hd : 0 < d) (hd' : IsInt32 d)
include hd hd'

theorem isInt32_tmod : IsInt32 (n.tmod d) := by
  have hl := Int.tmod_lt_of_pos n hd
  have ht := Int.lt_tmod_of_pos n hd
  obtain ⟨-,hd'⟩ := hd'
  exact ⟨by omega,by omega⟩

theorem div128_eq (hq : IsInt64 (roundedQuotient r n d)) :
    div128 n d r = .ok (roundedQuotient r n d) := by
  rw [div128,toSigned_32 (isInt32_tmod hd hd'),toSigned_64 (isInt64_tdiv hd hq),
    tdiv_add_correction hd,checked64_ok hq]

theorem divFallback_eq {x y : ℤ} (hl : 0 ≤ y) (hl' : y < 2^32)
    (hq : IsInt64 (roundedQuotient r (x*2^32+y) d)) :
    divFallback (x,y) d r = .ok (roundedQuotient r (x*2^32+y) d) := by
  have hdi := Int.mul_tdiv_add_tmod x d
  have ht := Int.tmod_lt_of_pos x hd
  have hgt := Int.lt_tmod_of_pos x hd
  have hsi := hd'.2
  have hp : x*2^32+y = d*(x.tdiv d*2^32)+(x.tmod d*2^32+y) := by
    linear_combination -(2^32*hdi)
  have hs : roundedQuotient r (x*2^32+y) d = x.tdiv d*2^32+roundedQuotient r (x.tmod d*2^32+y)
    d := by
    rw [hp,quotient_add hd]
  have hr : IsInt64 (x.tmod d*2^32) := ⟨by omega,by omega⟩
  have hn : IsInt64 (x.tmod d*2^32+y) := ⟨by omega,by omega⟩
  have hu : IsInt64 (roundedQuotient r (x.tmod d*2^32+y) d) := by
    refine ⟨le_quotient hd (by decide) hn.1,Int.lt_of_le_sub_one ?_⟩
    exact quotient_le hd (by decide) (Int.le_sub_one_of_lt hn.2)
  have hh : IsInt64 (x.tdiv d*2^32) := by
    rw [hs] at hq
    obtain ⟨hq,hq'⟩ := hq
    rcases tdiv_tmod_sign hd x with ⟨hpo,hm⟩ | ⟨hne,hm⟩
    · have he : 0 ≤ roundedQuotient r (x.tmod d*2^32+y) d := le_quotient hd le_rfl (by omega)
      exact ⟨by omega,by omega⟩
    · have he : roundedQuotient r (x.tmod d*2^32+y) d ≤ 2^32-1 := quotient_le hd (by decide)
        (by omega)
      exact ⟨by omega,by omega⟩
  rw [divFallback,toSigned_64 hr,checked64_ok hn,ok_bind]
  dsimp only
  rw [toSigned_32 (isInt32_tmod hd hd'),tdiv_add_correction hd,checked64_ok hu,ok_bind,
    toSigned_64 hh,← hs,checked64_ok hq]

end

namespace Platform

def value : (p : Platform) → p.Wide → ℤ
  | int128, n => n
  | fallback, n => n.1*2^32+n.2

def Valid : (p : Platform) → p.Wide → Prop
  | int128, _ => True
  | fallback, n => 0 ≤ n.2 ∧ n.2 < 2^32

variable (p : Platform)

theorem mul_eq (ha : IsInt64 a) (hb : IsInt32 b) : ∃ w, p.mul a b = .ok w ∧ p.Valid w ∧
    p.value w = a*b := by
  cases p with
  | int128 => exact ⟨_,rfl,trivial,rfl⟩
  | fallback =>
    obtain ⟨n,hn,-,hl,hl',hv⟩ := mulFallback_eq ha hb
    exact ⟨n,hn,⟨hl,hl'⟩,hv⟩

variable {p} {v w : p.Wide}

theorem order_eq (hv : p.Valid v) (hw : p.Valid w) : p.order v w = cmp (p.value v) (p.value w) := by
  cases p with
  | int128 => rfl
  | fallback =>
    rw [order,← cmp_toLex]
    refine cmp_eq_of_iff (Prod.Lex.toLex_lt_toLex.trans ?_) (Prod.Lex.toLex_lt_toLex.trans ?_)
    · obtain ⟨⟨hv,hv'⟩,hw,hw'⟩ := And.intro hv hw
      simp only [value]
      omega
    · obtain ⟨⟨hv,hv'⟩,hw,hw'⟩ := And.intro hv hw
      simp only [value]
      omega

theorem div_eq (hw : p.Valid w) (hd : 0 < d) (hd' : IsInt32 d)
    (hq : IsInt64 (roundedQuotient r (p.value w) d)) :
    p.div w d r = .ok (roundedQuotient r (p.value w) d) := by
  cases p with
  | int128 => exact div128_eq hd hd' hq
  | fallback => exact divFallback_eq hd hd' hw.1 hw.2 hq

variable (p) {f g : FeeFrac}

theorem evaluateFee_eq {at_size : ℤ} (hf : f.inRange = true) (hpo : 0 < f.size) (hs : 0 ≤ at_size)
    (hs' : IsInt32 at_size) (hq : IsInt64 (roundedQuotient r (f.fee*at_size) f.size)) :
    p.evaluateFee f r at_size = .ok (roundedQuotient r (f.fee*at_size) f.size) := by
  obtain ⟨he,he',hsi,hsi'⟩ := of_decide_eq_true hf
  unfold evaluateFee
  by_cases ha : 0 ≤ f.fee ∧ f.fee < 0x200000000
  · have hl : 0 ≤ f.fee*at_size := mul_nonneg ha.1 hs
    have ht : f.fee*at_size ≤ (2^33-1)*(2^31-1) := mul_le_mul (by omega)
      (Int.le_sub_one_of_lt hs'.2) hs (by decide)
    rw [if_pos ha]
    dsimp only
    rw [Int.emod_eq_of_lt hl (by omega),Int.emod_eq_of_lt (by omega) (by omega),
      ← quotient_eq_ediv hpo,toSigned_64 hq]
  · obtain ⟨w,hw,hv,hva⟩ := p.mul_eq ⟨he,he'⟩ hs'
    rw [← hva] at hq ⊢
    rw [if_neg ha,hw,ok_bind,div_eq hv hpo ⟨hsi,hsi'⟩ hq]

/-- A fraction by its feerate, and the larger size first. -/
def rank (f : FeeFrac) : ℚ ×ₗ ℤᵒᵈ := toLex ((f.fee : ℚ) / f.size,.toDual f.size)

section
variable (hf : f.inRange = true) (hg : g.inRange = true)
include hf hg

theorem crossProducts : ∃ v w, p.mul f.fee g.size = .ok v ∧ p.mul g.fee f.size = .ok w ∧
    p.order v w = f.feeRateCompare g := by
  obtain ⟨he,he',hs,hs'⟩ := of_decide_eq_true hf
  obtain ⟨kf,kf',ks,ks'⟩ := of_decide_eq_true hg
  obtain ⟨v,hv,hva,ha⟩ := p.mul_eq ⟨he,he'⟩ ⟨ks,ks'⟩
  obtain ⟨w,hw,kv,k⟩ := p.mul_eq ⟨kf,kf'⟩ ⟨hs,hs'⟩
  refine ⟨v,w,hv,hw,?_⟩
  rw [order_eq hva kv,ha,k,cmp_eq_compare]
  rfl

theorem compare_exact : p.feeRateCompare f g = .ok (f.feeRateCompare g) := by
  obtain ⟨v,w,hv,hw,ho⟩ := p.crossProducts hf hg
  rw [feeRateCompare,hv,ok_bind,hw,ok_bind,ho]
  rfl

variable (hpo : 0 < f.size) (hpo' : 0 < g.size)
include hpo hpo'

omit hf hg in
theorem compare_eq_cmp : f.feeRateCompare g = cmp ((f.fee : ℚ) / f.size)
    ((g.fee : ℚ) / g.size) := by
  have hf : (0 : ℚ) < f.size := Int.cast_pos.mpr hpo
  have hg : (0 : ℚ) < g.size := Int.cast_pos.mpr hpo'
  refine (cmp_eq_compare _ _).symm.trans (cmp_eq_of_iff ?_ ?_)
  · rw [div_lt_div_iff₀ hf hg]
    norm_cast
  · rw [div_lt_div_iff₀ hg hf]
    norm_cast

theorem spaceship_eq : p.spaceship f g = .ok (cmp (rank f) (rank g)) := by
  obtain ⟨v,w,hv,hw,ho⟩ := p.crossProducts hf hg
  rw [spaceship,hv,ok_bind,hw,ok_bind,ho,compare_eq_cmp hpo hpo',rank,rank,cmp_toLex]
  rfl

end

theorem rank_injOn : Set.InjOn rank {f | 0 < f.size} := by
  intro f hf g hg h
  obtain ⟨hr,hs⟩ := Prod.ext_iff.mp (toLex.injective h)
  have hs : f.size = g.size := hs
  have hn : (g.size : ℚ) ≠ 0 := Int.cast_ne_zero.mpr (ne_of_gt hg)
  refine FeeFrac.ext ?_ hs
  dsimp only at hr
  rw [hs,div_left_inj' hn] at hr
  exact_mod_cast hr

/-- The comparison by `<=>` is the order of ranks. -/
def rankEmbedding : (fun f g : {f : FeeFrac // f.inRange = true ∧ 0 < f.size} =>
    p.spaceship f g = .ok .lt) ↪r ((· < ·) : ℚ ×ₗ ℤᵒᵈ → ℚ ×ₗ ℤᵒᵈ → Prop) where
  toFun f := rank f
  inj' f g h := Subtype.ext (rank_injOn f.2.2 g.2.2 h)
  map_rel_iff' {f g} := by
    rw [p.spaceship_eq f.2.1 g.2.1 f.2.2 g.2.2,Except.ok.injEq,cmp_eq_lt_iff]
    rfl

end Platform

/-- The fallback orders and divides as exact arithmetic does, and on every platform the fee at a
size is the exact one, rounded down or up, and the comparisons are those of the exact feerates. -/
theorem feeFrac_arithmetic_exact (p : Platform) :
    (∀ a b a' b' : ℤ, IsInt64 a → IsInt32 b → IsInt64 a' → IsInt32 b' → ∃ n n',
      mulFallback a b = .ok n ∧ mulFallback a' b' = .ok n' ∧
      Platform.order .fallback n n' = cmp (a * b) (a' * b')) ∧
    (∀ (n : ℤ × ℤ) (d : ℤ), IsInt64 n.1 → 0 ≤ n.2 → n.2 < 2 ^ 32 → 0 < d → IsInt32 d →
      (IsInt64 ⌊((n.1 * 2 ^ 32 + n.2 : ℤ) : ℚ) / d⌋ →
        divFallback n d true = .ok ⌊((n.1 * 2 ^ 32 + n.2 : ℤ) : ℚ) / d⌋) ∧
      (IsInt64 ⌈((n.1 * 2 ^ 32 + n.2 : ℤ) : ℚ) / d⌉ →
        divFallback n d false = .ok ⌈((n.1 * 2 ^ 32 + n.2 : ℤ) : ℚ) / d⌉)) ∧
    (∀ (f : FeeFrac) (s : ℤ), f.inRange = true → 0 < f.size → 0 ≤ s → IsInt32 s →
      (IsInt64 ⌊((f.fee * s : ℤ) : ℚ) / f.size⌋ →
        p.evaluateFeeDown f s = .ok ⌊((f.fee * s : ℤ) : ℚ) / f.size⌋) ∧
      (IsInt64 ⌈((f.fee * s : ℤ) : ℚ) / f.size⌉ →
        p.evaluateFeeUp f s = .ok ⌈((f.fee * s : ℤ) : ℚ) / f.size⌉)) ∧
    (∀ f g : FeeFrac, f.inRange = true → g.inRange = true → 0 < f.size → 0 < g.size →
      p.feeRateCompare f g = .ok (f.feeRateCompare g) ∧
      f.feeRateCompare g = cmp ((f.fee : ℚ) / f.size) ((g.fee : ℚ) / g.size) ∧
      p.spaceship f g = .ok (cmp (Platform.rank f) (Platform.rank g))) ∧
    IsStrictTotalOrder {f : FeeFrac // f.inRange = true ∧ 0 < f.size}
      fun f g => p.spaceship f g = .ok .lt := by
  refine ⟨fun a b a' b' ha hb ha' hb' => ?_,fun n d _ hn hn' hd hd' => ⟨?_,?_⟩,
    fun f s hf hpo hs hs' => ⟨?_,?_⟩,fun f g hf hg hpo hpo' => ⟨?_,?_,?_⟩,
    p.rankEmbedding.isStrictTotalOrder⟩
  · obtain ⟨n,hn,hv,hva⟩ := Platform.mul_eq .fallback ha hb
    obtain ⟨n',hn',hv',hva'⟩ := Platform.mul_eq .fallback ha' hb'
    refine ⟨n,n',hn,hn',?_⟩
    rw [Platform.order_eq hv hv',hva,hva']
  · exact divFallback_eq hd hd' hn hn' (r := true)
  · exact divFallback_eq hd hd' hn hn' (r := false)
  · exact p.evaluateFee_eq hf hpo hs hs' (r := true)
  · exact p.evaluateFee_eq hf hpo hs hs' (r := false)
  · exact p.compare_exact hf hg
  · exact Platform.compare_eq_cmp hpo hpo'
  · exact p.spaceship_eq hf hg hpo hpo'

theorem feeFrac_arithmetic_exact_negative : Platform.fallback.evaluateFeeDown ⟨-7, 3⟩ 2 = .ok (-5) ∧
      Platform.fallback.evaluateFeeUp ⟨-7, 3⟩ 2 = .ok (-4) := by
  obtain ⟨ho,hu⟩ := (feeFrac_arithmetic_exact .fallback).2.2.1 ⟨-7,3⟩ 2 (by decide) (by decide)
    (by decide) ⟨by decide,by decide⟩
  have hl : ⌊((-7*2 : ℤ) : ℚ) / (3 : ℤ)⌋ = -5 := (quotient_true (by decide)).mpr (by decide)
  have hc : ⌈((-7*2 : ℤ) : ℚ) / (3 : ℤ)⌉ = -4 := (quotient_false (by decide)).mpr (by decide)
  rw [hl] at ho
  rw [hc] at hu
  exact ⟨ho (by decide),hu (by decide)⟩

end DripCore
