import Mathlib.Data.Nat.Log
import Mathlib.Tactic.Ring

/-!
# Truncation to a bounded mantissa

A format keeps a mantissa below `M` and drops whole digits of a base `B` until the mantissa fits;
the number of dropped digits is the least possible. When `B` divides `M` the first value of each
exponent is a multiple of the digits dropped there, so truncation is monotone.
-/
namespace DripCore.MantissaTruncation
open Nat

variable {B M : ℕ}

/-- The least number of base-`B` digits to drop so that a mantissa below `M` remains. -/
def exponent (B M x : ℕ) : ℕ := if x < M then 0 else Nat.log B (x / M)+1

/-- The value with the dropped digits replaced by zeros. -/
def truncate (B M x : ℕ) : ℕ := x / B^exponent B M x*B^exponent B M x

theorem lt_mul_pow_exponent (hB : 1 < B) (hM : 0 < M) (x : ℕ) : x < M*B^exponent B M x := by
  unfold exponent
  split_ifs with h
  · simpa using h
  · have hl := lt_pow_succ_log_self hB (x / M)
    rw [mul_comm]
    exact (div_lt_iff_lt_mul hM).mp hl

variable {k x y m : ℕ}

theorem mul_pow_le_of_succ (hM : 0 < M) (hk : exponent B M x = k+1) : M*B^k ≤ x := by
  unfold exponent at hk
  split_ifs at hk with h
  have hl : log B (x / M) = k := by omega
  have hx : x / M ≠ 0 := (Nat.div_pos (Nat.le_of_not_lt h) hM).ne'
  have hp : B^k ≤ x / M := hl ▸ pow_log_le_self B hx
  calc M*B^k ≤ M*(x / M) := mul_le_mul_left M hp
    _ ≤ x := mul_div_le x M

theorem exponent_eq (hB : 1 < B) (hM : 0 < M) (ht : x < M*B^k) (hl : ∀ j, k = j+1 → M*B^j ≤ x) :
    exponent B M x = k := by
  have hu := lt_mul_pow_exponent hB hM x
  rcases lt_trichotomy (exponent B M x) k with h | h | h
  · obtain ⟨j,rfl⟩ : ∃ j, k = j+1 := ⟨k-1,by omega⟩
    have hp : B^exponent B M x ≤ B^j := Nat.pow_le_pow_right (by omega) (by omega)
    have := mul_le_mul_left M hp
    have := hl j rfl
    omega
  · exact h
  · obtain ⟨j,hj⟩ : ∃ j, exponent B M x = j+1 := ⟨exponent B M x-1,by omega⟩
    have hp : B^k ≤ B^j := Nat.pow_le_pow_right (by omega) (by omega)
    have := mul_le_mul_left M hp
    have := mul_pow_le_of_succ hM hj
    omega

theorem truncate_le (x : ℕ) : truncate B M x ≤ x := div_mul_le_self x _

theorem truncate_of_lt (h : x < M) : truncate B M x = x := by
  simp [truncate,exponent,h]

theorem exponent_mono (hB : 1 < B) (hM : 0 < M) (h : x ≤ y) : exponent B M x ≤ exponent B M y := by
  by_contra hlt
  obtain ⟨j,hj⟩ : ∃ j, exponent B M x = j+1 := ⟨exponent B M x-1,by omega⟩
  have hx := mul_pow_le_of_succ hM hj
  have hy := lt_mul_pow_exponent hB hM y
  have hp : B^exponent B M y ≤ B^j := Nat.pow_le_pow_right (by omega) (by omega)
  have := mul_le_mul_left M hp
  omega

/-- A multiple of the dropped digits below the value survives truncation. -/
theorem le_truncate_of_dvd (hd : B^exponent B M x ∣ m) (hm : m ≤ x) : m ≤ truncate B M x := by
  obtain ⟨c,rfl⟩ := hd
  by_cases hz : B^exponent B M x = 0
  · simp [hz]
  · have hc : c ≤ x / B^exponent B M x :=
      (le_div_iff_mul_le (pos_of_ne_zero hz)).mpr (by rwa [mul_comm])
    rw [mul_comm]
    exact mul_le_mul_right _ hc

theorem mul_pow_le_truncate (hM : 0 < M) (hd : B ∣ M) (hk : exponent B M x = k+1) :
    M*B^k ≤ truncate B M x := by
  refine le_truncate_of_dvd ?_ (mul_pow_le_of_succ hM hk)
  rw [hk,pow_succ,mul_comm]
  exact mul_dvd_mul hd dvd_rfl

theorem truncate_mono (hB : 1 < B) (hM : 0 < M) (hd : B ∣ M) (h : x ≤ y) :
    truncate B M x ≤ truncate B M y := by
  rcases eq_or_lt_of_le (exponent_mono hB hM h) with he | he
  · unfold truncate
    rw [he]
    exact Nat.mul_le_mul_right _ (Nat.div_le_div_right h)
  · -- The larger value has already passed the first value of its exponent.
    obtain ⟨j,hj⟩ : ∃ j, exponent B M y = j+1 := ⟨exponent B M y-1,by omega⟩
    have hx := lt_mul_pow_exponent hB hM x
    have hp : B^exponent B M x ≤ B^j := Nat.pow_le_pow_right (by omega) (by omega)
    have := mul_le_mul_left M hp
    have := mul_pow_le_truncate hM hd hj
    have := truncate_le (B := B) (M := M) x
    omega

/-- Every value written with a mantissa below `M` is kept exactly. -/
theorem truncate_mantissa (hB : 1 < B) (hM : 0 < M) (hm : m < M) (k : ℕ) :
    truncate B M (m*B^k) = m*B^k := by
  have hB0 : 0 < B := by omega
  have hl : exponent B M (m*B^k) ≤ k := by
    by_contra hlt
    obtain ⟨j,hj⟩ : ∃ j, exponent B M (m*B^k) = j+1 := ⟨exponent B M (m*B^k)-1,by omega⟩
    have hx := mul_pow_le_of_succ hM hj
    have hp : B^k ≤ B^j := Nat.pow_le_pow_right hB0 (by omega)
    have h := mul_le_mul_left M hp
    have h' := (Nat.mul_lt_mul_right (Nat.pow_pos (n := k) hB0)).mpr hm
    omega
  refine Nat.div_mul_cancel ?_
  exact Dvd.dvd.mul_left (pow_dvd_pow B hl) m

end DripCore.MantissaTruncation
