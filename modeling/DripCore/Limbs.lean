import Mathlib.Data.BitVec
import Mathlib.Data.Nat.Bitwise
import Mathlib.Tactic.Linarith
import Mathlib.Tactic.Ring

/-!
# Numbers in limbs

A sequence of words of `b` bits, the least significant first, stands for a number in base `2 ^ b`.
A loop over the words sees only the first of them, so the value here is that of the first `n` words,
and every lemma says how the value changes when one more word is taken in.

Two ways to reason about the value are provided. Its bits are the bits of the words in their order,
which settles shifts and the logical operations. Its size is governed by the highest word, which
settles comparisons, and changing one word changes it by a multiple of the weight of that word,
which settles additions with a carry.
-/
namespace DripCore.Limbs

variable {b : ℕ}

/-- The number in the first `n` words. -/
def value (f : ℕ → BitVec b) : ℕ → ℕ
  | 0 => 0
  | n + 1 => 2 ^ (b * n) * (f n).toNat + value f n

variable {f g : ℕ → BitVec b} {n : ℕ}

theorem value_congr (h : ∀ i < n, f i = g i) : value f n = value g n := by
  induction n with
  | zero => rfl
  | succ n ih => rw [value, value, h n (Nat.lt_succ_self n),
    ih fun i hi => h i (hi.trans n.lt_succ_self)]

theorem value_lt (f : ℕ → BitVec b) (n : ℕ) : value f n < 2 ^ (b * n) := by
  induction n with
  | zero => exact Nat.two_pow_pos _
  | succ n ih =>
    have hf : (f n).toNat + 1 ≤ 2 ^ b := (f n).isLt
    calc value f (n + 1) < 2 ^ (b * n) * ((f n).toNat + 1) := by
          rw [value, Nat.mul_add, Nat.mul_one]
          exact Nat.add_lt_add_left ih _
      _ ≤ 2 ^ (b * n) * 2 ^ b := Nat.mul_le_mul_left _ hf
      _ = 2 ^ (b * (n + 1)) := by rw [← pow_add, Nat.mul_succ]

/-- The bits of the value are those of the words. -/
theorem testBit_value (hb : 0 < b) (f : ℕ → BitVec b) (n j : ℕ) :
    (value f n).testBit j = (decide (j < b * n) && (f (j / b)).getLsbD (j % b)) := by
  induction n with
  | zero => simp [value]
  | succ n ih =>
    rw [value, Nat.testBit_two_pow_mul_add _ (value_lt f n), ih]
    split_ifs with h
    · have hs : j < b * (n + 1) := h.trans_le (Nat.mul_le_mul_left b n.le_succ)
      simp [h, hs]
    · obtain ⟨t, rfl⟩ := Nat.exists_eq_add_of_le (not_lt.mp h)
      rw [Nat.add_sub_cancel_left, ← BitVec.getLsbD, Nat.mul_succ]
      by_cases ht : t < b
      · have hd : (b * n + t) / b = n := by
          rw [Nat.mul_add_div hb, Nat.div_eq_of_lt ht, Nat.add_zero]
        have hm : (b * n + t) % b = t := by rw [Nat.mul_add_mod, Nat.mod_eq_of_lt ht]
        simp [hd, hm, ht]
      · rw [BitVec.getLsbD_of_ge _ _ (not_lt.mp ht)]
        simp [ht]

/-- Changing one word changes the value by its weight. -/
theorem value_update {i : ℕ} (hi : i < n) (h : ∀ j ≠ i, g j = f j) :
    value g n + 2 ^ (b * i) * (f i).toNat = value f n + 2 ^ (b * i) * (g i).toNat := by
  induction n with
  | zero => exact absurd hi (Nat.not_lt_zero i)
  | succ n ih =>
    rcases Nat.lt_succ_iff_lt_or_eq.mp hi with hl | rfl
    · rw [value, value, h n hl.ne', Nat.add_assoc, ih hl, Nat.add_assoc]
    · rw [value, value, value_congr fun j hj => h j hj.ne]
      omega

/-- The highest words decide if they differ. -/
theorem value_lt_of_lt (h : f n < g n) : value f (n + 1) < value g (n + 1) := by
  have hf := value_lt f n
  have hm : 2 ^ (b * n) * ((f n).toNat + 1) ≤ 2 ^ (b * n) * (g n).toNat := Nat.mul_le_mul_left _ h
  rw [Nat.mul_add, Nat.mul_one] at hm
  rw [value, value]
  omega

/-- Words above the first `n` that are zero do not count. -/
theorem value_of_zero {m : ℕ} (hm : n ≤ m) (h : ∀ i, n ≤ i → i < m → f i = 0#b) :
    value f m = value f n := by
  induction m, hm using Nat.le_induction with
  | base => rfl
  | succ m hm ih =>
    rw [value, h m hm m.lt_succ_self, ih fun i hi hl => h i hi (hl.trans m.lt_succ_self)]
    simp

theorem value_pos_of_ne {i : ℕ} (hi : i < n) (h : f i ≠ 0#b) : 0 < value f n := by
  have hv := value_update (g := fun j => if j = i then 0#b else f j) hi fun j hj => if_neg hj
  have hp : 0 < 2 ^ (b * i) * (f i).toNat :=
    Nat.mul_pos (Nat.two_pow_pos _) (Nat.pos_of_ne_zero fun hz => h (BitVec.eq_of_toNat_eq hz))
  simp only [if_true, BitVec.toNat_ofNat, Nat.zero_mod, Nat.mul_zero, Nat.add_zero] at hv
  omega

/-- The highest word that is not zero gives the number of binary digits. -/
theorem log2_value (h : f n ≠ 0#b) : (value f (n + 1)).log2 = b * n + (f n).toNat.log2 := by
  have hz : (f n).toNat ≠ 0 := fun hz => h (BitVec.eq_of_toNat_eq hz)
  have hv := value_lt f n
  refine (Nat.log2_eq_iff (value_pos_of_ne n.lt_succ_self h).ne').mpr ⟨?_, ?_⟩
  · rw [pow_add, value]
    exact (Nat.mul_le_mul_left _ (Nat.log2_self_le hz)).trans (Nat.le_add_right _ _)
  · have hm : 2 ^ (b * n) * ((f n).toNat + 1) ≤ 2 ^ (b * n) * 2 ^ ((f n).toNat.log2 + 1) :=
      Nat.mul_le_mul_left _ Nat.lt_log2_self
    rw [Nat.mul_add, Nat.mul_one] at hm
    rw [Nat.add_assoc, pow_add, value]
    omega

end DripCore.Limbs
