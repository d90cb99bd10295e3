import Mathlib.Data.List.Sort

/-!
# Order statistics of lists

The element at a position of the sorted list, found by counting: it is at least `x`
exactly when no more elements than its position are below `x`.
-/
namespace DripCore.OrderStatistics
open List

variable {α : Type} [LinearOrder α]

def kth (l : List α) (k : ℕ) (d : α) : α := (l.insertionSort (· ≤ ·)).getD k d

theorem le_getD_iff {s : List α} (hs : s.Pairwise (· ≤ ·)) {k : ℕ} (hk : k < s.length) (x d : α) :
    x ≤ s.getD k d ↔ s.countP (· < x) ≤ k := by
  induction s generalizing k with
  | nil => exact absurd hk (Nat.not_lt_zero k)
  | cons y s ih =>
    obtain ⟨hy,hs⟩ := pairwise_cons.mp hs
    by_cases hx : y < x
    · rw [countP_cons_of_pos (by simpa using hx)]
      cases k with
      | zero =>
        exact ⟨fun h => absurd hx h.not_gt,fun h => absurd h (by omega)⟩
      | succ k =>
        rw [getD_cons_succ,ih hs (by simpa using hk)]
        omega
    · have hn : s.countP (· < x) = 0 := by
        rw [countP_eq_zero]
        intro z hz
        simpa using (not_lt.mp hx).trans (hy z hz)
      rw [countP_cons_of_neg (by simpa using hx),hn]
      cases k with
      | zero => simpa using hx
      | succ k =>
        rw [getD_cons_succ,ih hs (by simpa using hk)]
        omega

theorem le_kth_iff {l : List α} {k : ℕ} (hk : k < l.length) (x d : α) : x ≤ kth l k d ↔
    l.countP (· < x) ≤ k := by
  rw [kth,le_getD_iff (pairwise_insertionSort _ _) (by rwa [length_insertionSort]),
    (perm_insertionSort _ _).countP_eq]

end DripCore.OrderStatistics
