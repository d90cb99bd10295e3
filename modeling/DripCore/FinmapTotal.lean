import Mathlib.Algebra.Order.BigOperators.Group.Finset
import Mathlib.Data.Finmap

/-!
# Totals over finite maps

The sum of a weight over the values of a finite map depends on its lookups only, and changing one of
them changes one summand. Counting values with a property is the total of its indicator.
-/
namespace DripCore.FinmapTotal
open List Finset

variable {K V W M : Type*} [AddCommMonoid M] [DecidableEq K]

def weight (f : V → M) (v : Option V) : M := (v.map f).getD 0

@[simp] theorem weight_none (f : V → M) : weight f none = 0 := rfl

@[simp] theorem weight_some (f : V → M) (v : V) : weight f (some v) = f v := rfl

def total (f : V → M) (m : Finmap (fun _ : K => V)) : M := ∑ k ∈ m.keys, weight f (m.lookup k)

@[simp] theorem total_empty (f : V → M) : total f (∅ : Finmap (fun _ : K => V)) = 0 := rfl

variable {m : Finmap (fun _ : K => V)} {xs : List K}

theorem total_eq_sum (f : V → M) {s : Finset K} (h : m.keys ⊆ s) : total f m = ∑ k ∈ s,
    weight f (m.lookup k) := by
  refine sum_subset h fun k _ hk => ?_
  rw [Finmap.mem_keys,← Finmap.lookup_eq_none] at hk
  rw [hk,weight_none]

theorem total_update (f : W → M) (g : V → W) {m' : Finmap (fun _ : K => V)} (k : K)
    (h : ∀ j, j ≠ k → (m'.lookup j).map g = (m.lookup j).map g) :
    total (fun v => f (g v)) m'+weight f ((m.lookup k).map g) =
      total (fun v => f (g v)) m+weight f ((m'.lookup k).map g) := by
  have hw (v : Option V) : weight (fun v => f (g v)) v = weight f (v.map g) := by
    cases v <;> rfl
  have hk : k ∈ insert k (m.keys∪m'.keys) := mem_insert_self _ _
  rw [total_eq_sum _ (s := insert k (m.keys∪m'.keys)) (by
      intro j hj
      simp [hj]),
    total_eq_sum (m := m) _ (s := insert k (m.keys∪m'.keys)) (by
      intro j hj
      simp [hj])]
  rw [← add_sum_erase _ _ hk,← add_sum_erase _ _ hk]
  have hr : ∑ j ∈ (insert k (m.keys∪m'.keys)).erase k, weight (fun v => f (g v)) (m'.lookup j) =
      ∑ j ∈ (insert k (m.keys∪m'.keys)).erase k, weight (fun v => f (g v)) (m.lookup j) :=
    sum_congr rfl fun j hj => by
      rw [hw,hw,h j (ne_of_mem_erase hj)]
  rw [hr,hw,hw,add_right_comm,add_comm (weight f _) (weight f _),add_right_comm]

theorem weight_le_total (f : V → ℕ) (m : Finmap (fun _ : K => V)) (k : K) :
    weight f (m.lookup k) ≤ total f m := by
  rw [total_eq_sum f (subset_insert k m.keys)]
  exact single_le_sum (f := fun j => weight f (m.lookup j)) (fun _ _ => Nat.zero_le _)
    (mem_insert_self k _)

/-- A duplicate-free list of exactly the keys whose values have a property counts them. -/
theorem total_indicator {p : V → Bool} (hx : xs.Nodup)
    (h : ∀ k, k ∈ xs ↔ ∃ v, m.lookup k = some v ∧ p v = true) :
    total (fun v => if p v then 1 else 0) m = xs.length := by
  have hs : xs.toFinset ⊆ m.keys := by
    intro k hk
    obtain ⟨v,hv,-⟩ := (h k).mp (mem_toFinset.mp hk)
    exact Finmap.mem_keys.mpr (Finmap.mem_of_lookup_eq_some hv)
  rw [total,← sum_subset hs,sum_congr rfl (g := fun _ => 1)]
  · rw [← card_eq_sum_ones,toFinset_card_of_nodup hx]
  · intro k hk
    obtain ⟨v,hv,hp⟩ := (h k).mp (mem_toFinset.mp hk)
    rw [hv,weight_some,if_pos hp]
  · intro k _ hk
    cases hv : m.lookup k with
    | none => rfl
    | some v =>
      rw [weight_some,if_neg]
      exact fun hp => hk (mem_toFinset.mpr ((h k).mpr ⟨v,hv,hp⟩))

theorem length_le_card (hx : xs.Nodup) (h : ∀ k ∈ xs, k ∈ m) : xs.length ≤ m.keys.card := by
  rw [← toFinset_card_of_nodup hx]
  exact card_le_card fun k hk => Finmap.mem_keys.mpr (h k (mem_toFinset.mp hk))

end DripCore.FinmapTotal
