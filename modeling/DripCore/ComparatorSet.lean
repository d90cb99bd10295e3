import Mathlib.Data.List.Sort

/-!
# Sets ordered by a comparator

A set kept as a list that is sorted by a comparator, which also decides whether two
elements are the same, and what an order ideal cuts off the front of a sorted list.
-/
namespace DripCore.ComparatorSet
open List

variable {α : Type}

def insert (lt : α → α → Bool) (a : α) : List α → List α
  | [] => [a]
  | x::xs =>
    if lt a x then a::x::xs
    else if lt x a then x::insert lt a xs
    else x::xs

variable {l : List α}
variable {p : α → Bool} {r : α → α → Prop}

variable (h : l.Pairwise r) (hp : ∀ a b, r a b → p b = true → p a = true)
include h hp

/-- In a sorted list, what an order ideal takes from the front is all of it in the list. -/
theorem takeWhile_eq_filter : l.takeWhile p = l.filter p := by
  induction l with
  | nil => rfl
  | cons x l ih =>
    obtain ⟨hx,hl⟩ := pairwise_cons.mp h
    by_cases hpx : p x = true
    · rw [takeWhile_cons_of_pos hpx,filter_cons_of_pos hpx,ih hl]
    · rw [takeWhile_cons_of_neg hpx,filter_cons_of_neg hpx,eq_comm,filter_eq_nil_iff]
      exact fun y hy hpy => hpx (hp x y (hx y hy) hpy)

theorem dropWhile_eq_filter : l.dropWhile p = l.filter fun a => !p a := by
  induction l with
  | nil => rfl
  | cons x l ih =>
    obtain ⟨hx,hl⟩ := pairwise_cons.mp h
    by_cases hpx : p x = true
    · rw [dropWhile_cons_of_pos hpx,filter_cons_of_neg (by simp [hpx]),ih hl]
    · rw [dropWhile_cons_of_neg hpx,filter_cons_of_pos (by simp [hpx])]
      rw [filter_eq_self.mpr fun y hy => ?_]
      simpa using fun hpy => hpx (hp x y (hx y hy) hpy)

end DripCore.ComparatorSet
