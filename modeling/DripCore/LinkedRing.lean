import Mathlib.Data.List.Nodup

/-!
# Doubly linked rings with a sentinel

A node is a key, or the sentinel `none`, and the links are two partial functions. A path runs from
one node through a list of keys to another, with each link answered by its opposite; a ring is a
path from the sentinel back to itself. Insertion is before the sentinel.
-/
namespace DripCore.LinkedRing
open List Function

variable {K : Type*}

/-- Links run forward and backward from one node through the listed keys to another. -/
def Path (next prev : Option K → Option (Option K)) : Option K → List K → Option K → Prop
  | a, [], b => next a = some b ∧ prev b = some a
  | a, k::ks, b => next a = some (some k) ∧ prev (some k) = some a ∧ Path next prev (some k) ks b

def last (a : Option K) : List K → Option K
  | [] => a
  | k::ks => last (some k) ks

def first (b : Option K) : List K → Option K
  | [] => b
  | k::_ => some k

structure Ring (next prev : Option K → Option (Option K)) (xs : List K) : Prop where
  path : Path next prev none xs none
  nodup : xs.Nodup

variable {next prev next' prev' : Option K → Option (Option K)}

theorem path_append (a b : Option K) (k : K) (xs ys : List K) : Path next prev a (xs++k::ys) b ↔
      Path next prev a xs (some k) ∧ Path next prev (some k) ys b := by
  induction xs generalizing a with
  | nil => simp only [nil_append,Path,and_assoc]
  | cons x xs ih => simp only [cons_append,Path,ih,and_assoc]

variable {a b : Option K} {xs : List K}

theorem Path.congr (h : Path next prev a xs b)
    (he : ∀ n, n = a ∨ n ∈ xs.map some → next' n = next n)
    (hp : ∀ n, n = b ∨ n ∈ xs.map some → prev' n = prev n) :
    Path next' prev' a xs b := by
  induction xs generalizing a with
  | nil => exact ⟨(he a (Or.inl rfl)).trans h.1,(hp b (Or.inl rfl)).trans h.2⟩
  | cons x xs ih =>
    refine ⟨(he a (Or.inl rfl)).trans h.1,(hp _ (Or.inr (by simp))).trans h.2.1,?_⟩
    refine ih h.2.2 (fun n hn => he n (Or.inr ?_)) (fun n hn => hp n ?_)
    · rcases hn with rfl | hn
      · simp
      · simp only [map_cons,mem_cons,hn,or_true]
    · rcases hn with rfl | hn
      · exact Or.inl rfl
      · exact Or.inr (by simp only [map_cons,mem_cons,hn,or_true])

theorem Path.next_last (h : Path next prev a xs b) :
    next (last a xs) = some b ∧ prev b = some (last a xs) := by
  induction xs generalizing a with
  | nil => exact h
  | cons x xs ih => exact ih h.2.2

theorem Path.next_first (h : Path next prev a xs b) :
    next a = some (first b xs) ∧ prev (first b xs) = some a := by
  cases xs with
  | nil => exact h
  | cons x xs => exact ⟨h.1,h.2.1⟩

theorem last_mem (a : Option K) (xs : List K) : last a xs = a ∨ last a xs ∈ xs.map some := by
  induction xs generalizing a with
  | nil => exact Or.inl rfl
  | cons x xs ih =>
    rcases ih (some x) with h | h
    · exact Or.inr (by rw [last,h]; simp)
    · exact Or.inr (by rw [last]; exact mem_cons_of_mem _ h)

section
variable [DecidableEq K]
variable {xs : List K} {k : K}

/-- Redirecting the last link of a path to a node outside it. -/
theorem Path.relink (h : Path next prev a xs b) (hs : xs.Nodup)
    (ha : a ∉ xs.map some) {c : Option K}
    (hc : c ∉ xs.map some) :
    Path (update next (last a xs) (some c)) (update prev c (some (last a xs))) a xs c := by
  induction xs generalizing a with
  | nil => exact ⟨update_self ..,update_self ..⟩
  | cons x xs ih =>
    simp only [map_cons,mem_cons,not_or] at ha hc
    have hx : some x ∉ xs.map some := by
      simpa using (nodup_cons.mp hs).1
    have hla : a ≠ last (some x) xs := by
      rcases last_mem (some x) xs with hl | hl
      · rw [hl]
        exact ha.1
      · exact fun he => ha.2 (he ▸ hl)
    refine ⟨?_,?_,ih h.2.2 (nodup_cons.mp hs).2 hx hc.2⟩
    · rw [last,update_of_ne hla,h.1]
    · rw [update_of_ne (Ne.symm hc.1),h.2.1]

/-- Insertion of a new key before the sentinel. -/
theorem Ring.append (h : Ring next prev xs) (hk : k ∉ xs) {l : Option K} (hl : prev none = some l) :
    Ring (update (update next (some k) (some none)) l (some (some k)))
      (update (update prev (some k) (some l)) none (some (some k)))
      (xs++[k]) := by
  have ho : (none : Option K) ∉ xs.map some := by simp
  have hm : some k ∉ xs.map some := by simpa using hk
  obtain rfl : last none xs = l := Option.some.inj (h.path.next_last.2.symm.trans hl)
  have hlk : some k ≠ last none xs := by
    rcases last_mem none xs with he | hin
    · simp [he]
    · exact fun he => hm (he ▸ hin)
  refine ⟨(path_append none none k xs []).mpr ⟨?_,?_,?_⟩,?_⟩
  · refine (h.path.relink h.nodup ho hm).congr ?_ ?_
    · intro n hn
      by_cases hla : n = last none xs
      · rw [hla,update_self,update_self]
      · rw [update_of_ne hla,update_of_ne hla,update_of_ne]
        rcases hn with rfl | hn
        · simp
        · exact fun he => hm (he ▸ hn)
    · intro n hn
      have hne : n ≠ none := by
        rcases hn with rfl | hn
        · simp
        · exact fun he => ho (he ▸ hn)
      rw [update_of_ne hne]
  · rw [update_of_ne hlk,update_self]
  · rw [update_self]
  · rw [nodup_append]
    refine ⟨h.nodup,nodup_singleton k,?_⟩
    rintro a ha b hb rfl
    exact hk (mem_singleton.mp hb ▸ ha)

/-- Removal of a key by joining its neighbours. -/
theorem Ring.unlink (h : Ring next prev xs) (hk : k ∈ xs) {p n : Option K}
    (hp : prev (some k) = some p) (hn : next (some k) = some n) :
    Ring (update next p (some n)) (update prev n (some p)) (xs.erase k) := by
  obtain ⟨ys,zs,rfl⟩ := append_of_mem hk
  have hnd := h.nodup
  rw [nodup_middle,nodup_cons,mem_append,not_or,nodup_append] at hnd
  obtain ⟨⟨hky,hkz⟩,hs,hzs,hd⟩ := hnd
  have her : (ys++k::zs).erase k = ys++zs := by
    rw [erase_append_right _ hky,erase_cons_head]
  obtain ⟨hl,hr⟩ := (path_append none none k ys zs).mp h.path
  obtain rfl : last none ys = p := Option.some.inj (hl.next_last.2.symm.trans hp)
  obtain rfl : first none zs = n := Option.some.inj (hr.next_first.1.symm.trans hn)
  rw [her]
  refine ⟨?_,by rw [nodup_append]; exact ⟨hs,hzs,hd⟩⟩
  cases zs with
  | nil =>
    rw [append_nil]
    exact hl.relink hs (by simp) (by simp [first])
  | cons z zs =>
    have hzy : some z ∉ ys.map some := by
      simpa using fun hz => hd z hz z (by simp) rfl
    refine (path_append none none z ys zs).mpr ⟨hl.relink hs (by simp) hzy,?_⟩
    refine hr.2.2.congr ?_ ?_
    · intro m hm
      refine update_of_ne ?_ _ _
      rintro rfl
      have hin : last none ys ∈ (z::zs).map some := by
        simpa only [map_cons,mem_cons] using hm
      rcases last_mem none ys with he | hy
      · simp [he] at hin
      · obtain ⟨y,hy,he⟩ := mem_map.mp hy
        obtain ⟨z',hz,he'⟩ := mem_map.mp hin
        exact hd y hy z' hz (Option.some.inj (he.trans he'.symm))
    · intro m hm
      refine update_of_ne ?_ _ _
      rintro rfl
      rcases hm with hm | hm
      · simp [first] at hm
      · exact (nodup_cons.mp hzs).1 (by simpa [first] using hm)

end

theorem Ring.congr (h : Ring next prev xs) (hn : ∀ n, n = none ∨ n ∈ xs.map some → next' n = next n)
    (hp : ∀ n, n = none ∨ n ∈ xs.map some → prev' n = prev n) : Ring next' prev' xs :=
  ⟨h.path.congr hn hp,h.nodup⟩

theorem first_mem (b : Option K) (xs : List K) : first b xs = b ∨ first b xs ∈ xs.map some := by
  cases xs with
  | nil => exact Or.inl rfl
  | cons x xs => exact Or.inr (by simp [first])

/-- Every key of a path has two neighbours on it that point back at the key. -/
theorem Path.neighbours (h : Path next prev a xs b) {k : K} (hk : k ∈ xs) :
    ∃ p n, (prev (some k) = some p ∧ next p = some (some k) ∧ (p = a ∨ p ∈ xs.map some)) ∧
      next (some k) = some n ∧ prev n = some (some k) ∧ (n = b ∨ n ∈ xs.map some) := by
  obtain ⟨ys,zs,rfl⟩ := append_of_mem hk
  obtain ⟨hl,hr⟩ := (path_append a b k ys zs).mp h
  refine ⟨last a ys,first b zs,⟨hl.next_last.2,hl.next_last.1,?_⟩,hr.next_first.1,hr.next_first.2,
    ?_⟩
  · refine (last_mem a ys).imp id fun hy => ?_
    rw [map_append,mem_append]
    exact Or.inl hy
  · refine (first_mem b zs).imp id fun hz => ?_
    rw [map_append,mem_append]
    exact Or.inr (mem_cons_of_mem _ hz)

end DripCore.LinkedRing
