import Mathlib.Algebra.Order.BigOperators.Group.Finset
import Mathlib.Algebra.BigOperators.Ring.Finset

/-!
# Things that several owners hold

A set of pairs of an owner and a thing. Each owner has a share, and the things are also counted once
for all owners that hold them. If the total is above a quota for each owner, then so is a share.
-/
namespace DripCore
open Finset

variable {β γ : Type*} {A : Finset (β × γ)} {f : γ → ℕ} {o o' : β} {x : γ}

def owners [DecidableEq β] (A : Finset (β × γ)) : Finset β := A.image Prod.fst

def things [DecidableEq γ] (A : Finset (β × γ)) : Finset γ := A.image Prod.snd

def share [DecidableEq β] (A : Finset (β × γ)) (f : γ → ℕ) (o : β) : ℕ := ∑ p ∈ A with p.1 = o,
    f p.2

theorem mem_owners [DecidableEq β] : o ∈ owners A ↔ ∃ x, (o,x) ∈ A := by simp [owners]

theorem mem_things [DecidableEq γ] : x ∈ things A ↔ ∃ o, (o,x) ∈ A := by simp [things]

theorem sum_things_le [DecidableEq γ] (A : Finset (β × γ)) (f : γ → ℕ) : ∑ x ∈ things A,
    f x ≤ ∑ p ∈ A, f p.2 := by
  rw [← sum_fiberwise_of_maps_to (g := Prod.snd) (fun _ hp => mem_image_of_mem _ hp) fun p :
    β × γ => f p.2]
  refine sum_le_sum fun x hx => ?_
  obtain ⟨o,ho⟩ := mem_things.mp hx
  have hm : (o,x) ∈ A.filter fun p => p.2 = x := mem_filter.mpr ⟨ho,rfl⟩
  exact single_le_sum (f := fun p : β × γ => f p.2) (fun _ _ => Nat.zero_le _) hm

section
variable [DecidableEq β]

theorem share_eq_zero (h : o ∉ owners A) : share A f o = 0 := by
  apply sum_eq_zero
  intro p hp
  obtain ⟨hm,rfl⟩ := mem_filter.mp hp
  exact absurd (mem_owners.mpr ⟨p.2,hm⟩) h

theorem sum_share (A : Finset (β × γ)) (f : γ → ℕ) : ∑ o ∈ owners A, share A f o = ∑ p ∈ A, f p.2 :=
  sum_fiberwise_of_maps_to (g := Prod.fst) (fun _ hp => mem_image_of_mem _ hp) fun p :
    β × γ => f p.2

theorem exists_share_gt {m : ℕ} (h : #(owners A)*m < ∑ p ∈ A, f p.2) : ∃ o ∈ owners A,
    m < share A f o := by
  rw [← sum_share,← sum_const_nat (f := fun _ => m) fun _ _ => rfl] at h
  exact exists_lt_of_sum_lt h

end

variable [DecidableEq β] [DecidableEq γ]

theorem card_le_owners_mul (A : Finset (β × γ)) : #A ≤ #(owners A) * #(things A) := by
  rw [← card_product]
  refine card_le_card fun p hp => mem_product.mpr ⟨?_,?_⟩
  · exact mem_image_of_mem _ hp
  · exact mem_image_of_mem _ hp

theorem owners_insert : owners (insert (o,x) A) = insert o (owners A) := image_insert _ _ _

theorem things_insert : things (insert (o,x) A) = insert x (things A) := image_insert _ _ _

theorem share_insert (h : (o,x) ∉ A) : share (insert (o,x) A) f o = f x+share A f o := by
  rw [share,filter_insert,if_pos rfl,sum_insert fun hm => h (mem_filter.mp hm).1,share]

theorem share_insert_of_ne (h : o ≠ o') : share (insert (o,x) A) f o' = share A f o' := by
  rw [share,filter_insert,if_neg h,share]

theorem share_erase (h : (o,x) ∈ A) : f x+share (A.erase (o,x)) f o = share A f o := by
  rw [← share_insert (notMem_erase _ _),insert_erase h]

theorem share_erase_of_ne (h : o ≠ o') : share (A.erase (o,x)) f o' = share A f o' := by
  by_cases hm : (o,x) ∈ A
  · rw [← share_insert_of_ne h,insert_erase hm]
  · rw [erase_eq_of_notMem hm]

theorem mem_owners_erase (h : o' ≠ o) : o' ∈ owners (A.erase (o,x)) ↔ o' ∈ owners A := by
  simp only [mem_owners,mem_erase,ne_eq,Prod.mk.injEq,h,false_and,not_false_eq_true,true_and]

theorem things_erase_of_shared (h : (o',x) ∈ A) (hn : o' ≠ o) :
    things (A.erase (o,x)) = things A := by
  ext y
  simp only [mem_things,mem_erase]
  constructor
  · rintro ⟨o1,_,hm⟩
    exact ⟨o1,hm⟩
  · rintro ⟨o1,hm⟩
    by_cases he : (o1,y) = (o,x)
    · rw [(Prod.mk.inj he).2]
      exact ⟨o',fun he' => hn (Prod.mk.inj he').1,h⟩
    · exact ⟨o1,he,hm⟩

theorem things_erase_of_unique (h : ∀ o', (o',x) ∈ A → o' = o) :
    things (A.erase (o,x)) = (things A).erase x := by
  ext y
  simp only [mem_things,mem_erase]
  constructor
  · rintro ⟨o1,hn,hm⟩
    refine ⟨?_,o1,hm⟩
    rintro rfl
    exact hn (by rw [h o1 hm])
  · rintro ⟨hn,o1,hm⟩
    exact ⟨o1,fun he => hn (Prod.mk.inj he).2,hm⟩

end DripCore
