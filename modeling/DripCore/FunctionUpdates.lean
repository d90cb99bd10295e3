import Mathlib.Data.List.Basic

/-!
# Updating a function along a list

`updateAll f l` assigns the values of `l` at its keys from left to right. If the values are those of
`g`, and `f` agrees with `g` elsewhere, this yields `g`.
-/
namespace DripCore.FunctionUpdates
open List Function

variable {K W : Type} [DecidableEq K]

def updateAll (f : K → W) (l : List (K × W)) : K →
    W := l.foldl (fun f p => Function.update f p.1 p.2) f

@[simp] theorem updateAll_nil (f : K → W) : updateAll f [] = f := rfl

@[simp] theorem updateAll_cons (f : K → W) (p : K × W) (l : List (K × W)) :
    updateAll f (p::l) = updateAll (Function.update f p.1 p.2) l := rfl

variable {f : K → W} {k : K} {l : List (K × W)}

theorem updateAll_of_notMem (h : ∀ p ∈ l, p.1 ≠ k) : updateAll f l k = f k := by
  induction l generalizing f with
  | nil => rfl
  | cons p l ih =>
    rw [updateAll_cons,ih fun q hq => h q (mem_cons_of_mem _ hq),
      update_of_ne (h p mem_cons_self).symm]

theorem updateAll_of_mem (hn : (l.map Prod.fst).Nodup) {p : K × W} (hp : p ∈ l) :
    updateAll f l p.1 = p.2 := by
  induction l generalizing f with
  | nil => exact absurd hp not_mem_nil
  | cons q l ih =>
    rw [map_cons,nodup_cons] at hn
    rcases mem_cons.mp hp with rfl | hp
    · rw [updateAll_cons,updateAll_of_notMem fun r hr he =>
        hn.1 (mem_map.mpr ⟨r,hr,he⟩),update_self]
    · rw [updateAll_cons,ih hn.2 hp]

theorem updateAll_const {ks : List K} {w : W} (hk : k ∈ ks) :
    updateAll f (ks.map fun k => (k,w)) k = w := by
  induction ks generalizing f with
  | nil => exact absurd hk not_mem_nil
  | cons j ks ih =>
    rw [map_cons,updateAll_cons]
    by_cases hm : k ∈ ks
    · exact ih hm
    · obtain rfl : k = j := (mem_cons.mp hk).resolve_right hm
      rw [updateAll_of_notMem fun p hp he => ?_,update_self]
      obtain ⟨i,hi,rfl⟩ := mem_map.mp hp
      exact hm (he ▸ hi)

/-- Whatever holds of the values at a key, and of the function before, holds after. -/
theorem updateAll_induction {P : K → W → Prop} (hf : ∀ k, P k (f k)) (hl : ∀ p ∈ l, P p.1 p.2)
    (k : K) : P k (updateAll f l k) := by
  induction l generalizing f with
  | nil => exact hf k
  | cons p l ih =>
    rw [updateAll_cons]
    refine ih (fun j => ?_) fun q hq => hl q (mem_cons_of_mem _ hq)
    by_cases hj : j = p.1
    · rw [hj,update_self]
      exact hl p mem_cons_self
    · rw [update_of_ne hj]
      exact hf j

theorem updateAll_eq {g : K → W} (hl : ∀ p ∈ l, p.2 = g p.1)
    (hf : ∀ k, (∀ p ∈ l, p.1 ≠ k) → f k = g k) : updateAll f l = g := by
  induction l generalizing f with
  | nil => exact funext fun k => hf k fun p hp => absurd hp not_mem_nil
  | cons p l ih =>
    rw [updateAll_cons]
    refine ih (fun q hq => hl q (mem_cons_of_mem _ hq)) fun k hk => ?_
    by_cases hkp : k = p.1
    · rw [hkp,update_self,hl p mem_cons_self]
    · rw [update_of_ne hkp]
      refine hf k fun q hq => ?_
      rcases mem_cons.mp hq with rfl | hq
      · exact fun h => hkp h.symm
      · exact hk q hq

end DripCore.FunctionUpdates
