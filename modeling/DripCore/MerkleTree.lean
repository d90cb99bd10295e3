import Mathlib.Data.Set.Function

/-!
# Trees of hashes over lists

A list of hashes is made shorter layer by layer: neighbours are hashed together, and a last element
without a neighbour with itself. The root determines a list of known length, and any list if no
layer hashes two equal neighbours together and no leaf is the hash of a pair. The hash has to be
free of collisions only on the pairs that are hashed.
-/
namespace DripCore.MerkleTree
open List Relation

variable {H : Type}
variable {α β : Type} {l l' : List H}

theorem map_eq_of_map_eq {γ : Type} {f : α → β} {g : α → γ} {l l' : List α}
    (hf : ∀ a ∈ l, ∀ a' ∈ l', f a = f a' → g a = g a') (h : l.map f = l'.map f) :
    l.map g = l'.map g := by
  induction l generalizing l' with
  | nil => rw [map_eq_nil_iff.mp h.symm]
  | cons a l ih =>
    cases l' with
    | nil => simp at h
    | cons a' l' =>
      rw [map_cons,map_cons,cons.injEq] at h
      have hh := hf a mem_cons_self a' mem_cons_self h.1
      have ht := ih (fun b hb b' hb' =>
        hf b (mem_cons_of_mem a hb) b' (mem_cons_of_mem a' hb')) h.2
      rw [map_cons,map_cons,hh,ht]

theorem eq_of_map_of_injOn {f : α → β} {P : Set α} (hn : Set.InjOn f P) {l l' : List α}
    (hl : ∀ a ∈ l, a ∈ P) (hl' : ∀ a ∈ l', a ∈ P) (h : l.map f = l'.map f) :
    l = l' := by
  have hd : l.map id = l'.map id :=
    map_eq_of_map_eq (fun a ha a' ha' he => hn (hl a ha) (hl' a' ha') he) h
  rwa [map_id,map_id] at hd

/-- Neighbours, and a last element with itself. -/
def pairs : List H → List (H × H)
  | [] => []
  | [x] => [(x,x)]
  | x::y::l => (x,y)::pairs l

/-- Two equal elements are hashed together that are both in the list. -/
def twins [DecidableEq H] : List H → Bool
  | x::y::l => x == y || twins l
  | _ => false

theorem length_pairs (l : List H) : (pairs l).length = (l.length+1) / 2 := by
  induction l using pairs.induct with
  | case1 => simp [pairs]
  | case2 x => simp [pairs]
  | case3 x y l ih =>
    rw [pairs,length_cons,length_cons,length_cons]
    omega

theorem eq_of_pairs_of_length (hl : l.length = l'.length) (h : pairs l = pairs l') : l = l' := by
  induction l using pairs.induct generalizing l' with
  | case1 => exact (length_eq_zero_iff.mp hl.symm).symm
  | case2 x =>
    obtain ⟨y,rfl⟩ := length_eq_one_iff.mp hl.symm
    simp only [pairs,cons.injEq,Prod.mk.injEq,and_true] at h
    rw [h.1]
  | case3 x y l ih =>
    match l', hl, h with
    | x'::y'::l', hl, h =>
      simp only [pairs,cons.injEq,Prod.mk.injEq] at h
      simp only [length_cons,Nat.add_right_cancel_iff] at hl
      rw [h.1.1,h.1.2,ih hl h.2]

/-- Without equal neighbours a list is determined by its pairs. -/
theorem eq_of_pairs_of_twins [DecidableEq H] (hl : twins l = false) (hl' : twins l' = false)
    (h : pairs l = pairs l') : l = l' := by
  induction l using pairs.induct generalizing l' with
  | case1 =>
    match l', h with
    | [], _ => rfl
    | [x], h => simp [pairs] at h
    | x::y::l', h => simp [pairs] at h
  | case2 x =>
    match l', hl', h with
    | [x'], _, h =>
      simp only [pairs,cons.injEq,Prod.mk.injEq,and_true] at h
      rw [h.1]
    | x'::y'::l', hl', h =>
      simp only [pairs,cons.injEq,Prod.mk.injEq] at h
      simp [twins,← h.1.1,← h.1.2] at hl'
  | case3 x y l ih =>
    match l', hl', h with
    | [x'], _, h =>
      simp only [pairs,cons.injEq,Prod.mk.injEq] at h
      simp [twins,h.1.1,h.1.2] at hl
    | x'::y'::l', hl', h =>
      simp only [pairs,cons.injEq,Prod.mk.injEq] at h
      rw [twins,Bool.or_eq_false_iff] at hl hl'
      rw [h.1.1,h.1.2,ih hl.2 hl'.2 h.2]

variable (combine : H × H → H)

def layer (l : List H) : List H := (pairs l).map combine

theorem length_layer (l : List H) : (layer combine l).length = (l.length+1) / 2 := by
  rw [layer,length_map,length_pairs]

/-- The loop to the root, and whether it has hashed equal neighbours; the length is enough
fuel. -/
def rootLoop [DecidableEq H] (zero : H) : ℕ → List H → Bool → H × Bool
  | 0, hashes, mutation => (hashes.headD zero,mutation)
  | fuel+1, hashes, mutation =>
    if 1 < hashes.length then rootLoop zero fuel (layer combine hashes) (mutation || twins hashes)
    else (hashes.headD zero,mutation)

/-- All pairs that the loop hashes. -/
def loopPairs : ℕ → List H → List (H × H)
  | 0, _ => []
  | fuel+1, hashes =>
    if 1 < hashes.length then pairs hashes++loopPairs fuel (layer combine hashes) else []

variable {combine} {P : Set (H × H)}

theorem eq_of_rootLoop [DecidableEq H] (hn : Set.InjOn combine P) {zero : H} {fuel : ℕ}
    {m m' : Bool} (hf : l.length ≤ fuel+1) (he : l.length = l'.length)
    (hl : ∀ p ∈ loopPairs combine fuel l, p ∈ P) (hl' : ∀ p ∈ loopPairs combine fuel l', p ∈ P)
    (h : (rootLoop combine zero fuel l m).1 = (rootLoop combine zero fuel l' m').1) :
    l = l' := by
  have hs {l l' : List H} (hle : l.length ≤ 1) (he : l.length = l'.length)
      (h : l.headD zero = l'.headD zero) : l = l' := by
    match l, l', hle, he, h with
    | [], [], _, _, _ => rfl
    | [x], [y], _, _, h => rw [show x = y from h]
  induction fuel generalizing l l' m m' with
  | zero => exact hs hf he h
  | succ fuel ih =>
    rw [rootLoop,rootLoop,← he] at h
    rw [loopPairs] at hl hl'
    rw [← he] at hl'
    split_ifs at h hl hl' with ho
    · rw [forall_mem_append] at hl hl'
      have ha : layer combine l = layer combine l' := by
        refine ih ?_ ?_ hl.2 hl'.2 h
        · rw [length_layer]
          omega
        · rw [length_layer,length_layer,he]
      exact eq_of_pairs_of_length he (eq_of_map_of_injOn hn hl.1 hl'.1 ha)
    · exact hs (not_lt.mp ho) he h

variable [DecidableEq H]

variable (combine P) in
/-- A turn of the loop that hashes no equal neighbours. -/
def Step (l l' : List H) : Prop :=
  1 < l.length ∧ twins l = false ∧ (∀ p ∈ pairs l, p ∈ P) ∧ layer combine l = l'

theorem leftUnique_step (hn : Set.InjOn combine P) : Relator.LeftUnique (Step combine P) := by
  intro l l' m h h'
  have hl : layer combine l = layer combine l' := h.2.2.2.trans h'.2.2.2.symm
  exact eq_of_pairs_of_twins h.2.1 h'.2.1 (eq_of_map_of_injOn hn h.2.2.1 h'.2.2.1 hl)

variable {l l' : List H} {root : H}

theorem Step.mem_image (h : Step combine P l l') : l' ≠ [] ∧ ∀ x ∈ l', x ∈ combine '' P := by
  obtain ⟨hl,-,hP,rfl⟩ := h
  constructor
  · rw [← length_pos_iff,length_layer]
    omega
  · intro x hx
    obtain ⟨p,hp,rfl⟩ := mem_map.mp hx
    exact ⟨p,hP p hp,rfl⟩

/-- Lists below one layer are equal, when their elements are leaves. -/
theorem eq_of_path_step (hin : Set.InjOn combine P) {m : List H}
    (hl : ReflTransGen (Step combine P) l m) (hl' : ReflTransGen (Step combine P) l' m)
    (hle : ∀ x ∈ l, x ∉ combine '' P) (hle' : ∀ x ∈ l', x ∉ combine '' P) : l = l' := by
  have hb {k k' : List H} (h : ReflTransGen (Step combine P) k k')
    (hle : ∀ x ∈ k', x ∉ combine '' P) : k = k' := by
    rcases h.cases_tail with he | ⟨n,-,hs⟩
    · exact he.symm
    · obtain ⟨hn,hm⟩ := hs.mem_image
      obtain ⟨x,hx⟩ := exists_mem_of_ne_nil _ hn
      exact absurd (hm x hx) (hle x hx)
  -- Seen from the layer above, a turn backwards is determined.
  have hu : Relator.RightUnique (Function.swap (Step combine P)) := fun _ _ _ h h' =>
    leftUnique_step hin h h'
  rcases ReflTransGen.total_of_right_unique hu (reflTransGen_swap.mpr hl)
    (reflTransGen_swap.mpr hl') with h | h
  · exact (hb (reflTransGen_swap.mp h) hle).symm
  · exact hb (reflTransGen_swap.mp h) hle'

/-- A run of the loop that meets no equal neighbours. -/
theorem path_of_rootLoop {zero : H} {fuel : ℕ} {m : Bool}
    (hf : l.length ≤ fuel+1) (hn : l ≠ []) (hP : ∀ p ∈ loopPairs combine fuel l, p ∈ P)
    (h : rootLoop combine zero fuel l m = (root,false)) :
    m = false ∧ ReflTransGen (Step combine P) l [root] := by
  have hs {l : List H} {m : Bool} (he : l.length ≤ 1) (hn : l ≠ [])
    (h : (l.headD zero,m) = (root,false)) :
      m = false ∧ ReflTransGen (Step combine P) l [root] := by
    match l, he, hn, h with
    | [x], _, _, h =>
      rw [Prod.mk.injEq] at h
      rw [← h.1]
      exact ⟨h.2,.refl⟩
  induction fuel generalizing l m with
  | zero => exact hs hf hn h
  | succ fuel ih =>
    rw [rootLoop] at h
    rw [loopPairs] at hP
    split_ifs at h hP with hl
    · rw [forall_mem_append] at hP
      obtain ⟨hm,hr⟩ := ih (by rw [length_layer]; omega)
        (by rw [← length_pos_iff,length_layer]; omega) hP.2 h
      rw [Bool.or_eq_false_iff] at hm
      exact ⟨hm.1,.head ⟨hl,hm.2,hP.1,rfl⟩ hr⟩
    · exact hs (not_lt.mp hl) hn h

/-- The root above a list is one of its elements or a hash. -/
theorem mem_of_path_step (h : ReflTransGen (Step combine P) l [root]) :
    root ∈ l ∨ root ∈ combine '' P := by
  rcases h.cases_tail with he | ⟨n,-,hs⟩
  · rw [← he]
    exact .inl (mem_singleton_self root)
  · exact .inr (hs.mem_image.2 root (mem_singleton_self root))

end DripCore.MerkleTree
