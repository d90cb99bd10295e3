import DripCore.ChunkPartition

/-!
# Forests that span the chunks

The active edges within a chunk form a tree: without one of them the chunk falls into the side of
the edge's parent, its top, and the side of its child. Connected is what has only constant functions
along its edges. Linking and cutting keep all this, and a forest whose tops are never better than
their chunks has the greatest possible excess.
-/
namespace DripCore.Chunking
open Finset
variable {V E : Type*}

structure IsForest (s : Finset V) (parent child : E → V) (active : Finset E) (top : E → Finset V)
    (chunk : V → Finset V) : Prop where
  isChunking : IsChunking s chunk
  parent_mem : ∀ e ∈ active, parent e ∈ s
  child_mem : ∀ e ∈ active, child e ∈ chunk (parent e)
  top_subset : ∀ e ∈ active, top e ⊆ chunk (parent e)
  parent_top : ∀ e ∈ active, parent e ∈ top e
  child_top : ∀ e ∈ active, child e ∉ top e
  across : ∀ e ∈ active, ∀ d ∈ active, d ≠ e → (parent d ∈ top e ↔ child d ∈ top e)
  connected : ∀ φ : V → ℤ, (∀ e ∈ active, φ (parent e) = φ (child e)) → ∀ v ∈ s, ∀ w ∈ chunk v,
    φ w = φ v

theorem isForest_singletons {s : Finset V} {chunk : V → Finset V} (h : ∀ v ∈ s, chunk v = {v})
    (parent child : E → V) (top : E → Finset V) : IsForest s parent child ∅ top chunk where
  isChunking := isChunking_singletons h
  parent_mem := by simp
  child_mem := by simp
  top_subset := by simp
  parent_top := by simp
  child_top := by simp
  across := by simp
  connected φ _ v hv w hw := by
    rw [h v hv,mem_singleton] at hw
    rw [hw]

variable {s : Finset V} {parent child : E → V} {ac : Finset E} {top : E → Finset V}
variable {chunk : V → Finset V} {d e : E}

section
variable (h : IsForest s parent child ac top chunk)
include h

theorem IsForest.parent_mem_iff (he : e ∈ ac) {x : V} (hx : x ∈ s) : parent e ∈ chunk x ↔
    child e ∈ chunk x := by
  have hs := h.parent_mem e he
  have hcs := h.isChunking.subset _ hs (h.child_mem e he)
  rw [h.isChunking.mem_iff hx hs,h.isChunking.mem_iff hx hcs,
    h.isChunking.eq_of_mem _ hs _ (h.child_mem e he)]

theorem IsForest.parent_mem_of_top (he : e ∈ ac) {v : V} (hv : v ∈ s) (hm : v ∈ top e) :
    parent e ∈ chunk v :=
  (h.isChunking.mem_iff hv (h.parent_mem e he)).mpr
    (h.isChunking.eq_of_mem _ (h.parent_mem e he) v (h.top_subset e he hm)).symm

theorem IsForest.congr_top {top' : E → Finset V} (hq : ∀ e ∈ ac, top' e = top e) :
    IsForest s parent child ac top' chunk where
  isChunking := h.isChunking
  parent_mem := h.parent_mem
  child_mem := h.child_mem
  top_subset e he := hq e he ▸ h.top_subset e he
  parent_top e he := hq e he ▸ h.parent_top e he
  child_top e he := hq e he ▸ h.child_top e he
  across e he := hq e he ▸ h.across e he
  connected := h.connected

end

variable [DecidableEq V]

/-- The tops after two chunks `X` and `Y` have been linked by `d`. -/
def linkTop [DecidableEq E] (parent child : E → V) (d : E) (X Y : Finset V) (top : E → Finset V)
    (e : E) : Finset V :=
  if e = d then X
  else if parent e ∈ X then if parent d ∈ top e then top e ∪ Y else top e
  else if parent e ∈ Y then if child d ∈ top e then top e ∪ X else top e
  else top e

/-- The tops after a chunk has been cut at `d` into its top `X` and the rest `Y`. -/
def cutTop (parent child : E → V) (d : E) (X Y : Finset V) (top : E → Finset V) (e : E) :
    Finset V :=
  if parent e ∈ X then if parent d ∈ top e then top e \ Y else top e
  else if parent e ∈ Y then if child d ∈ top e then top e \ X else top e
  else top e

def cutChunk (X Y : Finset V) (chunk : V → Finset V) (v : V) : Finset V :=
  if v ∈ X then X else if v ∈ Y then Y else chunk v

section
variable [DecidableEq E] (h : IsForest s parent child ac top chunk) (hd : d ∉ ac)
  (hp : parent d ∈ s) (hc : child d ∈ s) (hne : chunk (child d) ≠ chunk (parent d))
include h hd hp hc hne

/-- A linked top is as before in its own chunk, and has all or nothing of the other. -/
theorem mem_linkTop (he : e ∈ ac) (v : V) : v ∈ linkTop parent child d (chunk (parent d))
    (chunk (child d)) top e ↔
      v ∈ top e ∨ parent d ∈ top e ∧ v ∈ chunk (child d) ∨ child d ∈ top e ∧
        v ∈ chunk (parent d) := by
  have hed : e ≠ d := fun hq => hd (hq ▸ he)
  have hdi := disjoint_left.mp (h.isChunking.disjoint_of_ne hc hp hne)
  have hx := h.parent_mem_of_top he hp
  have hy := h.parent_mem_of_top he hc
  rw [linkTop,if_neg hed]
  split_ifs with hX ht hY hct
  · have hct : child d ∉ top e := fun hct => hdi (hy hct) hX
    simp only [mem_union,ht,hct,true_and,false_and,or_false]
  · have hct : child d ∉ top e := fun hct => hdi (hy hct) hX
    simp only [ht,hct,false_and,or_false]
  · have ht : parent d ∉ top e := fun ht => hX (hx ht)
    simp only [mem_union,ht,hct,true_and,false_and,false_or]
  · have ht : parent d ∉ top e := fun ht => hX (hx ht)
    simp only [ht,hct,false_and,or_false]
  · have ht : parent d ∉ top e := fun ht => hX (hx ht)
    have hct : child d ∉ top e := fun hct => hY (hy hct)
    simp only [ht,hct,false_and,or_false]

theorem IsForest.link_across (he : e ∈ insert d ac) {e' : E} (he' : e' ∈ insert d ac)
    (hee' : e' ≠ e) :
    parent e' ∈ linkTop parent child d (chunk (parent d)) (chunk (child d)) top e ↔
      child e' ∈ linkTop parent child d (chunk (parent d)) (chunk (child d)) top e := by
  have hself_p := h.isChunking.self _ hp
  have hself_c := h.isChunking.self _ hc
  rcases mem_insert.mp he with rfl | he
  · have he' := (mem_insert.mp he').resolve_left hee'
    rw [linkTop,if_pos rfl]
    exact h.parent_mem_iff he' hp
  · rw [mem_linkTop h hd hp hc hne he,mem_linkTop h hd hp hc hne he]
    rcases mem_insert.mp he' with rfl | he'
    · simp only [hself_p]
      tauto
    · rw [h.across e he e' he' hee',h.parent_mem_iff he' hp,h.parent_mem_iff he' hc]

theorem IsForest.link : IsForest s parent child (insert d ac)
    (linkTop parent child d (chunk (parent d)) (chunk (child d)) top)
    (merge (chunk (parent d)) (chunk (child d)) chunk) := by
  have hself_p := h.isChunking.self _ hp
  have hself_c := h.isChunking.self _ hc
  have hdi := disjoint_left.mp (h.isChunking.disjoint_of_ne hp hc hne.symm)
  have hm : ∀ v, v ∈ chunk (parent d)∪chunk (child d) →
      merge (chunk (parent d)) (chunk (child d)) chunk v = chunk (parent d)∪chunk (child d) :=
    fun v hv => merge_of_mem hv
  have hl : linkTop parent child d (chunk (parent d)) (chunk (child d)) top d = chunk (parent d) :=
    if_pos rfl
  refine ⟨h.isChunking.merge hp hc,?_,?_,?_,?_,?_,?_,?_⟩
  · intro e he
    rcases mem_insert.mp he with rfl | he
    · exact hp
    · exact h.parent_mem e he
  · intro e he
    rcases mem_insert.mp he with rfl | he
    · rw [hm _ (mem_union_left _ hself_p)]
      exact mem_union_right _ hself_c
    · exact h.isChunking.subset_merge hp hc _ (h.child_mem e he)
  · intro e he v hv
    rcases mem_insert.mp he with rfl | he
    · rw [hl] at hv
      rw [hm _ (mem_union_left _ hself_p)]
      exact mem_union_left _ hv
    · rcases (mem_linkTop h hd hp hc hne he v).mp hv with hv | ⟨ht,hv⟩ | ⟨hct,hv⟩
      · exact h.isChunking.subset_merge hp hc _ (h.top_subset e he hv)
      · rw [hm _ (mem_union_left _ (h.parent_mem_of_top he hp ht))]
        exact mem_union_right _ hv
      · rw [hm _ (mem_union_right _ (h.parent_mem_of_top he hc hct))]
        exact mem_union_left _ hv
  · intro e he
    rcases mem_insert.mp he with rfl | he
    · rwa [hl]
    · exact (mem_linkTop h hd hp hc hne he _).mpr (.inl (h.parent_top e he))
  · intro e he hme
    rcases mem_insert.mp he with rfl | he
    · rw [hl] at hme
      exact hdi hme hself_c
    · rcases (mem_linkTop h hd hp hc hne he _).mp hme with hme | ⟨ht,hme⟩ | ⟨hct,hme⟩
      · exact h.child_top e he hme
      · have hpe := h.parent_mem_of_top he hp ht
        exact hdi ((h.parent_mem_iff he hp).mp hpe) hme
      · have hpe := h.parent_mem_of_top he hc hct
        exact hdi hme ((h.parent_mem_iff he hc).mp hpe)
  · exact fun e he e' he' hee' => h.link_across hd hp hc hne he he' hee'
  · intro φ hφ v hv w hw
    have hco := h.connected φ fun e he => hφ e (mem_insert_of_mem he)
    have hli := hφ d (mem_insert_self d ac)
    by_cases hme : v ∈ chunk (parent d)∪chunk (child d)
    · have ha : ∀ u ∈ chunk (parent d)∪chunk (child d), φ u = φ (parent d) := by
        intro u hu
        rcases mem_union.mp hu with hu | hu
        · exact hco _ hp u hu
        · rw [hco _ hc u hu,hli]
      rw [hm v hme] at hw
      rw [ha w hw,ha v hme]
    · rw [merge_of_notMem hme] at hw
      exact hco v hv w hw

end

section

variable {C T : Finset V} {v : V}

theorem cut_of_mem_top (hv : v ∈ T) : cutChunk T (C \ T) chunk v = T := if_pos hv

theorem cut_of_mem_bottom (hv : v ∈ C \ T) : cutChunk T (C \ T) chunk v = C \ T :=
  (if_neg (mem_sdiff.mp hv).2).trans (if_pos hv)

theorem cutChunk_of_notMem (hs : T ⊆ C) (hv : v ∉ C) : cutChunk T (C \ T) chunk v = chunk v :=
  (if_neg fun hT => hv (hs hT)).trans (if_neg fun hB => hv (mem_sdiff.mp hB).1)

variable (h : IsForest s parent child ac top chunk) (hd : d ∈ ac)
include h hd

section
variable (he : e ∈ ac)
include he

theorem IsForest.bottom_mem_iff (hed : e ≠ d) :
    parent e ∈ chunk (parent d) \ top d ↔ child e ∈ chunk (parent d) \ top d := by
  rw [mem_sdiff,mem_sdiff,h.parent_mem_iff he (h.parent_mem d hd),h.across d hd e he hed]

variable {w : V}

/-- Of a part that only `d` leaves, and only at `a`, the top of another edge has all or nothing. -/
theorem IsForest.uniform {B : Finset V} {a : V} (hpe : parent e ∉ B) (hed : e ≠ d)
    (hB : ∀ f ∈ ac, f ≠ d → (parent f ∈ B ↔ child f ∈ B)) (hp : parent d ∈ B → parent d = a)
    (hc : child d ∈ B → child d = a) (hw : w ∈ B) (hwC : w ∈ chunk (parent d)) :
    w ∈ top e ↔ a ∈ top e := by
  let φ : V → ℤ := fun u => if u ∈ B ∧ ¬(u ∈ top e ↔ a ∈ top e) then 1 else 0
  have hz : ∀ u, (u ∈ B → u = a) → φ u = 0 := fun u hu =>
    if_neg fun ha => ha.2 (by rw [hu ha.1])
  have hφ : ∀ f ∈ ac, φ (parent f) = φ (child f) := by
    intro f hf
    by_cases hfd : f = d
    · rw [hfd,hz _ hp,hz _ hc]
    · by_cases hfe : f = e
      · have hce := mt (hB e he hed).mpr hpe
        rw [hfe,hz _ fun hm => absurd hm hpe,hz _ fun hm => absurd hm hce]
      · simp only [φ,hB f hf hfd,h.across e he f hf hfe]
  have hco := h.connected φ hφ _ (h.parent_mem d hd) w hwC
  rw [hz _ hp] at hco
  by_contra hne
  exact one_ne_zero ((if_pos ⟨hw,hne⟩).symm.trans hco)

/-- The top of an edge above `d` has all or nothing of the part below. -/
theorem IsForest.bottom_uniform (hed : e ≠ d) (hpe : parent e ∈ top d)
    (hw : w ∈ chunk (parent d) \ top d) : w ∈ top e ↔ child d ∈ top e :=
  h.uniform hd he (fun hm => (mem_sdiff.mp hm).2 hpe) hed (fun _ hf hfd =>
    h.bottom_mem_iff hd hf hfd)
    (fun hm => absurd (h.parent_top d hd) (mem_sdiff.mp hm).2) (fun _ => rfl) hw
    (mem_sdiff.mp hw).1

/-- The top of another edge has all or nothing of the part above `d`. -/
theorem IsForest.top_uniform (hed : e ≠ d) (hpe : parent e ∉ top d) (hw : w ∈ top d) : w ∈ top e ↔
    parent d ∈ top e :=
  h.uniform hd he hpe hed (fun f hf => h.across d hd f hf) (fun _ => rfl)
    (fun hm => absurd hm (h.child_top d hd)) hw (h.top_subset d hd hw)

/-- A cut top is what the top has of its edge's new chunk. -/
theorem mem_cutTop (hed : e ≠ d) (v : V) : v ∈ cutTop parent child d (top d)
    (chunk (parent d) \ top d) top e ↔
      v ∈ top e ∧ v ∈ cutChunk (top d) (chunk (parent d) \ top d) chunk (parent e) := by
  have hh : v ∈ top e → parent e ∈ chunk (parent d) → v ∈ chunk (parent d) := by
    intro hv hpe
    rw [← h.isChunking.eq_of_mem _ (h.parent_mem d hd) _ hpe]
    exact h.top_subset e he hv
  rw [cutTop,cutChunk]
  split_ifs with hT hpt hB ht
  · have hn := fun hv => hh hv (h.top_subset d hd hT)
    rw [mem_sdiff,mem_sdiff]
    tauto
  · refine (and_iff_left_of_imp fun hv => ?_).symm
    have hn := hh hv (h.top_subset d hd hT)
    by_contra hvT
    have ht := (h.bottom_uniform hd he hed hT (mem_sdiff.mpr ⟨hn,hvT⟩)).mp hv
    exact hpt ((h.across e he d hd hed.symm).mpr ht)
  · have hn := fun hv => hh hv (mem_sdiff.mp hB).1
    rw [mem_sdiff,mem_sdiff]
    tauto
  · refine (and_iff_left_of_imp fun hv => ?_).symm
    have hn := hh hv (mem_sdiff.mp hB).1
    refine mem_sdiff.mpr ⟨hn,fun hvT => ht ?_⟩
    exact (h.across e he d hd hed.symm).mp ((h.top_uniform hd he hed hT hvT).mp hv)
  · exact (and_iff_left_of_imp fun hv => h.top_subset e he hv).symm

end

theorem IsForest.isChunking_cut :
    IsChunking s (cutChunk (top d) (chunk (parent d) \ top d) chunk) := by
  have hs := h.parent_mem d hd
  have ht := h.top_subset d hd
  refine ⟨fun v hv => ?_,fun v hv => ?_,fun v hv w hw => ?_⟩
  · rw [cutChunk]
    split_ifs with hT hB
    · exact hT
    · exact hB
    · exact h.isChunking.self v hv
  · rw [cutChunk]
    split_ifs with hT hB
    · exact ht.trans (h.isChunking.subset _ hs)
    · exact sdiff_subset.trans (h.isChunking.subset _ hs)
    · exact h.isChunking.subset v hv
  · by_cases hT : v ∈ top d
    · rw [cut_of_mem_top hT] at hw ⊢
      exact cut_of_mem_top hw
    by_cases hC : v ∈ chunk (parent d)
    · have hB := mem_sdiff.mpr ⟨hC,hT⟩
      rw [cut_of_mem_bottom hB] at hw ⊢
      exact cut_of_mem_bottom hw
    · rw [cutChunk_of_notMem ht hC] at hw ⊢
      rw [cutChunk_of_notMem ht (h.isChunking.notMem_of_mem hv hs hC hw)]
      exact h.isChunking.eq_of_mem v hv w hw

theorem IsForest.merge_cutChunk : merge (top d) (chunk (parent d) \ top d)
    (cutChunk (top d) (chunk (parent d) \ top d) chunk) = chunk := by
  have hu := union_sdiff_of_subset (h.top_subset d hd)
  funext v
  rw [merge,hu,cutChunk]
  split_ifs with hC hT hB
  · exact (h.isChunking.eq_of_mem _ (h.parent_mem d hd) v hC).symm
  · exact absurd (h.top_subset d hd hT) hC
  · exact absurd (mem_sdiff.mp hB).1 hC
  · rfl

theorem IsForest.child_bottom : child d ∈ chunk (parent d) \ top d :=
    mem_sdiff.mpr ⟨h.child_mem d hd,h.child_top d hd⟩

theorem IsForest.cutChunk_subset (v : V) :
    cutChunk (top d) (chunk (parent d) \ top d) chunk v ⊆ chunk v := by
  have hps := h.parent_mem d hd
  have hcs := h.isChunking.subset _ hps (h.child_mem d hd)
  have hs := (h.isChunking_cut hd).subset_merge hps hcs v
  rwa [cut_of_mem_top (h.parent_top d hd),cut_of_mem_bottom (h.child_bottom hd),
    h.merge_cutChunk hd] at hs

theorem IsForest.cut_child_mem (he : e ∈ ac) (hed : e ≠ d) :
    child e ∈ cutChunk (top d) (chunk (parent d) \ top d) chunk (parent e) := by
  rw [cutChunk]
  split_ifs with hT hB
  · exact (h.across d hd e he hed).mp hT
  · exact (h.bottom_mem_iff hd he hed).mp hB
  · exact h.child_mem e he

variable [DecidableEq E]

theorem IsForest.cut : IsForest s parent child (ac.erase d)
    (cutTop parent child d (top d) (chunk (parent d) \ top d) top)
    (cutChunk (top d) (chunk (parent d) \ top d) chunk) := by
  have hh := h.isChunking_cut hd
  have ha : ∀ e ∈ ac.erase d, e ∈ ac ∧ e ≠ d := fun e he =>
    (mem_erase.mp he).symm
  refine ⟨hh,?_,?_,?_,?_,?_,?_,?_⟩
  · exact fun e he => h.parent_mem e (ha e he).1
  · exact fun e he => h.cut_child_mem hd (ha e he).1 (ha e he).2
  · intro e he v hv
    obtain ⟨he,hed⟩ := ha e he
    exact ((mem_cutTop h hd he hed v).mp hv).2
  · intro e he
    obtain ⟨he,hed⟩ := ha e he
    exact (mem_cutTop h hd he hed _).mpr ⟨h.parent_top e he,hh.self _ (h.parent_mem e he)⟩
  · intro e he hm
    obtain ⟨he,hed⟩ := ha e he
    exact h.child_top e he ((mem_cutTop h hd he hed _).mp hm).1
  · intro e he f hf hfe
    obtain ⟨he,hed⟩ := ha e he
    obtain ⟨hf,hfd⟩ := ha f hf
    have hpf := h.parent_mem f hf
    have hcf := h.isChunking.subset _ hpf (h.child_mem f hf)
    rw [mem_cutTop h hd he hed,mem_cutTop h hd he hed,h.across e he f hf hfe,
      hh.mem_iff (h.parent_mem e he) hpf,hh.mem_iff (h.parent_mem e he) hcf,
      hh.eq_of_mem _ hpf _ (h.cut_child_mem hd hf hfd)]
  · -- Shift the function on the part below so that it does not change along `d` either.
    intro φ hφ v hv w hw
    let ψ : V → ℤ := fun u =>
      if u ∈ chunk (parent d) \ top d then φ u+(φ (parent d)-φ (child d)) else φ u
    have hψ : ∀ e ∈ ac, ψ (parent e) = ψ (child e) := by
      intro e he
      by_cases hed : e = d
      · subst hed
        have hpB : parent e ∉ chunk (parent e) \ top e := fun hm =>
          (mem_sdiff.mp hm).2 (h.parent_top e he)
        simp only [ψ,if_pos (h.child_bottom he),if_neg hpB]
        ring
      · simp only [ψ,h.bottom_mem_iff hd he hed,hφ e (mem_erase.mpr ⟨hed,he⟩)]
    have hcs := h.isChunking.subset _ (h.parent_mem d hd) (h.child_mem d hd)
    have hb : cutChunk (top d) (chunk (parent d) \ top d) chunk (child d) =
        chunk (parent d) \ top d := cut_of_mem_bottom (h.child_bottom hd)
    have hs : w ∈ chunk (parent d) \ top d ↔ v ∈ chunk (parent d) \ top d := by
      rw [← hb,hh.mem_iff hcs (hh.subset v hv hw),hh.mem_iff hcs hv,hh.eq_of_mem v hv w hw]
    have hq := h.connected ψ hψ v hv w (h.cutChunk_subset hd v hw)
    simp only [ψ,hs] at hq
    split_ifs at hq with hB
    · exact add_right_cancel hq
    · exact hq

end

variable {K : Type*} [Field K] [LinearOrder K] [IsStrictOrderedRing K] {fee size : V → K} {l : K}
variable (h : IsForest s parent child ac top chunk)
include h

variable {v : V} {S : Finset V}

/-- What a top has of a chunk weighs nothing at the chunk's feerate, unless it is better. -/
theorem IsForest.weight_top_nonpos (hpo : ∀ v ∈ s, 0 < size v)
    (ho : ∀ e ∈ ac, rate fee size (top e) ≤ rate fee size (chunk (parent e))) (hv : v ∈ s)
    (he : e ∈ ac) :
    weight fee size (rate fee size (chunk v)) (chunk v∩top e) ≤ 0 := by
  by_cases hm : parent e ∈ chunk v
  · have hq := h.isChunking.eq_of_mem v hv _ hm
    have hs := h.top_subset e he
    rw [hq] at hs
    rw [inter_eq_right.mpr hs]
    refine weight_nonpos (sum_pos (fun w hw => hpo w ?_) ⟨_,h.parent_top e he⟩) (hq ▸ ho e he)
    exact h.isChunking.subset v hv (hs hw)
  · have hem : chunk v∩top e = ∅ := by
      rw [← disjoint_iff_inter_eq_empty,disjoint_left]
      intro w hwv hwe
      apply hm
      rw [← h.isChunking.eq_of_mem v hv w hwv]
      exact h.parent_mem_of_top he (h.isChunking.subset v hv hwv) hwe
    rw [hem,weight,sum_empty]

variable [DecidableEq E]

/-- Along a tree, a function changes by what it changes along the edges that are crossed. -/
theorem IsForest.telescope (φ : V → ℤ) {w : V} (hv : v ∈ s) (hw : w ∈ chunk v) :
    φ w - ∑ e ∈ ac, (if w ∈ top e then φ (parent e)-φ (child e) else 0) =
      φ v - ∑ e ∈ ac, if v ∈ top e then φ (parent e)-φ (child e) else 0 := by
  let ψ : V → ℤ := fun u =>
    φ u - ∑ e ∈ ac, if u ∈ top e then φ (parent e)-φ (child e) else 0
  refine h.connected ψ (fun d hd => ?_) v hv w hw
  have hdi : ∀ e ∈ ac, (if parent d ∈ top e then φ (parent e)-φ (child e) else 0) =
      (if child d ∈ top e then φ (parent e)-φ (child e) else 0) +
        if e = d then φ (parent e)-φ (child e) else 0 := by
    intro e he
    by_cases hed : e = d
    · subst hed
      rw [if_pos (h.parent_top e he),if_neg (h.child_top e he),if_pos rfl,zero_add]
    · simp only [h.across e he d hd (Ne.symm hed),if_neg hed,add_zero]
  simp only [ψ]
  rw [sum_congr rfl hdi,sum_add_distrib,sum_ite_eq' ac d,if_pos hd]
  ring

variable (hpo : ∀ v ∈ s, 0 < size v)
    (ho : ∀ e ∈ ac, rate fee size (top e) ≤ rate fee size (chunk (parent e)))
include hpo ho

/-- If no top is better than its chunk, neither is any part that has the parents of its elements. -/
theorem IsForest.weight_inter_nonpos (hS : ∀ e ∈ ac, child e ∈ S → parent e ∈ S) (hv : v ∈ s) :
    weight fee size (rate fee size (chunk v)) (S∩chunk v) ≤ 0 := by
  let φ : V → ℤ := fun u => if u ∈ S then 1 else 0
  let δ : E → ℤ := fun e => φ (parent e)-φ (child e)
  let κ : ℤ := φ v - ∑ e ∈ ac, if v ∈ top e then δ e else 0
  let ω : V → K := fun u => fee u-rate fee size (chunk v)*size u
  have hδ : ∀ e ∈ ac, 0 ≤ δ e := by
    intro e he
    by_cases hc : child e ∈ S
    · simp [δ,φ,hc,hS e he hc]
    · by_cases hp : parent e ∈ S <;> simp [δ,φ,hc,hp]
  have hφ : ∀ w ∈ chunk v, φ w = κ+∑ e ∈ ac, if w ∈ top e then δ e else 0 := by
    intro w hw
    have ht := h.telescope φ hv hw
    exact sub_eq_iff_eq_add.mp ht
  have hz : ∑ w ∈ chunk v, ω w = 0 := by
    have hs := h.isChunking.sum_size_pos hpo hv
    have hwe : ∑ w ∈ chunk v, ω w = ∑ w ∈ chunk v, fee w-_ := weight_eq _ _
    rwa [rate,div_mul_cancel₀ _ hs.ne',sub_self] at hwe
  have hu : weight fee size (rate fee size (chunk v)) (S∩chunk v) =
      ∑ e ∈ ac, δ e*weight fee size (rate fee size (chunk v)) (chunk v∩top e) := by
    calc weight fee size (rate fee size (chunk v)) (S∩chunk v) = ∑ w ∈ chunk v, (φ w : K)*ω w := by
          rw [weight,inter_comm,← filter_mem_eq_inter,sum_filter]
          refine sum_congr rfl fun w _ => ?_
          by_cases hw : w ∈ S <;> simp [φ,ω]
      _ = ∑ w ∈ chunk v, ((κ : K)*ω w+∑ e ∈ ac, δ e*if w ∈ top e then ω w else 0) := by
          refine sum_congr rfl fun w hw => ?_
          rw [hφ w hw,Int.cast_add,add_mul,Int.cast_sum,sum_mul]
          congr 1
          refine sum_congr rfl fun e _ => ?_
          by_cases hm : w ∈ top e <;> simp [hm]
      _ = ∑ e ∈ ac, δ e*weight fee size (rate fee size (chunk v)) (chunk v∩top e) := by
          rw [sum_add_distrib,← mul_sum,hz,mul_zero,zero_add,sum_comm]
          refine sum_congr rfl fun e _ => ?_
          rw [← mul_sum,← sum_filter,filter_mem_eq_inter,weight]
  rw [hu]
  refine sum_nonpos fun e he => ?_
  exact mul_nonpos_of_nonneg_of_nonpos (Int.cast_nonneg (hδ e he))
    (h.weight_top_nonpos hpo ho hv he)

/-- Then the excess is the greatest possible: no set with the parents of its elements weighs more.
-/
theorem IsForest.weight_le_excess (hs : S ⊆ s) (hS : ∀ e ∈ ac, child e ∈ S → parent e ∈ S) :
    weight fee size l S ≤ excess fee size s l chunk := by
  refine h.isChunking.weight_le_of_inter hs fun v hv => ?_
  have hsi := h.isChunking.sum_size_pos hpo hv
  have hn := h.weight_inter_nonpos hpo ho hS hv
  have ha : ∑ w ∈ S∩chunk v, size w ≤ ∑ w ∈ chunk v, size w :=
    sum_le_sum_of_subset_of_nonneg inter_subset_right fun w hw _ =>
      (hpo w (h.isChunking.subset v hv hw)).le
  have hpart_nonneg : 0 ≤ ∑ w ∈ S∩chunk v, size w := sum_nonneg fun w hw =>
    (hpo w (hs (mem_of_mem_inter_left hw))).le
  have hr : rate fee size (chunk v)*∑ w ∈ chunk v, size w = ∑ w ∈ chunk v,
    fee w := div_mul_cancel₀ _ hsi.ne'
  rw [weight_eq] at hn
  rw [weight_eq,weight_eq]
  rcases le_total l (rate fee size (chunk v)) with hl | hl
  · have hm := mul_le_mul_of_nonneg_left ha (sub_nonneg.mpr hl)
    refine le_max_of_le_left ?_
    linarith
  · have hm := mul_le_mul_of_nonneg_right hl hpart_nonneg
    refine le_max_of_le_right ?_
    linarith

end DripCore.Chunking
