import DripCore.MempoolResurrection

/-!
# What a reorganization removes at its end

`removeForReorg` computes lock points again where their block has left the chain, and removes
entries that are not final or spend immature coins. It finds every coin and every block it looks up.
-/
namespace DripCore
open CBlockIndex CTxMemPool ExceptRules List Option

section
variable {tip : CBlockIndex} {view : COutPoint → Option Coin}
variable {p : List ℤ} {tx : CTransaction}

/-- The loop finds the blocks that it asks for, and it keeps heights or clears them. -/
theorem locksLoop_total {block : CBlockIndex} {vin : List CTxIn}
    (hl : p.length = vin.length) (hhe : ∀ n ∈ p, n ≤ block.nHeight)
    (nmh nmt : ℤ) : ∃ lp heights,
    sequenceLocksLoop block vin p nmh nmt = some (lp,heights) ∧ ∀ n ∈ heights, n = 0 ∨ n ∈ p := by
  induction vin generalizing p nmh nmt with
  | nil => exact ⟨_,_,rfl,fun n => nofun⟩
  | cons t vin ih =>
    cases p with
    | nil => exact absurd hl (by simp)
    | cons height p =>
      have hr := ih (Nat.succ.inj hl) fun n hn => hhe n (mem_cons_of_mem _ hn)
      have hc {n m : ℤ} {heights : List ℤ} (hm : m = 0 ∨ m = height)
        (h : ∀ n ∈ heights, n = 0 ∨ n ∈ p) (hn : n ∈ m::heights) :
          n = 0 ∨ n ∈ height::p := by
        rcases mem_cons.mp hn with rfl | hn
        · exact hm.imp_right fun he : n = height => he ▸ mem_cons_self
        · exact (h n hn).imp_right (mem_cons_of_mem _)
      rw [sequenceLocksLoop]
      split_ifs
      · obtain ⟨lp,heights,ho,hme⟩ := hr nmh nmt
        exact ⟨lp,0::heights,by rw [ho]; rfl,fun n => hc (.inl rfl) hme⟩
      · have hh := hhe height mem_cons_self
        obtain ⟨ancestor,ha,_⟩ := block.ancestor_of_le (show 0 ≤ max (height-1) 0 by omega)
          (by omega)
        rw [ha]
        dsimp only [map_some,bind_eq_bind,bind_some]
        obtain ⟨lp,heights,ho,hme⟩ := hr nmh _
        exact ⟨lp,height::heights,by rw [ho]; rfl,fun n => hc (.inr rfl) hme⟩
      · dsimp only
        obtain ⟨lp,heights,ho,hme⟩ := hr _ nmt
        exact ⟨lp,height::heights,by rw [ho]; rfl,fun n => hc (.inr rfl) hme⟩

theorem sequenceLocks_total (f : BitVec 32) (block : CBlockIndex)
    (hl : p.length = tx.vin.length) (hhe : ∀ n ∈ p, n ≤ block.nHeight) :
    ∃ lp heights,
    calculateSequenceLocks tx f p block = some (lp,heights) ∧ ∀ n ∈ heights, n = 0 ∨ n ∈ p := by
  rw [calculateSequenceLocks,if_neg (not_not.mpr hl)]
  dsimp only
  split_ifs
  · exact ⟨_,_,rfl,fun n => .inr⟩
  · exact locksLoop_total hl hhe _ _

theorem mapM_option {α β : Type} {f : α → Option β} {l : List α} {l' : List β}
    (h : l.mapM f = some l') : l'.length = l.length ∧ ∀ b ∈ l', ∃ a ∈ l, f a = some b := by
  induction l generalizing l' with
  | nil =>
    obtain rfl := some.inj h
    exact ⟨rfl,fun b => nofun⟩
  | cons a l ih =>
    rw [mapM_cons] at h
    obtain ⟨b,hb,h⟩ := bind_eq_some_iff.mp h
    obtain ⟨bs,hs,h⟩ := bind_eq_some_iff.mp h
    obtain rfl := some.inj h
    obtain ⟨hl,hm⟩ := ih hs
    refine ⟨congrArg Nat.succ hl,fun c hc => ?_⟩
    rcases mem_cons.mp hc with rfl | hc
    · exact ⟨a,mem_cons_self,hb⟩
    · obtain ⟨a',ha',hc⟩ := hm c hc
      exact ⟨a',mem_cons_of_mem _ ha',hc⟩

/-- Heights of inputs in a view are those of blocks up to the tip, or of the next block. -/
theorem prevHeights_le (hv : ∀ o coin, view o = some coin → coin.nHeight = mempoolHeight ∨
    coin.nHeight ≤ tip.nHeight)
    {ph : List ℤ} (h : calculatePrevHeights tip view tx = some ph) :
    ph.length = tx.vin.length ∧ ∀ n ∈ ph, 0 ≤ n ∧ n ≤ (tip.nHeight : ℤ)+1 := by
  obtain ⟨hl,hm⟩ := mapM_option h
  refine ⟨hl,fun n hn => ?_⟩
  obtain ⟨t,_,hh⟩ := hm n hn
  obtain ⟨coin,hc,rfl⟩ := map_eq_some_iff.mp hh
  split_ifs with hp
  · omega
  · rcases hv _ coin hc with he | hle
    · exact absurd he hp
    · omega

theorem foldl_max_bounds {l : List ℤ} {b m : ℤ} (hm : 0 ≤ m ∧ m ≤ b) (h : ∀ n ∈ l, 0 ≤ n ∧ n ≤ b) :
    0 ≤ l.foldl max m ∧ l.foldl max m ≤ b := by
  induction l generalizing m with
  | nil => exact hm
  | cons n l ih =>
    have hn := h n mem_cons_self
    exact ih ⟨by omega,by omega⟩ fun k hk => h k (mem_cons_of_mem _ hk)

/-- New lock points depend on a block of the chain. -/
theorem lockPointsAtTip_spec
    (hv : ∀ o coin, view o = some coin → coin.nHeight = mempoolHeight ∨ coin.nHeight ≤ tip.nHeight)
    (tx : CTransaction) : ∃ lp, calculateLockPointsAtTip tip view tx = .ok lp ∧
      ∀ l, lp = some l → testLockPointValidity tip l = true := by
  unfold calculateLockPointsAtTip
  cases hp : calculatePrevHeights tip view tx with
  | none => exact ⟨none,rfl,fun l => nofun⟩
  | some ph =>
    obtain ⟨hl,hhe⟩ := prevHeights_le hv hp
    have he : ((nextTip tip).nHeight : ℤ) = (tip.nHeight : ℤ)+1 := by
      rfl
    obtain ⟨⟨mh,mt⟩,heights,ho,hm⟩ := sequenceLocks_total
      standardLocktimeVerifyFlags (nextTip tip) hl fun n hn => he ▸ (hhe n hn).2
    dsimp only
    rw [ho]
    dsimp only
    -- what is left of the heights is at most that of the tip
    obtain ⟨h,h'⟩ := foldl_max_bounds (l := heights.filter fun n => n ≠ ((nextTip tip).nHeight : ℤ))
      (b := tip.nHeight) (m := 0) ⟨le_rfl,by omega⟩ fun n hn => by
        obtain ⟨hn,hne⟩ := mem_filter.mp hn
        rw [decide_eq_true_eq] at hne
        rcases hm n hn with rfl | hn
        · omega
        · have := hhe n hn
          omega
    obtain ⟨block,hb,hh⟩ := tip.ancestor_of_le h h'
    rw [hb]
    refine ⟨_,rfl,?_⟩
    rintro l ⟨rfl⟩
    rw [testLockPointValidity]
    dsimp only
    rw [hh,hb,beq_self_eq_true]

end

variable {pool : CTxMemPool} {c : COutPoint → Option Coin} {tip : CBlockIndex}

section
variable (hhe : ∀ o coin, c o = some coin → coin.nHeight ≤ tip.nHeight)
include hhe

theorem getCoin_height (o : COutPoint) (coin : Coin) (h : pool.getCoin c o = some coin) :
    coin.nHeight = mempoolHeight ∨ coin.nHeight ≤ tip.nHeight := by
  unfold getCoin at h
  split at h
  · obtain ⟨out,_,rfl⟩ := map_eq_some_iff.mp h
    exact .inl rfl
  · exact .inr (hhe o coin h)

theorem lockPoints_spec (e : CTxMemPoolEntry) : ∃ lp, currentLockPoints pool c tip e = .ok lp ∧
      ∀ l, lp = some l → testLockPointValidity tip l = true := by
  obtain ⟨lp,hp,hv⟩ : ∃ lp, renewLockPoints pool c tip e = .ok lp ∧
      ∀ l, lp = some l → testLockPointValidity tip l = true := by
    by_cases hv : testLockPointValidity tip e.lockPoints = true
    · refine ⟨some e.lockPoints,if_pos hv,?_⟩
      rintro l ⟨rfl⟩
      exact hv
    · rw [renewLockPoints,if_neg hv]
      exact lockPointsAtTip_spec (getCoin_height hhe) e.tx
  rw [currentLockPoints,hp]
  cases lp with
  | none => exact ⟨none,rfl,fun l => nofun⟩
  | some lp =>
    refine ⟨_,rfl,fun l hl => hv l ?_⟩
    split_ifs at hl
    exact hl

end

/-- The coins of inputs that are not in the pool are there, and unspent. -/
theorem spendsImmature_total (hu : ∀ o coin, c o = some coin → coin.isSpent = false)
    {vin : List CTxIn}
    (hv : ∀ t ∈ vin, (c t.prevout).isSome ∨ t.prevout.hash ∈ pool.hashes) :
    ∃ im, spendsImmature pool c tip vin = .ok im := by
  induction vin with
  | nil => exact ⟨false,rfl⟩
  | cons t vin ih =>
    have hr := ih fun i hi => hv i (mem_cons_of_mem _ hi)
    rw [spendsImmature]
    split_ifs with ho
    · exact hr
    · have hc := (hv t mem_cons_self).resolve_right fun hm =>
        ho (contains_iff.mpr hm)
      obtain ⟨coin,hc⟩ := isSome_iff_exists.mp hc
      dsimp only
      rw [hc,getD_some,failIf,hu _ coin hc,if_neg Bool.false_ne_true]
      split_ifs
      · exact ⟨true,rfl⟩
      · exact hr

/-- No lookup fails for an entry, and it stays the same up to its lock points. -/
theorem finalAndMature_spec (hhe : ∀ o coin, c o = some coin → coin.nHeight ≤ tip.nHeight)
    (hu : ∀ o coin, c o = some coin → coin.isSpent = false)
    (hs : pool.Supplied CTransaction.Creates fun o => (c o).isSome)
    {e : CTxMemPoolEntry} (he : e ∈ pool.mapTx) : ∃ remove e',
    filterFinalAndMature pool c tip e = .ok (remove,e') ∧ e'.tx = e.tx ∧
      (remove = false → testLockPointValidity tip e'.lockPoints = true) := by
  have hvi : ∀ t ∈ e.tx.vin, (c t.prevout).isSome ∨ t.prevout.hash ∈ pool.hashes := by
    intro t ht
    rcases hs e he t.prevout (mem_map.mpr ⟨t,ht,rfl⟩) with
      hc | ⟨parent,hp,_,hr⟩
    · exact .inl hc
    · exact .inr (mem_hashes.mpr ⟨parent,hp,hr.hash.symm⟩)
  obtain ⟨i,hm⟩ : ∃ i, immatureCoinbase pool c tip e = .ok i := by
    unfold immatureCoinbase
    split_ifs
    · exact spendsImmature_total hu hvi
    · exact ⟨false,rfl⟩
  by_cases hf : checkFinalTxAtTip tip e.tx = true
  · rw [filterFinalAndMature,if_pos hf]
    obtain ⟨lp,hl,hv⟩ := lockPoints_spec hhe e
    rw [hl]
    cases lp with
    | none => exact ⟨true,e,rfl,rfl,nofun⟩
    | some lp =>
      refine ⟨i,{ e with lockPoints := lp },?_,rfl,fun _ => hv lp rfl⟩
      rw [hm]
      rfl
  · rw [filterFinalAndMature,if_neg hf]
    exact ⟨true,e,rfl,rfl,nofun⟩

end DripCore
