import DripCore.CoinsViewStack

/-!
# Coins caches refine coins maps

Each operation on a layer, on the logical views of the stack. Reads and `Uncache` change no view,
`AddCoin` and `SpendCoin` change one outpoint, `Sync` and `Flush` make the view below equal to that
of the layer. A run is a sequence of operations on layers, each at an outpoint that no layer above
has cached if it changes a coin.
-/
namespace DripCore.CoinsView
open Bool CCoinsViewCache CacheValue ExceptRules Finmap Function List Nat Option

variable {c c' : CCoinsViewCache} {base base' V : CoinsView} {o : COutPoint} {v : CacheValue}

/-- Two stacks with the same logical view in every layer. -/
def SameViews (V V' : CoinsView) : Prop := V'.layerView = V.layerView

theorem SameViews.view {V' : CoinsView} (h : SameViews V V') : V'.view = V.view := by
  have h0 := congrFun h 0
  rwa [layerView_zero,layerView_zero] at h0

theorem sameViews_cache (hba : SameViews base base')
    (hv : (cache c' base').view = (cache c base).view) :
    SameViews (cache c base) (cache c' base') := by
  funext i
  cases i with
  | zero => rw [layerView_zero,layerView_zero,hv]
  | succ i => exact congrFun hba i

def answerFor (c : CCoinsViewCache) (base : CoinsView) (o : COutPoint) : Option StoredCoin :=
  match c.value o with
  | some _ => none
  | none => (base.view o).map .copyOf

theorem unspent_answerFor (h : base.Coherent) : Unspent (answerFor c base o) := by
  intro s hs
  unfold answerFor at hs
  cases hv : c.value o with
  | some v => simp [hv] at hs
  | none =>
    rw [hv] at hs
    obtain ⟨coin,hc,rfl⟩ := map_eq_some_iff.mp hs
    exact h.isSpent_view hc

theorem fetched_view (h : base.Coherent) :
    entryView (c.fetched o (answerFor c base o)) (base.view o) = (cache c base).view o ∧
      entryView (c.fetched o (answerFor c base o)) none = (cache c base).view o := by
  rw [fetched,answerFor,view]
  cases hv : c.value o with
  | some v => exact ⟨rfl,rfl⟩
  | none =>
    cases hb : base.view o with
    | none => exact ⟨rfl,rfl⟩
    | some coin =>
      have hc := unspent_of_not (h.isSpent_view hb)
      exact ⟨hc,hc⟩

/-- A fetched entry was there or is a clean copy of the coin below. -/
theorem fetched_eq_some (h : c.fetched o (answerFor c base o) = some v) :
    c.value o = some v ∨ c.value o = none ∧ ∃ coin, base.view o = some coin ∧
      v = ⟨.copyOf coin,false,false⟩ := by
  rw [fetched,answerFor] at h
  cases hv : c.value o with
  | some u =>
    rw [hv] at h
    exact .inl h
  | none =>
    rw [hv] at h
    obtain ⟨s,hs,rfl⟩ := map_eq_some_iff.mp h
    obtain ⟨coin,hc,rfl⟩ := map_eq_some_iff.mp hs
    exact .inr ⟨rfl,coin,hc,rfl⟩

theorem fetched_entry (h : (cache c base).Coherent)
    (hv : c.fetched o (answerFor c base o) = some v) :
    (v.dirty = false → base.view o = some v.coin) ∧ (v.fresh = true → base.view o = none) := by
  rcases fetched_eq_some hv with ha | ⟨-,coin,hc,rfl⟩
  · exact h.2.2 o v ha
  · exact ⟨fun _ => hc,fun hf => absurd hf false_ne_true⟩

theorem fetch_layer (h : (cache c base).Coherent) (hba : base'.Coherent)
    (hs : SameViews base base') :
    ∃ c', c.fetchCoin o (answerFor c base o) = .ok (c',c.fetched o (answerFor c base o)) ∧
      (cache c' base').Coherent ∧ SameViews (cache c base) (cache c' base') := by
  obtain ⟨xs,hr⟩ := h.2.1
  obtain ⟨c',hf,hr',hv,-⟩ := fetchCoin_spec (o := o) hr (unspent_answerFor h.1)
  refine ⟨c',hf,h.update hba hs.view ⟨xs,hr'⟩ hv (fun _ => fetched_entry h),sameViews_cache hs ?_⟩
  rw [view_update hs.view hv,(fetched_view h.1).1,update_eq_self]

section
variable {a : Option StoredCoin} (h : c.fetchCoin o a = .ok (c',c.fetched o a))
include h

theorem getCoin_fetch : c.getCoin o a = .ok (c',entryView (c.fetched o a) none) := by
  cases hf : c.fetched o a <;> simp [CCoinsViewCache.getCoin,h,hf,entryView,unspent]

theorem haveCoin_fetch : c.haveCoin o a = .ok (c',(entryView (c.fetched o a) none).isSome) := by
  cases hf : c.fetched o a with
  | none => simp [haveCoin,h,hf,entryView]
  | some v =>
    cases hs : v.coin.isSpent <;>
      simp [haveCoin,h,hf,entryView,unspent,hs]

theorem accessCoin_fetch : ∃ coin, c.accessCoin o a = .ok (c',coin) ∧
      unspent coin = entryView (c.fetched o a) none := by
  cases hf : c.fetched o a with
  | none => exact ⟨Coin.empty,by simp [accessCoin,h,hf],rfl⟩
  | some v => exact ⟨v.coin,by simp [accessCoin,h,hf],rfl⟩

end

theorem getCoin_spec (h : V.Coherent) (o : COutPoint) :
    ∃ V', V.getCoin o = .ok (V',V.view o) ∧ V'.Coherent ∧ SameViews V V' := by
  induction V with
  | coinsMap hashBlock coins => exact ⟨_,rfl,h,rfl⟩
  | cache c base ih =>
    have hr {base' : CoinsView} (hba : base'.Coherent) (hs : SameViews base base') :
        ∃ c', c.getCoin o (answerFor c base o) = .ok (c',(cache c base).view o) ∧
          (cache c' base').Coherent ∧ SameViews (cache c base) (cache c' base') := by
      obtain ⟨c',hf,hc,hv⟩ := fetch_layer (o := o) h hba hs
      exact ⟨c',by rw [getCoin_fetch hf,(fetched_view h.1).2],hc,hv⟩
    cases hl : c.cacheCoins.lookup o with
    | some e =>
      have ha : answerFor c base o = none := by rw [answerFor,value_of_lookup hl]
      obtain ⟨c',hg,hc,hv⟩ := hr h.1 rfl
      rw [ha] at hg
      exact ⟨cache c' base,by simp [getCoin,hl,hg],hc,hv⟩
    | none =>
      have ha : answerFor c base o = (base.view o).map .copyOf := by
        rw [answerFor,value_eq_none_iff.mpr hl]
      obtain ⟨base',hba,hc',hs⟩ := ih h.1
      obtain ⟨c',hg,hc,hv⟩ := hr hc' hs
      rw [ha] at hg
      exact ⟨cache c' base',by simp [getCoin,hl,hba,hg],hc,hv⟩

theorem ask_spec (h : (cache c base).Coherent) (o : COutPoint) :
    ∃ base', ask c base o = .ok (base',answerFor c base o) ∧ base'.Coherent ∧
      SameViews base base' := by
  cases hl : c.cacheCoins.lookup o with
  | some e =>
    have ha : answerFor c base o = none := by rw [answerFor,value_of_lookup hl]
    exact ⟨base,by simp [ask,hl,ha],h.1,rfl⟩
  | none =>
    have ha : answerFor c base o = (base.view o).map .copyOf := by
      rw [answerFor,value_eq_none_iff.mpr hl]
    obtain ⟨base',hba,hc,hs⟩ := getCoin_spec h.1 o
    exact ⟨base',by simp [ask,hl,ha,hba],hc,hs⟩

/-- A receiver of batches takes in a dirty entry, and a fresh one only where its view has nothing.
-/
def Absorbs {σ : Type} (visit : Visitor σ) (W : σ → CoinsView) : Prop :=
  ∀ s k v willErase, (W s).Coherent → Good v → v.dirty = true →
    (v.fresh = true → (W s).view k = none) → (v.coin.isSpent = true → willErase = true) →
    ∃ s' moved, visit s k v willErase = .ok (s',moved) ∧ (W s').Coherent ∧
      (W s').view = update (W s).view k (unspent v.coin) ∧
      ∀ i, (W s').layerView (i+1) = (W s).layerView (i+1)

theorem writeCoin_spec (coins : Finmap fun _ : COutPoint => Coin) (k : COutPoint)
    (hd : v.dirty = true) (we : Bool) :
    ∃ coins', writeCoin coins k v we = .ok (coins',false) ∧
      (fun j => coins'.lookup j) = update (fun j => coins.lookup j) k (unspent v.coin) := by
  cases hs : v.coin.isSpent with
  | true =>
    refine ⟨coins.erase k,by simp [writeCoin,hd,hs],?_⟩
    funext j
    rw [update_apply,unspent_of_isSpent hs]
    split_ifs with hj
    · rw [hj,lookup_erase]
    · rw [lookup_erase_ne hj]
  | false =>
    refine ⟨coins.insert k v.coin,by simp [writeCoin,hd,hs],?_⟩
    funext j
    rw [update_apply,unspent_of_not hs]
    split_ifs with hj
    · rw [hj,lookup_insert]
    · rw [lookup_insert_of_ne _ hj]

theorem absorbs_writeCoin (hashBlock : BitVec 256) : Absorbs writeCoin (coinsMap hashBlock) := by
  intro coins k v we hc _ hd _ _
  obtain ⟨coins',hw,hl⟩ := writeCoin_spec coins k hd we
  refine ⟨coins',false,hw,fun j coin hj => ?_,hl,fun i => rfl⟩
  have hj' := congrFun hl j
  rw [update_apply,hj] at hj'
  split_ifs at hj'
  · unfold unspent at hj'
    split_ifs at hj' with hs
    rw [some.inj hj']
    exact eq_false_of_not_eq_true hs
  · exact hc j coin hj'.symm

/-- The value a coherent cache gets from its child, without an error. -/
theorem writtenValue_coherent {k : COutPoint} (we : Bool) (h : (cache c base).Coherent)
    (hdi : v.dirty = true) (hr : v.fresh = true → (cache c base).view k = none) :
    ∃ w m, writtenValue (c.value k) v we = .ok (w,m) ∧ entryView w (base.view k) = unspent v.coin ∧
      ∀ u, w = some u → (u.dirty = false → base.view k = some u.coin) ∧
        (u.fresh = true → base.view k = none) := by
  rw [view] at hr
  cases hv : c.value k with
  | none =>
    simp only [hv,entryView] at hr
    cases hfs : v.fresh && v.coin.isSpent with
    | true =>
      rw [and_eq_true] at hfs
      refine ⟨none,false,by simp [writtenValue,hfs],?_,by simp⟩
      rw [entryView,hr hfs.1,unspent_of_isSpent hfs.2]
    | false =>
      refine ⟨_,we,by simp only [writtenValue,hdi,hfs]; rfl,?_,?_⟩
      · rw [entryView,StoredCoin.assign_coin]
      · rintro u ⟨⟩
        exact ⟨fun hd => absurd hd (by simp),hr⟩
  | some u =>
    simp only [hv,entryView] at hr
    have hb := h.2.2 k u hv
    have hm : (v.fresh && !u.coin.isSpent) = false := by
      cases hf : v.fresh with
      | false => rfl
      | true =>
        cases hs : u.coin.isSpent with
        | true => rfl
        | false => exact absurd (hr hf) (by rw [unspent_of_not hs]; simp)
    cases hfs : u.fresh && v.coin.isSpent with
    | true =>
      rw [and_eq_true] at hfs
      refine ⟨none,false,by simp [writtenValue,hdi,hm,hfs],?_,by simp⟩
      rw [entryView,hb.2 hfs.1,unspent_of_isSpent hfs.2]
    | false =>
      refine ⟨_,we,by simp only [writtenValue,hdi,hm,hfs]; rfl,?_,?_⟩
      · rw [entryView,StoredCoin.assign_coin]
      · rintro w ⟨⟩
        exact ⟨fun hd => absurd hd (by simp),hb.2⟩

theorem absorbs_writeEntry (base : CoinsView) : Absorbs writeEntry (fun c => cache c base) := by
  intro c k v we hc hg hd hf her
  obtain ⟨xs,hr⟩ := hc.2.1
  obtain ⟨w,m,hw,hvi,he⟩ := writtenValue_coherent we hc hd hf
  have hs := writeEntry_spec (o := k) hr hg we her
  simp only [hw] at hs
  obtain ⟨c',xs',hwr,hr',hv,-⟩ := hs
  refine ⟨c',m,hwr,hc.update hc.1 rfl ⟨xs',hr'⟩ hv he,?_,fun i => rfl⟩
  rw [view_update rfl hv,hvi]

def overlay (f : COutPoint → Option Coin) : List (COutPoint × CacheValue) → COutPoint → Option Coin
  | [] => f
  | p::entries => overlay (update f p.1 (unspent p.2.coin)) entries

variable {σ : Type}
variable {W : σ → CoinsView} {s : σ} {vi : Visitor σ}

theorem Absorbs.visitAll (hb : Absorbs vi W) (hc : (W s).Coherent) (we : Bool)
    {entries : List (COutPoint × CacheValue)} (hn : (entries.map Prod.fst).Nodup)
    (hg : ∀ p ∈ entries, Good p.2 ∧ p.2.dirty = true ∧ (p.2.fresh = true → (W s).view p.1 = none)) :
    ∃ s', visitAll vi we s entries = .ok s' ∧ (W s').Coherent ∧
      (W s').view = overlay (W s).view entries ∧
      ∀ i, (W s').layerView (i+1) = (W s).layerView (i+1) := by
  induction entries generalizing s with
  | nil => exact ⟨s,rfl,hc,rfl,fun i => rfl⟩
  | cons p entries ih =>
    obtain ⟨k,v⟩ := p
    obtain ⟨hv,hd,hr⟩ := hg (k,v) mem_cons_self
    rw [map_cons,nodup_cons] at hn
    obtain ⟨s1,m,hvi,hc1,he,hl⟩ :=
      hb s k v (we || v.coin.isSpent) hc hv hd hr (fun hs => by rw [hs,Bool.or_true])
    obtain ⟨s',ha,hc',he',hl'⟩ := ih hc1 hn.2 fun q hq => by
      obtain ⟨hq1,hq2,hq3⟩ := hg q (mem_cons_of_mem _ hq)
      refine ⟨hq1,hq2,fun hf => ?_⟩
      have hne : q.1 ≠ k := by
        rintro rfl
        exact hn.1 (mem_map.mpr ⟨q,hq,rfl⟩)
      rw [he,update_of_ne hne,hq3 hf]
    refine ⟨s',by simp [visitAll,hvi,ha],hc',?_,fun i => (hl' i).trans (hl i)⟩
    rw [he',he,overlay]

variable {xs : List COutPoint}

theorem overlay_items {f : COutPoint → Option Coin} (hn : xs.Nodup)
    (hx : ∀ k ∈ xs, ∃ v, c.value k = some v) (j : COutPoint) :
    overlay f (c.items xs) j = if j ∈ xs then entryView (c.value j) none else f j := by
  induction xs generalizing f with
  | nil => rfl
  | cons k xs ih =>
    rw [nodup_cons] at hn
    obtain ⟨v,hv⟩ := hx k mem_cons_self
    rw [items_cons xs hv,overlay,ih hn.2 fun k hk => hx k (mem_cons_of_mem _ hk)]
    by_cases hj : j = k
    · simp [hj,hv,entryView]
    · simp [hj]

theorem map_fst_items (hx : ∀ k ∈ xs, ∃ v, c.value k = some v) :
    (c.items xs).map Prod.fst = xs := by
  induction xs with
  | nil => rfl
  | cons k xs ih =>
    obtain ⟨v,hv⟩ := hx k mem_cons_self
    rw [items_cons xs hv,map_cons,ih fun k hk => hx k (mem_cons_of_mem _ hk)]

/-- The flagged entries written over the view below give the view of the layer. -/
theorem overlay_flagged (h : (cache c base).Coherent) (hr : Rep c xs) :
    overlay base.view (c.items xs) = (cache c base).view := by
  have hx (k : COutPoint) (hk : k ∈ xs) : ∃ v, c.value k = some v := by
    obtain ⟨v,hv,-⟩ := (hr.wired.mem_iff k).mp hk
    exact ⟨v,hv⟩
  funext j
  rw [overlay_items hr.wired.ring.nodup hx,view]
  split_ifs with hj
  · obtain ⟨v,hv⟩ := hx j hj
    rw [hv]
    rfl
  · cases hv : c.value j with
    | none => rfl
    | some v =>
      have hf : v.flagged = false := by
        cases hf : v.flagged with
        | false => rfl
        | true => exact absurd ((hr.wired.mem_iff j).mpr ⟨v,hv,hf⟩) hj
      rw [flagged,or_eq_false_iff] at hf
      have hb := (h.2.2 j v hv).1 hf.1
      rw [hb,entryView,unspent_of_not (h.1.isSpent_view hb)]

theorem Absorbs.items (ha : Absorbs vi W) (h : (cache c (W s)).Coherent) (hr : Rep c xs)
    (we : Bool) :
    ∃ s', CCoinsViewCache.visitAll vi we s (c.items xs) = .ok s' ∧ (W s').Coherent ∧
      (W s').view = (cache c (W s)).view ∧
      ∀ i, (W s').layerView (i+1) = (W s).layerView (i+1) := by
  have hx (k : COutPoint) (hk : k ∈ xs) : ∃ v, c.value k = some v := by
    obtain ⟨v,hv,-⟩ := (hr.wired.mem_iff k).mp hk
    exact ⟨v,hv⟩
  rw [← overlay_flagged h hr]
  refine ha.visitAll h.1 we (by rw [map_fst_items hx]; exact hr.wired.ring.nodup) ?_
  intro p hp
  obtain ⟨k,hk,hpk⟩ := mem_filterMap.mp hp
  obtain ⟨v,hv,rfl⟩ := map_eq_some_iff.mp hpk
  have hg := hr.good k v hv
  obtain ⟨v',hv',hf⟩ := (hr.wired.mem_iff k).mp hk
  obtain rfl : v' = v := some.inj (hv'.symm.trans hv)
  refine ⟨hg,?_,(h.2.2 k v' hv).2⟩
  rw [flagged,or_eq_true] at hf
  exact hf.elim id hg.dirty

/-- A layer and the view below it after a batch. -/
structure Written (c : CCoinsViewCache) (base : CoinsView) (c' : CCoinsViewCache)
    (base' : CoinsView) : Prop where
  coherent : (cache c' base').Coherent
  same : (cache c' base').view = (cache c base).view
  below : base'.view = (cache c base).view
  lower : ∀ i, base'.layerView (i+1) = base.layerView (i+1)

theorem sync_layer (hab : Absorbs vi W) (h : (cache c (W s)).Coherent) :
    ∃ c' s', c.sync (.visits vi) s = .ok (c',s',true) ∧ Written c (W s) c' (W s') := by
  obtain ⟨xs,hr⟩ := h.2.1
  obtain ⟨s',ha,hc,hvi,hl⟩ := hab.items h hr false
  have hw := cursorRun_spec vi s hr false
  simp only [ha] at hw
  obtain ⟨c',hru,-,hcl⟩ := hw
  obtain ⟨hr',hva⟩ := hcl trivial
  have hn : c'.sentinelNext = none := hr'.sentinelNext_eq
  have he (k : COutPoint) (v : CacheValue) (hv : c'.value k = some v) :
      v.flagged = false ∧ (W s').view k = some v.coin := by
    rw [hva] at hv
    rw [hvi,view]
    split_ifs at hv with hk
    · obtain ⟨u,hu,hsw⟩ := bind_eq_some_iff.mp hv
      cases hs : u.coin.isSpent with
      | true => simp [sweptValue,hs] at hsw
      | false =>
        rw [sweptValue,hs] at hsw
        rw [← some.inj hsw,hu,entryView,unspent_of_not hs]
        exact ⟨rfl,rfl⟩
    · have hf : v.flagged = false := by
        cases hf : v.flagged with
        | false => rfl
        | true => exact absurd ((hr.wired.mem_iff k).mpr ⟨v,hv,hf⟩) hk
      have hun : v.coin.isSpent = false := by
        rcases (hr.good k v hv).cases with hd | hd
        · simp [flagged,hd.1] at hf
        · exact hd.2.2
      rw [hv,entryView,unspent_of_not hun]
      exact ⟨hf,rfl⟩
  refine ⟨c',s',by simp [sync,hru,hn],⟨⟨hc,⟨[],hr'⟩,fun k v hv => ?_⟩,?_,hvi,hl⟩⟩
  · obtain ⟨hf,hb⟩ := he k v hv
    rw [flagged,or_eq_false_iff] at hf
    exact ⟨fun _ => hb,fun hfr => absurd hfr (by simp [hf.2])⟩
  · funext k
    rw [← hvi,view]
    cases hv : c'.value k with
    | none => rfl
    | some v =>
      have hb := (he k v hv).2
      rw [hb,entryView,unspent_of_not (hc.isSpent_view hb)]

theorem flush_of_visitAll {s' : σ} (hr : Rep c xs) (ha : visitAll vi true s (c.items xs) = .ok s') :
    ∃ c', c.flush (.visits vi) s = .ok (c',s',true) ∧ Rep c' [] ∧ ∀ k, c'.value k = none := by
  have hw := cursorRun_spec vi s hr true
  simp only [ha] at hw
  obtain ⟨c1,hu,-⟩ := hw
  exact ⟨{ c1.clear with cachedCoinsUsage := 0 },by simp [flush,hu],
    rep_empty.setBestBlock c1.hashBlock,fun k => rfl⟩

theorem flush_layer (hb : Absorbs vi W) (h : (cache c (W s)).Coherent) :
    ∃ c' s', c.flush (.visits vi) s = .ok (c',s',true) ∧ Written c (W s) c' (W s') := by
  obtain ⟨xs,hr⟩ := h.2.1
  obtain ⟨s',ha,hc,hvi,hl⟩ := hb.items h hr true
  obtain ⟨c',hf,hr',hva⟩ := flush_of_visitAll hr ha
  refine ⟨c',s',hf,⟨⟨hc,⟨[],hr'⟩,fun k v hv => ?_⟩,?_,hvi,hl⟩⟩
  · exact absurd (hv.symm.trans (hva k)) (by simp)
  · funext k
    rw [← hvi,view,hva,entryView]

theorem Written.setBestBlock {p : CCoinsViewCache} {gp : CoinsView} (hashBlock : BitVec 256)
    (h : Written c base c' (cache p gp)) :
    Written c base c' (cache (p.setBestBlock hashBlock) gp) := by
  obtain ⟨xs,hr⟩ := h.coherent.1.2.1
  exact ⟨⟨⟨h.coherent.1.1,⟨xs,hr.setBestBlock hashBlock⟩,h.coherent.1.2.2⟩,h.coherent.2⟩, h.same,
    h.below,h.lower⟩

theorem writeBelow_spec (w : ∀ {σ : Type}, Receiver σ → σ →
    Except CacheError (CCoinsViewCache × σ × Bool))
    (hwr : ∀ {σ : Type} {vi : Visitor σ} {W : σ → CoinsView}, Absorbs vi W → ∀ {s : σ},
      (cache c (W s)).Coherent → ∃ c' s', w (.visits vi) s = .ok (c',s',true) ∧
        Written c (W s) c' (W s'))
    (h : (cache c base).Coherent) (hashBlock : BitVec 256) :
    ∃ base' c', writeBelow w hashBlock base = .ok (base',c',true) ∧ Written c base c' base' := by
  cases base with
  | coinsMap old coins =>
    obtain ⟨c',coins',hr,hw⟩ := hwr (absorbs_writeCoin old) h
    refine ⟨coinsMap hashBlock coins',c',by simp [writeBelow,hr],?_⟩
    exact ⟨hw.coherent,hw.same,hw.below,hw.lower⟩
  | cache p gp =>
    obtain ⟨c',p',hr,hw⟩ := hwr (absorbs_writeEntry gp) h
    exact ⟨cache (p'.setBestBlock hashBlock) gp,c',
      by simp [writeBelow,hr],hw.setBestBlock hashBlock⟩

def entryAt : CoinsView → ℕ → COutPoint → Option CacheValue
  | coinsMap _ _, _, _ => none
  | cache c _, 0, o => c.value o
  | cache _ base, i+1, o => base.entryAt i o

def depth : CoinsView → ℕ
  | coinsMap _ _ => 0
  | cache _ base => base.depth+1

/-- A coin is added without overwriting only where the layer has none, and coins are changed only
where no layer above has an entry. -/
def Allowed (op : LayerOp) (i : ℕ) (V : CoinsView) : Prop := i < V.depth ∧
  match op with
  | .addCoin o s possible_overwrite => s.coin.isSpent = false ∧
      (possible_overwrite = false → V.layerView i o = none) ∧ ∀ j < i, V.entryAt j o = none
  | .spendCoin o => ∀ j < i, V.entryAt j o = none
  | _ => True

/-- One outpoint of a layer, and of the layers that look through to it, has changed. -/
def Changed (i : ℕ) (o : COutPoint) (coin : Option Coin) (V V' : CoinsView) : Prop :=
  ∀ j, V'.layerView j = if j ≤ i then update (V.layerView j) o coin else V.layerView j

/-- What an operation on a layer does to the logical views of the stack and returns. -/
def Meets (op : LayerOp) (i : ℕ) (V V' : CoinsView) (out : Output) : Prop :=
  match op with
  | .addCoin o s _ => out = .unit ∧
      if CScript.isUnspendable s.coin.out.scriptPubKey then SameViews V V'
      else Changed i o (some s.coin) V V'
  | .spendCoin o => (∃ moveout, out = .coin moveout ∧
      moveout.bind unspent = V.layerView i o) ∧ Changed i o none V V'
  | .getCoin o => out = .coin (V.layerView i o) ∧ SameViews V V'
  | .haveCoin o => out = .flag (V.layerView i o).isSome ∧ SameViews V V'
  | .accessCoin o => (∃ coin, out = .access coin ∧ unspent coin = V.layerView i o) ∧ SameViews V V'
  | .haveCoinInCache o => (∃ b, out = .flag b ∧ (b = true ↔
      ∃ v, V.entryAt i o = some v ∧ V.layerView i o = some v.coin)) ∧ SameViews V V'
  | .uncache _ => out = .unit ∧ SameViews V V'
  | .sync => out = .flag true ∧
      ∀ j, V'.layerView j = if j = i+1 then V.layerView i else V.layerView j
  | .flush => out = .flag true ∧
      ∀ j, V'.layerView j = if j = i+1 then V.layerView i else V.layerView j

theorem changed_top {coin : Option Coin} (hs : SameViews base base')
    (hv : (cache c' base').view = update (cache c base).view o coin) :
    Changed 0 o coin (cache c base) (cache c' base') := by
  intro j
  cases j with
  | zero => rw [if_pos le_rfl,layerView_zero,layerView_zero,hv]
  | succ j =>
    exact congrFun hs j

section
variable (h : (cache c base).Coherent)
include h

theorem addCoin_top {s : StoredCoin} {po : Bool} (hs : s.coin.isSpent = false)
    (ho : po = false → (cache c base).view o = none) :
    ∃ c', c.addCoin o s po = .ok c' ∧ (cache c' base).Coherent ∧
      if CScript.isUnspendable s.coin.out.scriptPubKey then SameViews (cache c base) (cache c' base)
      else Changed 0 o (some s.coin) (cache c base) (cache c' base) := by
  cases hsc : CScript.isUnspendable s.coin.out.scriptPubKey with
  | true => exact ⟨c,by simp [addCoin,hs,hsc],h,rfl⟩
  | false =>
    obtain ⟨xs,hr⟩ := h.2.1
    have he (hp : po = false) (v : CacheValue) (hv : c.value o = some v) :
      v.coin.isSpent = true := by
      have hn := ho hp
      rw [view,hv,entryView] at hn
      cases hsp : v.coin.isSpent with
      | true => rfl
      | false => exact absurd hn (by rw [unspent_of_not hsp]; simp)
    obtain ⟨c',xs',ha,hr',hva,-⟩ := addCoin_spec hr hs hsc he
    refine ⟨c',ha,h.update h.1 rfl ⟨xs',hr'⟩ hva ?_,changed_top rfl ?_⟩
    · rintro v ⟨⟩
      refine ⟨fun hd => absurd hd (by simp),fun hfr => ?_⟩
      cases hv : c.value o with
      | none =>
        rw [hv,addedFresh,not_eq_true'] at hfr
        have hn := ho hfr
        rwa [view,hv] at hn
      | some u =>
        rw [hv,addedFresh,or_eq_true,and_eq_true,not_eq_true',not_eq_true'] at hfr
        rcases hfr with hf | ⟨hp,hc⟩
        · exact (h.2.2 o u hv).2 hf
        · rcases (hr.good o u hv).cases with hd | hd
          · exact absurd hd.1 (by simp [hc])
          · exact absurd (he hp u hv) (by simp [hd.2.2])
    · rw [view_update rfl hva,entryView,unspent_of_not hs]

theorem spendCoin_top (hba : base'.Coherent) (hs : SameViews base base') (o : COutPoint) :
    ∃ c' m, c.spendCoin o (answerFor c base o) = .ok (c',m) ∧ (cache c' base').Coherent ∧
      (m.map StoredCoin.coin).bind unspent = (cache c base).view o ∧
      Changed 0 o none (cache c base) (cache c' base') := by
  obtain ⟨xs,hr⟩ := h.2.1
  have hvi := (fetched_view (c := c) (o := o) h.1).2
  cases hf : c.fetched o (answerFor c base o) with
  | none =>
    rw [hf,entryView] at hvi
    refine ⟨c,none,spendCoin_none hf,h.update hba hs.view ⟨xs,hr⟩
      (update_eq_self o c.value).symm (fun v hv => h.2.2 o v hv),hvi,?_⟩
    refine changed_top hs ?_
    rw [hvi,update_eq_self]
    exact (sameViews_cache hs (by
      funext k
      rw [view,view,hs.view])).view
  | some v =>
    obtain ⟨c',xs',hp,hr',ha,-⟩ := spendCoin_some hr (unspent_answerFor h.1) hf
    have hb := fetched_entry h hf
    refine ⟨c',some v.toStoredCoin,hp,h.update hba hs.view ⟨xs',hr'⟩ ha ?_,?_,
      changed_top hs ?_⟩
    · intro w hw
      rw [spentValue] at hw
      split_ifs at hw
      obtain rfl := some.inj hw
      exact ⟨fun hd => absurd hd (by simp),fun hfr => absurd hfr (by simp)⟩
    · rw [← hvi,hf]
      rfl
    · rw [view_update hs.view ha,spentValue]
      split_ifs with he
      · rw [entryView,hb.2 he]
      · rfl

theorem uncache_top (o : COutPoint) : ∃ c', c.uncache o = .ok c' ∧ (cache c' base).Coherent ∧
      SameViews (cache c base) (cache c' base) := by
  obtain ⟨xs,hr⟩ := h.2.1
  obtain ⟨c',xs',hu,hr',ha,-⟩ := uncache_spec (o := o) hr
  refine ⟨c',hu,h.update h.1 rfl ⟨xs',hr'⟩ ha ?_,sameViews_cache rfl ?_⟩
  · intro v hv
    exact h.2.2 o v (filter_eq_some_iff.mp hv).1
  · rw [view_update rfl ha,update_eq_self_iff,uncachedValue,view]
    cases hv : c.value o with
    | none => rfl
    | some v =>
      cases hf : v.flagged with
      | true => rw [filter_some,hf,if_pos rfl]
      | false =>
        rw [filter_some,hf]
        rw [flagged,or_eq_false_iff] at hf
        have hb := (h.2.2 o v hv).1 hf.1
        simp [entryView,hb,unspent_of_not (h.1.isSpent_view hb)]

end

theorem haveCoinInCache_iff (o : COutPoint) : c.haveCoinInCache o = true ↔
      ∃ v, c.value o = some v ∧ (cache c base).view o = some v.coin := by
  unfold haveCoinInCache
  cases hl : c.cacheCoins.lookup o with
  | none => simp [value_eq_none_iff.mpr hl]
  | some e =>
    have hv := value_of_lookup hl
    cases hs : e.coin.isSpent with
    | true => simp [hv,view,entryView,unspent]
    | false => simp [hv,view,entryView,unspent]

theorem written_views (h : Written c base c' base') (j : ℕ) : (cache c' base').layerView j =
      if j = 0+1 then (cache c base).layerView 0 else (cache c base).layerView j := by
  cases j with
  | zero => rw [layerView_zero,h.same]; rfl
  | succ j =>
    cases j with
    | zero => exact (layerView_zero base').trans (h.below.trans (layerView_zero _).symm)
    | succ j => exact h.lower j

variable {op : LayerOp} {i : ℕ}

theorem applyTop_spec (h : (cache c base).Coherent) (hp : Allowed op 0 (cache c base)) :
    ∃ c' base' out, applyTop op c base = .ok (cache c' base',out) ∧ (cache c' base').Coherent ∧
      Meets op 0 (cache c base) (cache c' base') out := by
  cases op with
  | addCoin o s po =>
    obtain ⟨c',hd,hco,hv⟩ := addCoin_top h hp.2.1 hp.2.2.1
    exact ⟨c',base,.unit,by simp [applyTop,hd],hco,rfl,hv⟩
  | spendCoin o =>
    obtain ⟨base',ha,hba,hs⟩ := ask_spec h o
    obtain ⟨c',m,hsp,hco,ho,hh⟩ := spendCoin_top h hba hs o
    exact ⟨c',base',.coin (m.map StoredCoin.coin),by simp [applyTop,ha,hsp],hco,⟨_,rfl,ho⟩,hh⟩
  | getCoin o =>
    obtain ⟨base',ha,hba,hs⟩ := ask_spec h o
    obtain ⟨c',hf,hco,hv⟩ := fetch_layer (o := o) h hba hs
    refine ⟨c',base',.coin ((cache c base).view o),?_,hco,rfl,hv⟩
    simp [applyTop,ha,getCoin_fetch hf,(fetched_view h.1).2]
  | haveCoin o =>
    obtain ⟨base',ha,hba,hs⟩ := ask_spec h o
    obtain ⟨c',hf,hco,hv⟩ := fetch_layer (o := o) h hba hs
    refine ⟨c',base',.flag ((cache c base).view o).isSome,?_,hco,rfl,hv⟩
    simp [applyTop,ha,haveCoin_fetch hf,(fetched_view h.1).2]
  | accessCoin o =>
    obtain ⟨base',ha,hba,hs⟩ := ask_spec h o
    obtain ⟨c',hf,hco,hv⟩ := fetch_layer (o := o) h hba hs
    obtain ⟨coin,hac,hcoi⟩ := accessCoin_fetch hf
    exact ⟨c',base',.access coin,
      by simp [applyTop,ha,hac],hco, ⟨_,rfl,hcoi.trans (fetched_view h.1).2⟩,hv⟩
  | haveCoinInCache o =>
    exact ⟨c,base,_,rfl,h,⟨_,rfl,haveCoinInCache_iff o⟩,rfl⟩
  | uncache o =>
    obtain ⟨c',hu,hco,hv⟩ := uncache_top h o
    exact ⟨c',base,.unit,by simp [applyTop,hu],hco,rfl,hv⟩
  | sync =>
    obtain ⟨base',c',hr,hw⟩ := writeBelow_spec
      (fun r s => c.sync r s) (fun hb _ hc => sync_layer hb hc) h c.hashBlock
    exact ⟨c',base',.flag true,by simp [applyTop,hr],hw.coherent,rfl,written_views hw⟩
  | flush =>
    obtain ⟨base',c',hr,hw⟩ := writeBelow_spec
      (fun r s => c.flush r s) (fun hb _ hc => flush_layer hb hc) h c.hashBlock
    exact ⟨c',base',.flag true,by simp [applyTop,hr],hw.coherent,rfl,written_views hw⟩

section
variable (h : (cache c base).Coherent) (hba : base'.Coherent)
include h hba

/-- A layer stays coherent when the view below changes only where it has no entry. -/
theorem Coherent.below (hvi : ∀ k v, c.value k = some v → base'.view k = base.view k) :
    (cache c base').Coherent :=
  ⟨hba,h.2.1,fun k v hv => by rw [hvi k v hv]; exact h.2.2 k v hv⟩

theorem sameViews_lift (hs : SameViews base base') :
    (cache c base').Coherent ∧ SameViews (cache c base) (cache c base') := by
  refine ⟨h.below hba fun k _ _ => by rw [hs.view],sameViews_cache hs ?_⟩
  funext k
  rw [view,view,hs.view]

variable {i : ℕ}

theorem changed_lift {coin : Option Coin} (ho : c.value o = none)
    (hc : Changed i o coin base base') :
    (cache c base').Coherent ∧ Changed (i+1) o coin (cache c base) (cache c base') := by
  have hvi : base'.view = update base.view o coin := by
    have h0 := hc 0
    rwa [layerView_zero,layerView_zero] at h0
  refine ⟨h.below hba fun k v hv => ?_,fun j => ?_⟩
  · have hko : k ≠ o := by
      rintro rfl
      rw [ho] at hv
      exact absurd hv (by simp)
    rw [hvi,update_of_ne hko]
  · cases j with
    | zero =>
      rw [if_pos (zero_le _),layerView_zero,layerView_zero]
      funext k
      rw [view,hvi,update_apply,update_apply]
      split_ifs with hk
      · rw [hk,ho,entryView]
      · rfl
    | succ j =>
      rw [layerView_cache,layerView_cache,hc j]
      simp only [add_le_add_iff_right]

theorem written_lift (hv : ∀ j, base'.layerView j = if j = i+1 then base.layerView i
    else base.layerView j) :
    (cache c base').Coherent ∧ ∀ j, (cache c base').layerView j =
      if j = i+1+1 then (cache c base).layerView (i+1) else (cache c base).layerView j := by
  have hvi : base'.view = base.view := by
    have h0 := hv 0
    rwa [layerView_zero,layerView_zero] at h0
  refine ⟨h.below hba fun k _ _ => by rw [hvi],fun j => ?_⟩
  cases j with
  | zero =>
    rw [if_neg (by omega),layerView_zero,layerView_zero]
    funext k
    rw [view,view,hvi]
  | succ j =>
    rw [layerView_cache,hv j]
    simp only [add_right_cancel_iff,layerView_cache]

/-- An operation on a layer, seen from the layer above. -/
theorem meets_lift {op : LayerOp} {out : Output} (hp : Allowed op (i+1) (cache c base))
    (hm : Meets op i base base' out) :
    (cache c base').Coherent ∧ Meets op (i+1) (cache c base) (cache c base') out := by
  cases op with
  | addCoin o s po =>
    obtain ⟨ho,hv⟩ := hm
    simp only [Meets]
    split_ifs at hv ⊢ with hsc
    · exact (sameViews_lift h hba hv).imp id fun hs => ⟨ho,hs⟩
    · exact (changed_lift h hba (hp.2.2.2 0 (succ_pos i)) hv).imp id fun hc => ⟨ho,hc⟩
  | spendCoin o =>
    exact (changed_lift h hba (hp.2 0 (succ_pos i)) hm.2).imp id fun hc => ⟨hm.1,hc⟩
  | getCoin o => exact (sameViews_lift h hba hm.2).imp id fun hs => ⟨hm.1,hs⟩
  | haveCoin o => exact (sameViews_lift h hba hm.2).imp id fun hs => ⟨hm.1,hs⟩
  | accessCoin o => exact (sameViews_lift h hba hm.2).imp id fun hs => ⟨hm.1,hs⟩
  | haveCoinInCache o => exact (sameViews_lift h hba hm.2).imp id fun hs => ⟨hm.1,hs⟩
  | uncache o => exact (sameViews_lift h hba hm.2).imp id fun hs => ⟨hm.1,hs⟩
  | sync => exact (written_lift h hba hm.2).imp id fun hs => ⟨hm.1,hs⟩
  | flush => exact (written_lift h hba hm.2).imp id fun hs => ⟨hm.1,hs⟩

end

theorem allowed_below (h : Allowed op (i+1) (cache c base)) : Allowed op i base := by
  refine ⟨by simpa [depth] using h.1,?_⟩
  cases op with
  | addCoin o s po =>
    exact ⟨h.2.1,h.2.2.1,fun j hj => h.2.2.2 (j+1) (succ_lt_succ hj)⟩
  | spendCoin o => exact fun j hj => h.2 (j+1) (succ_lt_succ hj)
  | getCoin o => trivial
  | haveCoin o => trivial
  | accessCoin o => trivial
  | haveCoinInCache o => trivial
  | uncache o => trivial
  | sync => trivial
  | flush => trivial

theorem applyAt_spec (h : V.Coherent) (ho : Allowed op i V) :
    ∃ V' out, applyAt op i V = .ok (V',out) ∧ V'.Coherent ∧ Meets op i V V' out := by
  induction V generalizing i with
  | coinsMap hashBlock coins => exact absurd ho.1 (by simp [depth])
  | cache c base ih =>
    cases i with
    | zero =>
      obtain ⟨c',base',out,ha,hc,he⟩ := applyTop_spec h ho
      exact ⟨cache c' base',out,ha,hc,he⟩
    | succ i =>
      obtain ⟨base',out,ha,hba,hm⟩ := ih h.1 (allowed_below ho)
      obtain ⟨hc,he⟩ := meets_lift h hba ho hm
      exact ⟨cache c base',out,by simp [applyAt,ha],hc,he⟩

def newStack (hashBlock : BitVec 256) (coins : Finmap fun _ : COutPoint => Coin) : ℕ → CoinsView
  | 0 => coinsMap hashBlock coins
  | n+1 => cache empty (newStack hashBlock coins n)

/-- The stacks reached from new ones by allowed operations on their layers. -/
inductive StackReachable : CoinsView → Prop
  | new (hashBlock : BitVec 256) (coins : Finmap fun _ : COutPoint => Coin) (n : ℕ)
      (hcoins : ∀ k coin, coins.lookup k = some coin → coin.isSpent = false) :
      StackReachable (newStack hashBlock coins n)
  | step {V V' : CoinsView} {out : Output} (op : LayerOp) (i : ℕ) (h : StackReachable V)
      (hop : Allowed op i V) (happly : applyAt op i V = .ok (V',out)) : StackReachable V'

theorem coherent_newStack (hashBlock : BitVec 256) {coins : Finmap fun _ : COutPoint => Coin}
    (hc : ∀ k coin, coins.lookup k = some coin → coin.isSpent = false) (n : ℕ) :
    (newStack hashBlock coins n).Coherent := by
  induction n with
  | zero => exact hc
  | succ n ih => exact ⟨ih,⟨[],rep_empty⟩,fun k v hv => by simp [value,empty] at hv⟩

theorem StackReachable.coherent (h : StackReachable V) : V.Coherent := by
  induction h with
  | new hashBlock coins n hc => exact coherent_newStack hashBlock hc n
  | step op i h ho ha ih =>
    obtain ⟨V',out,ha',hco,-⟩ := applyAt_spec ih ho
    rw [ha,Except.ok.injEq,Prod.mk.injEq] at ha'
    rw [ha'.1]
    exact hco

/-- Coins caches refine coins maps: on every reachable stack, every allowed operation succeeds,
returns what the logical view says and changes the logical views as specified. -/
theorem stack_refines_views (V : CoinsView) (h : StackReachable V) (op : LayerOp) (i : ℕ)
    (hop : Allowed op i V) :
    ∃ V' out, applyAt op i V = .ok (V', out) ∧ Meets op i V V' out := by
  obtain ⟨V',out,ha,-,hm⟩ := applyAt_spec h.coherent hop
  exact ⟨V',out,ha,hm⟩

/-- Whether the top layer has entries that its parent does not know. -/
def modified : CoinsView → Bool
  | coinsMap _ _ => false
  | cache c _ => c.countFlagged != 0

def oneCoin : Coin := ⟨⟨50,[0x51#8]⟩,false,1⟩

def twoLayers : CoinsView := newStack 0 (Finmap.singleton ⟨1#256,0#32⟩ oneCoin) 2

theorem reachable_twoLayers : StackReachable twoLayers := by
  refine .new 0 _ 2 fun k coin hk => ?_
  have hm := Finmap.mem_of_lookup_eq_some hk
  rw [Finmap.mem_singleton] at hm
  rw [hm,Finmap.lookup_singleton_eq,some.injEq] at hk
  rw [← hk]
  rfl

theorem stack_refines_views_spend :
    ∃ V' out, applyAt (.spendCoin ⟨1#256, 0#32⟩) 0 twoLayers = .ok (V', out) ∧
      out = .coin (some oneCoin) ∧ V'.layerView 0 ⟨1#256, 0#32⟩ = none := by
  obtain ⟨V',out,ha,⟨m,ho,hc⟩,hh⟩ :=
    stack_refines_views twoLayers reachable_twoLayers (.spendCoin ⟨1#256,0#32⟩) 0
      ⟨by decide,by simp⟩
  have hv : twoLayers.layerView 0 ⟨1#256,0#32⟩ = some oneCoin := by decide +kernel
  rw [hv] at hc
  obtain ⟨coin,rfl,hu⟩ := bind_eq_some_iff.mp hc
  unfold unspent at hu
  split_ifs at hu
  refine ⟨V',out,ha,by rw [ho,some.inj hu],?_⟩
  rw [hh 0,if_pos le_rfl,update_self]

/-- A layer spends a coin that its child has only read; dropping the stale clean entry of the child
changes the child's logical view. -/
theorem stale_clean_entry_changes_view : (do
      let (V₁, _) ← applyAt (.getCoin ⟨1#256, 0#32⟩) 0 twoLayers
      let (V₂, _) ← applyAt (.spendCoin ⟨1#256, 0#32⟩) 1 V₁
      let (V₃, _) ← applyAt (.uncache ⟨1#256, 0#32⟩) 0 V₂
      return (V₁.modified, V₂.layerView 0 ⟨1#256, 0#32⟩, V₃.layerView 0 ⟨1#256, 0#32⟩)) =
    (.ok (false, some oneCoin, none) : Except CacheError (Bool × Option Coin × Option Coin)) := by
  decide +kernel

end DripCore.CoinsView
