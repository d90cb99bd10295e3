import DripCore.Amount
import DripCore.CoinsStore
import Mathlib.Algebra.BigOperators.Finprod

/-!
# The worth of a cache over a map of coins

The amount a cache can make available: the dirty entries, and the coins below that no dirty entry
hides for good. A fresh entry is erased when it is spent and what is below shows again, so both are
counted. Spending takes at least the value of the coin away and adding brings at most its value;
coherence with the map is not needed.
-/
namespace DripCore.CoinsView
open CCoinsViewCache CoinsStore Except ExceptRules FinmapTotal Function StoredCoin

def coinValue (coin : Coin) : ℤ := coin.out.nValue

def entryWorth (entry : Option CacheValue) (below : Option Coin) : ℤ :=
  match entry with
  | none => weight coinValue below
  | some v =>
    if v.dirty then
      weight coinValue (unspent v.coin)+if v.fresh then weight coinValue below else 0
    else weight coinValue below

noncomputable def worth (coins : UtxoMap) (c : CCoinsViewCache) : ℤ :=
  ∑ᶠ o, entryWorth (c.value o) (coins.lookup o)

/-- A cache over a map: its clean entries are coins of the map, and all amounts are valid. -/
structure Ledger (coins : UtxoMap) (c : CCoinsViewCache) : Prop where
  rep : ∃ xs, Rep c xs
  clean : ∀ o v, c.value o = some v → v.dirty = false → coins.lookup o = some v.coin
  entries : ∀ o v, c.value o = some v → v.coin.isSpent = false → moneyRange v.coin.out.nValue = true
  map : ∀ o coin, coins.lookup o = some coin → moneyRange coin.out.nValue = true

section
variable {co : UtxoMap} {c c' : CCoinsViewCache} {o : COutPoint}

theorem finite_support (co : UtxoMap) (c : CCoinsViewCache) :
    (Function.support fun o => entryWorth (c.value o) (co.lookup o)).Finite := by
  refine (c.cacheCoins.keys∪co.keys).finite_toSet.subset fun o ho => ?_
  by_contra hm
  rw [Finset.mem_coe,Finset.mem_union,not_or] at hm
  apply ho
  change entryWorth (c.value o) (co.lookup o) = 0
  rw [value_eq_none_iff.mpr (Finmap.lookup_eq_none.mpr hm.1),Finmap.lookup_eq_none.mpr hm.2]
  rfl

variable {w : Option CacheValue}

theorem worth_update (h : c'.value = Function.update c.value o w) :
    worth co c' = worth co c-entryWorth (c.value o) (co.lookup o)+entryWorth w (co.lookup o) := by
  have hd : ∀ k, entryWorth (c'.value k) (co.lookup k) = entryWorth (c.value k) (co.lookup k) +
        if k = o then entryWorth w (co.lookup o)-entryWorth (c.value o) (co.lookup o)
        else 0 := by
    intro k
    rw [h,update_apply]
    split_ifs with hk
    · rw [hk]
      ring
    · rw [add_zero]
  have hs : (support fun k => if k = o then
      entryWorth w (co.lookup o)-entryWorth (c.value o) (co.lookup o) else 0).Finite :=
    (Set.finite_singleton o).subset fun k hk => by
      by_contra hn
      exact hk (if_neg hn)
  rw [worth,finsum_congr hd,finsum_add_distrib (finite_support co c) hs,
    finsum_eq_single _ o fun k hk => if_neg hk,if_pos rfl,worth]
  ring

theorem worth_empty (co : UtxoMap) : worth co empty = total coinValue co := by
  refine finsum_eq_sum_of_support_subset _ fun o ho => ?_
  by_contra hmem
  apply ho
  change weight coinValue (co.lookup o) = 0
  rw [Finmap.lookup_eq_none.mpr hmem]
  rfl

/-- A map that holds at every outpoint no more than the cache is worth there. -/
theorem total_le_worth {coins' : UtxoMap}
    (h : ∀ o, weight coinValue (coins'.lookup o) ≤ entryWorth (c.value o) (co.lookup o)) :
    total coinValue coins' ≤ worth co c := by
  rw [← worth_empty]
  exact finsum_le_finsum' (finite_support coins' _) (finite_support co c) h

theorem ledger_empty (h : ∀ o coin, co.lookup o = some coin → moneyRange coin.out.nValue = true) :
    Ledger co empty :=
  ⟨⟨[],rep_empty⟩,fun o v hv => by simp [value,empty] at hv,fun o v hv => by simp [value,
    empty] at hv,h⟩

section
variable (h : Ledger co c)
include h

theorem Ledger.coherent (hashBlock : BitVec 256) :
    (coinsMap hashBlock co).Coherent := fun o coin ho => isSpent_of_range (h.map o coin ho)

theorem Ledger.update (he : ∃ xs, Rep c' xs) (hv : c'.value = Function.update c.value o w)
    (hc : ∀ v, w = some v → v.dirty = false → co.lookup o = some v.coin)
    (hr : ∀ v, w = some v → v.coin.isSpent = false → moneyRange v.coin.out.nValue = true) :
    Ledger co c' := by
  refine ⟨he,fun k v hk => ?_,fun k v hk => ?_,h.map⟩
  · rw [hv,update_apply] at hk
    split_ifs at hk with ho
    · exact ho ▸ hc v hk
    · exact h.clean k v hk
  · rw [hv,update_apply] at hk
    split_ifs at hk with ho
    · exact hr v hk
    · exact h.entries k v hk

theorem Ledger.range_of_unspent {v : CacheValue} {coin : Coin} (hv : c.value o = some v)
    (hc : unspent v.coin = some coin) :
    moneyRange coin.out.nValue = true := by
  unfold unspent at hc
  split_ifs at hc with hs
  rw [← Option.some.inj hc]
  exact h.entries o v hv (Bool.eq_false_of_not_eq_true hs)

theorem Ledger.view_range {hashBlock : BitVec 256} {coin : Coin}
    (hv : (cache c (coinsMap hashBlock co)).view o = some coin) :
    moneyRange coin.out.nValue = true := by
  rw [view] at hv
  cases ha : c.value o with
  | none =>
    rw [ha] at hv
    exact h.map o coin hv
  | some v =>
    rw [ha] at hv
    exact h.range_of_unspent ha hv

end

theorem weight_nonneg {coin : Option Coin}
    (h : ∀ c, coin = some c → moneyRange c.out.nValue = true) : 0 ≤ weight coinValue coin := by
  cases coin with
  | none => exact le_rfl
  | some c => exact (moneyRange_iff.mp (h c rfl)).1

end

variable {coins : UtxoMap} {c : CCoinsViewCache} {hashBlock : BitVec 256}

/-- Two caches over one map that differ only in what they have cached. -/
structure SameLedger (hashBlock : BitVec 256) (coins : UtxoMap) (c c' : CCoinsViewCache) :
    Prop where
  ledger : Ledger coins c'
  view : (cache c' (coinsMap hashBlock coins)).view = (cache c (coinsMap hashBlock coins)).view
  worth : worth coins c' = worth coins c

theorem ask_coinsMap (o : COutPoint) : ask c (coinsMap hashBlock coins) o =
    .ok (coinsMap hashBlock coins,answerFor c (coinsMap hashBlock coins) o) := by
  cases hl : c.cacheCoins.lookup o with
  | some e => simp [ask,hl,answerFor,value_of_lookup hl]
  | none => simp [ask,hl,answerFor,value_eq_none_iff.mpr hl,getCoin,view]

theorem Ledger.weight_lookup (h : Ledger coins c) (o : COutPoint) :
    0 ≤ weight coinValue (coins.lookup o) :=
  weight_nonneg fun coin hc => h.map o coin hc

theorem entryWorth_fetched (o : COutPoint) :
    entryWorth (c.fetched o (answerFor c (coinsMap hashBlock coins) o)) (coins.lookup o) =
      entryWorth (c.value o) (coins.lookup o) := by
  cases hv : c.value o with
  | some v => rw [fetched,hv]
  | none =>
    rw [fetched,answerFor,hv,view]
    cases coins.lookup o <;> rfl

theorem Ledger.fetch (h : Ledger coins c) (hashBlock : BitVec 256) (o : COutPoint) :
    ∃ c', c.fetchCoin o (answerFor c (coinsMap hashBlock coins) o) =
        .ok (c',c.fetched o (answerFor c (coinsMap hashBlock coins) o)) ∧
      SameLedger hashBlock coins c c' := by
  obtain ⟨xs,hr⟩ := h.rep
  obtain ⟨c',hf,hr',hva,-⟩ := fetchCoin_spec (o := o) hr (unspent_answerFor (h.coherent hashBlock))
  refine ⟨c',hf,h.update ⟨xs,hr'⟩ hva (fun v hv => ?_) (fun v hv => ?_),?_,?_⟩
  · rcases fetched_eq_some hv with ha | ⟨-,coin,hc,rfl⟩
    · exact h.clean o v ha
    · exact fun _ => hc
  · rcases fetched_eq_some hv with ha | ⟨-,coin,hc,rfl⟩
    · exact h.entries o v ha
    · exact fun _ => h.map o coin hc
  · rw [view_update rfl hva,(fetched_view (h.coherent hashBlock)).1,update_eq_self]
  · rw [worth_update hva,entryWorth_fetched]
    ring

/-- Spending an entry takes its coin and nothing else. -/
theorem entryWorth_spentValue {v : CacheValue} {below : Option Coin} (hs : v.coin.isSpent = false)
    (hr : v.fresh = true → v.dirty = true) (hc : v.dirty = false → below = some v.coin) :
    entryWorth (spentValue v) below+v.coin.out.nValue = entryWorth (some v) below := by
  rw [spentValue,entryWorth,unspent_of_not hs]
  cases hf : v.fresh with
  | true =>
    simp only [hr hf,if_true,weight_some,coinValue,entryWorth]
    ring
  | false =>
    cases hd : v.dirty with
    | true => simp [entryWorth,cleared,unspent,coinValue]
    | false => simp [entryWorth,cleared,unspent,coinValue,hc hd]

theorem Ledger.haveCoin (h : Ledger coins c) (o : COutPoint) :
    ∃ c', haveCoin (cache c (coinsMap hashBlock coins)) o =
        .ok (cache c' (coinsMap hashBlock coins),
          ((cache c (coinsMap hashBlock coins)).view o).isSome) ∧
      SameLedger hashBlock coins c c' := by
  obtain ⟨c',hf,hs⟩ := h.fetch hashBlock o
  refine ⟨c',?_,hs⟩
  simp [CoinsStore.haveCoin,applyAt,applyTop,ask_coinsMap,haveCoin_fetch hf,
    (fetched_view (h.coherent hashBlock)).2,Except.map,Output.isTrue]

theorem Ledger.accessCoin (h : Ledger coins c) (o : COutPoint) :
    ∃ c' coin, accessCoin (cache c (coinsMap hashBlock coins)) o =
      .ok (cache c' (coinsMap hashBlock coins),coin) ∧
      unspent coin = (cache c (coinsMap hashBlock coins)).view o ∧
      SameLedger hashBlock coins c c' := by
  obtain ⟨c',hf,hs⟩ := h.fetch hashBlock o
  obtain ⟨coin,ha,hc⟩ := accessCoin_fetch hf
  refine ⟨c',coin,?_,hc.trans (fetched_view (h.coherent hashBlock)).2,hs⟩
  simp [CoinsStore.accessCoin,applyAt,applyTop,ask_coinsMap,ha,Except.map,Output.handedOut]

variable {coin : Coin} {o : COutPoint}

/-- A coin that can be seen is handed out, and its value is gone from the cache. -/
theorem Ledger.spendCoin (h : Ledger coins c)
    (hv : (cache c (coinsMap hashBlock coins)).view o = some coin) :
    ∃ c', spendCoin (cache c (coinsMap hashBlock coins)) o =
        .ok (cache c' (coinsMap hashBlock coins),some coin) ∧ Ledger coins c' ∧
      worth coins c'+coin.out.nValue ≤ worth coins c ∧
      ∀ k, k ≠ o → (cache c' (coinsMap hashBlock coins)).view k =
        (cache c (coinsMap hashBlock coins)).view k := by
  obtain ⟨xs,hr⟩ := h.rep
  have he := (fetched_view (c := c) (o := o) (h.coherent hashBlock)).2
  rw [hv] at he
  cases hf : c.fetched o (answerFor c (coinsMap hashBlock coins) o) with
  | none => simp [hf,entryView] at he
  | some v =>
    rw [hf] at he
    obtain rfl := unspent_eq_some he
    obtain ⟨c',xs',hs,hr',ha,-⟩ := spendCoin_some hr (unspent_answerFor (h.coherent hashBlock)) hf
    refine ⟨c',?_,h.update ⟨xs',hr'⟩ ha ?_ ?_,?_,fun k hk => ?_⟩
    · simp [CoinsStore.spendCoin,applyAt,applyTop,ask_coinsMap,hs,Except.map,Output.handedOut]
    · intro u hu hd
      rw [spentValue] at hu
      split_ifs at hu
      rw [← Option.some.inj hu] at hd
      exact absurd hd (by simp)
    · intro u hu hn
      rw [spentValue] at hu
      split_ifs at hu
      rw [← Option.some.inj hu] at hn
      exact absurd hn (by simp [cleared])
    · have hg : (v.fresh = true → v.dirty = true) ∧
        (v.dirty = false → coins.lookup o = some v.coin) := by
        rcases fetched_eq_some hf with hl | ⟨-,coin,hc,rfl⟩
        · exact ⟨(hr.good o v hl).dirty,h.clean o v hl⟩
        · exact ⟨fun hfr => absurd hfr Bool.false_ne_true,fun _ => hc⟩
      have hw := entryWorth_spentValue (isSpent_of_range (h.view_range hv)) hg.1 hg.2
      rw [← hf,entryWorth_fetched] at hw
      rw [worth_update ha,← hw]
      exact le_of_eq (by ring)
    · rw [view_update rfl ha,update_of_ne hk]

theorem Ledger.entryWorth_added (h : Ledger coins c) (o : COutPoint) (po : Bool)
    (hr : moneyRange coin.out.nValue = true) :
    entryWorth (some ⟨.copyOf coin,true,addedFresh (c.value o) po⟩)
        (coins.lookup o) ≤ entryWorth (c.value o) (coins.lookup o)+coin.out.nValue := by
  obtain ⟨xs,he⟩ := h.rep
  have hb := h.weight_lookup o
  have hc : weight coinValue (unspent coin) = coin.out.nValue := by
    rw [unspent_of_not (isSpent_of_range hr)]
    rfl
  cases hv : c.value o with
  | none =>
    cases po <;>
      simp [entryWorth,addedFresh,copyOf] <;> linarith
  | some v =>
    have hu : 0 ≤ weight coinValue (unspent v.coin) := weight_nonneg fun _ => h.range_of_unspent hv
    cases hd : v.dirty with
    | true =>
      cases hf : v.fresh <;>
        simp [entryWorth,addedFresh,copyOf,hd] <;> linarith
    | false =>
      have hf : v.fresh = false := by
        cases hf : v.fresh with
        | false => rfl
        | true => exact absurd ((he.good o v hv).dirty hf) (by simp [hd])
      cases po <;>
        simp [entryWorth,addedFresh,copyOf,hd,hf] <;> linarith

theorem Ledger.addCoin (h : Ledger coins c) (hr : moneyRange coin.out.nValue = true)
    {po : Bool} {V : CoinsView}
    (ha : addCoin (cache c (coinsMap hashBlock coins)) o coin po = .ok V) :
    ∃ c', V = cache c' (coinsMap hashBlock coins) ∧ Ledger coins c' ∧
      worth coins c' ≤ worth coins c+coin.out.nValue := by
  obtain ⟨xs,hre⟩ := h.rep
  have hs := isSpent_of_range hr
  have hp := (moneyRange_iff.mp hr).1
  cases hsc : CScript.isUnspendable coin.out.scriptPubKey with
  | true =>
    have hsa : c.addCoin o (.copyOf coin) po = .ok c := by
      simp [CCoinsViewCache.addCoin,copyOf,hs,hsc]
    simp only [CoinsStore.addCoin,applyAt,applyTop,hsa,ok_bind,pure_eq_ok,Except.map,ok.injEq] at ha
    exact ⟨c,ha.symm,h,by linarith⟩
  | false =>
    have ho : po = false → ∀ v, c.value o = some v → v.coin.isSpent = true := by
      rintro rfl v hv
      by_contra hu
      have he := addCoin_overwrite (s := .copyOf coin) hs hsc hv (Bool.eq_false_of_not_eq_true hu)
      simp [CoinsStore.addCoin,applyAt,applyTop,he,Except.map] at ha
    obtain ⟨c',xs',hc,hre',hva,-⟩ := addCoin_spec (o := o) (s := .copyOf coin) hre hs hsc ho
    simp only [CoinsStore.addCoin,applyAt,applyTop,hc,ok_bind,pure_eq_ok,Except.map,ok.injEq] at ha
    refine ⟨c',ha.symm,h.update ⟨xs',hre'⟩ hva ?_ ?_,?_⟩
    · rintro v ⟨⟩ hd
      exact absurd hd (by simp)
    · rintro v ⟨⟩ -
      exact hr
    · have hw := h.entryWorth_added o po hr
      rw [worth_update hva]
      linarith

theorem visitAll_writeCoin (coins : UtxoMap) (entries : List (COutPoint × CacheValue))
    (h : ∀ p ∈ entries, p.2.dirty = true) (we : Bool) :
    ∃ coins' : UtxoMap, visitAll writeCoin we coins entries = .ok coins' ∧
      (fun o => coins'.lookup o) = overlay (fun o => coins.lookup o) entries := by
  induction entries generalizing coins with
  | nil => exact ⟨coins,rfl,rfl⟩
  | cons p entries ih =>
    obtain ⟨k,v⟩ := p
    obtain ⟨coins1,hw,hl⟩ := writeCoin_spec coins k (h (k,v) List.mem_cons_self)
      (we || v.coin.isSpent)
    obtain ⟨coins',ha,hl'⟩ := ih coins1 fun p hp => h p (List.mem_cons_of_mem _ hp)
    refine ⟨coins',by simp [visitAll,hw,ha],?_⟩
    rw [hl',hl,overlay]

/-- What the map holds after a flush is worth no more than the cache was. -/
theorem Ledger.flush (h : Ledger coins c) (hashBlock : BitVec 256) :
    ∃ c' coins', applyAt .flush 0 (cache c (coinsMap hashBlock coins)) =
        .ok (cache c' (coinsMap c.hashBlock coins'),.flag true) ∧
      (∀ o coin, coins'.lookup o = some coin → moneyRange coin.out.nValue = true) ∧
      total coinValue coins' ≤ worth coins c := by
  obtain ⟨xs,hr⟩ := h.rep
  have hx (k : COutPoint) (hk : k ∈ xs) : ∃ v, c.value k = some v ∧ v.dirty = true := by
    obtain ⟨v,hv,hfl⟩ := (hr.wired.mem_iff k).mp hk
    rw [CacheValue.flagged,Bool.or_eq_true] at hfl
    exact ⟨v,hv,hfl.elim id (hr.good k v hv).dirty⟩
  obtain ⟨coins',ha,hov⟩ := visitAll_writeCoin coins (c.items xs) (by
    intro p hp
    obtain ⟨k,hk,hpk⟩ := List.mem_filterMap.mp hp
    obtain ⟨v,hv,rfl⟩ := Option.map_eq_some_iff.mp hpk
    obtain ⟨u,hu,hdi⟩ := hx k hk
    rw [hu] at hv
    exact Option.some.inj hv ▸ hdi) true
  have hl (o : COutPoint) : coins'.lookup o =
      if o ∈ xs then entryView (c.value o) none else coins.lookup o :=
    (congrFun hov o).trans (overlay_items hr.wired.ring.nodup (fun k hk => (hx k hk).imp fun v hv =>
      hv.1) o)
  obtain ⟨c',hf,-,-⟩ := flush_of_visitAll hr ha
  refine ⟨c',coins',by simp [applyAt,applyTop,writeBelow,hf],fun o coin hc => ?_,?_⟩
  · rw [hl] at hc
    split_ifs at hc with ho
    · obtain ⟨v,hv,-⟩ := hx o ho
      rw [hv] at hc
      exact h.range_of_unspent hv hc
    · exact h.map o coin hc
  · refine total_le_worth fun o => ?_
    rw [hl]
    split_ifs with ho
    · obtain ⟨v,hv,hdi⟩ := hx o ho
      have hb := h.weight_lookup o
      rw [hv,entryView,entryWorth]
      split_ifs <;> linarith
    · cases hv : c.value o with
      | none => exact le_rfl
      | some v =>
        have hcl : v.dirty = false := by
          cases hd : v.dirty with
          | false => rfl
          | true => exact absurd ((hr.wired.mem_iff o).mpr ⟨v,hv,
            by simp [CacheValue.flagged,hd]⟩) ho
        rw [entryWorth,hcl]
        exact le_rfl

end DripCore.CoinsView
