import DripCore.CoinsCacheLinks

/-!
# What the public operations of the coins cache do

On a cache that represents its contents correctly each operation succeeds, or fails with the error
the source raises on purpose, and it changes the contents at one outpoint.

The flags of an entry say how it differs from the view below. An operation is described by the
contents before and after it, and by the flags that the entry then has.
-/
namespace DripCore.CCoinsViewCache
open Bool ExceptRules Finmap FinmapTotal Function LinkedRing Option

/-- A permitted combination of flags, not merely fresh, and no memory left in a spent coin. -/
structure Good (v : CacheValue) : Prop where
  permitted : permitted v = true
  dirty : v.fresh = true → v.dirty = true
  spent : v.coin.isSpent = true → v.allocated = 0

/-- A cache whose list, flags and counter are right. -/
structure Rep (c : CCoinsViewCache) (xs : List COutPoint) : Prop where
  wired : Wired c xs
  good : ∀ k v, c.value k = some v → Good v
  usage : c.recomputedUsage = c.cachedCoinsUsage

abbrev entryUsage (v : Option CacheValue) :
    ℕ := weight (fun v : CacheValue => v.dynamicMemoryUsage) v

theorem rep_empty : Rep empty [] := ⟨wired_empty,fun k v h => by simp [value,empty] at h,rfl⟩

variable {c a b : CCoinsViewCache} {xs : List COutPoint} {k : COutPoint} {w : Option CacheValue}
    {s : StoredCoin}

theorem Rep.usage_le (h : Rep c xs) (k : COutPoint) :
    entryUsage (c.value k) ≤ c.cachedCoinsUsage := by
  rw [← h.usage]
  have hl := weight_le_total (fun e : CCoinsCacheEntry => e.dynamicMemoryUsage) c.cacheCoins k
  have he : weight (fun e : CCoinsCacheEntry => e.dynamicMemoryUsage) (c.cacheCoins.lookup k) =
      entryUsage (c.value k) := by
    rw [value]
    cases c.cacheCoins.lookup k <;> rfl
  exact he ▸ hl

theorem Rep.update {c' : CCoinsViewCache} {xs' : List COutPoint} (h : Rep c xs) (hw : Wired c' xs')
    (hv : c'.value = update c.value k w) (hg : ∀ v, w = some v → Good v)
    (hu : c'.cachedCoinsUsage+entryUsage (c.value k) = c.cachedCoinsUsage+entryUsage w) :
    Rep c' xs' := by
  refine ⟨hw,fun j v hj => ?_,?_⟩
  · rw [hv,update_apply] at hj
    split_ifs at hj with hk
    · exact hg v hj
    · exact h.good j v hj
  · have hm := recomputedUsage_update hv
    have hs := h.usage
    unfold entryUsage at hu
    omega

theorem mallocUsage_zero : mallocUsage 0 = 0 := rfl

theorem good_clean (h : s.coin.isSpent = false) : Good ⟨s,false,false⟩ :=
  ⟨by simp [permitted,h],fun hf => hf,fun hs => by rw [h] at hs; exact absurd hs (by decide)⟩

theorem good_dirty (fresh : Bool) (h : s.coin.isSpent = false) : Good ⟨s,true,fresh⟩ :=
  ⟨by cases fresh <;> simp [permitted,
    h],fun _ => rfl,fun hs => by rw [h] at hs; exact absurd hs (by decide)⟩

theorem good_spent (h : s.coin.isSpent = true → s.allocated = 0) : Good ⟨s,true,false⟩ :=
  ⟨by cases hs : s.coin.isSpent <;> simp [permitted,hs],fun _ => rfl,h⟩

theorem good_cleared : Good ⟨.cleared,true,false⟩ := good_spent fun _ => rfl

/-- A clean entry is unspent, and a fresh one is dirty and unspent. -/
theorem Good.cases {v : CacheValue} (h : Good v) :
    (v.dirty = true ∧ (v.fresh = true → v.coin.isSpent = false)) ∨
      (v.dirty = false ∧ v.fresh = false ∧ v.coin.isSpent = false) := by
  have hp := h.permitted
  have hd := h.dirty
  revert hp hd
  unfold CCoinsViewCache.permitted
  cases v.dirty <;> cases v.fresh <;> cases v.coin.isSpent <;> simp

theorem Wrote.trans {w' : Option CacheValue} (h : Wrote a b k w) (h' : Wrote b c k w') :
    Wrote a c k w' :=
  ⟨by rw [h'.value,h.value,update_idem],h'.usage.trans h.usage,h'.best.trans h.best⟩

theorem Wrote.value_self (h : Wrote a b k w) : b.value k = w := by rw [h.value,update_self]

variable {c : CCoinsViewCache} {xs : List COutPoint} {o : COutPoint}
variable {v : CacheValue} {answer : Option StoredCoin} {s : StoredCoin}

theorem mark_spec (hw : Wired c xs) (hv : c.value o = some v) (fresh : Bool) :
    ∃ c1 c' xs', c.setDirty o = .ok c1 ∧ applyIf fresh (·.setFresh o) c1 = .ok c' ∧
      Wired c' xs' ∧ Wrote c c' o (some ⟨v.toStoredCoin,true,v.fresh || fresh⟩) := by
  obtain ⟨c1,xs1,hs1,hw1,hr1⟩ := addFlags_spec hw hv true false rfl
  rw [Bool.or_true,Bool.or_false] at hr1
  cases fresh with
  | false =>
    rw [Bool.or_false]
    exact ⟨c1,c1,xs1,hs1,rfl,hw1,hr1⟩
  | true =>
    obtain ⟨c',xs',hs,hw',hr⟩ := addFlags_spec hw1 hr1.value_self false true rfl
    exact ⟨c1,c',xs',hs1,hs,hw',hr1.trans hr⟩

theorem store_spec (hw : Wired c xs) (hv : c.value o = some v) (s : StoredCoin) (fresh : Bool) :
    ∃ c1 c2 c' xs', c.setCoin o s = .ok c1 ∧ c1.setDirty o = .ok c2 ∧
      applyIf fresh (·.setFresh o) c2 = .ok c' ∧ Wired c' xs' ∧
      Wrote c c' o (some ⟨s,true,v.fresh || fresh⟩) := by
  obtain ⟨c1,hc,hw1,hr1⟩ := setCoin_spec hw hv s
  obtain ⟨c2,c',xs',hd,hf,hw',hr⟩ := mark_spec hw1 hr1.value_self fresh
  exact ⟨c1,c2,c',xs',hc,hd,hf,hw',hr1.trans hr⟩

/-- What `FetchCoin` finds, given the answer of the base view. -/
def fetched (c : CCoinsViewCache) (o : COutPoint) (answer : Option StoredCoin) :
    Option CacheValue :=
  match c.value o with
  | some v => some v
  | none => answer.map fun s => ⟨s,false,false⟩

theorem fetchCoin_spec (h : Rep c xs) (ha : ∀ s, answer = some s → s.coin.isSpent = false) :
    ∃ c', c.fetchCoin o answer = .ok (c',c.fetched o answer) ∧ Rep c' xs ∧
      c'.value = update c.value o (c.fetched o answer) ∧ c'.hashBlock = c.hashBlock := by
  cases hl : c.cacheCoins.lookup o with
  | some e =>
    have hv := value_of_lookup hl
    refine ⟨c,?_,h,?_,rfl⟩
    · simp [fetchCoin,hl,fetched,hv]
    · simp [fetched,hv]
  | none =>
    have hv := value_eq_none_iff.mpr hl
    cases answer with
    | none =>
      refine ⟨c,?_,h,?_,rfl⟩
      · simp [fetchCoin,hl,fetched,hv]
      · simp [fetched,hv]
    | some s =>
      have hs := ha s rfl
      have hw : Wired ((c.put o (.ofCoin s)).addUsage s.dynamicMemoryUsage) xs :=
        (h.wired.put_new hv s).addUsage _
      have hva : ((c.put o (.ofCoin s)).addUsage s.dynamicMemoryUsage).value =
          update c.value o (some ⟨s,false,false⟩) := value_put c o _
      have hf : c.fetched o (some s) = some ⟨s,false,false⟩ := by
        simp [fetched,hv]
      refine ⟨_,?_,h.update hw hva ?_ ?_,by rw [hf,hva],rfl⟩
      · have hfi : ((c.put o (.ofCoin s)).addUsage s.dynamicMemoryUsage).find o =
            .ok (.ofCoin s) := find_of_lookup (lookup_insert _)
        simp only [fetchCoin,hl,hs,applyIf_false,ok_bind,hfi,hf]
        rfl
      · rintro v ⟨⟩
        exact good_clean hs
      · rw [hv]
        rfl

/-- The flags an added coin gets. -/
def addedFresh (old : Option CacheValue) (possible_overwrite : Bool) : Bool :=
  match old with
  | some v => v.fresh || (!possible_overwrite && !v.dirty)
  | none => !possible_overwrite

theorem addCoin_spec (h : Rep c xs) (hs : s.coin.isSpent = false)
    (hsc : CScript.isUnspendable s.coin.out.scriptPubKey = false) {po : Bool}
    (ho : po = false → ∀ v, c.value o = some v → v.coin.isSpent = true) :
    ∃ c' xs', c.addCoin o s po = .ok c' ∧ Rep c' xs' ∧
      c'.value = update c.value o (some ⟨s,true,addedFresh (c.value o) po⟩) ∧
      c'.hashBlock = c.hashBlock := by
  cases hl : c.cacheCoins.lookup o with
  | none =>
    have hv := value_eq_none_iff.mpr hl
    have hn : o ∉ c.cacheCoins := lookup_eq_none.mp hl
    have hw := h.wired.put_new hv .cleared
    have hv0 : (c.put o (.ofCoin .cleared)).value o = some ⟨.cleared,false,false⟩ := by
      rw [value_put,update_self]
      rfl
    obtain ⟨c1,c2,c3,xs',hc,hd,hf,hw3,hr⟩ := store_spec hw hv0 s (!po)
    have ha : c3.value = update c.value o (some ⟨s,true,addedFresh (c.value o) po⟩) := by
      rw [((wrote_put c o _).trans hr).value,hv,addedFresh,Bool.false_or]
    have hfi : (c.put o (.ofCoin .cleared)).find o = .ok (.ofCoin .cleared) :=
      find_of_lookup (lookup_insert _)
    refine ⟨c3.addUsage s.dynamicMemoryUsage,xs',?_,h.update (hw3.addUsage _) ha ?_ ?_,ha,hr.best⟩
    · have hspe : (CCoinsCacheEntry.ofCoin .cleared).coin.isSpent = true := rfl
      have hcl : (CCoinsCacheEntry.ofCoin .cleared).dirty = false := rfl
      simp [addCoin,hs,hsc,hn,hfi,hspe,hcl,hc,hd,hf]
    · rintro v ⟨⟩
      exact good_dirty _ hs
    · rw [hv]
      change c3.cachedCoinsUsage+_+0 = c.cachedCoinsUsage+s.dynamicMemoryUsage
      rw [hr.usage]
      rfl
  | some e =>
    have hv := value_of_lookup hl
    have hm : o ∈ c.cacheCoins := mem_of_lookup_eq_some hl
    have he := h.usage_le o
    rw [hv] at he
    obtain ⟨c0,hsu,hw0,ha0,hu,hb⟩ := subUsage_spec h.wired he
    have hv0 : c0.value o = some e.toCacheValue := by rw [ha0,hv]
    obtain ⟨c1,c2,c3,xs',hc,hd,hf,hw3,hr⟩ := store_spec hw0 hv0 s (!po && !e.dirty)
    have ha : c3.value = update c.value o (some ⟨s,true,addedFresh (c.value o) po⟩) := by
      rw [hr.value,ha0,hv,addedFresh]
    refine ⟨c3.addUsage s.dynamicMemoryUsage,xs',?_, h.update (hw3.addUsage _) ha ?_ ?_,ha,
      hr.best.trans hb⟩
    · have hg : ¬ ((!po) = true ∧ (!e.coin.isSpent) = true) := by
        rintro ⟨hp,hsp⟩
        rw [ho (by simpa using hp) _ hv] at hsp
        exact absurd hsp (by decide)
      have hsu' : c.subUsage e.dynamicMemoryUsage = .ok c0 := hsu
      simp only [addCoin,hs,hsc,Bool.false_eq_true,if_false,hm,not_true_eq_false,
        decide_false,find_of_lookup hl,ok_bind,hg,Bool.not_false,applyIf_true,hsu',
        hc,hd,hf]
      rfl
    · rintro v ⟨⟩
      exact good_dirty _ hs
    · rw [hv]
      change c3.cachedCoinsUsage+s.dynamicMemoryUsage+e.dynamicMemoryUsage =
        c.cachedCoinsUsage+s.dynamicMemoryUsage
      rw [hr.usage,← hu]
      simp only [weight_some]
      omega

theorem addCoin_overwrite (hs : s.coin.isSpent = false)
    (hc : CScript.isUnspendable s.coin.out.scriptPubKey = false) (hv : c.value o = some v)
    (hu : v.coin.isSpent = false) :
    c.addCoin o s false = .error (.logicError overwriteMessage) := by
  obtain ⟨e,he,rfl⟩ := lookup_of_value hv
  have hm : o ∈ c.cacheCoins := mem_of_lookup_eq_some he
  simp [addCoin,hs,hc,hm,find_of_lookup he,hu]

theorem emplaceCoin_spec (h : Rep c xs) (hs : s.coin.isSpent = true → s.allocated = 0) :
    ∃ c' xs', c.emplaceCoinInternalDANGER o s = .ok c' ∧ Rep c' xs' ∧
      c'.value = update c.value o (some ((c.value o).getD ⟨s,true,false⟩)) ∧
      c'.hashBlock = c.hashBlock := by
  cases hl : c.cacheCoins.lookup o with
  | some e =>
    have hm : o ∈ c.cacheCoins := mem_of_lookup_eq_some hl
    refine ⟨c,xs,?_,h,?_,rfl⟩
    · simp [emplaceCoinInternalDANGER,hm]
    · rw [value_of_lookup hl,getD_some,← value_of_lookup hl,update_eq_self]
  | none =>
    have hv := value_eq_none_iff.mpr hl
    have hn : o ∉ c.cacheCoins := lookup_eq_none.mp hl
    obtain ⟨c1,c',xs',hd,hf,hw',hr⟩ := mark_spec (h.wired.put_new hv s)
      (wrote_put c o (.ofCoin s)).value_self false
    obtain rfl : c1 = c' := Except.ok.inj hf
    have ha : c1.value = update c.value o (some ((c.value o).getD ⟨s,true,false⟩)) := by
      rw [((wrote_put c o _).trans hr).value,hv]
      rfl
    refine ⟨c1.addUsage s.dynamicMemoryUsage,xs',?_,h.update (hw'.addUsage _) ha ?_ ?_,ha,hr.best⟩
    · simp [emplaceCoinInternalDANGER,hn,hd]
    · rw [hv]
      rintro v ⟨⟩
      exact good_spent hs
    · rw [hv]
      change c1.cachedCoinsUsage+_+0 = c.cachedCoinsUsage+s.dynamicMemoryUsage
      rw [hr.usage]
      rfl

/-- What a spent entry leaves in the cache. -/
def spentValue (v : CacheValue) : Option CacheValue :=
  if v.fresh then none else some ⟨.cleared,true,false⟩

theorem spendCoin_none (hf : c.fetched o answer = none) : c.spendCoin o answer = .ok (c,none) := by
  cases hl : c.cacheCoins.lookup o with
  | some e => simp [fetched,value_of_lookup hl] at hf
  | none =>
    rw [fetched,value_eq_none_iff.mpr hl] at hf
    cases answer with
    | some s => simp at hf
    | none => simp [spendCoin,fetchCoin,hl]

theorem spendCoin_some (h : Rep c xs) (hn : ∀ s, answer = some s → s.coin.isSpent = false)
    (hf : c.fetched o answer = some v) :
    ∃ c' xs', c.spendCoin o answer = .ok (c',some v.toStoredCoin) ∧ Rep c' xs' ∧
      c'.value = update c.value o (spentValue v) ∧ c'.hashBlock = c.hashBlock := by
  obtain ⟨c0,hfe,hr,hva,hb⟩ := fetchCoin_spec (o := o) h hn
  rw [hf] at hfe hva
  have hv : c0.value o = some v := by rw [hva,update_self]
  have hl := hr.usage_le o
  rw [hv] at hl
  obtain ⟨c1,hs,hw1,hva1,hu,hb1⟩ := subUsage_spec hr.wired hl
  have hs' : c0.subUsage v.dynamicMemoryUsage = .ok c1 := hs
  have hv1 : c1.value o = some v := by rw [hva1,hv]
  cases hfr : v.fresh with
  | true =>
    obtain ⟨c',he,hw',hwr⟩ := erase_spec hw1 hv1
    have hva' : c'.value = update c0.value o (spentValue v) := by
      rw [hwr.value,hva1,spentValue,hfr,if_pos rfl]
    refine ⟨c',_,?_,hr.update hw' hva' ?_ ?_,?_,?_⟩
    · simp [spendCoin,hfe,hs',hfr,he]
    · simp [spentValue,hfr]
    · rw [hv,hwr.usage,hu,spentValue,hfr]
      rfl
    · rw [hva',hva,update_idem]
    · rw [hwr.best,hb1,hb]
  | false =>
    obtain ⟨c2,c2',xs',hd,ha,hw2,hwr2⟩ := mark_spec hw1 hv1 false
    obtain rfl : c2 = c2' := Except.ok.inj ha
    obtain ⟨c',hc,hw',hwr⟩ := setCoin_spec hw2 hwr2.value_self .cleared
    have hva' : c'.value = update c0.value o (spentValue v) := by
      rw [(hwr2.trans hwr).value,hva1,spentValue,hfr]
      rfl
    refine ⟨c',_,?_,hr.update hw' hva' ?_ ?_,?_,?_⟩
    · simp [spendCoin,hfe,hs',hfr,hd,hc]
    · simpa [spentValue,hfr] using good_cleared
    · rw [hv,(hwr2.trans hwr).usage,hu,spentValue,hfr]
      rfl
    · rw [hva',hva,update_idem]
    · rw [(hwr2.trans hwr).best,hb1,hb]

/-- What is left of an entry after `Uncache`. -/
def uncachedValue (v : Option CacheValue) : Option CacheValue := v.filter CacheValue.flagged

theorem uncache_spec (h : Rep c xs) : ∃ c' xs', c.uncache o = .ok c' ∧ Rep c' xs' ∧
      c'.value = update c.value o (uncachedValue (c.value o)) ∧
      c'.hashBlock = c.hashBlock := by
  cases hl : c.cacheCoins.lookup o with
  | none =>
    have hv := value_eq_none_iff.mpr hl
    refine ⟨c,xs,?_,h,?_,rfl⟩
    · simp [uncache,hl]
    · rw [hv,uncachedValue,filter_none,← hv,update_eq_self]
  | some e =>
    have hv := value_of_lookup hl
    cases hf : e.flagged with
    | true =>
      refine ⟨c,xs,?_,h,?_,rfl⟩
      · simp [uncache,hl,hf]
      · rw [hv,uncachedValue,filter_some,hf,if_pos rfl,← hv,update_eq_self]
    | false =>
      have hle := h.usage_le o
      rw [hv] at hle
      obtain ⟨c1,hs,hw,ha,hu,hb⟩ := subUsage_spec h.wired hle
      have hs' : c.subUsage e.dynamicMemoryUsage = .ok c1 := hs
      obtain ⟨c',he,hw',hr⟩ := erase_spec hw (by rw [ha,hv])
      have ha' : c'.value = update c.value o (uncachedValue (c.value o)) := by
        rw [hr.value,ha,hv,uncachedValue,filter_some,hf]
        rfl
      refine ⟨c',_,?_,h.update hw' ha' ?_ ?_,ha',hr.best.trans hb⟩
      · simp [uncache,hl,hf,hs',he]
      · simp [hv,uncachedValue,hf]
      · rw [hr.usage,hv,hu,uncachedValue,filter_some,hf]
        rfl

/-- What a batch write makes of the entry, and whether it moves the coin out of the child. -/
def writtenValue (us : Option CacheValue) (v : CacheValue) (willErase : Bool) :
    Except CacheError (Option CacheValue × Bool) :=
  if v.dirty then
    match us with
    | none =>
      if v.fresh && v.coin.isSpent then .ok (none,false)
      else .ok (some ⟨StoredCoin.cleared.assign v.toStoredCoin willErase,true,v.fresh⟩,willErase)
    | some u =>
      if v.fresh && !u.coin.isSpent then .error (.logicError freshMisappliedMessage)
      else if u.fresh && v.coin.isSpent then .ok (none,false)
      else .ok (some ⟨u.toStoredCoin.assign v.toStoredCoin willErase,true,u.fresh⟩,willErase)
  else .ok (us,false)

theorem StoredCoin.assign_coin (s ot : StoredCoin) (m : Bool) : (s.assign ot m).coin = ot.coin := by
  cases m <;> rfl

/-- An assigned coin is good in a dirty entry that is fresh only if the coin is unspent. -/
theorem good_assign (hv : Good v) (s : StoredCoin) {we fresh : Bool}
    (he : v.coin.isSpent = true → we = true)
    (hf : fresh = true → v.coin.isSpent = false) :
    Good ⟨s.assign v.toStoredCoin we,true,fresh⟩ := by
  cases hs : v.coin.isSpent with
  | false => exact good_dirty fresh (by rw [StoredCoin.assign_coin,hs])
  | true =>
    obtain rfl : fresh = false := by
      cases fresh with
      | false => rfl
      | true => rw [hf rfl] at hs; exact absurd hs (by decide)
    rw [he hs]
    exact good_spent fun _ => hv.spent hs

theorem writeEntry_spec (h : Rep c xs) (hv : Good v) (we : Bool)
    (he : v.coin.isSpent = true → we = true) :
    match writtenValue (c.value o) v we with
    | .error e => writeEntry c o v we = .error e
    | .ok (w,moved) => ∃ c' xs', writeEntry c o v we = .ok (c',moved) ∧ Rep c' xs' ∧
        c'.value = update c.value o w ∧ c'.hashBlock = c.hashBlock := by
  cases hd : v.dirty with
  | false =>
    simp only [writtenValue,hd]
    exact ⟨c,xs,by simp [writeEntry,hd],h,by rw [update_eq_self],rfl⟩
  | true =>
    cases hl : c.cacheCoins.lookup o with
    | none =>
      have hn := value_eq_none_iff.mpr hl
      simp only [writtenValue,hn]
      split_ifs with hfs
      · refine ⟨c,xs,by simp [writeEntry,hl,hfs],h,?_,rfl⟩
        rw [← hn,update_eq_self]
      · obtain ⟨s,hs⟩ : ∃ s, s = StoredCoin.cleared.assign v.toStoredCoin we := ⟨_,rfl⟩
        have hw := (h.wired.put_new hn s).addUsage s.dynamicMemoryUsage
        have hv0 : ((c.put o (.ofCoin s)).addUsage s.dynamicMemoryUsage).value o =
            some ⟨s,false,false⟩ := (wrote_put c o (.ofCoin s)).value_self
        obtain ⟨c1,c',xs',hdi,hf,hw',hr⟩ := mark_spec hw hv0 v.fresh
        have hva : c'.value = update c.value o (some ⟨s,true,v.fresh⟩) := by
          rw [hr.value,show ((c.put o (.ofCoin s)).addUsage s.dynamicMemoryUsage).value =
            _ from value_put c o (.ofCoin s),update_idem,Bool.false_or]
        rw [← hs]
        refine ⟨c',xs',?_,h.update hw' hva ?_ ?_,hva,hr.best⟩
        · simp only [writeEntry,hd,hl,hfs,← hs,hdi,ok_bind,hf]
          rfl
        · rintro w ⟨⟩
          rw [hs]
          exact good_assign hv _ he (by simpa using hfs)
        · rw [hn,hr.usage]
          rfl
    | some u =>
      have hu := value_of_lookup hl
      have hle := h.usage_le o
      rw [hu] at hle
      obtain ⟨c1,hsu,hw1,hva1,hus,hb⟩ := subUsage_spec h.wired hle
      have hsu' : c.subUsage u.dynamicMemoryUsage = .ok c1 := hsu
      have hu1 : c1.value o = some u.toCacheValue := by rw [hva1,hu]
      simp only [writtenValue,hu]
      split_ifs with hm hfs
      · simp [writeEntry,hd,hl,hm]
      · obtain ⟨c',he',hw',hr⟩ := erase_spec hw1 hu1
        have hva : c'.value = update c.value o none := by
          rw [hr.value,hva1]
        refine ⟨c',_,?_,h.update hw' hva (by simp) ?_,hva,hr.best.trans hb⟩
        · simp only [writeEntry,hd,hl,hm,hfs,hsu',ok_bind,he']
          rfl
        · rw [hr.usage,hu,hus]
          rfl
      · obtain ⟨s,hs⟩ : ∃ s, s = u.toStoredCoin.assign v.toStoredCoin we := ⟨_,rfl⟩
        obtain ⟨c2,hc,hw2,hr2⟩ := setCoin_spec hw1 hu1 s
        obtain ⟨c3,c',xs',hdi,ha,hw',hr⟩ :=
          mark_spec (hw2.addUsage s.dynamicMemoryUsage) hr2.value_self false
        obtain rfl : c3 = c' := Except.ok.inj ha
        have hva : c3.value = update c.value o (some ⟨s,true,u.fresh⟩) := by
          rw [hr.value,show (c2.addUsage s.dynamicMemoryUsage).value = _ from hr2.value,
            update_idem,hva1,Bool.or_false]
        rw [← hs]
        refine ⟨c3,xs',?_,h.update hw' hva ?_ ?_,hva,?_⟩
        · simp only [writeEntry,hd,hl,hm,hfs,hsu',ok_bind,← hs,hc,hdi]
          rfl
        · rintro w ⟨⟩
          rw [hs]
          exact good_assign hv _ he (by simpa using hfs)
        · rw [hu,hr.usage]
          change c2.cachedCoinsUsage+s.dynamicMemoryUsage+u.dynamicMemoryUsage =
            c.cachedCoinsUsage+s.dynamicMemoryUsage
          rw [hr2.usage,← hus]
          simp only [weight_some]
          omega
        · rw [hr.best]
          exact hr2.best.trans hb

end DripCore.CCoinsViewCache
