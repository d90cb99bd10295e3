import DripCore.CoinsCache
import DripCore.LinkedRing

/-!
# What the list operations of the coins cache do

A cache is read in two parts: the contents of its entries, and the wiring of the flagged ones into a
ring. A link write leaves the contents alone, and each larger operation changes them at one outpoint
and keeps the wiring.
-/
namespace DripCore.CCoinsViewCache
open CacheValue ExceptRules FinmapTotal Function LinkedRing List Option

def value (c : CCoinsViewCache) (k : COutPoint) : Option CacheValue :=
  (c.cacheCoins.lookup k).map CCoinsCacheEntry.toCacheValue

/-- The ring holds exactly the flagged entries, and the others have null links. -/
structure Wired (c : CCoinsViewCache) (xs : List COutPoint) : Prop where
  ring : Ring c.next c.prev xs
  mem_iff : ∀ k, k ∈ xs ↔ ∃ v, c.value k = some v ∧ v.flagged = true
  idle : ∀ k v, c.value k = some v → v.flagged = false → c.next (some k) = none ∧
    c.prev (some k) = none

/-- One change of the contents, with the counter and the best block untouched. -/
structure Wrote (c c' : CCoinsViewCache) (k : COutPoint) (w : Option CacheValue) : Prop where
  value : c'.value = update c.value k w
  usage : c'.cachedCoinsUsage = c.cachedCoinsUsage
  best : c'.hashBlock = c.hashBlock

theorem wired_empty : Wired empty [] where
  ring := ⟨⟨rfl,rfl⟩,nodup_nil⟩
  mem_iff k := by simp [value,empty]
  idle k v h := by simp [value,empty] at h

variable {c : CCoinsViewCache} {xs : List COutPoint} {k : COutPoint} {v : CacheValue}
variable {e : CCoinsCacheEntry}

theorem find_of_lookup (h : c.cacheCoins.lookup k = some e) : c.find k = .ok e := by
  rw [find,h]

theorem lookup_of_value (h : c.value k = some v) : ∃ e, c.cacheCoins.lookup k = some e ∧
    e.toCacheValue = v :=
  map_eq_some_iff.mp h

section
variable (h : c.cacheCoins.lookup k = some e)
include h

theorem next_of_lookup : c.next (some k) = e.m_next := by
  rw [next,h,bind_some]

theorem prev_of_lookup : c.prev (some k) = e.m_prev := by
  rw [prev,h,bind_some]

theorem value_of_lookup : c.value k = some e.toCacheValue := by
  rw [value,h,map_some]

end

theorem value_eq_none_iff : c.value k = none ↔ c.cacheCoins.lookup k = none := map_eq_none_iff

section
variable (c k e)

theorem lookup_put (j : COutPoint) :
    (c.put k e).cacheCoins.lookup j = if j = k then some e else c.cacheCoins.lookup j := by
  split_ifs with h
  · rw [h]
    exact Finmap.lookup_insert _
  · exact Finmap.lookup_insert_of_ne _ h

theorem next_put : (c.put k e).next = update c.next (some k) e.m_next := by
  funext node
  cases node with
  | none => rfl
  | some j =>
    rw [next,lookup_put]
    by_cases h : j = k
    · simp [h]
    · simp [h,next]

theorem prev_put : (c.put k e).prev = update c.prev (some k) e.m_prev := by
  funext node
  cases node with
  | none => rfl
  | some j =>
    rw [prev,lookup_put]
    by_cases h : j = k
    · simp [h]
    · simp [h,prev]

theorem value_put : (c.put k e).value = update c.value k (some e.toCacheValue) := by
  funext j
  rw [update_apply,value,lookup_put]
  split_ifs with h
  · rfl
  · rfl

theorem wrote_put : Wrote c (c.put k e) k (some e.toCacheValue) := ⟨value_put c k e,rfl,rfl⟩

end

structure SameData (c c' : CCoinsViewCache) : Prop where
  value : c'.value = c.value
  usage : c'.cachedCoinsUsage = c.cachedCoinsUsage
  best : c'.hashBlock = c.hashBlock

def IsNode (c : CCoinsViewCache) (node : Node) : Prop := ∀ k, node = some k → (c.value k).isSome

theorem SameData.trans {a b c : CCoinsViewCache} (h : SameData a b) (h' : SameData b c) :
    SameData a c :=
  ⟨h'.value.trans h.value,h'.usage.trans h.usage,h'.best.trans h.best⟩

theorem sameData_put {e' : CCoinsCacheEntry} (h : c.cacheCoins.lookup k = some e)
    (he : e'.toCacheValue = e.toCacheValue) :
    SameData c (c.put k e') := by
  refine ⟨?_,rfl,rfl⟩
  rw [value_put,he,← value_of_lookup h,update_eq_self]

section
variable (c) (node t : Node) (h : c.IsNode node)
include c node t h

theorem setNext_spec : ∃ c', c.setNext node t = .ok c' ∧ SameData c c' ∧
      c'.next = update c.next node (some t) ∧ c'.prev = c.prev := by
  cases node with
  | none =>
    refine ⟨_,rfl,⟨rfl,rfl,rfl⟩,?_,?_⟩
    · funext node
      cases node <;> rfl
    · funext node
      cases node <;> rfl
  | some k =>
    obtain ⟨v,hv⟩ := isSome_iff_exists.mp (h k rfl)
    obtain ⟨e,he,-⟩ := lookup_of_value hv
    refine ⟨c.put k { e with m_next := some t },?_,sameData_put he rfl,next_put c k _,?_⟩
    · simp only [setNext,find_of_lookup he]
      rfl
    · rw [prev_put]
      rw [← prev_of_lookup he,update_eq_self]

theorem setPrev_spec : ∃ c', c.setPrev node t = .ok c' ∧ SameData c c' ∧
      c'.prev = update c.prev node (some t) ∧ c'.next = c.next := by
  cases node with
  | none =>
    refine ⟨_,rfl,⟨rfl,rfl,rfl⟩,?_,?_⟩
    · funext node
      cases node <;> rfl
    · funext node
      cases node <;> rfl
  | some k =>
    obtain ⟨v,hv⟩ := isSome_iff_exists.mp (h k rfl)
    obtain ⟨e,he,-⟩ := lookup_of_value hv
    refine ⟨c.put k { e with m_prev := some t },?_,sameData_put he rfl,prev_put c k _,?_⟩
    · simp only [setPrev,find_of_lookup he]
      rfl
    · rw [next_put]
      rw [← next_of_lookup he,update_eq_self]

end

section

theorem Wired.isNode (hw : Wired c xs) {node : Node} (h : node = none ∨ node ∈ xs.map some) :
    c.IsNode node := by
  rintro j rfl
  rcases h with h | h
  · exact absurd h (by simp)
  · obtain ⟨v,hv,-⟩ := (hw.mem_iff j).mp (by simpa using h)
    simp [hv]

section
variable (hw : Wired c xs) (hv : c.value k = some v)
include hw hv

theorem Wired.notMem (hf : v.flagged = false) : k ∉ xs := by
  intro hk
  obtain ⟨v',hv',hf'⟩ := (hw.mem_iff k).mp hk
  rw [hv,some.injEq] at hv'
  rw [← hv',hf] at hf'
  exact absurd hf' (by decide)

theorem linkLast_spec (hf : v.flagged = false) :
    ∃ c', c.linkLast k = .ok c' ∧ SameData c c' ∧ Ring c'.next c'.prev (xs++[k]) ∧
      ∀ j ∉ xs++[k], c'.next (some j) = c.next (some j) ∧ c'.prev (some j) = c.prev (some j) := by
  obtain ⟨e,he,-⟩ := lookup_of_value hv
  have hid := hw.idle k v hv hf
  rw [next_of_lookup he,prev_of_lookup he] at hid
  have hl : c.sentinelPrev = last none xs := some.inj hw.ring.path.next_last.2
  have hm := last_mem none xs
  rw [← hl] at hm
  obtain ⟨e',he'⟩ : ∃ e' : CCoinsCacheEntry, e' =
      { e with m_prev := some c.sentinelPrev, m_next := some none } := ⟨_,rfl⟩
  have hd : SameData c (c.put k e') := sameData_put he (by rw [he'])
  obtain ⟨c1,hs1,hd1,hp1,hn1⟩ := setPrev_spec (c.put k e') none (some k) (by simp [IsNode])
  have ho : c1.IsNode c.sentinelPrev := by
    intro j hj
    rw [hd1.value,hd.value]
    exact hw.isNode hm j hj
  obtain ⟨c',hs,hd',hn',hp'⟩ := setNext_spec c1 _ (some k) ho
  have hn : c'.next = update (update c.next (some k) (some none)) c.sentinelPrev
    (some (some k)) := by
    rw [hn',hn1,next_put,he']
  have hp : c'.prev = update (update c.prev (some k) (some c.sentinelPrev)) none
    (some (some k)) := by
    rw [hp',hp1,prev_put,he']
  refine ⟨c',?_,(hd.trans hd1).trans hd',?_,?_⟩
  · rw [he'] at hs1
    simp [linkLast,find_of_lookup he,hid.1,hid.2,hs1,hs]
  · rw [hn,hp]
    exact hw.ring.append (hw.notMem hv hf) rfl
  · intro j hj
    rw [mem_append,mem_singleton,not_or] at hj
    have hk : some j ≠ some k := fun h => hj.2 (some.inj h)
    have hjl : some j ≠ c.sentinelPrev := by
      intro h
      rw [← h] at hm
      simp [hj.1] at hm
    rw [hn,hp,update_of_ne hjl,update_of_ne hk,update_of_ne (by simp),update_of_ne hk]
    exact ⟨rfl,rfl⟩

/-- Where an entry to be flagged ends up: on the ring, with everything else as it was. -/
theorem linked_before_flags : ∃ c' xs', applyIf (!v.flagged) (·.linkLast k) c = .ok c' ∧
    SameData c c' ∧
      Ring c'.next c'.prev xs' ∧ (∀ j, j ∈ xs' ↔ j = k ∨ j ∈ xs) ∧
      ∀ j ∉ xs', c'.next (some j) = c.next (some j) ∧ c'.prev (some j) = c.prev (some j) := by
  cases hf : v.flagged with
  | true =>
    refine ⟨c,xs,rfl,⟨rfl,rfl,rfl⟩,hw.ring,fun j => ?_,fun j _ => ⟨rfl,rfl⟩⟩
    exact ⟨Or.inr,fun h => h.elim (fun hj => (hw.mem_iff j).mpr ⟨v,hj ▸ hv,hf⟩) id⟩
  | false =>
    obtain ⟨c',hl,hd,hr,he⟩ := linkLast_spec hw hv hf
    refine ⟨c',xs++[k],hl,hd,hr,fun j => ?_,he⟩
    rw [mem_append,mem_singleton,or_comm]

theorem addFlags_spec (dirty fresh : Bool) (hfl : (dirty || fresh) = true) :
    ∃ c' xs', addFlags dirty fresh c k = .ok c' ∧ Wired c' xs' ∧
      Wrote c c' k (some { v with dirty := v.dirty || dirty, fresh := v.fresh || fresh }) := by
  obtain ⟨e,he,hev⟩ := lookup_of_value hv
  obtain ⟨c1,xs',hl,hd,hr,hm,hre⟩ := linked_before_flags hw hv
  have hv1 : c1.value k = some v := by rw [hd.value,hv]
  obtain ⟨e1,he1,hev1⟩ := lookup_of_value hv1
  obtain ⟨p,n,⟨hp,-⟩,hn,-⟩ := hr.path.neighbours ((hm k).mpr (Or.inl rfl))
  rw [prev_of_lookup he1] at hp
  rw [next_of_lookup he1] at hn
  obtain ⟨e',he'⟩ : ∃ e' : CCoinsCacheEntry, e' =
      { e1 with dirty := e1.dirty || dirty, fresh := e1.fresh || fresh } := ⟨_,rfl⟩
  have ha : e'.toCacheValue =
      { v with dirty := v.dirty || dirty, fresh := v.fresh || fresh } := by
    rw [he',← hev1]
  have hf : e'.toCacheValue.flagged = true := by
    rw [ha,flagged]
    revert hfl
    cases dirty <;> cases fresh <;> simp
  have hne : (c1.put k e').next = c1.next := by
    rw [next_put,he',← next_of_lookup he1,update_eq_self]
  have hpr : (c1.put k e').prev = c1.prev := by
    rw [prev_put,he',← prev_of_lookup he1,update_eq_self]
  refine ⟨c1.put k e',xs',?_,⟨by rw [hne,hpr]; exact hr,fun j => ?_,fun j w hj hw' => ?_⟩,?_⟩
  · rw [← hev] at hl
    simp only [addFlags,find_of_lookup he,ok_bind,hl]
    simp [find_of_lookup he1,hp,hn,he']
  · rw [hm,value_put,hd.value]
    by_cases hk : j = k
    · simp [hk,hf]
    · simp [hk,hw.mem_iff j]
  · have hk : j ≠ k := by
      rintro rfl
      rw [value_put,update_self,some.injEq] at hj
      rw [← hj,hf] at hw'
      exact absurd hw' (by decide)
    rw [value_put,update_of_ne hk,hd.value] at hj
    have ho : j ∉ xs' := by
      rw [hm,not_or]
      exact ⟨hk,hw.notMem hj hw'⟩
    rw [hne,hpr,(hre j ho).1,(hre j ho).2]
    exact hw.idle j w hj hw'
  · refine ⟨?_,hd.usage,hd.best⟩
    rw [value_put,ha,hd.value]

theorem setClean_spec : ∃ c', c.setClean k = .ok c' ∧ Wired c' (xs.erase k) ∧
      Wrote c c' k (some { v with dirty := false, fresh := false }) := by
  obtain ⟨e,he,hev⟩ := lookup_of_value hv
  cases hf : v.flagged with
  | false =>
    have ha : ({ v with dirty := false, fresh := false } : CacheValue) = v := by
      revert hf
      cases v with
      | mk s dirty fresh => cases dirty <;> cases fresh <;> simp [flagged]
    refine ⟨c,?_,?_,⟨?_,rfl,rfl⟩⟩
    · simp [setClean,find_of_lookup he,hev,hf]
    · rw [erase_of_not_mem (hw.notMem hv hf)]
      exact hw
    · rw [ha,← hv,update_eq_self]
  | true =>
    have hk : k ∈ xs := (hw.mem_iff k).mpr ⟨v,hv,hf⟩
    have ho : some k ∉ (xs.erase k).map some := by
      simpa using fun h => (hw.ring.nodup.mem_erase_iff.mp h).1 rfl
    obtain ⟨p,n,⟨hp,-,hpn⟩,hn,-,hnn⟩ := hw.ring.path.neighbours hk
    have hr := hw.ring.unlink hk hp hn
    rw [prev_of_lookup he] at hp
    rw [next_of_lookup he] at hn
    obtain ⟨c1,hs,hd1,hpr,hx⟩ := setPrev_spec c n p (hw.isNode hnn)
    have hpn1 : c1.IsNode p := by
      intro j hj
      rw [hd1.value]
      exact hw.isNode hpn j hj
    obtain ⟨c2,hs',hd2,hx',hpr'⟩ := setNext_spec c1 p n hpn1
    have hd := hd1.trans hd2
    have hv2 : c2.value k = some v := by rw [hd.value,hv]
    obtain ⟨e2,he2,hev2⟩ := lookup_of_value hv2
    obtain ⟨e',he'⟩ : ∃ e' : CCoinsCacheEntry, e' =
      { e2 with dirty := false, fresh := false, m_prev := none, m_next := none } := ⟨_,rfl⟩
    have ha : (c2.put k e').value =
      update c.value k (some { v with dirty := false, fresh := false }) := by
      rw [value_put,he',hd.value,← hev2]
    have hno {m : Node} (hm : m = none ∨ m ∈ (xs.erase k).map some) : m ≠ some k := by
      rintro rfl
      exact hm.elim (by simp) ho
    refine ⟨c2.put k e',?_,⟨?_,fun j => ?_,fun j w hj hw' => ?_⟩,⟨ha,hd.usage,hd.best⟩⟩
    · simp [setClean,find_of_lookup he,hev,hf,hn,hp,follow,hs,hs',find_of_lookup he2,he']
    · rw [hx] at hx'
      rw [hpr] at hpr'
      refine hr.congr (fun m hm => ?_) (fun m hm => ?_)
      · rw [next_put,update_of_ne (hno hm),hx']
      · rw [prev_put,update_of_ne (hno hm),hpr']
    · rw [hw.ring.nodup.mem_erase_iff,hw.mem_iff,ha]
      by_cases hjk : j = k
      · simp [hjk,flagged]
      · simp [hjk]
    · rw [next_put,prev_put,hx',hpr',hx,hpr,he']
      by_cases hjk : j = k
      · simp [hjk]
      · rw [ha,update_of_ne hjk] at hj
        have hjn := hw.notMem hj hw'
        have hne {m : Node} (hm : m = none ∨ m ∈ xs.map some) : some j ≠ m := by
          rintro rfl
          simp [hjn] at hm
        have hne' : some j ≠ some k := fun h => hjk (some.inj h)
        rw [update_of_ne hne',update_of_ne hne',update_of_ne (hne hpn),update_of_ne (hne hnn)]
        exact hw.idle j w hj hw'

end

variable (hw : Wired c xs)
include hw

theorem Wired.update {c' : CCoinsViewCache} {w : Option CacheValue} (hn : c'.next = c.next)
    (hp : c'.prev = c.prev) (ha : c'.value = update c.value k w)
    (hm : k ∈ xs ↔ ∃ v, w = some v ∧ v.flagged = true)
    (hd : ∀ v, w = some v → v.flagged = false → c.next (some k) = none ∧ c.prev (some k) = none) :
    Wired c' xs := by
  refine ⟨by rw [hn,hp]; exact hw.ring,fun j => ?_,fun j v hj hf => ?_⟩
  · rw [ha,update_apply]
    split_ifs with hk
    · rw [hk,hm]
    · exact hw.mem_iff j
  · rw [ha,update_apply] at hj
    rw [hn,hp]
    split_ifs at hj with hk
    · rw [hk]
      exact hd v hj hf
    · exact hw.idle j v hj hf

theorem Wired.put_coin (he : c.cacheCoins.lookup k = some e) (s : StoredCoin) :
    Wired (c.put k { e with toStoredCoin := s }) xs := by
  refine hw.update ?_ ?_ (value_put c k _) ?_ ?_
  · rw [next_put,← next_of_lookup he,update_eq_self]
  · rw [prev_put,← prev_of_lookup he,update_eq_self]
  · simp [hw.mem_iff,value_of_lookup he,flagged]
  · rintro v ⟨⟩ hf
    exact hw.idle k _ (value_of_lookup he) hf

theorem setCoin_spec (hv : c.value k = some v) (s : StoredCoin) :
    ∃ c', c.setCoin k s = .ok c' ∧ Wired c' xs ∧
      Wrote c c' k (some { v with toStoredCoin := s }) := by
  obtain ⟨e,he,hev⟩ := lookup_of_value hv
  refine ⟨c.put k { e with toStoredCoin := s },?_,hw.put_coin he s,?_⟩
  · simp [setCoin,find_of_lookup he]
  · rw [← hev]
    exact wrote_put c k _

theorem Wired.put_new (hk : c.value k = none) (s : StoredCoin) :
    Wired (c.put k (.ofCoin s)) xs := by
  have hl : c.next (some k) = none ∧ c.prev (some k) = none := by
    rw [next,prev,value_eq_none_iff.mp hk]
    exact ⟨rfl,rfl⟩
  refine hw.update ?_ ?_ (value_put c k _) ?_ fun _ _ _ => hl
  · rw [next_put,update_eq_self_iff,hl.1]
    rfl
  · rw [prev_put,update_eq_self_iff,hl.2]
    rfl
  · simp [hw.mem_iff,hk,CCoinsCacheEntry.ofCoin,flagged]

theorem erase_spec (hv : c.value k = some v) :
    ∃ c', c.erase k = .ok c' ∧ Wired c' (xs.erase k) ∧ Wrote c c' k none := by
  obtain ⟨c1,hcl,hw1,hr⟩ := setClean_spec hw hv
  obtain ⟨c',hc'⟩ : ∃ c' : CCoinsViewCache, c' =
    { c1 with cacheCoins := c1.cacheCoins.erase k } := ⟨_,rfl⟩
  have hv1 : c1.value k = some { v with dirty := false, fresh := false } := by
    rw [hr.value,update_self]
  have hd := hw1.idle k _ hv1 rfl
  have hl (j : COutPoint) : c'.cacheCoins.lookup j =
      if j = k then none else c1.cacheCoins.lookup j := by
    rw [hc']
    split_ifs with hj
    · rw [hj,Finmap.lookup_erase]
    · rw [Finmap.lookup_erase_ne hj]
  have hn : c'.next = c1.next := by
    funext node
    cases node with
    | none => rw [hc']; rfl
    | some j =>
      rw [next,hl]
      split_ifs with hj
      · rw [hj,hd.1]; rfl
      · rfl
  have hp : c'.prev = c1.prev := by
    funext node
    cases node with
    | none => rw [hc']; rfl
    | some j =>
      rw [prev,hl]
      split_ifs with hj
      · rw [hj,hd.2]; rfl
      · rfl
  have ha : c'.value = update c1.value k none := by
    funext j
    rw [value,hl,update_apply]
    split_ifs with hj
    · rfl
    · rfl
  refine ⟨c',?_,hw1.update hn hp ha ?_ nofun,?_,?_,?_⟩
  · simp [erase,hcl,hc']
  · simp [hw1.mem_iff,hv1,flagged]
  · rw [ha,hr.value,update_idem]
  · rw [← hr.usage,hc']
  · rw [← hr.best,hc']

theorem Wired.addUsage (n : ℕ) : Wired (c.addUsage n) xs := ⟨hw.ring,hw.mem_iff,hw.idle⟩

theorem subUsage_spec {n : ℕ} (h : n ≤ c.cachedCoinsUsage) :
    ∃ c', c.subUsage n = .ok c' ∧ Wired c' xs ∧ c'.value = c.value ∧
      c'.cachedCoinsUsage+n = c.cachedCoinsUsage ∧ c'.hashBlock = c.hashBlock := by
  refine ⟨{ c with cachedCoinsUsage := c.cachedCoinsUsage-n },if_pos h,
    ⟨hw.ring,hw.mem_iff,hw.idle⟩,rfl,Nat.sub_add_cancel h,rfl⟩

end

theorem recomputedUsage_update {c' : CCoinsViewCache} {w : Option CacheValue}
    (h : c'.value = update c.value k w) :
    c'.recomputedUsage+weight (fun v : CacheValue => v.dynamicMemoryUsage) (c.value k) =
      c.recomputedUsage+weight (fun v : CacheValue => v.dynamicMemoryUsage) w := by
  have hk : c'.value k = w := by rw [h,update_self]
  rw [← hk]
  refine total_update (fun v : CacheValue => v.dynamicMemoryUsage) CCoinsCacheEntry.toCacheValue
    k fun j hj => ?_
  change c'.value j = c.value j
  rw [h,update_of_ne hj]

end DripCore.CCoinsViewCache
