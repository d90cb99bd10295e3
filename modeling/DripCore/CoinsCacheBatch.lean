import DripCore.CoinsCacheOps

/-!
# Walks of the batch cursor

The cursor of `Sync` unlinks or erases each entry behind it while the receiver works on the next;
that of `Flush` leaves the list alone. Either way the receiver sees every flagged entry once, in
list order and with its original contents.
-/
namespace DripCore.CCoinsViewCache
open LinkedRing FinmapTotal ExceptRules

def items (c : CCoinsViewCache) (xs : List COutPoint) : List (COutPoint × CacheValue) :=
  xs.filterMap fun k => (c.value k).map (Prod.mk k)

def visitAll {σ : Type} (visit : Visitor σ) (will_erase : Bool) :
    σ → List (COutPoint × CacheValue) → Except CacheError σ
  | s, [] => .ok s
  | s, (k,v)::rest => do
      let (s,_) ← visit s k v (will_erase || v.coin.isSpent)
      visitAll visit will_erase s rest

/-- What `Sync` leaves of a flagged entry. -/
def sweptValue (v : CacheValue) : Option CacheValue :=
  if v.coin.isSpent then none else some { v with dirty := false, fresh := false }

variable {c c' : CCoinsViewCache} {k : COutPoint} {xs : List COutPoint}

theorem items_cons {v : CacheValue} (xs : List COutPoint) (hv : c.value k = some v) :
    c.items (k::xs) = (k,v)::c.items xs := by
  simp [items,hv]

theorem items_congr (h : ∀ k ∈ xs, c'.value k = c.value k) : c'.items xs = c.items xs :=
  List.filterMap_congr fun k hk => by rw [h k hk]

theorem items_update {w : Option CacheValue} (h : c'.value = Function.update c.value k w)
    (hk : k ∉ xs) :
    c'.items xs = c.items xs :=
  items_congr fun j hj => by
    have hjk : j ≠ k := fun he => hk (he ▸ hj)
    rw [h,Function.update_of_ne hjk]

variable {σ : Type} {vi : Visitor σ} {c : CCoinsViewCache} {xs : List COutPoint}
  {k : COutPoint} {v : CacheValue}

theorem Rep.next_head (h : Rep c (k::xs)) : c.next (some k) = some (first none xs) :=
  h.wired.ring.path.2.2.next_first.1

/-- A spent coin can be moved out of its entry without disturbing the cache. -/
theorem Rep.moveOut (h : Rep c xs) (hv : c.value k = some v) (hs : v.coin.isSpent = true) :
    ∃ c', c.setCoin k v.toStoredCoin.movedFrom = .ok c' ∧ Rep c' xs ∧
      Wrote c c' k (some { v with toStoredCoin := v.toStoredCoin.movedFrom }) := by
  obtain ⟨c',he,hw,hr⟩ := setCoin_spec h.wired hv v.toStoredCoin.movedFrom
  have hg := h.good k v hv
  refine ⟨c',he,h.update hw hr.value ?_ ?_,hr⟩
  · rintro w ⟨⟩
    exact ⟨hg.permitted,hg.dirty,fun _ => rfl⟩
  · have hz : v.dynamicMemoryUsage = 0 := by
      rw [StoredCoin.dynamicMemoryUsage,hg.spent hs,mallocUsage_zero]
    rw [hv,hr.usage]
    change _+v.dynamicMemoryUsage = _+0
    rw [hz]

theorem nextErase_spec (h : Rep c (k::xs)) (hv : c.value k = some v) :
    ∃ c', c.nextAndMaybeErase k false = .ok (c',first none xs) ∧ Rep c' xs ∧
      Wrote c c' k (sweptValue v) := by
  obtain ⟨e,he,hev⟩ := lookup_of_value hv
  have hn := h.next_head
  rw [next_of_lookup he] at hn
  have hg := h.good k v hv
  have hl : (k::xs).erase k = xs := List.erase_cons_head ..
  cases hs : v.coin.isSpent with
  | true =>
    have hz : v.dynamicMemoryUsage = 0 := by
      rw [StoredCoin.dynamicMemoryUsage,hg.spent hs,mallocUsage_zero]
    obtain ⟨c',her,hw,hr⟩ := erase_spec h.wired hv
    rw [hl] at hw
    have hsw : sweptValue v = none := by rw [sweptValue,hs,if_pos rfl]
    refine ⟨c',?_,h.update hw hr.value (by simp) ?_,by rw [hsw]; exact hr⟩
    · simp [nextAndMaybeErase,find_of_lookup he,hn,follow,hev,hs,hz,her]
    · rw [hv,hr.usage]
      change _+v.dynamicMemoryUsage = _+0
      rw [hz]
  | false =>
    obtain ⟨c',hc,hw,hr⟩ := setClean_spec h.wired hv
    rw [hl] at hw
    have hsw : sweptValue v = some { v with dirty := false, fresh := false } := by
      rw [sweptValue,hs]
      rfl
    refine ⟨c',?_,h.update hw hr.value ?_ ?_,by rw [hsw]; exact hr⟩
    · simp [nextAndMaybeErase,find_of_lookup he,hn,follow,hev,hs,hc]
    · rintro w ⟨⟩
      exact good_clean hs
    · rw [hv,hr.usage]
      rfl

variable {m will_erase : Bool} {s s' : σ}

theorem cursorLoop_sync_step (fuel : ℕ) (h : Rep c (k::xs)) (hv : c.value k = some v)
    (hvi : vi s k v v.coin.isSpent = .ok (s',m)) :
    ∃ c', cursorLoop vi false (fuel+1) s c (some k) =
      cursorLoop vi false fuel s' c' (first none xs) ∧
      Rep c' xs ∧ Wrote c c' k (sweptValue v) := by
  obtain ⟨e,he,hev⟩ := lookup_of_value hv
  have hl : cursorLoop vi false (fuel+1) s c (some k) =
      (applyIf (m && v.coin.isSpent) (·.setCoin k v.toStoredCoin.movedFrom) c >>= fun c =>
        c.nextAndMaybeErase k false >>= fun r => cursorLoop vi false fuel s' r.1 r.2) := by
    simp only [cursorLoop,find_of_lookup he,ok_bind,hev,Bool.false_or,hvi]
  rw [hl]
  cases hm : m && v.coin.isSpent with
  | false =>
    obtain ⟨c',hn,hr,hw⟩ := nextErase_spec h hv
    exact ⟨c',by simp [hn],hr,hw⟩
  | true =>
    have hs : v.coin.isSpent = true := (Bool.and_eq_true _ _ ▸ hm).2
    obtain ⟨c1,hse,hr1,hw1⟩ := h.moveOut hv hs
    obtain ⟨c',hn,hr,hw⟩ := nextErase_spec hr1 hw1.value_self
    have hsw : sweptValue { v with toStoredCoin := v.toStoredCoin.movedFrom } = sweptValue v := by
      have hs' : v.toStoredCoin.movedFrom.coin.isSpent = true := hs
      simp only [sweptValue,hs,hs',if_true]
    refine ⟨c',by simp [hse,hn],hr,?_⟩
    rw [← hsw]
    exact hw1.trans hw

theorem cursorLoop_flush_step (fuel : ℕ) {ys : List COutPoint} (h : Wired c (ys++k::xs))
    (hv : c.value k = some v) (hvi : vi s k v true = .ok (s',m)) :
    ∃ c' w, cursorLoop vi true (fuel+1) s c (some k) =
      cursorLoop vi true fuel s' c' (first none xs) ∧
      Wired c' (ys++k::xs) ∧ Wrote c c' k w := by
  obtain ⟨e,he,hev⟩ := lookup_of_value hv
  have ho : cursorLoop vi true (fuel+1) s c (some k) =
      (applyIf m (·.setCoin k v.toStoredCoin.movedFrom) c >>= fun c =>
        c.nextAndMaybeErase k true >>= fun r => cursorLoop vi true fuel s' r.1 r.2) := by
    simp only [cursorLoop,find_of_lookup he,ok_bind,hev,Bool.true_or,hvi,Bool.and_true]
  have hn {c : CCoinsViewCache} {v : CacheValue} (h : Wired c (ys++k::xs))
      (hv : c.value k = some v) : c.nextAndMaybeErase k true = .ok (c,first none xs) := by
    obtain ⟨e,he,-⟩ := lookup_of_value hv
    have hl := ((path_append none none k ys xs).mp h.ring.path).2.next_first.1
    rw [next_of_lookup he] at hl
    simp [nextAndMaybeErase,find_of_lookup he,hl,follow]
  rw [ho]
  cases m with
  | false =>
    refine ⟨c,some v,by simp [hn h hv],h,?_,rfl,rfl⟩
    rw [← hv,Function.update_eq_self]
  | true =>
    obtain ⟨c',hs,hw,hr⟩ := setCoin_spec h hv v.toStoredCoin.movedFrom
    exact ⟨c',_,by simp [hs,hn hw hr.value_self],hw,hr⟩

/-- The rest of the list at the cursor: that of `Flush` leaves the entries behind it where they are.
-/
def Walking (will_erase : Bool) (c : CCoinsViewCache) (xs : List COutPoint) : Prop :=
  match will_erase with
  | true => ∃ ys, Wired c (ys++xs)
  | false => Rep c xs

theorem Walking.step (fuel : ℕ) (h : Walking will_erase c (k::xs)) (hv : c.value k = some v)
    (hvi : vi s k v (will_erase || v.coin.isSpent) = .ok (s',m)) :
    ∃ c' w, cursorLoop vi will_erase (fuel+1) s c (some k) =
      cursorLoop vi will_erase fuel s' c' (first none xs) ∧
      Walking will_erase c' xs ∧ Wrote c c' k w ∧ (will_erase = false → w = sweptValue v) := by
  cases will_erase with
  | true =>
    obtain ⟨ys,h⟩ := h
    obtain ⟨c',w,hs,hw,hwr⟩ := cursorLoop_flush_step fuel h hv hvi
    exact ⟨c',w,hs,⟨ys++[k],by simpa using hw⟩,hwr,nofun⟩
  | false =>
    obtain ⟨c',hs,hr,hwr⟩ := cursorLoop_sync_step fuel h hv hvi
    exact ⟨c',_,hs,hr,hwr,fun _ => rfl⟩

/-- The walk is the receiver's fold, and that of `Sync` leaves an empty list. -/
theorem cursorLoop_spec (vi : Visitor σ) (fuel : ℕ) (s : σ) (h : Walking will_erase c xs)
    (hf : xs.length < fuel) :
    match visitAll vi will_erase s (c.items xs) with
    | .error e => cursorLoop vi will_erase fuel s c (first none xs) = .error e
    | .ok s' => ∃ c', cursorLoop vi will_erase fuel s c (first none xs) = .ok (s',c') ∧
        c'.hashBlock = c.hashBlock ∧ (will_erase = false → Rep c' [] ∧
          ∀ j, c'.value j = if j ∈ xs then (c.value j).bind sweptValue else c.value j) := by
  induction xs generalizing fuel s c with
  | nil =>
    obtain ⟨fuel,rfl⟩ := Nat.exists_eq_succ_of_ne_zero (by omega : fuel ≠ 0)
    exact ⟨c,rfl,rfl,by rintro rfl; exact ⟨h,fun j => by simp⟩⟩
  | cons k xs ih =>
    obtain ⟨fuel,rfl⟩ := Nat.exists_eq_succ_of_ne_zero (by omega : fuel ≠ 0)
    obtain ⟨ys,hw⟩ : ∃ ys, Wired c (ys++k::xs) := by
      cases will_erase with
      | true => exact h
      | false => exact ⟨[],h.wired⟩
    obtain ⟨v,hv,-⟩ := (hw.mem_iff k).mp (by simp)
    have hk : k ∉ xs := (List.nodup_cons.mp (List.nodup_append.mp hw.ring.nodup).2.1).1
    rw [items_cons xs hv,visitAll,first]
    cases hvi : vi s k v (will_erase || v.coin.isSpent) with
    | error e =>
      obtain ⟨e',he,hev⟩ := lookup_of_value hv
      simp only [error_bind,cursorLoop,find_of_lookup he,ok_bind,hev,hvi]
    | ok r =>
      obtain ⟨s',m⟩ := r
      obtain ⟨c1,w,ht,hn,hwr,hsw⟩ := h.step fuel hv hvi
      have hre := ih fuel s' hn (by simpa using hf)
      rw [items_update hwr.value hk] at hre
      simp only [ok_bind,ht]
      cases ha : visitAll vi will_erase s' (c.items xs) with
      | error e => simpa only [ha] using hre
      | ok s'' =>
        simp only [ha] at hre
        obtain ⟨c',hl,hb,hc⟩ := hre
        refine ⟨c',hl,hb.trans hwr.best,fun hs => ?_⟩
        obtain ⟨hr,hva⟩ := hc hs
        refine ⟨hr,fun j => ?_⟩
        rw [hva,hwr.value,hsw hs]
        by_cases hj : j = k
        · simp [hj,hk,hv]
        · simp [hj]

theorem Rep.length_le (h : Rep c xs) : xs.length ≤ c.getCacheSize := by
  refine length_le_card h.wired.ring.nodup fun k hk => ?_
  obtain ⟨v,hv,-⟩ := (h.wired.mem_iff k).mp hk
  obtain ⟨e,he,-⟩ := lookup_of_value hv
  exact Finmap.mem_of_lookup_eq_some he

theorem Rep.sentinelNext_eq (h : Rep c xs) : c.sentinelNext = first none xs :=
  Option.some.inj h.wired.ring.path.next_first.1

theorem cursorRun_spec (vi : Visitor σ) (s : σ) (h : Rep c xs) (will_erase : Bool) :
    match visitAll vi will_erase s (c.items xs) with
    | .error e => cursorRun vi will_erase s c = .error e
    | .ok s' => ∃ c', cursorRun vi will_erase s c = .ok (s',c') ∧ c'.hashBlock = c.hashBlock ∧
        (will_erase = false → Rep c' [] ∧
          ∀ j, c'.value j = if j ∈ xs then (c.value j).bind sweptValue else c.value j) := by
  have hs : Walking will_erase c xs := by
    cases will_erase with
    | true => exact ⟨[],h.wired⟩
    | false => exact h
  rw [cursorRun,h.sentinelNext_eq]
  exact cursorLoop_spec vi _ s hs (Nat.lt_succ_of_le h.length_le)

end DripCore.CCoinsViewCache
