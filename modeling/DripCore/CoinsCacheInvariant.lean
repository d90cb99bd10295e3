import DripCore.CoinsCacheBatch

/-!
# Every assertion of the coins cache's sanity check

The public operations as one step function, with the answers of the base view and the batches of
child caches as inputs. A cache reached from an empty one passes every assertion of `SanityCheck`,
and a step on it succeeds or raises what the source raises.
-/
namespace DripCore.CCoinsViewCache
open ExceptRules FinmapTotal LinkedRing Prod

section
variable {c : CCoinsViewCache} {xs : List COutPoint}

/-- The list walk of the sanity check counts the entries that remain. -/
theorem countLinked_suffix (fuel : ℕ) (ys : List COutPoint) (h : Wired c (ys++xs))
    (hu : xs.length < fuel) : c.countLinked fuel (first none xs) = some xs.length := by
  induction xs generalizing fuel ys with
  | nil =>
    obtain ⟨fuel,rfl⟩ := Nat.exists_eq_succ_of_ne_zero (by omega : fuel ≠ 0)
    rfl
  | cons k xs ih =>
    obtain ⟨fuel,rfl⟩ := Nat.exists_eq_succ_of_ne_zero (by omega : fuel ≠ 0)
    have hk : k ∈ ys++k::xs := by simp
    obtain ⟨v,hv,hf⟩ := (h.mem_iff k).mp hk
    obtain ⟨e,he,rfl⟩ := lookup_of_value hv
    obtain ⟨p,n,⟨hp,hpk,-⟩,hn,hnk,-⟩ := h.ring.path.neighbours hk
    have hne := ((path_append none none k ys xs).mp h.ring.path).2.next_first.1
    obtain rfl : n = first none xs := Option.some.inj (hn.symm.trans hne)
    rw [prev_of_lookup he] at hp
    rw [next_of_lookup he] at hn
    have hr := ih fuel (ys++[k]) (by simpa using h) (by simpa using hu)
    rw [first]
    simp [countLinked,he,hp,hn,hpk,hnk,hf,hr]

theorem countFlagged_eq (h : Wired c xs) : c.countFlagged = xs.length := by
  refine total_indicator (p := fun e : CCoinsCacheEntry => e.flagged) h.ring.nodup fun k => ?_
  rw [h.mem_iff]
  constructor
  · rintro ⟨v,hv,hf⟩
    obtain ⟨e,he,rfl⟩ := lookup_of_value hv
    exact ⟨e,he,hf⟩
  · rintro ⟨e,he,hf⟩
    exact ⟨e.toCacheValue,value_of_lookup he,hf⟩

theorem sanityCheck_of_rep (h : Rep c xs) : c.sanityCheck = true := by
  have hc := countLinked_suffix _ [] h.wired (Nat.lt_succ_of_le h.length_le)
  rw [← h.sentinelNext_eq,← countFlagged_eq h.wired] at hc
  have hp : ∀ k ∈ c.cacheCoins.keys,
    ((c.cacheCoins.lookup k).map fun e => permitted e.toCacheValue) = some true := by
    intro k hk
    obtain ⟨e,he⟩ := Finmap.mem_iff.mp (Finmap.mem_keys.mp hk)
    rw [he,Option.map_some,(h.good k _ (value_of_lookup he)).permitted]
  simp only [sanityCheck,Bool.and_eq_true,decide_eq_true_eq]
  exact ⟨⟨hp,hc⟩,h.usage⟩

end

/-- Errors the source raises on purpose: exceptions and failed assertions. -/
def raised : CacheError → Bool
  | .logicError _ => true
  | .assertion => true
  | _ => false

/-- The public operations, with the answers of the base view they may ask for. -/
inductive CacheOp : Type 1 where
  | addCoin (outpoint : COutPoint) (s : StoredCoin) (possible_overwrite : Bool)
  | emplaceCoinInternalDANGER (outpoint : COutPoint) (s : StoredCoin)
  | spendCoin (outpoint : COutPoint) (answer : Option StoredCoin)
  | getCoin (outpoint : COutPoint) (answer : Option StoredCoin)
  | haveCoin (outpoint : COutPoint) (answer : Option StoredCoin)
  | accessCoin (outpoint : COutPoint) (answer : Option StoredCoin)
  | uncache (outpoint : COutPoint)
  | setBestBlock (hashBlockIn : BitVec 256)
  | batchWrite (child : CCoinsViewCache) (will_erase : Bool)
  | flush {σ : Type} (base : Receiver σ) (s : σ)
  | sync {σ : Type} (base : Receiver σ) (s : σ)

def CacheOp.apply (c : CCoinsViewCache) : CacheOp → Except CacheError CCoinsViewCache
  | .addCoin o s possible_overwrite => c.addCoin o s possible_overwrite
  | .emplaceCoinInternalDANGER o s => c.emplaceCoinInternalDANGER o s
  | .spendCoin o answer => (c.spendCoin o answer).map fst
  | .getCoin o answer => (c.getCoin o answer).map fst
  | .haveCoin o answer => (c.haveCoin o answer).map fst
  | .accessCoin o answer => (c.accessCoin o answer).map fst
  | .uncache o => c.uncache o
  | .setBestBlock hashBlockIn => .ok (c.setBestBlock hashBlockIn)
  | .batchWrite child will_erase => (c.batchWrite child will_erase).map fst
  | .flush base s => (c.flush base s).map fst
  | .sync base s => (c.sync base s).map fst

/-- A base view never answers with a spent coin. -/
def Unspent (answer : Option StoredCoin) : Prop := ∀ s, answer = some s → s.coin.isSpent = false

/-- A base view that visits entries raises only exceptions and assertions itself. -/
def Receiver.Orderly {σ : Type} : Receiver σ → Prop
  | .refuse => True
  | .visits visit => ∀ s k v w e, visit s k v w = .error e → raised e = true

/-- The base view is well behaved, and a spent coin emplaced without checks has no script memory. -/
def CacheOp.Promised : CacheOp → Prop
  | .emplaceCoinInternalDANGER _ s => s.coin.isSpent = true → s.allocated = 0
  | .spendCoin _ answer => Unspent answer
  | .getCoin _ answer => Unspent answer
  | .haveCoin _ answer => Unspent answer
  | .accessCoin _ answer => Unspent answer
  | .flush base _ => base.Orderly
  | .sync base _ => base.Orderly
  | _ => True

/-- The caches reached from an empty one by operations that do not throw. -/
inductive Reachable : CCoinsViewCache → Prop
  | empty : Reachable CCoinsViewCache.empty
  | step {c c' : CCoinsViewCache} (op : CacheOp) (hc : Reachable c) (hop : op.Promised)
      (hchild : ∀ child will_erase, op = .batchWrite child will_erase → Reachable child)
      (happly : op.apply c = .ok c') : Reachable c'

/-- The result of an operation: a cache that is right again, or a raised error. -/
def Sane (r : Except CacheError CCoinsViewCache) : Prop :=
  match r with
  | .ok c => ∃ xs, Rep c xs
  | .error e => raised e = true

section
variable {c : CCoinsViewCache} {xs : List COutPoint}

theorem sane_addCoin (h : Rep c xs) (o : COutPoint) (s : StoredCoin) (po : Bool) :
    Sane (c.addCoin o s po) := by
  cases hs : s.coin.isSpent with
  | true => simp [addCoin,hs,Sane,raised]
  | false =>
    cases hc : CScript.isUnspendable s.coin.out.scriptPubKey with
    | true => simpa [addCoin,hs,hc] using ⟨xs,h⟩
    | false =>
      by_cases ho : po = false → ∀ v, c.value o = some v → v.coin.isSpent = true
      · obtain ⟨c',xs',ha,hr,-⟩ := addCoin_spec h hs hc ho
        rw [ha]
        exact ⟨xs',hr⟩
      · push Not at ho
        obtain ⟨rfl,v,hv,hu⟩ := ho
        rw [addCoin_overwrite hs hc hv (by simpa using hu)]
        rfl

variable {a : Option StoredCoin} {e : CacheError} {en : List (COutPoint × CacheValue)}
    {σ : Type}

theorem sane_fetch (h : Rep c xs) (o : COutPoint) (ha : Unspent a)
    {r : Except CacheError CCoinsViewCache}
    (hr : ∀ c', c.fetchCoin o a = .ok (c',c.fetched o a) → r = .ok c') : Sane r := by
  obtain ⟨c',hf,he,-⟩ := fetchCoin_spec (o := o) h ha
  rw [hr c' hf]
  exact ⟨xs,he⟩

theorem sane_spendCoin (h : Rep c xs) (o : COutPoint) (ha : Unspent a) :
    Sane ((c.spendCoin o a).map fst) := by
  cases hf : c.fetched o a with
  | none =>
    rw [spendCoin_none hf]
    exact ⟨xs,h⟩
  | some v =>
    obtain ⟨c',xs',hs,hr,-⟩ := spendCoin_some h ha hf
    rw [hs]
    exact ⟨xs',hr⟩

theorem items_good (h : Rep c xs) (ys : List COutPoint) : ∀ p ∈ c.items ys, Good p.2 := by
  intro p hp
  obtain ⟨k,-,hk⟩ := List.mem_filterMap.mp hp
  obtain ⟨v,hv,rfl⟩ := Option.map_eq_some_iff.mp hk
  exact h.good k v hv

theorem writtenValue_raised {us : Option CacheValue} {v : CacheValue} {we : Bool}
    (h : writtenValue us v we = .error e) : raised e = true := by
  unfold writtenValue at h
  cases us with
  | none =>
    split_ifs at h
  | some u =>
    simp only at h
    split_ifs at h
    obtain rfl := Except.error.inj h
    rfl

theorem sane_visitAll (h : Rep c xs) (we : Bool) (hg : ∀ p ∈ en, Good p.2) :
    Sane (visitAll writeEntry we c en) := by
  induction en generalizing c xs with
  | nil => exact ⟨xs,h⟩
  | cons p en ih =>
    obtain ⟨k,v⟩ := p
    have hs := writeEntry_spec (o := k) h (hg (k,v) (by simp)) (we || v.coin.isSpent) (by simp_all)
    cases hw : writtenValue (c.value k) v (we || v.coin.isSpent) with
    | error e =>
      simp only [hw] at hs
      simp only [visitAll,hs]
      exact writtenValue_raised hw
    | ok r =>
      simp only [hw] at hs
      obtain ⟨c',xs',hwr,hr,-⟩ := hs
      simp only [visitAll,hwr]
      exact ih hr fun p hp => hg p (List.mem_cons_of_mem _ hp)

theorem Rep.setBestBlock (h : Rep c xs) (ha : BitVec 256) : Rep (c.setBestBlock ha) xs :=
  ⟨⟨h.wired.ring,h.wired.mem_iff,h.wired.idle⟩,h.good,h.usage⟩

theorem sane_batchWrite (h : Rep c xs) {child : CCoinsViewCache} {ys : List COutPoint}
    (hc : Rep child ys) (we : Bool) :
    Sane ((c.batchWrite child we).map fst) := by
  have hw := cursorRun_spec writeEntry c hc we
  have hs := sane_visitAll h we (items_good hc ys)
  cases ha : visitAll writeEntry we c (child.items ys) with
  | error e =>
    simp only [ha] at hw
    rw [ha] at hs
    simp only [batchWrite,hw]
    exact hs
  | ok c1 =>
    simp only [ha] at hw
    rw [ha] at hs
    obtain ⟨child',hr,-⟩ := hw
    obtain ⟨zs,he⟩ := hs
    simp only [batchWrite,hr]
    exact ⟨zs,he.setBestBlock _⟩

theorem visitAll_raised {vi : Visitor σ} {we : Bool} {s : σ} (ho : (Receiver.visits vi).Orderly)
    (h : visitAll vi we s en = .error e) : raised e = true := by
  induction en generalizing s with
  | nil => exact absurd h (by simp [visitAll])
  | cons p en ih =>
    obtain ⟨k,v⟩ := p
    cases hv : vi s k v (we || v.coin.isSpent) with
    | error e' =>
      simp only [visitAll,hv,error_bind,Except.error.injEq] at h
      exact h ▸ ho _ _ _ _ _ hv
    | ok r =>
      simp only [visitAll,hv] at h
      exact ih h

theorem sane_flush (h : Rep c xs) {base : Receiver σ} (hb : base.Orderly) (s : σ) :
    Sane ((c.flush base s).map fst) := by
  cases base with
  | refuse => exact ⟨xs,h⟩
  | visits v =>
    have hw := cursorRun_spec v s h true
    cases ha : visitAll v true s (c.items xs) with
    | error e =>
      simp only [ha] at hw
      simp only [flush,hw]
      exact visitAll_raised hb ha
    | ok s' =>
      simp only [ha] at hw
      obtain ⟨c',hr,-⟩ := hw
      simp only [flush,hr]
      exact ⟨[],rep_empty.setBestBlock c'.hashBlock⟩

theorem sane_sync (h : Rep c xs) {base : Receiver σ} (hb : base.Orderly) (s : σ) :
    Sane ((c.sync base s).map fst) := by
  cases base with
  | refuse => exact ⟨xs,h⟩
  | visits v =>
    have hw := cursorRun_spec v s h false
    cases ha : visitAll v false s (c.items xs) with
    | error e =>
      simp only [ha] at hw
      simp only [sync,hw]
      exact visitAll_raised hb ha
    | ok s' =>
      simp only [ha] at hw
      obtain ⟨c',hu,-,hc⟩ := hw
      obtain ⟨hr,-⟩ := hc trivial
      have hn : c'.sentinelNext = none := hr.sentinelNext_eq
      simp only [sync,hu,ok_bind,hn]
      exact ⟨[],hr⟩

theorem sane_apply (h : Rep c xs) {op : CacheOp} (ho : op.Promised)
    (hc : ∀ child we, op = .batchWrite child we → ∃ ys, Rep child ys) :
    Sane (op.apply c) := by
  cases op with
  | addCoin o s po => exact sane_addCoin h o s po
  | emplaceCoinInternalDANGER o s =>
    obtain ⟨c',xs',hd,hr,-⟩ := emplaceCoin_spec (o := o) h ho
    rw [CacheOp.apply,hd]
    exact ⟨xs',hr⟩
  | spendCoin o a => exact sane_spendCoin h o ho
  | getCoin o a =>
    refine sane_fetch h o ho fun c' he => ?_
    cases hf : c.fetched o a <;> simp [CacheOp.apply,getCoin,he,hf,Except.map]
  | haveCoin o a =>
    refine sane_fetch h o ho fun c' he => ?_
    cases hf : c.fetched o a <;> simp [CacheOp.apply,haveCoin,he,hf,Except.map]
  | accessCoin o a =>
    refine sane_fetch h o ho fun c' he => ?_
    cases hf : c.fetched o a <;> simp [CacheOp.apply,accessCoin,he,hf,Except.map]
  | uncache o =>
    obtain ⟨c',xs',hu,hr,-⟩ := uncache_spec (o := o) h
    rw [CacheOp.apply,hu]
    exact ⟨xs',hr⟩
  | setBestBlock ha => exact ⟨xs,h.setBestBlock ha⟩
  | batchWrite child we =>
    obtain ⟨ys,hr⟩ := hc child we rfl
    exact sane_batchWrite h hr we
  | flush base s => exact sane_flush h ho s
  | sync base s => exact sane_sync h ho s

end

theorem Reachable.rep {c : CCoinsViewCache} (h : Reachable c) : ∃ xs, Rep c xs := by
  induction h with
  | empty => exact ⟨[],rep_empty⟩
  | step op hc ho hh ha ihc i =>
    obtain ⟨xs,hr⟩ := ihc
    have hs := sane_apply hr ho i
    rw [ha] at hs
    exact hs

/-- The representation invariant: in every reachable cache all assertions of the sanity check hold,
and an operation on it succeeds or raises an error, without a bad pointer, a list that does not end
or a counter below zero. -/
theorem reachable_sanityCheck (c : CCoinsViewCache) (h : Reachable c) : c.sanityCheck = true ∧
    (∃ xs : List COutPoint, xs.Nodup ∧ Path c.next c.prev none xs none ∧
      ∀ k, k ∈ xs ↔ ∃ v, c.value k = some v ∧ v.flagged = true) ∧
    c.recomputedUsage = c.cachedCoinsUsage ∧
    ∀ (op : CacheOp) (e : CacheError), op.Promised →
      (∀ child will_erase, op = .batchWrite child will_erase → Reachable child) →
      op.apply c = .error e → raised e = true := by
  obtain ⟨xs,hr⟩ := h.rep
  refine ⟨sanityCheck_of_rep hr,⟨xs,hr.wired.ring.nodup,hr.wired.ring.path,
    hr.wired.mem_iff⟩,hr.usage,fun op e ho hc ha => ?_⟩
  have hs := sane_apply hr ho fun child w he => (hc child w he).rep
  rw [ha] at hs
  exact hs

def longCoin (nValue : CAmount) : StoredCoin := .copyOf ⟨⟨nValue,List.replicate 40 0x51#8⟩,false,1⟩

theorem reachable_sanityCheck_addCoin :
    ∃ c, empty.addCoin ⟨1#256, 0#32⟩ (longCoin 50) false = .ok c ∧ c.sanityCheck = true := by
  obtain ⟨c,xs,ha,-⟩ := addCoin_spec (o := ⟨1#256,0#32⟩) rep_empty
    (s := longCoin 50) (by decide) (by decide) (fun _ v hv => by simp [value,empty] at hv)
  exact ⟨c,ha,(reachable_sanityCheck c (.step (.addCoin ⟨1#256,0#32⟩ (longCoin 50) false)
    .empty trivial (fun _ _ h => by cases h) ha)).1⟩

/-- A spent coin emplaced with a long script: `Sync` erases the entry, but the counter keeps the
script's memory. -/
theorem emplaced_spent_script_breaks_counter : (do
      let c ← empty.emplaceCoinInternalDANGER ⟨1#256, 0#32⟩ (longCoin (-1))
      let (c', _, _) ← c.sync (.visits writeEntry) empty
      return (c.sanityCheck, c'.sanityCheck, c'.recomputedUsage, c'.cachedCoinsUsage)) =
    (.ok (true, false, 0, 64) : Except CacheError (Bool × Bool × ℕ × ℕ)) := by
  decide +kernel

end DripCore.CCoinsViewCache
