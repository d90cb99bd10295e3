import DripCore.CoinsCacheInvariant

/-!
# Stacks of coins caches

A coins view is a map of unspent coins, or a cache over another view. The logical view of a layer
has the cached entries over the view below. An operation is applied to one layer; it asks the layers
below for coins that are not cached, and a flush writes to the layer just below.
-/
namespace DripCore
open CCoinsViewCache ExceptRules Function

inductive CoinsView where
  | coinsMap (hashBlock : BitVec 256) (coins : Finmap fun _ : COutPoint => Coin)
  | cache (c : CCoinsViewCache) (base : CoinsView)

def writeCoin : Visitor (Finmap fun _ : COutPoint => Coin) := fun coins k v _ =>
  if v.dirty then
    if v.coin.isSpent then .ok (coins.erase k,false) else .ok (coins.insert k v.coin,false)
  else .ok (coins,false)

namespace CoinsView

def getCoin : CoinsView → COutPoint → Except CacheError (CoinsView × Option Coin)
  | coinsMap hashBlock coins, o => .ok (coinsMap hashBlock coins,coins.lookup o)
  | cache c base, o =>
    match c.cacheCoins.lookup o with
    | some _ => do
        let (c,coin) ← c.getCoin o none
        return (cache c base,coin)
    | none => do
        let (base,answer) ← base.getCoin o
        let (c,coin) ← c.getCoin o (answer.map .copyOf)
        return (cache c base,coin)

/-- What the view below answers to a layer, which asks only for coins it has not cached. -/
def ask (c : CCoinsViewCache) (base : CoinsView) (o : COutPoint) :
    Except CacheError (CoinsView × Option StoredCoin) :=
  match c.cacheCoins.lookup o with
  | some _ => .ok (base,none)
  | none => do
      let (base,answer) ← base.getCoin o
      return (base,answer.map .copyOf)

/-- A batch written by the layer above, whose `Sync` or `Flush` is given. -/
def writeBelow (write : ∀ {σ : Type}, Receiver σ → σ →
    Except CacheError (CCoinsViewCache × σ × Bool))
    (hashBlock : BitVec 256) : CoinsView → Except CacheError (CoinsView × CCoinsViewCache × Bool)
  | coinsMap _ coins => do
      let (c,coins,ok) ← write (.visits writeCoin) coins
      return (coinsMap hashBlock coins,c,ok)
  | cache p base => do
      let (c,p,ok) ← write (.visits writeEntry) p
      return (cache (p.setBestBlock hashBlock) base,c,ok)

inductive LayerOp where
  | addCoin (outpoint : COutPoint) (s : StoredCoin) (possible_overwrite : Bool)
  | spendCoin (outpoint : COutPoint)
  | getCoin (outpoint : COutPoint)
  | haveCoin (outpoint : COutPoint)
  | accessCoin (outpoint : COutPoint)
  | haveCoinInCache (outpoint : COutPoint)
  | uncache (outpoint : COutPoint)
  | sync
  | flush

inductive Output where
  | unit
  | flag (b : Bool)
  | coin (c : Option Coin)
  | access (c : Coin)
deriving DecidableEq

def applyTop (op : LayerOp) (c : CCoinsViewCache) (base : CoinsView) :
    Except CacheError (CoinsView × Output) :=
  match op with
  | .addCoin o s possible_overwrite => do
      let c ← c.addCoin o s possible_overwrite
      return (cache c base,.unit)
  | .spendCoin o => do
      let (base,answer) ← ask c base o
      let (c,moveout) ← c.spendCoin o answer
      return (cache c base,.coin (moveout.map StoredCoin.coin))
  | .getCoin o => do
      let (base,answer) ← ask c base o
      let (c,coin) ← c.getCoin o answer
      return (cache c base,.coin coin)
  | .haveCoin o => do
      let (base,answer) ← ask c base o
      let (c,have_coin) ← c.haveCoin o answer
      return (cache c base,.flag have_coin)
  | .accessCoin o => do
      let (base,answer) ← ask c base o
      let (c,coin) ← c.accessCoin o answer
      return (cache c base,.access coin)
  | .haveCoinInCache o => .ok (cache c base,.flag (c.haveCoinInCache o))
  | .uncache o => do
      let c ← c.uncache o
      return (cache c base,.unit)
  | .sync => do
      let (base,c,ok) ← writeBelow (fun r s => c.sync r s) c.hashBlock base
      return (cache c base,.flag ok)
  | .flush => do
      let (base,c,ok) ← writeBelow (fun r s => c.flush r s) c.hashBlock base
      return (cache c base,.flag ok)

/-- An operation on the layer at a depth; there is none at or below the coins map. -/
def applyAt (op : LayerOp) : ℕ → CoinsView → Except CacheError (CoinsView × Output)
  | _, coinsMap _ _ => .error .nullPointer
  | 0, cache c base => applyTop op c base
  | i+1, cache c base => do
      let (base,out) ← applyAt op i base
      return (cache c base,out)

def unspent (coin : Coin) : Option Coin := if coin.isSpent then none else some coin

/-- An entry overrides what is below it. -/
def entryView (entry : Option CacheValue) (below : Option Coin) : Option Coin :=
  match entry with
  | some v => unspent v.coin
  | none => below

def view : CoinsView → COutPoint → Option Coin
  | coinsMap _ coins, o => coins.lookup o
  | cache c base, o => entryView (c.value o) (base.view o)

/-- The logical view of the layer at a depth, the coins map being the last one. -/
def layerView : CoinsView → ℕ → COutPoint → Option Coin
  | V, 0 => V.view
  | cache _ base, i+1 => base.layerView i
  | coinsMap _ _, _+1 => fun _ => none

def Coherent : CoinsView → Prop
  | coinsMap _ coins => ∀ k coin, coins.lookup k = some coin → coin.isSpent = false
  | cache c base => base.Coherent ∧ (∃ xs, Rep c xs) ∧ ∀ k v, c.value k = some v →
      (v.dirty = false → base.view k = some v.coin) ∧ (v.fresh = true → base.view k = none)

variable {coin : Coin} {base base' : CoinsView} {c c' : CCoinsViewCache} {o : COutPoint}
    {w : Option CacheValue}

theorem unspent_of_not (h : coin.isSpent = false) : unspent coin = some coin := by
  rw [unspent,h]
  rfl

theorem unspent_of_isSpent (h : coin.isSpent = true) : unspent coin = none := by
  rw [unspent,h]
  rfl

theorem unspent_eq_some {c : Coin} (h : unspent coin = some c) : coin = c := by
  unfold unspent at h
  split_ifs at h
  exact Option.some.inj h

theorem Coherent.isSpent_view {V : CoinsView} (h : V.Coherent) {k : COutPoint}
    (hv : V.view k = some coin) : coin.isSpent = false := by
  induction V with
  | coinsMap hashBlock coins => exact h k coin hv
  | cache c base ih =>
    rw [view] at hv
    cases ha : c.value k with
    | none => exact ih h.1 (by simpa only [ha,entryView] using hv)
    | some v =>
      simp only [ha,entryView,unspent] at hv
      cases hs : v.coin.isSpent with
      | true => simp [hs] at hv
      | false =>
        rw [hs] at hv
        rw [← Option.some.inj hv,hs]

theorem view_update (hb : base'.view = base.view) (hv : c'.value = update c.value o w) :
    (cache c' base').view = update (cache c base).view o (entryView w (base.view o)) := by
  funext k
  rw [update_apply,view,hv,update_apply]
  split_ifs with hk
  · rw [hk,hb]
  · rw [hb]
    rfl

theorem layerView_cache (c : CCoinsViewCache) (base : CoinsView) (i : ℕ) :
    (cache c base).layerView (i+1) = base.layerView i := rfl

theorem layerView_zero (V : CoinsView) : V.layerView 0 = V.view := by
  cases V <;> rfl

theorem Coherent.update (h : (cache c base).Coherent) (hb : base'.Coherent)
    (hvi : base'.view = base.view) (hr : ∃ xs, Rep c' xs)
    (hv : c'.value = update c.value o w)
    (hw : ∀ v, w = some v → (v.dirty = false → base.view o = some v.coin) ∧
      (v.fresh = true → base.view o = none)) : (cache c' base').Coherent := by
  refine ⟨hb,hr,fun k v hk => ?_⟩
  rw [hv,update_apply] at hk
  rw [hvi]
  split_ifs at hk with ho
  · rw [ho]
    exact hw v hk
  · exact h.2.2 k v hk

end CoinsView
end DripCore
