import DripCore.CoinsViewRefinement

/-!
# Stores of coins

The operations block connection uses, as an interface, and the laws that relate them to the logical
view of a store. The top cache of a coherent stack is such a store.

The loops of block connection and disconnection are proved once, against the laws. Every lemma about
them is a lemma about the stack of caches, and also about any other store that keeps the laws.
-/
namespace DripCore
open CCoinsViewCache CoinsView ExceptRules

class CoinsStore (σ : Type) where
  addCoin : σ → COutPoint → Coin → Bool → Except CacheError σ
  spendCoin : σ → COutPoint → Except CacheError (σ × Option Coin)
  haveCoin : σ → COutPoint → Except CacheError (σ × Bool)
  accessCoin : σ → COutPoint → Except CacheError (σ × Coin)
  setBestBlock : σ → BitVec 256 → σ
  getBestBlock : σ → σ × BitVec 256

open CoinsStore

/-- Stores whose operations act on a logical view; a missing coin is nothing or a spent coin. -/
class LawfulStore (σ : Type) extends CoinsStore σ where
  Inv : σ → Prop
  view : σ → COutPoint → Option Coin
  isSpent_view {s : σ} {o : COutPoint} {coin : Coin} :
    Inv s → view s o = some coin → coin.isSpent = false
  addCoin_unspendable {s : σ} (o : COutPoint) {coin : Coin} (possible_overwrite : Bool) :
    Inv s → coin.isSpent = false → CScript.isUnspendable coin.out.scriptPubKey = true →
      addCoin s o coin possible_overwrite = .ok s
  addCoin_view {s : σ} {o : COutPoint} {coin : Coin} {possible_overwrite : Bool} :
    Inv s → coin.isSpent = false → CScript.isUnspendable coin.out.scriptPubKey = false →
      (possible_overwrite = false → view s o = none) →
      ∃ s', addCoin s o coin possible_overwrite = .ok s' ∧ Inv s' ∧
        view s' = Function.update (view s) o (some coin)
  spendCoin_view {s : σ} (o : COutPoint) : Inv s →
    ∃ s' moveout, spendCoin s o = .ok (s', moveout) ∧ Inv s' ∧
      view s' = Function.update (view s) o none ∧ moveout.bind unspent = view s o
  haveCoin_view {s : σ} (o : COutPoint) : Inv s →
    ∃ s', haveCoin s o = .ok (s', (view s o).isSome) ∧ Inv s' ∧ view s' = view s
  accessCoin_view {s : σ} (o : COutPoint) : Inv s →
    ∃ s' coin, accessCoin s o = .ok (s', coin) ∧ Inv s' ∧ view s' = view s ∧ unspent coin = view s o
  setBestBlock_view {s : σ} (hashBlock : BitVec 256) : Inv s →
    Inv (setBestBlock s hashBlock) ∧ view (setBestBlock s hashBlock) = view s
  getBestBlock_view {s : σ} : Inv s → Inv (getBestBlock s).1 ∧ view (getBestBlock s).1 = view s

abbrev UtxoMap := Finmap fun _ : COutPoint => Coin

/-- A cache that does not know its best block asks the view below. -/
def CoinsView.getBestBlock : CoinsView → CoinsView × BitVec 256
  | .coinsMap hashBlock coins => (.coinsMap hashBlock coins,hashBlock)
  | .cache c base =>
    if c.hashBlock = 0 then
      let (base,hashBlock) := base.getBestBlock
      (.cache (c.setBestBlock hashBlock) base,hashBlock)
    else (.cache c base,c.hashBlock)

/-- The coin in the result of an operation that hands one out. -/
def CoinsView.Output.handedOut : Output → Option Coin
  | .coin c => c
  | .access c => some c
  | _ => none

def CoinsView.Output.isTrue : Output → Bool
  | .flag b => b
  | _ => false

instance coinsViewStore : CoinsStore CoinsView where
  addCoin V o coin possible_overwrite :=
    (applyAt (.addCoin o (.copyOf coin) possible_overwrite) 0 V).map Prod.fst
  spendCoin V o := (applyAt (.spendCoin o) 0 V).map fun r => (r.1,r.2.handedOut)
  haveCoin V o := (applyAt (.haveCoin o) 0 V).map fun r => (r.1,r.2.isTrue)
  accessCoin V o := (applyAt (.accessCoin o) 0 V).map fun r =>
    (r.1,r.2.handedOut.getD Coin.empty)
  setBestBlock V hashBlock :=
    match V with
    | .coinsMap _ coins => .coinsMap hashBlock coins
    | .cache c base => .cache (c.setBestBlock hashBlock) base
  getBestBlock := getBestBlock

theorem applyAt_top {V : CoinsView} (op : LayerOp) (h : V.Coherent ∧ 0 < V.depth)
    (ho : Allowed op 0 V) : ∃ V' out, applyAt op 0 V = .ok (V',out) ∧
      (V'.Coherent ∧ 0 < V'.depth) ∧ Meets op 0 V V' out := by
  cases V with
  | coinsMap hashBlock coins => exact absurd h.2 (by simp [depth])
  | cache c base =>
    obtain ⟨c',base',out,ha,hc,hm⟩ := applyTop_spec h.1 ho
    exact ⟨.cache c' base',out,ha,⟨hc,Nat.succ_pos _⟩,hm⟩

theorem changed_view {V V' : CoinsView} {o : COutPoint} {coin : Option Coin}
    (h : Changed 0 o coin V V') : V'.view = Function.update V.view o coin := by
  have h0 := h 0
  rwa [layerView_zero,layerView_zero] at h0

theorem coherent_bestBlock {c : CCoinsViewCache} {base : CoinsView}
    (h : (cache c base).Coherent) (hashBlock : BitVec 256) :
    (cache (c.setBestBlock hashBlock) base).Coherent := by
  obtain ⟨xs,hr⟩ := h.2.1
  exact ⟨h.1,⟨xs,hr.setBestBlock hashBlock⟩,h.2.2⟩

theorem bestBlock_spec {V : CoinsView} (h : V.Coherent) :
    V.getBestBlock.1.Coherent ∧ V.getBestBlock.1.view = V.view ∧
      V.getBestBlock.1.depth = V.depth := by
  induction V with
  | coinsMap hashBlock coins => exact ⟨h,rfl,rfl⟩
  | cache c base ih =>
    rw [CoinsView.getBestBlock]
    split_ifs
    · obtain ⟨hc,hvi,hd⟩ := ih h.1
      obtain ⟨xs,hr⟩ := h.2.1
      refine ⟨⟨hc,⟨xs,hr.setBestBlock _⟩,fun k v hv => ?_⟩,?_,?_⟩
      · rw [hvi]
        exact h.2.2 k v hv
      · funext o
        change entryView (c.value o) _ = entryView (c.value o) _
        rw [hvi]
      · exact congrArg Nat.succ hd
    · exact ⟨h,rfl,rfl⟩

instance lawfulCoinsView : LawfulStore CoinsView where
  Inv V := V.Coherent ∧ 0 < V.depth
  view := view
  isSpent_view h hv := h.1.isSpent_view hv
  addCoin_unspendable {V} o {coin} possible_overwrite h hs hscript := by
    cases V with
    | coinsMap hashBlock coins => exact absurd h.2 (by simp [depth])
    | cache c base =>
      have hadd : c.addCoin o (.copyOf coin) possible_overwrite = .ok c := by
        simp [CCoinsViewCache.addCoin,StoredCoin.copyOf,hs,hscript]
      simp [CoinsStore.addCoin,applyAt,applyTop,hadd,Except.map]
  addCoin_view {V o coin possible_overwrite} h hs hscript hover := by
    obtain ⟨V',out,happly,hinv,hmeets⟩ :=
      applyAt_top (.addCoin o (.copyOf coin) possible_overwrite) h ⟨h.2,hs,
        fun hpo => by rw [layerView_zero]; exact hover hpo,fun j hj => absurd hj j.not_lt_zero⟩
    refine ⟨V',by simp [CoinsStore.addCoin,happly,Except.map],hinv,?_⟩
    have hchanged := hmeets.2
    rw [if_neg (by simpa [StoredCoin.copyOf] using hscript)] at hchanged
    exact changed_view hchanged
  spendCoin_view {V} o h := by
    obtain ⟨V',out,happly,hinv,⟨moveout,hout,hcoin⟩,hchanged⟩ := applyAt_top
      (.spendCoin o) h ⟨h.2,fun j hj => absurd hj j.not_lt_zero⟩
    rw [layerView_zero] at hcoin
    exact ⟨V',moveout,by simp [CoinsStore.spendCoin,happly,Except.map,hout,Output.handedOut],
      hinv,changed_view hchanged,hcoin⟩
  haveCoin_view {V} o h := by
    obtain ⟨V',out,happly,hinv,hout,hsame⟩ := applyAt_top (.haveCoin o) h ⟨h.2,trivial⟩
    rw [layerView_zero] at hout
    exact ⟨V',by simp [CoinsStore.haveCoin,happly,Except.map,hout,Output.isTrue],hinv,
      SameViews.view hsame⟩
  accessCoin_view {V} o h := by
    obtain ⟨V',out,happly,hinv,⟨coin,hout,hcoin⟩,hsame⟩ :=
      applyAt_top (.accessCoin o) h ⟨h.2,trivial⟩
    rw [layerView_zero] at hcoin
    exact ⟨V',coin,by simp [CoinsStore.accessCoin,happly,Except.map,hout,Output.handedOut],
      hinv,SameViews.view hsame,hcoin⟩
  setBestBlock_view {V} hashBlock h := by
    cases V with
    | coinsMap old coins => exact absurd h.2 (by simp [depth])
    | cache c base => exact ⟨⟨coherent_bestBlock h.1 hashBlock,h.2⟩,rfl⟩
  getBestBlock_view h := by
    obtain ⟨hcoherent,hview,hdepth⟩ := bestBlock_spec h.1
    exact ⟨⟨hcoherent,hdepth ▸ h.2⟩,hview⟩

end DripCore
