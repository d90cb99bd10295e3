import DripCore.CoinsStore
import DripCore.FunctionUpdates

/-!
# Applying transactions to the coins

`UpdateCoins` spends the inputs of a transaction, collecting the coins for the undo data, and adds
its outputs. On the logical view both loops are lists of updates.

The effect of a transaction on a view is stated once, as a function of the view alone. Connecting
and disconnecting are both compared with it.
-/
namespace DripCore
open CTransaction CoinsView ExceptRules FunctionUpdates List

def CTransaction.outputs (tx : CTransaction) : List (COutPoint × CTxOut) :=
  tx.vout.zipIdx.map fun p => (⟨tx.hash,BitVec.ofNat 32 p.2⟩,p.1)

def CTransaction.spends (tx : CTransaction) : List CTxIn := if tx.isCoinBase then [] else tx.vin

variable {tx : CTransaction} {p : COutPoint × CTxOut} {o : COutPoint} {v : COutPoint → Option Coin}
    {vin : List CTxIn}

theorem CTransaction.spends_eq_vin (h : tx.isCoinBase = false) : tx.spends = tx.vin := by
  rw [spends,h]
  rfl

/-- The coins spent by a transaction, in the order of its inputs. -/
structure CTxUndo where
  vprevout : List Coin
deriving DecidableEq

structure CBlockUndo where
  vtxundo : List CTxUndo
deriving DecidableEq

section
variable {σ : Type} [CoinsStore σ]

/-- Whether an output may overwrite a coin: looked up, or exactly for coinbases. -/
def mayOverwrite (tx : CTransaction) (check_for_overwrite : Bool) (s : σ) (o : COutPoint) :
    Except CacheError (σ × Bool) :=
  if check_for_overwrite then CoinsStore.haveCoin s o else .ok (s,tx.isCoinBase)

def addCoinsLoop (tx : CTransaction) (nHeight : ℕ) (check_for_overwrite : Bool) :
    List (COutPoint × CTxOut) → σ → Except CacheError σ
  | [], s => .ok s
  | (o,out)::outs, s => do
      let (s,overwrite) ← mayOverwrite tx check_for_overwrite s o
      let s ← CoinsStore.addCoin s o ⟨out,tx.isCoinBase,nHeight⟩ overwrite
      addCoinsLoop tx nHeight check_for_overwrite outs s

def addCoins (s : σ) (tx : CTransaction) (nHeight : ℕ) (check_for_overwrite : Bool) :
    Except CacheError σ :=
  addCoinsLoop tx nHeight check_for_overwrite tx.outputs s

/-- The loop of `UpdateCoins` over the inputs, which asserts that each was found. -/
def spendInputs : List CTxIn → σ → Except CacheError (σ × List Coin)
  | [], s => .ok (s,[])
  | txin::vin, s => do
      let (s,moveout) ← CoinsStore.spendCoin s txin.prevout
      match moveout with
      | none => .error .assertion
      | some coin => do
          let (s,vprevout) ← spendInputs vin s
          return (s,coin::vprevout)

def updateCoins (tx : CTransaction) (inputs : σ) (nHeight : ℕ) : Except CacheError (σ × CTxUndo) :=
    do
  let (inputs,vprevout) ← spendInputs tx.spends inputs
  let inputs ← addCoins inputs tx nHeight false
  return (inputs,⟨vprevout⟩)

def updateCoinsAll (nHeight : ℕ) : List CTransaction → σ → Except CacheError (σ × List CTxUndo)
  | [], s => .ok (s,[])
  | tx::vtx, s => do
      let (s,txundo) ← updateCoins tx s nHeight
      let (s,vtxundo) ← updateCoinsAll nHeight vtx s
      return (s,txundo::vtxundo)

/-- `UpdateCoins` on every transaction of a block; the undo data of the first is dropped. -/
def connectCoins (vtx : List CTransaction) (nHeight : ℕ) (s : σ) :
    Except CacheError (σ × CBlockUndo) := do
  let (s,vtxundo) ← updateCoinsAll nHeight vtx s
  return (s,⟨vtxundo.tail⟩)

end

def CTransaction.spendable (tx : CTransaction) : List (COutPoint × CTxOut) :=
  tx.outputs.filter fun p => !CScript.isUnspendable p.2.scriptPubKey

def afterInputs (vin : List CTxIn) (v : COutPoint → Option Coin) : COutPoint → Option Coin :=
  updateAll v (vin.map fun txin => (txin.prevout,none))

def afterOutputs (outs : List (COutPoint × CTxOut)) (fCoinBase : Bool) (nHeight : ℕ)
    (v : COutPoint → Option Coin) : COutPoint → Option Coin :=
  updateAll v (outs.map fun p => (p.1,some ⟨p.2,fCoinBase,nHeight⟩))

def afterTx (tx : CTransaction) (nHeight : ℕ) (v : COutPoint → Option Coin) : COutPoint →
    Option Coin :=
  afterOutputs tx.spendable tx.isCoinBase nHeight (afterInputs tx.spends v)

def afterTxs (vtx : List CTransaction) (nHeight : ℕ) (v : COutPoint → Option Coin) :
    COutPoint → Option Coin :=
  vtx.foldl (fun v tx => afterTx tx nHeight v) v

theorem CTransaction.mem_outputs : p ∈ tx.outputs ↔
    p.1.hash = tx.hash ∧ tx.vout[p.1.n.toNat]? = some p.2 := by
  rcases p with ⟨⟨hash,n⟩,out⟩
  simp only [outputs,mem_map,mem_zipIdx_iff_getElem?,Prod.mk.injEq,Prod.exists,COutPoint.mk.injEq]
  constructor
  · rintro ⟨a,i,hg,⟨rfl,rfl⟩,rfl⟩
    have hi : i < 2^32 := (List.getElem?_eq_some_iff.mp hg).1.trans tx.vout_size
    rw [BitVec.toNat_ofNat,Nat.mod_eq_of_lt hi]
    exact ⟨rfl,hg⟩
  · rintro ⟨rfl,hg⟩
    exact ⟨out,n.toNat,hg,⟨rfl,by rw [BitVec.ofNat_toNat,BitVec.setWidth_eq]⟩,rfl⟩

theorem CTransaction.mem_spendable :
    p ∈ tx.spendable ↔ p ∈ tx.outputs ∧ CScript.isUnspendable p.2.scriptPubKey = false := by
  rw [spendable,mem_filter,Bool.not_eq_true']

theorem CTransaction.outputs_nodup (tx : CTransaction) : (tx.outputs.map Prod.fst).Nodup := by
  have hd : tx.outputs.map Prod.fst =
      (range' 0 tx.vout.length).map fun i => (⟨tx.hash,BitVec.ofNat 32 i⟩ : COutPoint) := by
    rw [← zipIdx_map_snd 0 tx.vout,outputs,map_map,map_map]
    rfl
  rw [hd]
  refine List.Nodup.map_on (fun i hi j hj hij => ?_) nodup_range'
  have hs := tx.vout_size
  rw [mem_range'_1] at hi hj
  have hn := congrArg (fun o : COutPoint => o.n.toNat) hij
  simpa only [BitVec.toNat_ofNat,Nat.mod_eq_of_lt (show i < 2^32 by omega),
    Nat.mod_eq_of_lt (show j < 2^32 by omega)] using hn

theorem CTransaction.spendable_nodup (tx : CTransaction) : (tx.spendable.map Prod.fst).Nodup :=
  tx.outputs_nodup.sublist (filter_sublist.map _)

theorem afterInputs_eq_none (h : v o = none) (vin : List CTxIn) : afterInputs vin v o = none :=
  updateAll_induction (P := fun k w => k = o → w = none) (fun _ hk => hk ▸ h) (fun p hp _ => by
      obtain ⟨t,-,rfl⟩ := mem_map.mp hp
      rfl) o rfl

theorem afterInputs_of_mem {t : CTxIn} (h : t ∈ vin) : afterInputs vin v t.prevout = none := by
  have hm : vin.map (fun i => (i.prevout,(none : Option Coin))) =
      (vin.map CTxIn.prevout).map fun k => (k,none) := by
    rw [map_map]
    rfl
  rw [afterInputs,hm]
  exact updateAll_const (mem_map.mpr ⟨t,h,rfl⟩)

theorem afterInputs_notMem (h : ∀ t ∈ vin, t.prevout ≠ o) : afterInputs vin v o = v o :=
    updateAll_of_notMem fun p hp => by
    obtain ⟨t,ht,rfl⟩ := mem_map.mp hp
    exact h t ht

variable {nh : ℕ}

theorem afterOutputs_of_mem (hp : p ∈ tx.spendable) (fCoinBase : Bool) :
    afterOutputs tx.spendable fCoinBase nh v p.1 = some ⟨p.2,fCoinBase,nh⟩ := by
  refine updateAll_of_mem ?_ (mem_map.mpr ⟨p,hp,rfl⟩)
  rw [map_map]
  exact tx.spendable_nodup

variable {outs : List (COutPoint × CTxOut)}

theorem afterOutputs_notMem {fCoinBase : Bool} (h : ∀ p ∈ outs, p.1 ≠ o) :
    afterOutputs outs fCoinBase nh v o = v o :=
  updateAll_of_notMem fun q hq => by
    obtain ⟨p,hp,rfl⟩ := mem_map.mp hq
    exact h p hp

theorem afterTx_eq_none (h : v o = none) (ho : o.hash ≠ tx.hash) : afterTx tx nh v o = none := by
  rw [afterTx,afterOutputs_notMem fun p hp he => ?_,afterInputs_eq_none h]
  exact ho (he ▸ (mem_outputs.mp (mem_spendable.mp hp).1).1)

/-- Coins after a transaction are coins from before or its spendable outputs. -/
theorem afterTx_induction {P : Coin → Prop} (hv : ∀ o coin, v o = some coin → P coin)
    (ho : ∀ p ∈ tx.spendable, P ⟨p.2,tx.isCoinBase,nh⟩) :
    ∀ o coin, afterTx tx nh v o = some coin → P coin :=
  updateAll_induction (P := fun _ w => ∀ coin, w = some coin → P coin)
    (updateAll_induction (P := fun _ w => ∀ coin, w = some coin → P coin) hv (fun q hq coin hc => by
      obtain ⟨t,-,rfl⟩ := mem_map.mp hq
      exact absurd hc (by simp)))
    fun q hq coin hc => by
      obtain ⟨p,hp,rfl⟩ := mem_map.mp hq
      exact Option.some.inj hc ▸ ho p hp

variable {σ : Type} [LawfulStore σ] {s : σ}
open LawfulStore

theorem spendInputs_spec (h : Inv s) (hn : (vin.map CTxIn.prevout).Nodup)
    (hh : ∀ t ∈ vin, (view s t.prevout).isSome) :
    ∃ s' coins, spendInputs vin s = .ok (s',coins) ∧ Inv s' ∧ view s' = afterInputs vin (view s) ∧
      coins.map some = vin.map fun t => view s t.prevout := by
  induction vin generalizing s with
  | nil => exact ⟨s,[],rfl,h,rfl,rfl⟩
  | cons t vin ih =>
    rw [map_cons,nodup_cons] at hn
    obtain ⟨s1,m,hs,hin,hv,hm⟩ := spendCoin_view t.prevout h
    obtain ⟨coin,hco⟩ := Option.isSome_iff_exists.mp (hh t mem_cons_self)
    rw [hco] at hm
    obtain ⟨c,rfl,hu⟩ := Option.bind_eq_some_iff.mp hm
    obtain rfl : c = coin := unspent_eq_some hu
    have ho : ∀ i ∈ vin, view s1 i.prevout = view s i.prevout := by
      intro i hi
      rw [hv,Function.update_of_ne]
      exact fun he => hn.1 (mem_map.mpr ⟨i,hi,he⟩)
    obtain ⟨s2,coins,hr,hin2,hv2,hc⟩ := ih hin hn.2 fun i hi => by
      rw [ho i hi]
      exact hh i (mem_cons_of_mem _ hi)
    refine ⟨s2,c::coins,?_,hin2,?_,?_⟩
    · simp only [spendInputs,hs,ok_bind,hr,pure_eq_ok]
    · rw [hv2,hv]
      rfl
    · rw [map_cons,map_cons,hc,hco]
      exact congrArg _ (map_congr_left ho)

theorem addCoinsLoop_spec (h : Inv s) (nh : ℕ) (hn : (outs.map Prod.fst).Nodup)
    (hu : ∀ p ∈ outs, p.2.isNull = false) (ha : tx.isCoinBase = false → ∀ p ∈ outs,
      CScript.isUnspendable p.2.scriptPubKey = false → view s p.1 = none) :
    ∃ s', addCoinsLoop tx nh false outs s = .ok s' ∧ Inv s' ∧
      view s' = afterOutputs (outs.filter fun p => !CScript.isUnspendable p.2.scriptPubKey)
        tx.isCoinBase nh (view s) := by
  induction outs generalizing s with
  | nil => exact ⟨s,rfl,h,rfl⟩
  | cons p outs ih =>
    rcases p with ⟨o,out⟩
    rw [map_cons,nodup_cons] at hn
    have hsp : (⟨out,tx.isCoinBase,nh⟩ : Coin).isSpent = false := hu _ mem_cons_self
    have hr := fun p hp => hu p (mem_cons_of_mem _ hp)
    cases hsc : CScript.isUnspendable out.scriptPubKey with
    | true =>
      obtain ⟨s',hl,hin,hv⟩ := ih h hn.2 hr fun hc p hp =>
        ha hc p (mem_cons_of_mem _ hp)
      refine ⟨s',?_,hin,?_⟩
      · simp only [addCoinsLoop,mayOverwrite,Bool.false_eq_true,if_false,ok_bind,
          addCoin_unspendable o tx.isCoinBase h hsp hsc,hl]
      · rw [hv,filter_cons_of_neg (by simp [hsc])]
    | false =>
      obtain ⟨s1,hd,hin1,hv1⟩ := addCoin_view h hsp hsc fun hc =>
        ha hc _ mem_cons_self hsc
      obtain ⟨s',hl,hin,hv⟩ := ih hin1 hn.2 hr fun hc p hp hs => by
        rw [hv1,Function.update_of_ne]
        · exact ha hc p (mem_cons_of_mem _ hp) hs
        · exact fun he => hn.1 (mem_map.mpr ⟨p,hp,he⟩)
      refine ⟨s',?_,hin,?_⟩
      · simp only [addCoinsLoop,mayOverwrite,Bool.false_eq_true,if_false,ok_bind,hd,hl]
      · rw [hv,hv1,filter_cons_of_pos (by simp [hsc])]
        rfl

/-- What `UpdateCoins` needs of a transaction and a view. -/
structure Applicable (v : COutPoint → Option Coin) (tx : CTransaction) : Prop where
  nodup : (tx.spends.map CTxIn.prevout).Nodup
  available : ∀ txin ∈ tx.spends, (v txin.prevout).isSome
  notNull : ∀ p ∈ tx.outputs, p.2.isNull = false
  absent : tx.isCoinBase = false → ∀ p ∈ tx.spendable, v p.1 = none

theorem updateCoins_spec (h : Inv s) (ht : Applicable (view s) tx) (nh : ℕ) :
    ∃ s' coins, updateCoins tx s nh = .ok (s',⟨coins⟩) ∧ Inv s' ∧ view s' = afterTx tx nh (view s) ∧
      coins.map some = tx.spends.map fun t => view s t.prevout := by
  obtain ⟨s1,coins,hs,hn,hv,hc⟩ := spendInputs_spec h ht.nodup ht.available
  obtain ⟨s2,ha,hn',hv'⟩ := addCoinsLoop_spec hn nh tx.outputs_nodup ht.notNull fun hb p hp
    hsc => by
      rw [hv]
      exact afterInputs_eq_none (ht.absent hb p (mem_spendable.mpr ⟨hp,hsc⟩)) _
  refine ⟨s2,coins,?_,hn',?_,hc⟩
  · simp only [updateCoins,hs,ok_bind,addCoins,ha,pure_eq_ok]
  · rw [hv',hv]
    rfl

end DripCore
