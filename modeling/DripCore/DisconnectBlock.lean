import DripCore.UpdateCoins

/-!
# Disconnecting a block

`DisconnectBlock` walks the transactions backwards, removes the outputs of each and restores its
inputs from the undo data. A transaction is undone on any store with the view that `UpdateCoins`
left.

Coins that cannot be spent never enter the view, so their undo data is not needed. A block whose own
outputs are spent in it is covered, since the walk is backwards.
-/
namespace DripCore
open CTransaction CoinsStore CoinsView ExceptRules FunctionUpdates List

inductive DisconnectResult where
  | ok
  | unclean
  | failed
deriving DecidableEq, Repr

def DisconnectResult.ofClean (fClean : Bool) : DisconnectResult := if fClean then .ok else .unclean

/-- The hashes of a block index entry and its ancestors, the parent first. -/
structure BlockBranch where
  hash : BitVec 256
  ancestors : List (BitVec 256)

def BlockBranch.nHeight (pindex : BlockBranch) : ℕ := pindex.ancestors.length

/-- `MAX_BLOCK_WEIGHT / MIN_TRANSACTION_OUTPUT_WEIGHT`. -/
def maxOutputsPerBlock : ℕ := 4000000 / (4*9)

/-- The two blocks whose coinbases were overwritten by later ones. -/
def isBIP30Overwritten (pindex : BlockBranch) : Bool := (pindex.nHeight == 91722 &&
    pindex.hash == 0x00000000000271a2dc26e7667f8419f2e15416dc6955e5a6c6cdf3f2574dd08e#256) ||
  (pindex.nHeight == 91812 &&
    pindex.hash == 0x00000000000af0aed4792b1acee3d966af36cf5def14935db8de83d6f9306f2f#256)

section
variable {σ : Type} [CoinsStore σ]

/-- The loop of `AccessByTxid`, with the number of indices still to try. -/
def accessByTxidLoop (txid : Txid) : ℕ → ℕ → σ → Except CacheError (σ × Coin)
  | 0, _, s => .ok (s,Coin.empty)
  | left+1, n, s => do
      let (s,alternate) ← accessCoin s ⟨txid,BitVec.ofNat 32 n⟩
      if alternate.isSpent then accessByTxidLoop txid left (n+1) s else return (s,alternate)

def accessByTxid (s : σ) (txid : Txid) : Except CacheError (σ × Coin) :=
  accessByTxidLoop txid maxOutputsPerBlock 0 s

/-- The undo coin with the metadata that older records left out. -/
def undoMetadata (undo : Coin) (s : σ) (out : COutPoint) : Except CacheError (σ × Option Coin) :=
  if undo.nHeight = 0 then do
    let (s,alternate) ← accessByTxid s out.hash
    if alternate.isSpent then return (s,none)
    else
      return (s,some { undo with nHeight := alternate.nHeight, fCoinBase := alternate.fCoinBase })
  else .ok (s,some undo)

def applyTxInUndo (undo : Coin) (s : σ) (out : COutPoint) :
    Except CacheError (σ × DisconnectResult) := do
  let (s,have_coin) ← haveCoin s out
  let fClean := !have_coin
  let (s,undo) ← undoMetadata undo s out
  match undo with
  | none => return (s,.failed)
  | some undo => do
      let s ← addCoin s out undo (!fClean)
      return (s,.ofClean fClean)

/-- The loop over the outputs of a transaction, which also compares them with the coins. -/
def removeOutputs (nHeight : ℕ) (is_coinbase is_bip30_exception : Bool) :
    List (COutPoint × CTxOut) → σ → Bool → Except CacheError (σ × Bool)
  | [], s, fClean => .ok (s,fClean)
  | (o,out)::outs, s, fClean =>
    if CScript.isUnspendable out.scriptPubKey then
      removeOutputs nHeight is_coinbase is_bip30_exception outs s fClean
    else do
      let (s,moveout) ← spendCoin s o
      let coin := moveout.getD Coin.empty
      let mismatch := moveout.isNone || out != coin.out || nHeight != coin.nHeight ||
        is_coinbase != coin.fCoinBase
      removeOutputs nHeight is_coinbase is_bip30_exception outs s
        (fClean && (!mismatch || is_bip30_exception))

/-- The loop over the inputs of a transaction, in the order in which they are restored. -/
def restoreInputs : List (COutPoint × Coin) → σ → Bool → Except CacheError (σ × DisconnectResult)
  | [], s, fClean => .ok (s,.ofClean fClean)
  | (out,undo)::rest, s, fClean => do
      let (s,res) ← applyTxInUndo undo s out
      match res with
      | .failed => return (s,.failed)
      | .ok => restoreInputs rest s fClean
      | .unclean => restoreInputs rest s false

/-- One round of `DisconnectBlock`; there is no undo record for the first transaction. -/
def disconnectTx (nHeight : ℕ) (fEnforceBIP30 : Bool) (tx : CTransaction)
    (txundo : Option CTxUndo) (s : σ) (fClean : Bool) : Except CacheError (σ × DisconnectResult) :=
      do
  let (s,fClean) ← removeOutputs nHeight tx.isCoinBase (tx.isCoinBase && !fEnforceBIP30)
    tx.outputs s fClean
  match txundo with
  | none => return (s,.ofClean fClean)
  | some txundo =>
    if txundo.vprevout.length ≠ tx.vin.length then return (s,.failed)
    else restoreInputs ((tx.vin.map CTxIn.prevout).zip txundo.vprevout).reverse s fClean

def disconnectTxs (nHeight : ℕ) (fEnforceBIP30 : Bool) :
    List (CTransaction × Option CTxUndo) → σ → Bool → Except CacheError (σ × DisconnectResult)
  | [], s, fClean => .ok (s,.ofClean fClean)
  | (tx,txundo)::rest, s, fClean => do
      let (s,res) ← disconnectTx nHeight fEnforceBIP30 tx txundo s fClean
      match res with
      | .failed => return (s,.failed)
      | .ok => disconnectTxs nHeight fEnforceBIP30 rest s true
      | .unclean => disconnectTxs nHeight fEnforceBIP30 rest s false

/-- `DisconnectBlock` with the undo data that was read, if any. -/
def disconnectBlock (vtx : List CTransaction) (pindex : BlockBranch)
    (blockUndo : Option CBlockUndo) (s : σ) : Except CacheError (σ × DisconnectResult) :=
  match blockUndo with
  | none => .ok (s,.failed)
  | some blockUndo =>
    if blockUndo.vtxundo.length+1 ≠ vtx.length then .ok (s,.failed)
    else do
      let (s,res) ← disconnectTxs pindex.nHeight (!isBIP30Overwritten pindex)
        (vtx.zip (none::blockUndo.vtxundo.map some)).reverse s true
      match res, pindex.ancestors.head? with
      | .failed, _ => return (s,.failed)
      | _, none => .error .nullPointer
      | res, some prev => return (setBestBlock s prev,res)

end

open LawfulStore
variable {σ : Type} [LawfulStore σ] {s : σ} {nHeight : ℕ} {tx : CTransaction} {co : List Coin}
variable {vtx : List CTransaction} {v : COutPoint → Option Coin}

theorem removeOutputs_spec (h : Inv s) {ic : Bool} (ibe fc : Bool)
    {ou : List (COutPoint × CTxOut)} (hn : (ou.map Prod.fst).Nodup)
    (hc : ∀ p ∈ ou, CScript.isUnspendable p.2.scriptPubKey = false →
      view s p.1 = some ⟨p.2,ic,nHeight⟩) :
    ∃ s', removeOutputs nHeight ic ibe ou s fc = .ok (s',fc) ∧ Inv s' ∧ view s' = updateAll (view s)
        ((ou.filter fun p => !CScript.isUnspendable p.2.scriptPubKey).map fun p => (p.1,none)) := by
  induction ou generalizing s with
  | nil => exact ⟨s,rfl,h,rfl⟩
  | cons p ou ih =>
    rcases p with ⟨o,out⟩
    rw [map_cons,nodup_cons] at hn
    have hr := fun p hp => hc p (mem_cons_of_mem _ hp)
    cases hsc : CScript.isUnspendable out.scriptPubKey with
    | true =>
      obtain ⟨s',hl,hin,hv⟩ := ih h hn.2 hr
      refine ⟨s',?_,hin,?_⟩
      · rw [removeOutputs,if_pos hsc,hl]
      · rw [hv,filter_cons_of_neg (by simp [hsc])]
    | false =>
      obtain ⟨s1,m,hsp,hin1,hv1,hm⟩ := spendCoin_view o h
      rw [hc _ mem_cons_self hsc] at hm
      obtain ⟨coin,rfl,hu⟩ := Option.bind_eq_some_iff.mp hm
      obtain rfl := unspent_eq_some hu
      obtain ⟨s',hl,hin,hv⟩ := ih hin1 hn.2 fun p hp hs => by
        rw [hv1,Function.update_of_ne]
        · exact hr p hp hs
        · exact fun he => hn.1 (mem_map.mpr ⟨p,hp,he⟩)
      refine ⟨s',?_,hin,?_⟩
      · rw [removeOutputs,if_neg (by simp [hsc])]
        simpa [hsp] using hl
      · rw [hv,hv1,filter_cons_of_pos (by simp [hsc])]
        rfl

/-- A coin that undo data restores exactly: it carries its metadata and can be spent. -/
def Restorable (coin : Coin) : Prop :=
  coin.nHeight ≠ 0 ∧ CScript.isUnspendable coin.out.scriptPubKey = false

theorem applyTxInUndo_spec (h : Inv s) {u : Coin} {out : COutPoint} (hs : u.isSpent = false)
    (hu : Restorable u) (ha : view s out = none) :
    ∃ s', applyTxInUndo u s out = .ok (s',.ok) ∧ Inv s' ∧
      view s' = Function.update (view s) out (some u) := by
  obtain ⟨s1,hh,hn,hv⟩ := haveCoin_view out h
  rw [ha] at hh
  obtain ⟨s2,hd,hn',hv'⟩ := addCoin_view hn hs hu.2
    (show false = false → view s1 out = none from fun _ => by rw [hv,ha])
  refine ⟨s2,?_,hn',by rw [hv',hv]⟩
  simp [applyTxInUndo,undoMetadata,hh,hu.1,hd,DisconnectResult.ofClean]

theorem restoreInputs_spec (h : Inv s) (fc : Bool) {l : List (COutPoint × Coin)}
    (hn : (l.map Prod.fst).Nodup) (hl : ∀ p ∈ l, p.2.isSpent = false ∧ Restorable p.2)
    (hb : ∀ p ∈ l, view s p.1 = none) :
    ∃ s', restoreInputs l s fc = .ok (s',.ofClean fc) ∧ Inv s' ∧
      view s' = updateAll (view s) (l.map fun p => (p.1,some p.2)) := by
  induction l generalizing s with
  | nil => exact ⟨s,rfl,h,rfl⟩
  | cons p l ih =>
    rcases p with ⟨out,undo⟩
    rw [map_cons,nodup_cons] at hn
    obtain ⟨hs,hu⟩ := hl _ mem_cons_self
    obtain ⟨s1,ha,hin1,hv1⟩ :=
      applyTxInUndo_spec h hs hu (hb _ mem_cons_self)
    obtain ⟨s',ho,hin,hv⟩ := ih hin1 hn.2 (fun p hp => hl p (mem_cons_of_mem _ hp)) fun p hp => by
        rw [hv1,Function.update_of_ne]
        · exact hb p (mem_cons_of_mem _ hp)
        · exact fun he => hn.1 (mem_map.mpr ⟨p,hp,he⟩)
    refine ⟨s',?_,hin,?_⟩
    · simp only [restoreInputs,ha,ok_bind,ho]
    · rw [hv,hv1]
      rfl

/-- Removing the outputs of a transaction leaves the view with its inputs spent. -/
theorem removeOutputs_afterTx (h : Inv s) (ha : ∀ p ∈ tx.spendable, v p.1 = none)
    (hv : view s = afterTx tx nHeight v) (ibe fc : Bool) :
    ∃ s', removeOutputs nHeight tx.isCoinBase ibe tx.outputs s fc =
      .ok (s',fc) ∧ Inv s' ∧ view s' = afterInputs tx.spends v := by
  obtain ⟨s',hr,hn,hv'⟩ := removeOutputs_spec h ibe fc tx.outputs_nodup fun p hp hs => by
      rw [hv,afterTx,afterOutputs_of_mem (mem_spendable.mpr ⟨hp,hs⟩)]
  refine ⟨s',hr,hn,?_⟩
  rw [hv',hv]
  refine updateAll_eq (fun q hq => ?_) fun k hk => afterOutputs_notMem fun p hp => ?_
  · obtain ⟨p,hp,rfl⟩ := mem_map.mp hq
    exact (afterInputs_eq_none (ha p hp) _).symm
  · exact hk (p.1,none) (mem_map.mpr ⟨p,hp,rfl⟩)

theorem disconnectTx_coinbase (h : Inv s) (hc : tx.isCoinBase = true)
    (ha : ∀ p ∈ tx.spendable, v p.1 = none) (hv : view s = afterTx tx nHeight v)
    (fe fc : Bool) :
    ∃ s', disconnectTx nHeight fe tx none s fc = .ok (s',.ofClean fc) ∧ Inv s' ∧ view s' = v := by
  obtain ⟨s',hr,hn,hv'⟩ := removeOutputs_afterTx h ha hv (tx.isCoinBase && !fe) fc
  refine ⟨s',?_,hn,?_⟩
  · simp only [disconnectTx,hr,ok_bind,pure_eq_ok]
  · rw [hv',spends,if_pos hc]
    rfl

theorem zip_undo {keys : List COutPoint} (h : co.map some = keys.map v) :
    (keys.zip co).map (fun p => (p.1,some p.2)) = keys.map fun k => (k,v k) := by
  rw [map_prod_left_eq_zip,← h,zip_map_right]
  rfl

theorem disconnectTx_spec (h : Inv s) (hb : tx.isCoinBase = false) (ht : Applicable v tx)
    (hc : ∀ o coin, v o = some coin → coin.isSpent = false ∧ Restorable coin)
    (hu : co.map some = tx.spends.map fun t => v t.prevout)
    (hvi : view s = afterTx tx nHeight v) (fe fc : Bool) :
    ∃ s', disconnectTx nHeight fe tx (some ⟨co⟩) s fc = .ok (s',.ofClean fc) ∧ Inv s' ∧
      view s' = v := by
  obtain ⟨s1,hre,hn1,hvi1⟩ := removeOutputs_afterTx h (ht.absent hb) hvi (tx.isCoinBase && !fe) fc
  have hs := spends_eq_vin hb
  have hle : co.length = tx.vin.length := by
    simpa only [length_map,hs] using congrArg length hu
  let l := (tx.vin.map CTxIn.prevout).zip co
  have hl : l.map (fun p => (p.1,some p.2)) = tx.vin.map fun i => (i.prevout,v i.prevout) := by
    rw [zip_undo (v := v),map_map]
    · rfl
    · rw [hu,hs,map_map]
      rfl
  have hm : ∀ p ∈ l.reverse, ∃ i ∈ tx.vin, i.prevout = p.1 ∧ v p.1 = some p.2 := by
    intro p hp
    have ha : (p.1,some p.2) ∈ l.map fun p => (p.1,some p.2) :=
      mem_map.mpr ⟨p,mem_reverse.mp hp,rfl⟩
    rw [hl] at ha
    obtain ⟨i,hi,he⟩ := mem_map.mp ha
    rw [Prod.mk.injEq] at he
    exact ⟨i,hi,he.1,by rw [← he.1,he.2]⟩
  obtain ⟨s',hr,hn,hvi'⟩ := restoreInputs_spec (l := l.reverse) hn1 fc (by
      rw [map_reverse,nodup_reverse,map_fst_zip (by rw [length_map,hle]),← hs]
      exact ht.nodup)
    (fun p hp => by
      obtain ⟨i,-,-,hv⟩ := hm p hp
      exact hc _ _ hv)
    fun p hp => by
      obtain ⟨i,hi,hip,-⟩ := hm p hp
      rw [hvi1,hs,← hip]
      exact afterInputs_of_mem hi
  refine ⟨s',?_,hn,?_⟩
  · simp only [disconnectTx,hre,hle,ne_eq]
    exact hr
  · rw [hvi',hvi1,map_reverse,hl,hs]
    refine updateAll_eq (fun p hp => ?_) fun k hk => afterInputs_notMem fun i hi => ?_
    · obtain ⟨i,-,rfl⟩ := mem_map.mp (mem_reverse.mp hp)
      rfl
    · exact hk (i.prevout,v i.prevout) (mem_reverse.mpr (mem_map.mpr ⟨i,hi,rfl⟩))

/-- Every input is unspent when its transaction is applied in order. -/
def InputsAvailable (nHeight : ℕ) : List CTransaction → (COutPoint → Option Coin) → Prop
  | [], _ => True
  | tx::vtx, v => (∀ txin ∈ tx.spends, (v txin.prevout).isSome) ∧
      InputsAvailable nHeight vtx (afterTx tx nHeight v)

def CoinbaseFirst : List CTransaction → Prop
  | [] => False
  | coinbase::vtx => coinbase.isCoinBase = true ∧ ∀ tx ∈ vtx, tx.isCoinBase = false

/-- Transactions that fit onto a view: distinct identifiers, no input twice, no null output, every
input available in order, and no spendable output that is already there. -/
structure BlockFits (nHeight : ℕ) (vtx : List CTransaction) (v : COutPoint → Option Coin) :
    Prop where
  hashes : (vtx.map CTransaction.hash).Nodup
  inputs : ∀ tx ∈ vtx, (tx.vin.map CTxIn.prevout).Nodup
  notNull : ∀ tx ∈ vtx, ∀ out ∈ tx.vout, out.isNull = false
  absent : ∀ tx ∈ vtx, ∀ p ∈ tx.spendable, v p.1 = none
  available : InputsAvailable nHeight vtx v

theorem CTransaction.notNull_outputs (h : ∀ out ∈ tx.vout, out.isNull = false) :
    ∀ p ∈ tx.outputs, p.2.isNull = false := fun _ hp =>
  h _ (mem_of_getElem? (mem_outputs.mp hp).2)

section
variable (h : BlockFits nHeight (tx::vtx) v)
include h

theorem BlockFits.applicable : Applicable v tx where
  nodup := by
    unfold spends
    split_ifs
    · exact nodup_nil
    · exact h.inputs tx mem_cons_self
  available := h.available.1
  notNull := notNull_outputs (h.notNull tx mem_cons_self)
  absent _ := h.absent tx mem_cons_self

theorem BlockFits.tail : BlockFits nHeight vtx (afterTx tx nHeight v) where
  hashes := (nodup_cons.mp h.hashes).2
  inputs t ht := h.inputs t (mem_cons_of_mem _ ht)
  notNull t ht := h.notNull t (mem_cons_of_mem _ ht)
  absent t ht p hp := by
    refine afterTx_eq_none (h.absent t (mem_cons_of_mem _ ht) p hp) fun he => ?_
    rw [(mem_outputs.mp (mem_spendable.mp hp).1).1] at he
    exact (nodup_cons.mp h.hashes).1 (he ▸ mem_map.mpr ⟨t,ht,rfl⟩)
  available := h.available.2

/-- New coins carry the height of their block. -/
theorem BlockFits.restorable (hh : nHeight ≠ 0)
    (hv : ∀ o coin, v o = some coin → coin.isSpent = false ∧ Restorable coin) :
    ∀ o coin, afterTx tx nHeight v o = some coin → coin.isSpent = false ∧ Restorable coin :=
  afterTx_induction hv fun p hp =>
    have hp := mem_spendable.mp hp
    ⟨h.applicable.notNull p hp.1,hh,hp.2⟩

end

theorem disconnect_updateAll (hh : nHeight ≠ 0) (hcb : ∀ tx ∈ vtx, tx.isCoinBase = false)
    (h : Inv s) (hf : BlockFits nHeight vtx (view s))
    (hc : ∀ o coin, view s o = some coin → coin.isSpent = false ∧ Restorable coin)
    (fe : Bool) :
    ∃ s' vtxundo, updateCoinsAll nHeight vtx s = .ok (s',vtxundo) ∧
      vtxundo.length = vtx.length ∧ Inv s' ∧ view s' = afterTxs vtx nHeight (view s) ∧
      ∀ t : σ, Inv t → view t = view s' → ∀ rest, ∃ t' : σ, Inv t' ∧ view t' = view s ∧
        disconnectTxs nHeight fe ((vtx.zip (vtxundo.map some)).reverse++rest) t true =
          disconnectTxs nHeight fe rest t' true := by
  induction vtx generalizing s with
  | nil => exact ⟨s,[],rfl,rfl,h,rfl,fun t ht hvi rest => ⟨t,ht,hvi,rfl⟩⟩
  | cons tx vtx ih =>
    obtain ⟨s1,co,hu,hn1,hvi1,hun⟩ := updateCoins_spec h hf.applicable nHeight
    obtain ⟨s',vtxundo,ha,hl,hn,hvi,hb⟩ :=
      ih (fun t ht => hcb t (mem_cons_of_mem _ ht)) hn1 (hvi1 ▸ hf.tail)
        (hvi1 ▸ hf.restorable hh hc)
    refine ⟨s',⟨co⟩::vtxundo,?_,?_,hn,?_,fun t ht hvt rest => ?_⟩
    · simp only [updateCoinsAll,hu,ok_bind,ha,pure_eq_ok]
    · rw [length_cons,length_cons,hl]
    · rw [hvi,hvi1]
      rfl
    · obtain ⟨t1,hin,hv,hr⟩ := hb t ht hvt ((tx,some ⟨co⟩)::rest)
      obtain ⟨t',hd,hin',hv'⟩ :=
        disconnectTx_spec hin (hcb tx mem_cons_self) hf.applicable hc hun (hv.trans hvi1)
        fe true
      refine ⟨t',hin',hv',?_⟩
      rw [map_cons,zip_cons_cons,reverse_cons,append_assoc,singleton_append,hr,disconnectTxs,hd]
      rfl

theorem disconnect_connect (h : Inv s) {p : BlockBranch} (hh : 1 ≤ p.nHeight)
    (hf : CoinbaseFirst vtx)
    (hfi : BlockFits p.nHeight vtx (view s))
    (hc : ∀ o coin, view s o = some coin → Restorable coin) :
    ∃ s' bu, connectCoins vtx p.nHeight s = .ok (s',bu) ∧ Inv s' ∧ ∀ t : σ, Inv t →
      view t = view s' → ∃ t' : σ,
        disconnectBlock vtx p (some bu) t = .ok (t',.ok) ∧ Inv t' ∧ view t' = view s := by
  cases vtx with
  | nil => exact absurd hf id
  | cons coinbase vtx =>
    have ha := fun o coin hv =>
      (⟨isSpent_view h hv,hc o coin hv⟩ : coin.isSpent = false ∧ Restorable coin)
    obtain ⟨s1,co,hup,hinv1,he,-⟩ := updateCoins_spec h hfi.applicable p.nHeight
    obtain ⟨s',vtxundo,hu,hl,hinv,-,hb⟩ :=
      disconnect_updateAll (by omega) hf.2 hinv1 (he ▸ hfi.tail)
        (he ▸ hfi.restorable (by omega) ha) (!isBIP30Overwritten p)
    refine ⟨s',⟨vtxundo⟩,?_,hinv,fun t ht hvt => ?_⟩
    · simp only [connectCoins,updateCoinsAll,hup,hu,ok_bind,pure_eq_ok,tail_cons]
    · obtain ⟨t1,hin,hvi,hr⟩ := hb t ht hvt [(coinbase,none)]
      obtain ⟨t',hd,hin',hvi'⟩ := disconnectTx_coinbase hin hf.1 (hfi.absent coinbase mem_cons_self)
        (hvi.trans he)
        (!isBIP30Overwritten p) true
      obtain ⟨prev,hp⟩ : ∃ prev, p.ancestors.head? = some prev := by
        rw [← Option.isSome_iff_exists,isSome_head?]
        intro hn
        simp [BlockBranch.nHeight,hn] at hh
      obtain ⟨hinvb,hvie⟩ := setBestBlock_view prev hin'
      refine ⟨setBestBlock t' prev,?_,hinvb,hvie.trans hvi'⟩
      simp only [disconnectBlock,length_cons,hl,ne_eq,zip_cons_cons,reverse_cons,hr,disconnectTxs,
        hd,hp]
      rfl

/-- Disconnecting undoes connecting, also on another stack with the same view, as when the caches
are flushed in between. -/
theorem disconnect_undoes_connect (V : CoinsView) (hV : V.Coherent) (hdepth : 0 < V.depth)
    (hcoins : ∀ o coin, V.view o = some coin → Restorable coin) (vtx : List CTransaction)
    (pindex : BlockBranch) (hheight : 1 ≤ pindex.nHeight) (hfirst : CoinbaseFirst vtx)
    (hfits : BlockFits pindex.nHeight vtx V.view) :
    ∃ V' blockUndo, connectCoins vtx pindex.nHeight V = .ok (V', blockUndo) ∧
      V'.Coherent ∧ 0 < V'.depth ∧
      ∀ W : CoinsView, W.Coherent → 0 < W.depth → W.view = V'.view →
        ∃ W', disconnectBlock vtx pindex (some blockUndo) W = .ok (W', .ok) ∧ W'.view = V.view := by
  obtain ⟨V',blockUndo,hc,hn,hb⟩ :=
    disconnect_connect (show LawfulStore.Inv V from ⟨hV,hdepth⟩) hheight hfirst hfits hcoins
  refine ⟨V',blockUndo,hc,hn.1,hn.2,fun W hW hw hv => ?_⟩
  obtain ⟨W',hd,-,hv'⟩ := hb W ⟨hW,hw⟩ hv
  exact ⟨W',hd,hv'⟩

def singleCoin (coin : Coin) : CoinsView := newStack 0 (Finmap.singleton ⟨1#256,0#32⟩ coin) 1

variable {coin : Coin}

theorem view_singleCoin {c : Coin} {o : COutPoint} (h : (singleCoin coin).view o = some c) :
    c = coin := by
  change (Finmap.singleton ⟨1#256,0#32⟩ coin : UtxoMap).lookup o = some c at h
  have hm := Finmap.mem_of_lookup_eq_some h
  rw [Finmap.mem_singleton] at hm
  rw [hm,Finmap.lookup_singleton_eq,Option.some.injEq] at h
  exact h.symm

theorem coherent_singleCoin (h : coin.isSpent = false) : (singleCoin coin).Coherent :=
  coherent_newStack 0 (fun k c hc => by
    rw [view_singleCoin (show (singleCoin coin).view k = some c from hc),h]) 1

/-- A transaction with the given inputs, each with an empty script. -/
def plainTx (hash : Txid) (prevout : COutPoint) (vout : List CTxOut)
    (hsize : vout.length < 2^32) : CTransaction where
  version := 2
  vin := [⟨prevout,[],0,[]⟩]
  vout := vout
  nLockTime := 0
  hash := hash
  vin_size := by simp
  vout_size := hsize
  scriptSig_size := by simp

def nullOutPoint : COutPoint := ⟨0,0xffffffff#32⟩

/-- A coinbase with an output that cannot be spent, a spend of the single coin, and one of its
output. -/
def chainedSpends : List CTransaction :=
  [plainTx 7 nullOutPoint [⟨50,[0x51#8]⟩,⟨0,[0x6a#8]⟩] (by decide),
    plainTx 8 ⟨1#256,0#32⟩ [⟨30,[0x51#8]⟩,⟨20,[]⟩] (by decide),
    plainTx 9 ⟨8#256,0#32⟩ [⟨30,[0x52#8]⟩] (by decide)]

theorem first_chainedSpends : CoinbaseFirst chainedSpends := ⟨by decide,by decide⟩

theorem disconnect_undoes_connect_chained :
    ∃ V' blockUndo W', connectCoins chainedSpends 1 (singleCoin oneCoin) = .ok (V', blockUndo) ∧
      disconnectBlock chainedSpends ⟨2, [1]⟩ (some blockUndo) V' = .ok (W', .ok) ∧
      W'.view = (singleCoin oneCoin).view := by
  obtain ⟨V',blockUndo,hc,ho,he,hb⟩ :=
    disconnect_undoes_connect (singleCoin oneCoin) (coherent_singleCoin rfl) (by decide)
      (fun o coin hv => view_singleCoin hv ▸ ⟨by decide,by decide⟩) chainedSpends ⟨2,[1]⟩
      (by decide) first_chainedSpends
      ⟨by decide,by decide,by decide,by decide +kernel,
        by decide +kernel,by decide +kernel,by decide +kernel,trivial⟩
  obtain ⟨W',hd,hvi⟩ := hb V' ho he rfl
  exact ⟨V',blockUndo,W',hc,hd,hvi⟩

def returnCoin : Coin := ⟨⟨50,[0x6a#8]⟩,false,1⟩

/-- The block spends such a coin; it is not restored, yet the result is clean. -/
theorem unspendable_coin_not_restored :
    (∀ o coin, (singleCoin returnCoin).view o = some coin → coin.nHeight ≠ 0) ∧
    CoinbaseFirst chainedSpends ∧ BlockFits 1 chainedSpends (singleCoin returnCoin).view ∧
    (do
      let (V', blockUndo) ← connectCoins chainedSpends 1 (singleCoin returnCoin)
      let (W', res) ← disconnectBlock chainedSpends ⟨2, [1]⟩ (some blockUndo) V'
      return ((singleCoin returnCoin).view ⟨1#256, 0#32⟩, res, W'.view ⟨1#256, 0#32⟩)) =
    (.ok (some returnCoin, .ok, none) :
      Except CacheError (Option Coin × DisconnectResult × Option Coin)) := by
  refine ⟨fun o coin hv => view_singleCoin hv ▸ by decide,first_chainedSpends,?_,?_⟩
  · exact ⟨by decide,by decide,by decide,by decide +kernel,
      by decide +kernel,by decide +kernel,by decide +kernel,trivial⟩
  · decide +kernel

end DripCore
