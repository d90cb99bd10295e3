import DripCore.NoInflation
import DripCore.ScriptHeight

/-!
# Heights in coinbases make transactions unique

On a chain on which every coinbase starts with the height of its block, and whose transactions have
no colliding identifiers, no transaction is connected twice: two coinbases differ in their heights,
and any other transaction spends an outpoint that the first occurrence has spent.
-/
namespace DripCore
open CTransaction CTxIn Except ExceptRules List Option

/-- The outcomes of the other checks of `ContextualCheckBlock`. -/
structure ContextChecks where
  isFinalTx : CTransaction → Bool
  checkWitnessMalleation : CBlock → Option (Invalid BlockValidationResult)
  blockWeight : CBlock → ℕ

/-- The coinbase has to start with the height once the rule is active. -/
def checkHeightInCoinbase (params : Params) (block : CBlock) (nHeight : ℕ) :
    Except BlockFailure Unit :=
  if params.deploymentHeight .heightInCb ≤ nHeight then
    let expect := pushInt64 [] nHeight
    match block.vtx.head?.bind fun tx => tx.vin.head? with
    | none => .error (.cache .nullPointer)
    | some txin =>
      if txin.scriptSig.length < expect.length ∨ txin.scriptSig.take expect.length ≠ expect then
        invalidBlock .consensus "bad-cb-height" "block height mismatch in coinbase"
      else .ok ()
  else .ok ()

def contextualCheckBlock (params : Params) (checks : ContextChecks) (block : CBlock)
    (pindexPrev : Option BlockBranch) : Except BlockFailure Unit :=
  let nHeight := pindexPrev.elim 0 fun pprev => pprev.nHeight+1
  if block.vtx.any fun tx => !checks.isFinalTx tx then
    invalidBlock .consensus "bad-txns-nonfinal" "non-final transaction"
  else do
    checkHeightInCoinbase params block nHeight
    match checks.checkWitnessMalleation block with
    | some reason => .error (.invalid reason)
    | none =>
      if maxBlockWeight < checks.blockWeight block then
        invalidBlock .consensus "bad-blk-weight" "ContextualCheckBlock : weight limit failed"
      else .ok ()

/-- The first input script of a transaction starts with a height. -/
def StartsWithHeight (nHeight : ℕ) (tx : CTransaction) : Prop :=
  ∃ txin, tx.vin.head? = some txin ∧ pushInt64 [] nHeight <+: txin.scriptSig

theorem startsWith_of_check {params : Params} {checks : ContextChecks} {block : CBlock}
    {pprev : BlockBranch} (hp : params.bip34Height ≤ 1)
    (h : contextualCheckBlock params checks block (some pprev) = .ok ()) :
    ∃ coinbase, block.vtx.head? = some coinbase ∧ StartsWithHeight (pprev.nHeight+1) coinbase := by
  unfold contextualCheckBlock at h
  dsimp only [Option.elim] at h
  by_cases hf : (block.vtx.any fun tx => !checks.isFinalTx tx) = true
  · rw [if_pos hf] at h
    simp [invalidBlock] at h
  · rw [if_neg hf] at h
    obtain ⟨u,hh,-⟩ := bind_eq_ok.mp h
    have ha : params.deploymentHeight .heightInCb ≤ ((pprev.nHeight+1 : ℕ) : ℤ) := by
      change params.bip34Height ≤ _
      omega
    rw [checkHeightInCoinbase,if_pos ha] at hh
    cases hn : block.vtx.head?.bind fun tx => tx.vin.head? with
    | none => simp [hn] at hh
    | some t =>
      obtain ⟨coinbase,hc,hv⟩ := Option.bind_eq_some_iff.mp hn
      simp only [hn] at hh
      split_ifs at hh with hm
      · simp [invalidBlock] at hh
      · rw [not_or,not_not] at hm
        refine ⟨coinbase,hc,t,hv,?_⟩
        rw [← hm.2]
        exact List.take_prefix _ _

variable {tx₁ tx₂ : CTransaction}

theorem scriptSig_ne {h1 h2 : ℕ} (hh : 1 ≤ h1 ∧ h1 < 2^64) (hh' : 1 ≤ h2 ∧ h2 < 2^64)
    (hn : h1 ≠ h2) (hs1 : StartsWithHeight h1 tx₁) (hs2 : StartsWithHeight h2 tx₂) :
    tx₁.vin.head?.map scriptSig ≠ tx₂.vin.head?.map scriptSig := by
  obtain ⟨i,hi,s,hs⟩ := hs1
  obtain ⟨i',hi',t,ht⟩ := hs2
  rw [hi,hi']
  intro he
  have hc : i.scriptSig = i'.scriptSig := by simpa using he
  rw [← hs,← ht] at hc
  exact hn (readable_heightScript h1 h2 s t hh hh' hc).1

section
variable (h : tx₁.vin.map noWitness = tx₂.vin.map noWitness)
include h

theorem scriptSig_of_vin : tx₁.vin.head?.map scriptSig = tx₂.vin.head?.map scriptSig := by
  have hh := congrArg (fun l => l.head?.map fun p => p.2.1) h
  rw [List.head?_map,List.head?_map,Option.map_map,Option.map_map] at hh
  exact hh

theorem prevouts_of_vin : tx₁.vin.map prevout = tx₂.vin.map prevout := by
  have hf := congrArg (fun l => l.map fun p => p.1) h
  rw [List.map_map,List.map_map] at hf
  exact hf

end

theorem isCoinBase_of_prevouts (h : tx₁.vin.map prevout = tx₂.vin.map prevout) :
    tx₁.isCoinBase = tx₂.isCoinBase := by
  rw [isCoinBase,isCoinBase]
  rcases h1 : tx₁.vin with _ | ⟨i,_ | ⟨i',rest⟩⟩ <;>
    rcases h2 : tx₂.vin with _ | ⟨j,_ | ⟨j',rest'⟩⟩ <;>
    simp_all

/-- No two transactions with different bytes have the same identifier. -/
def NoCollisions (txs : List CTransaction) : Prop :=
  ∀ tx ∈ txs, ∀ tx' ∈ txs, tx.hash = tx'.hash → tx.serialize = tx'.serialize

instance : DecidablePred NoCollisions := fun txs =>
  inferInstanceAs (Decidable (∀ tx ∈ txs, ∀ tx' ∈ txs,
    tx.hash = tx'.hash → tx.serialize = tx'.serialize))

theorem NoCollisions.mono {txs txs' : List CTransaction} (h : NoCollisions txs) (hs : txs' ⊆ txs) :
    NoCollisions txs' :=
  fun tx ht tx' ht' => h tx (hs ht) tx' (hs ht')

theorem append_singleton_subset {tx : CTransaction} {vtx : List CTransaction}
    (txs : List CTransaction)
    (hx : tx ∈ vtx) : txs++[tx] ⊆ txs++vtx := by
  intro t ht
  rcases mem_append.mp ht with ht | ht
  · exact mem_append_left _ ht
  · rw [mem_singleton.mp ht]
    exact mem_append_right _ hx

/-- Distinct identifiers, every coin an output of one of the transactions, and no spent coins. -/
structure Recorded (txs : List CTransaction) (v : COutPoint → Option Coin) : Prop where
  nodup : (txs.map hash).Nodup
  known : ∀ o, v o ≠ none → o.hash ∈ txs.map hash
  spent : ∀ tx ∈ txs, ∀ txin ∈ tx.spends, txin.prevout.hash ∈ txs.map hash ∧ v txin.prevout = none

variable {txs : List CTransaction} {v : COutPoint → Option Coin} {tx : CTransaction}

theorem Recorded.afterTx (h : Recorded txs v) (hne : tx.hash ∉ txs.map hash)
    (hv : ∀ txin ∈ tx.spends, (v txin.prevout).isSome) (nHeight : ℕ) :
    Recorded (txs++[tx]) (afterTx tx nHeight v) := by
  have hr : ∀ txin ∈ tx.spends, txin.prevout.hash ∈ txs.map hash := by
    intro txin hx
    refine h.known _ fun hn => ?_
    have hs := hv txin hx
    rw [hn] at hs
    exact absurd hs (by simp)
  refine ⟨?_,fun o ho => ?_,fun t ht txin hx => ?_⟩
  · rw [map_append,nodup_append]
    refine ⟨h.nodup,nodup_singleton _,fun a ha b hb hab => hne ?_⟩
    rw [map_singleton,mem_singleton] at hb
    rwa [← hb,← hab]
  · rw [map_append,mem_append]
    by_cases hh : o.hash = tx.hash
    · exact .inr (by simp [hh])
    · exact .inl (h.known o fun hn => ho (afterTx_eq_none hn hh))
  · rw [map_append,mem_append]
    rcases mem_append.mp ht with ht | ht
    · obtain ⟨hm,hn⟩ := h.spent t ht txin hx
      exact ⟨.inl hm,afterTx_eq_none hn fun he => hne (he ▸ hm)⟩
    · obtain rfl := mem_singleton.mp ht
      have hm := hr txin hx
      refine ⟨.inl hm,?_⟩
      rw [DripCore.afterTx,afterOutputs_notMem fun p hp he => ?_]
      · exact afterInputs_of_mem hx
      · rw [← he,(mem_outputs.mp (mem_spendable.mp hp).1).1] at hm
        exact hne hm

/-- Transactions applied to the empty set of coins one after the other, each new and with inputs
that were available, at heights up to a bound. -/
inductive Applied (maxHeight : ℕ) : List CTransaction → (COutPoint → Option Coin) → Prop
  | nil : Applied maxHeight [] fun _ => none
  | snoc {txs : List CTransaction} {v : COutPoint → Option Coin} (h : Applied maxHeight txs v)
      (tx : CTransaction) (nHeight : ℕ) (hvin : tx.vin ≠ [])
      (hnew : tx.hash ∉ txs.map hash)
      (havail : ∀ txin ∈ tx.spends, (v txin.prevout).isSome) (hheight : nHeight ≤ maxHeight) :
      Applied maxHeight (txs++[tx]) (afterTx tx nHeight v)

variable {m : ℕ}

theorem Applied.recorded (h : Applied m txs v) : Recorded txs v := by
  induction h with
  | nil =>
    constructor
    · exact nodup_nil
    · intro o ho
      exact absurd rfl ho
    · intro tx ht
      exact absurd ht not_mem_nil
  | snoc h tx nHeight hv hn ha hh ih => exact ih.afterTx hn ha nHeight

theorem Applied.mono {maxHeight' : ℕ} (h : Applied m txs v) (hl : m ≤ maxHeight') :
    Applied maxHeight' txs v := by
  induction h with
  | nil => exact .nil
  | snoc h tx nHeight hv hn ha hh ih =>
    exact ih.snoc tx nHeight hv hn ha (hh.trans hl)

/-- A transaction whose inputs are available has not been applied before. -/
theorem Recorded.new_of_available (h : Recorded txs v) (ho : NoCollisions (txs++[tx]))
    (hc : tx.isCoinBase = false) (hv : tx.vin ≠ [])
    (ha : ∀ t ∈ tx.spends, (v t.prevout).isSome) :
    tx.hash ∉ txs.map hash := by
  intro hm
  obtain ⟨tx',hx',hh⟩ := mem_map.mp hm
  have hp := prevouts_of_vin (vin_of_serialize
    (ho tx (by simp) tx' (mem_append_left _ hx') hh.symm))
  have hc' : tx'.isCoinBase = false := by rw [← isCoinBase_of_prevouts hp,hc]
  rw [spends_eq_vin hc] at ha
  obtain ⟨t,ht⟩ := exists_mem_of_ne_nil _ hv
  have hin : t.prevout ∈ tx'.vin.map prevout := hp ▸ mem_map.mpr ⟨t,ht,rfl⟩
  obtain ⟨t',ht',he⟩ := mem_map.mp hin
  have hn := (h.spent tx' hx' t' (by rwa [spends_eq_vin hc'])).2
  have hs := ha t ht
  rw [← he,hn] at hs
  exact absurd hs (by simp)

variable {checks : BlockChecks} {block : CBlock} {params : Params}

section
variable {σ : Type} [LawfulStore σ]
open LawfulStore

theorem readLaws_lawful : ReadLaws (view : σ → COutPoint → Option Coin) Inv where
  haveCoin o h := haveCoin_view o h
  accessCoin o h := accessCoin_view o h

variable {nh : ℕ} {st st' : ConnectState σ} {pi : BlockBranch} {s s' : σ} {undo : CBlockUndo}

/-- A new transaction whose checks pass is applied as it should be. -/
theorem connectTx_applied {t : CTxUndo} (ht : CheckedTx tx) (h : Inv st.view)
    (hf : moneyRange st.nFees = true) (hap : Applied m txs (view st.view))
    (hh : nh ≤ m)
    (hn : (∀ txin ∈ tx.spends, (view st.view txin.prevout).isSome) → tx.hash ∉ txs.map hash)
    (hc : connectTx checks nh tx st = .ok (st',t)) :
    Inv st'.view ∧ moneyRange st'.nFees = true ∧ Applied m (txs++[tx]) (view st'.view) := by
  have hsp := connectTx_spec readLaws_lawful checks nh ht h hf
  rw [hc] at hsp
  obtain ⟨s,hs,hv,hu,ha,-,hr⟩ := hsp
  have happ : Applicable (view s) tx := by
    rw [hv]
    refine ⟨?_,ha,fun p hp => ?_,fun _ p hp => ?_⟩
    · unfold spends
      split_ifs
      · exact nodup_nil
      · exact ht.nodup
    · exact isSpent_of_range (show moneyRange (⟨p.2,false,0⟩ : Coin).out.nValue = true from
        ht.range _ (mem_of_getElem? (mem_outputs.mp hp).2))
    · by_contra ho
      refine hn ha ?_
      rw [← (mem_outputs.mp (mem_spendable.mp hp).1).1]
      exact hap.recorded.known _ ho
  obtain ⟨s',coins,hu',hin,hv',-⟩ := updateCoins_spec hs happ nh
  rw [hu,ok.injEq,Prod.mk.injEq] at hu'
  rw [hu'.1,hv',hv]
  exact ⟨hin,hr,hap.snoc tx nh ht.vin (hn ha) ha hh⟩

theorem connectTxs_applied {vtx : List CTransaction} (hb : ∀ tx ∈ vtx, tx.isCoinBase = false)
    (hv : ∀ tx ∈ vtx, CheckedTx tx) {vtxundo : List CTxUndo} (h : Inv st.view)
    (hf : moneyRange st.nFees = true) (hap : Applied m txs (view st.view))
    (hh : nh ≤ m) (ho : NoCollisions (txs++vtx))
    (hc : connectTxs checks nh vtx st = .ok (st',vtxundo)) :
    Inv st'.view ∧ Applied m (txs++vtx) (view st'.view) := by
  induction vtx generalizing txs st vtxundo with
  | nil =>
    rw [connectTxs,ok.injEq,Prod.mk.injEq] at hc
    rw [← hc.1,append_nil]
    exact ⟨h,hap⟩
  | cons tx vtx ih =>
    obtain ⟨⟨st1,txundo⟩,hs,hr⟩ := bind_eq_ok.mp hc
    obtain ⟨⟨st2,u⟩,hl,hp⟩ := bind_eq_ok.mp hr
    obtain ⟨rfl,-⟩ := Prod.mk.inj (ok.inj hp)
    have hu : NoCollisions (txs++[tx]) := ho.mono (append_singleton_subset txs mem_cons_self)
    obtain ⟨h1,hf1,hap1⟩ := connectTx_applied (hv tx mem_cons_self) h hf hap
      hh (fun ha => hap.recorded.new_of_available hu (hb tx mem_cons_self)
        (hv tx mem_cons_self).vin ha) hs
    have has : txs++tx::vtx = (txs++[tx])++vtx := by
      rw [append_assoc,singleton_append]
    rw [has] at ho ⊢
    exact ih (fun t ht => hb t (mem_cons_of_mem _ ht))
      (fun t ht => hv t (mem_cons_of_mem _ ht)) h1 hf1 hap1 ho hl

/-- The loop of `ConnectBlock` that a connected block has been through. -/
theorem connectBlock_loop (h : Inv s) (hg : block.hash ≠ params.hashGenesisBlock)
    (hc : connectBlock params checks block pi s = .ok (s',undo)) :
    CoinbaseFirst block.vtx ∧ (∀ tx ∈ block.vtx, CheckedTx tx) ∧ ∃ s1 st vtxundo,
      Inv s1 ∧ view s1 = view s ∧
        connectTxs checks pi.nHeight block.vtx ⟨s1,0,0⟩ = .ok (st,vtxundo) ∧
        s' = CoinsStore.setBestBlock st.view pi.hash := by
  unfold connectBlock at hc
  split_ifs at hc
  obtain ⟨u,he,hr⟩ := bind_eq_ok.mp hc
  have hb := checkBlock_spec checks block
  cases hh : checkBlock checks block with
  | error e => simp [hh,Except.mapError] at he
  | ok u =>
    rw [hh] at hb
    obtain ⟨hbe,hv⟩ := getBestBlock_view h
    refine ⟨hb.1,hb.2,?_⟩
    simp only [connectChecked] at hr
    split_ifs at hr
    cases hp : pi.pprev with
    | none => simp [hp] at hr
    | some pprev =>
      simp only [hp] at hr
      obtain ⟨s1,hl,ht⟩ := bind_eq_ok.mp hr
      obtain ⟨⟨st,vtxundo⟩,ho,ha⟩ := bind_eq_ok.mp ht
      obtain ⟨u,-,hq⟩ := bind_eq_ok.mp ha
      obtain ⟨h1,hv1⟩ := applyIf_checkBIP30 readLaws_lawful hbe hl
      refine ⟨s1,st,vtxundo,h1,hv1.trans hv,ho,?_⟩
      cases hs : checks.scriptQueue block with
      | some r => simp [hs] at hq
      | none =>
        simp only [hs] at hq
        exact (Prod.mk.inj (ok.inj hq)).1.symm

theorem connectBlock_genesis (h : Inv s) (hg : block.hash = params.hashGenesisBlock)
    (hc : connectBlock params checks block pi s = .ok (s',undo)) :
    Inv s' ∧ view s' = view s := by
  unfold connectBlock at hc
  split_ifs at hc
  obtain ⟨u,-,hr⟩ := bind_eq_ok.mp hc
  obtain ⟨hb,hv⟩ := getBestBlock_view h
  obtain ⟨hs,hv'⟩ := setBestBlock_view pi.hash hb
  simp only [connectChecked] at hr
  split_ifs at hr
  obtain ⟨rfl,-⟩ := Prod.mk.inj (ok.inj hr)
  exact ⟨hs,hv'.trans hv⟩

theorem connectBlock_applied (h : Inv s) (hg : block.hash ≠ params.hashGenesisBlock)
    (ha : Applied pi.nHeight txs (view s)) (ho : NoCollisions (txs++block.vtx))
    (hn : ∀ coinbase, block.vtx.head? = some coinbase → coinbase.isCoinBase = true →
      coinbase.hash ∉ txs.map hash)
    (hc : connectBlock params checks block pi s = .ok (s',undo)) :
    Inv s' ∧ Applied pi.nHeight (txs++block.vtx) (view s') := by
  obtain ⟨hf,hvt,s1,st,vtxundo,h1,hv,hl,rfl⟩ := connectBlock_loop h hg hc
  cases hb : block.vtx with
  | nil => simp [hb,CoinbaseFirst] at hf
  | cons coinbase vtx =>
    rw [hb] at hf hvt ho hl
    obtain ⟨⟨st1,txundo⟩,hs,hr⟩ := bind_eq_ok.mp hl
    obtain ⟨⟨st2,u⟩,hl2,hp⟩ := bind_eq_ok.mp hr
    obtain ⟨rfl,-⟩ := Prod.mk.inj (ok.inj hp)
    obtain ⟨hin1,he,ha1⟩ := connectTx_applied (hvt coinbase mem_cons_self) h1
      (show moneyRange 0 = true by decide) (hv ▸ ha) le_rfl
      (fun _ => hn coinbase (by rw [hb]; rfl) hf.1) hs
    have has : txs++coinbase::vtx = (txs++[coinbase])++vtx := by
      rw [append_assoc,singleton_append]
    rw [has] at ho ⊢
    obtain ⟨hin,ha'⟩ := connectTxs_applied hf.2
      (fun t ht => hvt t (mem_cons_of_mem _ ht)) hin1 he ha1 le_rfl ho hl2
    obtain ⟨hin',hv'⟩ := setBestBlock_view pi.hash hin
    exact ⟨hin',hv' ▸ ha'⟩

end

open CoinsView

/-- The transactions that a block adds to the chain; those of the genesis block are skipped. -/
def connectedTxs (params : Params) (block : CBlock) : List CTransaction :=
  if block.hash = params.hashGenesisBlock then [] else block.vtx

/-- Chains of connected blocks that have passed `ContextualCheckBlock`, with their transactions. -/
inductive HeightChain (params : Params) : TipState → List CTransaction → Prop
  | genesis (hash : BitVec 256) : HeightChain params ⟨⟨hash,[]⟩,∅⟩ []
  | block {st st' : TipState} {txs : List CTransaction} (checks : BlockChecks)
      (context : ContextChecks) (block : CBlock) (h : HeightChain params st txs)
      (hcontext : contextualCheckBlock params context block (some st.tip) = .ok ())
      (hconnect : connectTip params checks block st = .ok st') :
      HeightChain params st' (txs++connectedTxs params block)

/-- What holds along such a chain. -/
structure ChainRecord (st : TipState) (txs : List CTransaction) : Prop where
  applied : Applied st.tip.nHeight txs fun o => st.coins.lookup o
  unspent : ∀ o coin, st.coins.lookup o = some coin → coin.isSpent = false
  heights : ∀ tx ∈ txs, tx.isCoinBase = true →
    ∃ nHeight, 1 ≤ nHeight ∧ nHeight ≤ st.tip.nHeight ∧ StartsWithHeight nHeight tx

variable {st st' : TipState}

theorem ChainRecord.new_coinbase {coinbase : CTransaction} (h : ChainRecord st txs)
    (hb : st.tip.nHeight+1 < 2^31) (ho : NoCollisions (txs++[coinbase]))
    (hc : coinbase.isCoinBase = true) (hh : StartsWithHeight (st.tip.nHeight+1) coinbase) :
    coinbase.hash ∉ txs.map hash := by
  intro hm
  obtain ⟨tx,ht,ha⟩ := mem_map.mp hm
  have hv := vin_of_serialize (ho coinbase (by simp) tx (mem_append_left _ ht) ha.symm)
  have hc' : tx.isCoinBase = true := by
    rw [← isCoinBase_of_prevouts (prevouts_of_vin hv),hc]
  obtain ⟨nHeight,h1,hl,hs⟩ := h.heights tx ht hc'
  exact scriptSig_ne ⟨by omega,by omega⟩ ⟨h1,by omega⟩ (by omega) hh hs (scriptSig_of_vin hv)

/-- Flushing a coherent cache makes its view the map of coins. -/
theorem flush_view {V : CoinsView} (h : V.Coherent) (hd : 0 < V.depth) {c : CCoinsViewCache}
    {hashBlock : BitVec 256} {coins : UtxoMap} {out : Output}
    (hf : applyAt .flush 0 V = .ok (cache c (coinsMap hashBlock coins),out)) :
    (fun o => coins.lookup o) = V.view ∧ ∀ o coin, coins.lookup o = some coin →
      coin.isSpent = false := by
  obtain ⟨V',out',ha,hn,hm⟩ := applyAt_top .flush ⟨h,hd⟩ ⟨hd,trivial⟩
  rw [hf] at ha
  obtain ⟨rfl,-⟩ := ha
  refine ⟨?_,hn.1.1⟩
  have hl := hm.2 1
  rwa [layerView_zero] at hl

theorem connectTip_nHeight (hc : connectTip params checks block st = .ok st') :
    st'.tip.nHeight = st.tip.nHeight+1 := by
  obtain ⟨V,undo,c,hashBlock,-,-,ht⟩ := connectTip_eq_ok hc
  rw [ht]
  rfl

theorem connectTip_record (hp : params.bip34Height ≤ 1) {co : ContextChecks}
    (h : ChainRecord st txs) (hbo : st.tip.nHeight+1 < 2^31)
    (ho : NoCollisions (txs++connectedTxs params block))
    (hcon : contextualCheckBlock params co block (some st.tip) = .ok ())
    (hc : connectTip params checks block st = .ok st') :
    ChainRecord st' (txs++connectedTxs params block) := by
  have hs : LawfulStore.Inv (cache CCoinsViewCache.empty (coinsMap st.tip.hash st.coins)) :=
    ⟨coherent_newStack st.tip.hash h.unspent 1,Nat.succ_pos _⟩
  obtain ⟨V,undo,c,hashBlock,hb,hf,-⟩ := connectTip_eq_ok hc
  obtain ⟨coinbase,hco,hh⟩ := startsWith_of_check hp hcon
  have hl := connectTip_nHeight hc
  by_cases hg : block.hash = params.hashGenesisBlock
  · obtain ⟨hin,hsa⟩ := connectBlock_genesis hs hg hb
    obtain ⟨hv,hu⟩ := flush_view hin.1 hin.2 hf
    rw [connectedTxs,if_pos hg,append_nil]
    refine ⟨?_,hu,fun tx hx hcb => ?_⟩
    · rw [hv.trans hsa,hl]
      exact h.applied.mono (Nat.le_succ _)
    · obtain ⟨nHeight,h1,he,hh⟩ := h.heights tx hx hcb
      exact ⟨nHeight,h1,by omega,hh⟩
  · rw [connectedTxs,if_neg hg] at ho ⊢
    have hfi := (connectBlock_loop hs hg hb).1
    have hn : ∀ t, block.vtx.head? = some t → t.isCoinBase = true → t.hash ∉ txs.map hash := by
      intro t ht hcb
      obtain rfl : coinbase = t := some.inj (hco.symm.trans ht)
      exact h.new_coinbase hbo (ho.mono (append_singleton_subset txs (mem_of_mem_head? hco))) hcb hh
    obtain ⟨hin,ha⟩ := connectBlock_applied hs hg (h.applied.mono (Nat.le_succ _)) ho hn hb
    obtain ⟨hv,hu⟩ := flush_view hin.1 hin.2 hf
    refine ⟨?_,hu,fun tx hx hcb => ?_⟩
    · rw [hv,hl]
      exact ha
    rcases mem_append.mp hx with hx | hx
    · obtain ⟨nHeight,h1,he,hs⟩ := h.heights tx hx hcb
      exact ⟨nHeight,h1,by omega,hs⟩
    · refine ⟨st.tip.nHeight+1,by omega,by omega,?_⟩
      cases hvt : block.vtx with
      | nil => simp [hvt] at hx
      | cons t rest =>
        rw [hvt] at hfi hx hco
        rcases mem_cons.mp hx with rfl | hx
        · rwa [some.inj hco]
        · exact absurd (hfi.2 tx hx) (by simp [hcb])

theorem HeightChain.record (hp : params.bip34Height ≤ 1) (h : HeightChain params st txs)
    (ho : NoCollisions txs) (hb : st.tip.nHeight < 2^31) : ChainRecord st txs := by
  induction h with
  | genesis hash =>
    have he : (fun o => (∅ : UtxoMap).lookup o) = fun _ => none :=
      funext fun o => Finmap.lookup_empty o
    refine ⟨he ▸ .nil,?_,?_⟩
    · intro o coin hco
      simp at hco
    · intro tx ht
      exact absurd ht not_mem_nil
  | @block st st' txs checks context block h hn hc ih =>
    have hl := connectTip_nHeight hc
    exact connectTip_record hp (ih (ho.mono (subset_append_left _ _)) (by omega))
      (by omega) ho hn hc

/-- The outpoints of the outputs of transactions with distinct identifiers are distinct. -/
theorem outPoints_nodup (h : (txs.map hash).Nodup) :
    (txs.flatMap fun tx => tx.outputs.map Prod.fst).Nodup := by
  rw [nodup_flatMap]
  refine ⟨fun tx _ => tx.outputs_nodup,?_⟩
  refine (pairwise_map.mp h).imp fun hn o ho ho' => hn ?_
  obtain ⟨p,hp,rfl⟩ := mem_map.mp ho
  obtain ⟨p',hp',he⟩ := mem_map.mp ho'
  rw [← (mem_outputs.mp hp).1,← (mem_outputs.mp hp').1,he]

/-- Coinbases that start with different heights differ in their bytes; and when the rule holds from
height 1, the outputs of a connected block are distinct and none of them is in the set of coins. -/
theorem bip34_implies_bip30 (params : Params) (hp : params.bip34Height ≤ 1) :
    (∀ h₁ h₂ : ℕ, 1 ≤ h₁ → h₁ < 2 ^ 63 → 1 ≤ h₂ → h₂ < 2 ^ 63 → h₁ ≠ h₂ →
      ∀ tx₁ tx₂ : CTransaction, StartsWithHeight h₁ tx₁ → StartsWithHeight h₂ tx₂ →
        tx₁.vin.head?.map scriptSig ≠ tx₂.vin.head?.map scriptSig ∧ tx₁.serialize ≠ tx₂.serialize) ∧
      ∀ (st st' : TipState) (txs : List CTransaction) (checks : BlockChecks)
        (context : ContextChecks) (block : CBlock), HeightChain params st txs →
        NoCollisions (txs ++ connectedTxs params block) → st.tip.nHeight + 1 < 2 ^ 31 →
        contextualCheckBlock params context block (some st.tip) = .ok () →
        connectTip params checks block st = .ok st' →
        ((connectedTxs params block).flatMap fun tx => tx.outputs.map Prod.fst).Nodup ∧
          ∀ tx ∈ connectedTxs params block, ∀ p ∈ tx.outputs, st.coins.lookup p.1 = none := by
  constructor
  · intro h₁ h₂ ho hl ho' hl' hne tx₁ tx₂ hs hs'
    have hsc := scriptSig_ne ⟨ho,by omega⟩ ⟨ho',by omega⟩ hne hs hs'
    exact ⟨hsc,fun he => hsc (scriptSig_of_vin (vin_of_serialize he))⟩
  · intro st st' txs checks context block hh hco hb hc hcon
    have hr := hh.record hp (hco.mono (subset_append_left _ _)) (by omega)
    have hn := (connectTip_record hp hr hb hco hc hcon).applied.recorded.nodup
    rw [map_append,nodup_append] at hn
    refine ⟨outPoints_nodup hn.2.1,fun tx ht p hu => by_contra fun hso => ?_⟩
    refine hn.2.2 _ (hr.applied.recorded.known p.1 hso) tx.hash ?_ ?_
    · exact mem_map.mpr ⟨tx,ht,rfl⟩
    · exact (mem_outputs.mp hu).1

def acceptAllContexts : ContextChecks where
  isFinalTx _ := true
  checkWitnessMalleation _ := none
  blockWeight _ := 0

def secondRewardTx : CTransaction where
  version := 2
  vin := [⟨nullOutPoint,[0x52#8,0x00#8],0xffffffff#32,[]⟩]
  vout := [⟨50*coin,[0x51#8]⟩]
  nLockTime := 0
  hash := 8
  vin_size := by decide
  vout_size := by decide
  scriptSig_size := by decide

/-- The first block has the hash of the rule, so no coins are looked up for the second one. -/
def bip34Params : Params := { cDripParams with bip34Height := 1, bip34Hash := 2 }

theorem bip34_implies_bip30_second_block : ∃ st st',
    connectTip bip34Params acceptAll ⟨2, [rewardTx]⟩ ⟨⟨1, []⟩, ∅⟩ = .ok st ∧
      connectTip bip34Params acceptAll ⟨3, [secondRewardTx]⟩ st = .ok st' ∧
      rewardTx.serialize ≠ secondRewardTx.serialize ∧
      ∀ p ∈ secondRewardTx.outputs, st.coins.lookup p.1 = none := by
  obtain ⟨hsc,hl⟩ := bip34_implies_bip30 bip34Params (by decide)
  have ho : ((connectTip bip34Params acceptAll ⟨2,[rewardTx]⟩ ⟨⟨1,[]⟩,∅⟩).bind
      (connectTip bip34Params acceptAll ⟨3,[secondRewardTx]⟩)).toOption.isSome := by
    decide +kernel
  cases hb : (connectTip bip34Params acceptAll ⟨2,[rewardTx]⟩ ⟨⟨1,[]⟩,∅⟩).bind
      (connectTip bip34Params acceptAll ⟨3,[secondRewardTx]⟩) with
  | error e =>
    rw [hb] at ho
    exact absurd ho (by simp [Except.toOption])
  | ok st' =>
    obtain ⟨st,hf,hs⟩ := bind_eq_ok.mp hb
    have hc := HeightChain.block acceptAll acceptAllContexts _ (.genesis 1) (by decide +kernel) hf
    obtain ⟨V,undo,c,hashBlock,-,-,ht⟩ := connectTip_eq_ok hf
    refine ⟨st,st',hf,hs,?_,fun p hp => ?_⟩
    · exact (hsc 1 2 (by decide) (by decide) (by decide) (by decide) (by decide) _ _
        ⟨_,rfl,by decide⟩ ⟨_,rfl,by decide⟩).2
    · exact (hl st st' _ acceptAll acceptAllContexts _ hc (by decide +kernel)
        (by rw [ht]; decide) (by rw [ht]; decide +kernel) hs).2 _ (by decide) p hp

end DripCore
