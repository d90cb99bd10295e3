import DripCore.CoinsWorth
import DripCore.ConnectBlock

/-!
# No inflation

Along every chain of connected blocks the coins are worth at most the subsidies of its heights.
Within a block the worth of the cache and the collected fees grow together by no more than what the
coinbase pays out. The invariant keeps all amounts valid, so that no sum of amounts overflows.
-/
namespace DripCore
open CCoinsViewCache CTransaction CoinsView ExceptRules FinmapTotal List

/-- A cache over the given coins with the given worth. -/
def LedgerAt (hashBlock : BitVec 256) (coins : UtxoMap) (w : ℤ) (V : CoinsView) : Prop :=
  ∃ c, V = cache c (coinsMap hashBlock coins) ∧ Ledger coins c ∧ worth coins c = w

section
variable {hashBlock : BitVec 256} {co : UtxoMap} {w : ℤ} {V : CoinsView}

theorem LedgerAt.rangedView (h : LedgerAt hashBlock co w V) : RangedView V.view := by
  obtain ⟨c,rfl,hl,-⟩ := h
  exact fun o coin hv => hl.view_range hv

theorem readLaws_ledgerAt : ReadLaws CoinsView.view (LedgerAt hashBlock co w) where
  haveCoin o h := by
    obtain ⟨c,rfl,hl,hw⟩ := h
    obtain ⟨c',hh,hs⟩ := hl.haveCoin o
    exact ⟨_,hh,⟨c',rfl,hs.ledger,hs.worth.trans hw⟩,hs.view⟩
  accessCoin o h := by
    obtain ⟨c,rfl,hl,hw⟩ := h
    obtain ⟨c',coin,ha,hc,hs⟩ := hl.accessCoin o
    exact ⟨_,coin,ha,⟨c',rfl,hs.ledger,hs.worth.trans hw⟩,hs.view,hc⟩

variable {V' : CoinsView} {nh : ℕ} {tx ce : CTransaction} {vtx : List CTransaction}
    {b : CBlock}

theorem spendInputs_worth (h : LedgerAt hashBlock co w V) {vin : List CTxIn}
    (hn : (vin.map CTxIn.prevout).Nodup) (ha : ∀ t ∈ vin, (V.view t.prevout).isSome)
    {vprevout : List Coin} (hs : spendInputs vin V = .ok (V',vprevout)) :
    ∃ w', LedgerAt hashBlock co w' V' ∧ w'+inTotal V.view vin ≤ w := by
  induction vin generalizing V w vprevout with
  | nil =>
    rw [spendInputs,Except.ok.injEq,Prod.mk.injEq] at hs
    exact ⟨w,hs.1 ▸ h,by simp [inTotal]⟩
  | cons t vin ih =>
    obtain ⟨c,rfl,hl,rfl⟩ := h
    rw [map_cons,nodup_cons] at hn
    obtain ⟨coin,hc⟩ := Option.isSome_iff_exists.mp (ha t mem_cons_self)
    obtain ⟨c1,hs1,hl1,hw,hv⟩ := hl.spendCoin hc
    have ho : ∀ i ∈ vin, (cache c1 (coinsMap hashBlock co)).view i.prevout =
        (cache c (coinsMap hashBlock co)).view i.prevout := fun i hi =>
      hv _ fun he => hn.1 (mem_map.mpr ⟨i,hi,he⟩)
    simp only [spendInputs,hs1,ok_bind] at hs
    obtain ⟨⟨V2,rest⟩,hr,hp⟩ := bind_eq_ok.mp hs
    rw [pure_eq_ok,Except.ok.injEq,Prod.mk.injEq] at hp
    obtain rfl : V2 = V' := hp.1
    obtain ⟨w',h',hle⟩ := ih ⟨c1,rfl,hl1,rfl⟩ hn.2 (fun i hi => by
      rw [ho i hi]
      exact ha i (mem_cons_of_mem _ hi)) hr
    refine ⟨w',h',?_⟩
    have hu : inTotal (cache c1 (coinsMap hashBlock co)).view vin =
        inTotal (cache c (coinsMap hashBlock co)).view vin := by
      refine congrArg sum (map_congr_left fun i hi => ?_)
      rw [valueAt,valueAt,ho i hi]
    have hh : valueAt (cache c (coinsMap hashBlock co)).view t.prevout = coin.out.nValue := by
      simp [valueAt,hc]
    rw [inTotal,map_cons,sum_cons]
    rw [hu,inTotal] at hle
    linarith

theorem addCoinsLoop_worth (h : LedgerAt hashBlock co w V) {o : List (COutPoint × CTxOut)}
    (hr : ∀ p ∈ o, moneyRange p.2.nValue = true)
    (ha : addCoinsLoop tx nh false o V = .ok V') :
    ∃ w', LedgerAt hashBlock co w' V' ∧ w' ≤ w+outTotal (o.map Prod.snd) := by
  induction o generalizing V w with
  | nil =>
    rw [addCoinsLoop,Except.ok.injEq] at ha
    exact ⟨w,ha ▸ h,by simp⟩
  | cons p o ih =>
    obtain ⟨c,rfl,hl,rfl⟩ := h
    simp only [addCoinsLoop,mayOverwrite,Bool.false_eq_true,if_false,ok_bind] at ha
    obtain ⟨V1,ha1,he⟩ := bind_eq_ok.mp ha
    obtain ⟨c1,rfl,hl1,hw⟩ := hl.addCoin (hr _ mem_cons_self) ha1
    obtain ⟨w',h',hle⟩ := ih ⟨c1,rfl,hl1,rfl⟩ (fun p hp => hr p (mem_cons_of_mem _ hp)) he
    refine ⟨w',h',?_⟩
    rw [map_cons,outTotal_cons]
    linarith

theorem CTransaction.map_snd_outputs (tx : CTransaction) : tx.outputs.map Prod.snd = tx.vout := by
  rw [outputs,map_map]
  exact zipIdx_map_fst 0 tx.vout

def payout (tx : CTransaction) : CAmount := if tx.isCoinBase then outTotal tx.vout else 0

theorem updateCoins_worth (h : LedgerAt hashBlock co w V) (ht : CheckedTx tx)
    (ha : ∀ txin ∈ tx.spends, (V.view txin.prevout).isSome) {t : CTxUndo}
    (hu : updateCoins tx V nh = .ok (V',t)) :
    ∃ w', LedgerAt hashBlock co w' V' ∧ w'+txFee V.view tx ≤ w+payout tx := by
  obtain ⟨⟨V1,vprevout⟩,hs,hr⟩ := bind_eq_ok.mp hu
  obtain ⟨V2,hd,hpa⟩ := bind_eq_ok.mp hr
  rw [pure_eq_ok,Except.ok.injEq,Prod.mk.injEq] at hpa
  have hn : (tx.spends.map CTxIn.prevout).Nodup := by
    unfold spends
    split_ifs
    · exact nodup_nil
    · exact ht.nodup
  obtain ⟨w1,h1,hl⟩ := spendInputs_worth h hn ha hs
  obtain ⟨w2,h2,hl'⟩ := addCoinsLoop_worth h1
    (fun p hp => ht.range _ (mem_of_getElem? (mem_outputs.mp hp).2)) hd
  rw [map_snd_outputs] at hl'
  refine ⟨w2,hpa.1 ▸ h2,?_⟩
  unfold txFee payout
  cases hc : tx.isCoinBase with
  | true =>
    rw [spends,hc] at hl
    simp [inTotal] at hl
    simp
    linarith
  | false =>
    rw [spends_eq_vin hc] at hl
    simp
    linarith

/-- The loop over the transactions: worth and fees grow by what coinbases pay out. -/
theorem connectTxs_worth (c : BlockChecks) (nh : ℕ) (hvt : ∀ tx ∈ vtx, CheckedTx tx)
    (st : ConnectState CoinsView) (h : LedgerAt hashBlock co w st.view)
    (hf : moneyRange st.nFees = true) :
    match connectTxs c nh vtx st with
    | .error e => e ≠ .amountOverflow
    | .ok (st',_) => ∃ w', LedgerAt hashBlock co w' st'.view ∧ moneyRange st'.nFees = true ∧
        w'+st'.nFees ≤ w+st.nFees+(vtx.map payout).sum := by
  induction vtx generalizing st w with
  | nil => exact ⟨w,h,hf,by simp⟩
  | cons tx vtx ih =>
    have hs := connectTx_spec readLaws_ledgerAt c nh (hvt tx mem_cons_self) h hf
    rw [connectTxs]
    cases hc : connectTx c nh tx st with
    | error e =>
      rw [hc] at hs
      exact hs h.rangedView
    | ok r =>
      obtain ⟨st1,txundo⟩ := r
      rw [hc] at hs
      obtain ⟨V1,h1,hv,hu,ha,hf1,hr⟩ := hs
      obtain ⟨w2,h2,hle⟩ := updateCoins_worth h1 (hvt tx mem_cons_self) (by rwa [hv]) hu
      have he := ih (fun t ht => hvt t (mem_cons_of_mem _ ht)) st1 h2 hr
      simp only [ok_bind]
      cases hl : connectTxs c nh vtx st1 with
      | error e =>
        rw [hl] at he
        exact he
      | ok r =>
        rw [hl] at he
        obtain ⟨w',h',hr',hle'⟩ := he
        refine ⟨w',h',hr',?_⟩
        rw [hv] at hle
        rw [map_cons,sum_cons]
        linarith

theorem sum_payout (h : CoinbaseFirst (ce::vtx)) :
    ((ce::vtx).map payout).sum = outTotal ce.vout := by
  have hr : vtx.map payout = vtx.map fun _ => 0 := map_congr_left fun tx ht => by
    rw [payout,h.2 tx ht]; rfl
  rw [map_cons,hr,payout,h.1]
  simp

theorem checkReward_spec (p : Params) (nh : ℕ) (vtx : List CTransaction)
    (h : CheckedTx ce) {nFees : CAmount} (hf : moneyRange nFees = true) :
    match checkReward p nh (ce::vtx) nFees with
    | .error e => e ≠ .amountOverflow
    | .ok _ => outTotal ce.vout ≤ nFees+getBlockSubsidy nh p := by
  have hs : moneyRange (getBlockSubsidy nh p) = true := moneyRange_iff.mpr ⟨subsidy_nonneg nh p,
      (subsidy_le nh p).trans (by decide)⟩
  simp only [checkReward,amount_add hf hs,h.getValueOut,ok_bind]
  split_ifs with hr
  · simp [invalidBlock]
  · exact not_lt.mp hr

theorem LedgerAt.setBestBlock (h : LedgerAt hashBlock co w V) (best : BitVec 256) :
    LedgerAt hashBlock co w (CoinsStore.setBestBlock V best) := by
  obtain ⟨c,rfl,hl,hw⟩ := h
  obtain ⟨xs,hr⟩ := hl.rep
  exact ⟨c.setBestBlock best,rfl,⟨⟨xs,hr.setBestBlock best⟩,hl.clean,hl.entries,hl.map⟩,hw⟩

theorem connectAll_worth (pa : Params) (c : BlockChecks) (p : BlockBranch)
    (hf : CoinbaseFirst b.vtx) (hv : ∀ tx ∈ b.vtx, CheckedTx tx)
    (h : LedgerAt hashBlock co w V) :
    match connectTransactions pa c b p V with
    | .error e => e ≠ .amountOverflow
    | .ok (V',_) => ∃ w', LedgerAt hashBlock co w' V' ∧ w' ≤ w+getBlockSubsidy p.nHeight pa := by
  obtain ⟨ce,rest,hb⟩ : ∃ ce rest, b.vtx = ce::rest := by
    cases hb : b.vtx with
    | nil => simp [hb,CoinbaseFirst] at hf
    | cons ce rest => exact ⟨ce,rest,rfl⟩
  rw [hb] at hf hv
  have hl := connectTxs_worth c p.nHeight hv ⟨V,0,0⟩ h (show moneyRange 0 = true by decide)
  rw [connectTransactions,hb]
  cases hc : connectTxs c p.nHeight (ce::rest) (⟨V,0,0⟩ : ConnectState CoinsView) with
  | error e =>
    rw [hc] at hl
    exact hl
  | ok r =>
    obtain ⟨st,vtxundo⟩ := r
    rw [hc] at hl
    obtain ⟨w',h',ha,he⟩ := hl
    have hr := checkReward_spec pa p.nHeight rest (hv _ mem_cons_self) ha
    simp only [ok_bind]
    cases hh : checkReward pa p.nHeight (ce::rest) st.nFees with
    | error e =>
      rw [hh] at hr
      exact hr
    | ok u =>
      rw [hh] at hr
      cases hq : c.scriptQueue b with
      | some re => simp
      | none =>
        refine ⟨w',h'.setBestBlock p.hash,?_⟩
        rw [sum_payout hf] at he
        linarith

theorem LedgerAt.getBestBlock (h : LedgerAt hashBlock co w V) :
    LedgerAt hashBlock co w (CoinsStore.getBestBlock V).1 := by
  obtain ⟨c,rfl,hl,hw⟩ := h
  change LedgerAt _ _ _ (CoinsView.getBestBlock _).1
  rw [CoinsView.getBestBlock]
  split_ifs
  · exact LedgerAt.setBestBlock ⟨c,rfl,hl,hw⟩ hashBlock
  · exact ⟨c,rfl,hl,hw⟩

theorem corrupt_eq_overflow {e : BlockFailure} (h : corruptBlock e = .amountOverflow) :
    e = .amountOverflow := by
  cases e with
  | invalid r =>
    rw [corruptBlock] at h
    split_ifs at h
  | _ => exact h

theorem connectChecked_worth (pa : Params) (c : BlockChecks) (p : BlockBranch)
    (hf : CoinbaseFirst b.vtx) (hv : ∀ tx ∈ b.vtx, CheckedTx tx)
    (h : LedgerAt hashBlock co w V) (best : BitVec 256) :
    match connectChecked pa c b p V best with
    | .error e => e ≠ .amountOverflow
    | .ok (V',_) => ∃ w', LedgerAt hashBlock co w' V' ∧ w' ≤ w+getBlockSubsidy p.nHeight pa := by
  have hs := subsidy_nonneg p.nHeight pa
  unfold connectChecked
  split_ifs
  · simp
  · exact ⟨w,h.setBestBlock p.hash,by linarith⟩
  · cases hp : p.pprev with
    | none => simp
    | some pprev =>
      cases he : enforceBIP30 pa pprev p with
      | false =>
        simp only [he]
        exact connectAll_worth pa c p hf hv h
      | true =>
        have hl := checkBIP30Loop_spec readLaws_ledgerAt h (b.vtx.flatMap fun tx =>
          tx.outputs.map Prod.fst)
        simp only [applyIf_true,checkBIP30,he]
        cases ho : checkBIP30Loop (b.vtx.flatMap fun tx => tx.outputs.map Prod.fst) V with
        | error e =>
          rw [ho] at hl
          exact hl
        | ok V1 =>
          rw [ho] at hl
          exact connectAll_worth pa c p hf hv hl.1

theorem connectBlock_worth (pa : Params) (c : BlockChecks) (b : CBlock)
    (p : BlockBranch) (h : LedgerAt hashBlock co w V) :
    match connectBlock pa c b p V with
    | .error e => e ≠ .amountOverflow
    | .ok (V',_) => ∃ w', LedgerAt hashBlock co w' V' ∧ w' ≤ w+getBlockSubsidy p.nHeight pa := by
  have hb := checkBlock_spec c b
  unfold connectBlock
  split_ifs with hh
  · simp
  · cases hc : checkBlock c b with
    | error e =>
      rw [hc] at hb
      exact fun he => hb (corrupt_eq_overflow he)
    | ok u =>
      rw [hc] at hb
      exact connectChecked_worth pa c p hb.1 hb.2 h.getBestBlock _

end

/-- The coins of the tip are valid amounts. -/
def RangedCoins (coins : UtxoMap) : Prop := RangedView fun o => coins.lookup o

variable {st : TipState}

theorem connectTip_worth (p : Params) (ch : BlockChecks) (block : CBlock)
    (h : RangedCoins st.coins) :
    match connectTip p ch block st with
    | .error e => e ≠ .amountOverflow
    | .ok st' => st'.tip.nHeight = st.tip.nHeight+1 ∧ RangedCoins st'.coins ∧
        total coinValue st'.coins ≤
          total coinValue st.coins+getBlockSubsidy (st.tip.nHeight+1) p := by
  have hs : LedgerAt st.tip.hash st.coins (total coinValue st.coins)
      (cache CCoinsViewCache.empty (coinsMap st.tip.hash st.coins)) :=
    ⟨_,rfl,ledger_empty h,worth_empty st.coins⟩
  have hb := connectBlock_worth p ch block ⟨block.hash,st.tip.hash::st.tip.ancestors⟩ hs
  unfold connectTip
  cases hc : connectBlock p ch block ⟨block.hash,st.tip.hash::st.tip.ancestors⟩
      (cache CCoinsViewCache.empty (coinsMap st.tip.hash st.coins)) with
  | error e =>
    simp only [hc] at hb ⊢
    exact hb
  | ok r =>
    simp only [hc] at hb
    obtain ⟨w',⟨c,hV,hl,rfl⟩,he⟩ := hb
    obtain ⟨c',coins',hf,hr,ht⟩ := hl.flush st.tip.hash
    simp only [hc,ok_bind,hV,hf]
    exact ⟨rfl,hr,ht.trans he⟩

/-- The states reached from an empty set of coins on top of a genesis block. -/
inductive ConnectedChain (params : Params) : TipState → Prop
  | genesis (hash : BitVec 256) : ConnectedChain params ⟨⟨hash,[]⟩,∅⟩
  | block {st st' : TipState} (checks : BlockChecks) (block : CBlock)
      (h : ConnectedChain params st) (hconnect : connectTip params checks block st = .ok st') :
      ConnectedChain params st'

theorem totalSubsidy_succ (n : ℕ) (p : Params) :
    totalSubsidy (n+1) p = totalSubsidy n p+getBlockSubsidy (n+1) p := by
  rw [totalSubsidy,Finset.sum_Icc_succ_top (Nat.succ_pos n)]
  rfl

theorem ConnectedChain.worth {p : Params} (h : ConnectedChain p st) :
    RangedCoins st.coins ∧ total coinValue st.coins ≤ totalSubsidy st.tip.nHeight p := by
  induction h with
  | genesis hash =>
    refine ⟨fun o coin ho => ?_,?_⟩
    · simp at ho
    · rw [total_empty]
      exact le_rfl
  | block c block h hc ih =>
    have hs := connectTip_worth p c block ih.1
    rw [hc] at hs
    obtain ⟨hh,hr,hl⟩ := hs
    refine ⟨hr,?_⟩
    rw [hh,totalSubsidy_succ]
    exact hl.trans (by have := ih.2; linarith)

/-- The coins of every connected chain are worth at most the subsidies of its heights, which with
halvings every 210000 blocks stay below the largest valid amount; and no sum of amounts overflows
when a block is checked and connected on top of it. -/
theorem no_inflation (params : Params) (st : TipState) (h : ConnectedChain params st) :
    total coinValue st.coins ≤ totalSubsidy st.tip.nHeight params ∧
      (params.nSubsidyHalvingInterval = 210000 → totalSubsidy st.tip.nHeight params ≤ maxMoney) ∧
      ∀ checks block, connectTip params checks block st ≠ .error .amountOverflow := by
  refine ⟨h.worth.2,fun hp => totalSubsidy_le hp _,fun checks block he => ?_⟩
  have hs := connectTip_worth params checks block h.worth.1
  rw [he] at hs
  exact hs rfl

/-- Header, script and lock time checks that accept everything. -/
def acceptAll : BlockChecks where
  checkHeader _ := none
  legacySigOpCount _ := 0
  sequenceLocks _ _ := true
  sigOpCost _ _ := 0
  checkInputScripts _ _ := none
  scriptQueue _ := none

def rewardTx : CTransaction where
  version := 2
  vin := [⟨nullOutPoint,[0x51#8,0x00#8],0xffffffff#32,[]⟩]
  vout := [⟨50*coin,[0x51#8]⟩,⟨0,[0x6a#8]⟩]
  nLockTime := 0
  hash := 7
  vin_size := by decide
  vout_size := by decide
  scriptSig_size := by decide

theorem exists_of_any {ε α : Type} {x : Except ε α} {p : α → Bool}
    (h : x.toOption.any p = true) : ∃ a, x = .ok a ∧ p a = true := by
  cases x with
  | error e => exact absurd h Bool.false_ne_true
  | ok a => exact ⟨a,rfl,h⟩

def burntTx : CTransaction := { rewardTx with vout := [⟨0,[0x6a#8]⟩], vout_size := by decide }

/-- The chain of coinbases alone up to a height, all of which but the first are burnt. -/
def rewardChain : ℕ → Except BlockFailure TipState
  | 0 => .ok ⟨⟨1,[]⟩,∅⟩
  | nHeight+1 => do
    let st ← rewardChain nHeight
    let coinbase := if nHeight = 0 then rewardTx else burntTx
    let coinbase := { coinbase with hash := BitVec.ofNat 256 (1001+nHeight) }
    connectTip cDripParams acceptAll ⟨BitVec.ofNat 256 (nHeight+2),[coinbase]⟩ st

theorem connectedChain_rewardChain {nHeight : ℕ} {st : TipState}
    (h : rewardChain nHeight = .ok st) : ConnectedChain cDripParams st := by
  induction nHeight generalizing st with
  | zero =>
    obtain rfl := Except.ok.inj h
    exact .genesis 1
  | succ nHeight ih =>
    obtain ⟨st1,hh,hc⟩ := bind_eq_ok.mp h
    exact .block acceptAll _ (ih hh) hc

/-- The first coinbase is mature at height 101; one coin of it goes to the fees. -/
def maturedTx : CTransaction where
  version := 2
  vin := [⟨⟨1001,0⟩,[],0xffffffff#32,[]⟩]
  vout := [⟨49*coin,[0x51#8]⟩]
  nLockTime := 0
  hash := 3000
  vin_size := by decide
  vout_size := by decide
  scriptSig_size := by decide

def maturedBlock : CBlock :=
  ⟨5000,[{ rewardTx with vout := [⟨51*coin,[0x51#8]⟩], vout_size := by decide },maturedTx]⟩

theorem no_inflation_spending_block : ∃ st,
    (rewardChain 100).bind (connectTip cDripParams acceptAll maturedBlock) = .ok st ∧
      st.tip.nHeight = 101 ∧ st.coins.lookup ⟨1001, 0⟩ = none ∧
      total coinValue st.coins ≤ totalSubsidy 101 cDripParams ∧
      ∀ checks block, connectTip cDripParams checks block st ≠ .error .amountOverflow := by
  obtain ⟨st,hc,hk⟩ := exists_of_any
    (show ((rewardChain 100).bind (connectTip cDripParams acceptAll maturedBlock)).toOption.any
      (fun st => st.tip.nHeight == 101 && (st.coins.lookup ⟨1001,0⟩).isNone) = true by
        decide +kernel)
  obtain ⟨hh,hn⟩ := Bool.and_eq_true_iff.mp hk
  obtain ⟨st1,hr,hs⟩ := bind_eq_ok.mp hc
  obtain ⟨ht,-,ho⟩ := no_inflation cDripParams st
    (.block acceptAll _ (connectedChain_rewardChain hr) hs)
  rw [eq_of_beq hh] at ht
  exact ⟨st,hc,eq_of_beq hh,Option.isNone_iff_eq_none.mp hn,ht,ho⟩

end DripCore
