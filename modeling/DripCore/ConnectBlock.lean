import DripCore.CheckTransaction
import DripCore.DisconnectBlock

/-!
# Connecting a block

`CheckBlock` and `ConnectBlock` with the checks that read headers, scripts and lock times left
arbitrary, and `ConnectTip`, which runs `ConnectBlock` on a new cache and flushes it.

The checks left open are functions of a record, with the errors that the source reports for them.
Sums of amounts are partial, and an overflow is an outcome of its own, so that its absence is a
theorem and not an assumption.
-/
namespace DripCore
open CTransaction CoinsStore CoinsView ExceptRules

structure CBlock where
  hash : BitVec 256
  vtx : List CTransaction

def CBlock.serializeSize (block : CBlock) : ℕ := 80+(writeCompactSize block.vtx.length).length +
    (block.vtx.map CTransaction.serializeSize).sum

abbrev BlockFailure := Failure BlockValidationResult

def invalidBlock {α : Type} (result : BlockValidationResult) (rejectReason debugMessage : String) :
    Except BlockFailure α :=
  .error (.invalid ⟨result,rejectReason,debugMessage⟩)

/-- The failure of a check inside another one, which turns a verdict into its own. -/
def Failure.within {R S : Type} (onInvalid : Invalid R → Failure S) : Failure R → Failure S
  | .invalid reason => onInvalid reason
  | .amountOverflow => .amountOverflow
  | .runtimeError what => .runtimeError what
  | .fatal message => .fatal message
  | .assertion => .assertion
  | .cache e => .cache e

def uint256ToString (hash : BitVec 256) : String :=
  zeroPadded 64 (String.ofList (Nat.toDigits 16 hash.toNat))

def maxBlockSigOpsCost : ℤ := 80000

/-- The outcomes of the checks that are not modelled: the header with its proof of work, signature
operations, lock times and scripts. -/
structure BlockChecks where
  checkHeader : CBlock → Option (Invalid BlockValidationResult)
  legacySigOpCount : CTransaction → ℕ
  sequenceLocks : CTransaction → List ℕ → Bool
  sigOpCost : CTransaction → List Coin → ℤ
  checkInputScripts : CTransaction → List Coin → Option (Invalid TxValidationResult)
  scriptQueue : CBlock → Option (Invalid BlockValidationResult)

def checkTransactions : List CTransaction → Except BlockFailure Unit
  | [] => .ok ()
  | tx::vtx => do
      (checkTransaction tx).mapError (Failure.within fun reason =>
        if reason.result = .consensus then
          .invalid ⟨.consensus,reason.rejectReason,"Transaction check failed (tx hash " ++
            uint256ToString tx.hash ++ ") " ++ reason.debugMessage⟩
        else .assertion)
      checkTransactions vtx

def checkBlock (checks : BlockChecks) (block : CBlock) : Except BlockFailure Unit :=
  match checks.checkHeader block with
  | some reason => .error (.invalid reason)
  | none =>
    if block.vtx.isEmpty ∨ maxBlockWeight < block.vtx.length*witnessScaleFactor ∨
        maxBlockWeight < block.serializeSize*witnessScaleFactor then
      invalidBlock .consensus "bad-blk-length" "size limits failed"
    else if !block.vtx.head?.any isCoinBase then
      invalidBlock .consensus "bad-cb-missing" "first tx is not coinbase"
    else if block.vtx.tail.any isCoinBase then
      invalidBlock .consensus "bad-cb-multiple" "more than one coinbase"
    else do
      checkTransactions block.vtx
      if maxBlockSigOpsCost <
          (block.vtx.map checks.legacySigOpCount).sum*(witnessScaleFactor : ℤ) then
        invalidBlock .consensus "bad-blk-sigops" "out-of-bounds SigOpCount"
      else .ok ()

def isBIP30Repeat (pindex : BlockBranch) : Bool := (pindex.nHeight == 91842 &&
    pindex.hash == 0x00000000000a4d0a398161ffc163c503763b1f4360639393e0e4c8e300e0caec#256) ||
  (pindex.nHeight == 91880 &&
    pindex.hash == 0x00000000000743f190a18c5577a3c2d2a1f610ae9601ac046a38084ccb7cd721#256)

/-- The hash of the ancestor at a height. -/
def BlockBranch.getAncestor (pindex : BlockBranch) (height : ℤ) : Option (BitVec 256) :=
  if pindex.nHeight < height ∨ height < 0 then none
  else (pindex.hash::pindex.ancestors)[pindex.nHeight-height.toNat]?

def bip34ImpliesBip30Limit : ℕ := 1983702

def BlockBranch.pprev (pindex : BlockBranch) : Option BlockBranch :=
  match pindex.ancestors with
  | [] => none
  | hash::ancestors => some ⟨hash,ancestors⟩

/-- Whether the outputs of a block are looked up before they are created. -/
def enforceBIP30 (params : Params) (pprev pindex : BlockBranch) : Bool :=
  (!isBIP30Repeat pindex && pprev.getAncestor params.bip34Height != some params.bip34Hash) ||
    decide (bip34ImpliesBip30Limit ≤ pindex.nHeight)

variable {σ : Type} [CoinsStore σ]

def checkBIP30Loop : List COutPoint → σ → Except BlockFailure σ
  | [], s => .ok s
  | o::outpoints, s => do
      let (s,have_coin) ← fromCache (haveCoin s o)
      if have_coin then invalidBlock .consensus "bad-txns-BIP30" "tried to overwrite transaction"
      else checkBIP30Loop outpoints s

/-- The lookup of every output of a block. -/
def checkBIP30 (vtx : List CTransaction) (s : σ) : Except BlockFailure σ :=
  checkBIP30Loop (vtx.flatMap fun tx => tx.outputs.map Prod.fst) s

/-- The coins a transaction spends, as the checks before it read them. -/
def accessCoins : List CTxIn → σ → Except CacheError (σ × List Coin)
  | [], s => .ok (s,[])
  | txin::vin, s => do
      let (s,coin) ← accessCoin s txin.prevout
      let (s,coins) ← accessCoins vin s
      return (s,coin::coins)

structure ConnectState (σ : Type) where
  view : σ
  nFees : CAmount
  nSigOpsCost : ℤ

/-- Inputs, fees and sequence locks of a transaction other than a coinbase. -/
def checkSpending (checks : BlockChecks) (nHeight : ℕ) (tx : CTransaction) (st : ConnectState σ) :
    Except BlockFailure (ConnectState σ) := do
  let (view,txfee) ← (checkTxInputs tx st.view nHeight).mapError (Failure.within fun reason =>
    .invalid ⟨.consensus,reason.rejectReason,
      reason.debugMessage ++ " in transaction " ++ uint256ToString tx.hash⟩)
  let nFees ← checkedAmount (st.nFees+txfee)
  if moneyRange nFees then do
    let (view,coins) ← fromCache (accessCoins tx.vin view)
    if checks.sequenceLocks tx (coins.map Coin.nHeight) then return { st with view, nFees }
    else
      invalidBlock .consensus "bad-txns-nonfinal"
        ("contains a non-BIP68-final transaction " ++ uint256ToString tx.hash)
  else
    invalidBlock .consensus "bad-txns-accumulated-fee-outofrange"
      "accumulated fee in the block out of range"

def countSigOps (checks : BlockChecks) (tx : CTransaction) (st : ConnectState σ) :
    Except BlockFailure (ConnectState σ) := do
  let (view,coins) ← fromCache (accessCoins tx.spends st.view)
  if coins.any Coin.isSpent then .error .assertion
  else
    let nSigOpsCost := st.nSigOpsCost+checks.sigOpCost tx coins
    if maxBlockSigOpsCost < nSigOpsCost then
      invalidBlock .consensus "bad-blk-sigops" "too many sigops"
    else return { st with view, nSigOpsCost }

def checkScripts (checks : BlockChecks) (tx : CTransaction) (st : ConnectState σ) :
    Except BlockFailure (ConnectState σ) := do
  let (view,coins) ← fromCache (accessCoins tx.vin st.view)
  match checks.checkInputScripts tx coins with
  | some reason => invalidBlock .consensus reason.rejectReason reason.debugMessage
  | none => return { st with view }

def checkTx (checks : BlockChecks) (nHeight : ℕ) (tx : CTransaction) (st : ConnectState σ) :
    Except BlockFailure (ConnectState σ) := do
  let st ← applyIf (!tx.isCoinBase) (checkSpending checks nHeight tx) st
  let st ← countSigOps checks tx st
  applyIf (!tx.isCoinBase) (checkScripts checks tx) st

def connectTx (checks : BlockChecks) (nHeight : ℕ) (tx : CTransaction) (st : ConnectState σ) :
    Except BlockFailure (ConnectState σ × CTxUndo) := do
  let st ← checkTx checks nHeight tx st
  let (view,txundo) ← fromCache (updateCoins tx st.view nHeight)
  return ({ st with view },txundo)

def connectTxs (checks : BlockChecks) (nHeight : ℕ) :
    List CTransaction → ConnectState σ → Except BlockFailure (ConnectState σ × List CTxUndo)
  | [], st => .ok (st,[])
  | tx::vtx, st => do
      let (st,txundo) ← connectTx checks nHeight tx st
      let (st,vtxundo) ← connectTxs checks nHeight vtx st
      return (st,txundo::vtxundo)

/-- The first transaction may pay out the fees and the subsidy. -/
def checkReward (params : Params) (nHeight : ℕ) (vtx : List CTransaction) (nFees : CAmount) :
    Except BlockFailure Unit := do
  let blockReward ← checkedAmount (nFees+getBlockSubsidy nHeight params)
  match vtx with
  | [] => .error (.cache .nullPointer)
  | coinbase::_ => do
      let valueOut ← coinbase.getValueOut
      if blockReward < valueOut then
        invalidBlock .consensus "bad-cb-amount" ("coinbase pays too much (actual=" ++
          toString valueOut ++ " vs limit=" ++ toString blockReward ++ ")")
      else .ok ()

def connectTransactions (params : Params) (checks : BlockChecks) (block : CBlock)
    (pindex : BlockBranch) (view : σ) : Except BlockFailure (σ × CBlockUndo) := do
  let (st,vtxundo) ← connectTxs checks pindex.nHeight block.vtx ⟨view,0,0⟩
  checkReward params pindex.nHeight block.vtx st.nFees
  match checks.scriptQueue block with
  | some reason => .error (.invalid reason)
  | none => return (setBestBlock st.view pindex.hash,⟨vtxundo.tail⟩)

/-- A corrupt block is a fatal error, not an invalid one. -/
def corruptBlock : BlockFailure → BlockFailure
  | .invalid reason =>
    if reason.result = .mutated then
      .fatal "Corrupt block found indicating potential hardware failure."
    else .invalid reason
  | e => e

def connectChecked (params : Params) (checks : BlockChecks) (block : CBlock) (pindex : BlockBranch)
    (view : σ) (best : BitVec 256) : Except BlockFailure (σ × CBlockUndo) :=
  if pindex.ancestors.head?.getD 0 ≠ best then .error .assertion
  else if block.hash = params.hashGenesisBlock then
    .ok (setBestBlock view pindex.hash,⟨[]⟩)
  else
    match pindex.pprev with
    | none => .error .assertion
    | some pprev => do
        let view ← applyIf (enforceBIP30 params pprev pindex) (checkBIP30 block.vtx) view
        connectTransactions params checks block pindex view

/-- `ConnectBlock` without `fJustCheck`; the undo data are what it writes to disk. -/
def connectBlock (params : Params) (checks : BlockChecks) (block : CBlock) (pindex : BlockBranch)
    (view : σ) : Except BlockFailure (σ × CBlockUndo) :=
  if pindex.hash ≠ block.hash then .error .assertion
  else do
    (checkBlock checks block).mapError corruptBlock
    let (view,best) := getBestBlock view
    connectChecked params checks block pindex view best

structure TipState where
  tip : BlockBranch
  coins : UtxoMap

/-- `ConnectTip`: a new cache over the coins, flushed when the block has been connected. -/
def connectTip (params : Params) (checks : BlockChecks) (block : CBlock) (st : TipState) :
    Except BlockFailure TipState := do
  let pindexNew : BlockBranch := ⟨block.hash,st.tip.hash::st.tip.ancestors⟩
  let (view,_) ← connectBlock params checks block pindexNew
    (cache CCoinsViewCache.empty (coinsMap st.tip.hash st.coins))
  let (view,flushed) ← fromCache (applyAt .flush 0 view)
  match view, flushed with
  | cache _ (coinsMap _ coins), .flag true => return ⟨pindexNew,coins⟩
  | _, _ => .error .assertion

theorem connectTip_eq_ok {p : Params} {ch : BlockChecks} {block : CBlock}
    {st st' : TipState} (h : connectTip p ch block st = .ok st') :
    ∃ V u c hashBlock, connectBlock p ch block ⟨block.hash,st.tip.hash::st.tip.ancestors⟩
        (cache CCoinsViewCache.empty (coinsMap st.tip.hash st.coins)) = .ok (V,u) ∧
      applyAt .flush 0 V = .ok (cache c (coinsMap hashBlock st'.coins),.flag true) ∧
      st'.tip = ⟨block.hash,st.tip.hash::st.tip.ancestors⟩ := by
  obtain ⟨⟨V,u⟩,hb,hr⟩ := bind_eq_ok.mp h
  cases hf : applyAt .flush 0 V with
  | error e => simp [hf,fromCache,Except.mapError] at hr
  | ok r =>
    obtain ⟨W,out⟩ := r
    simp only [hf,fromCache,Except.mapError,ok_bind] at hr
    split at hr
    · obtain rfl := Except.ok.inj hr
      exact ⟨V,u,_,_,hb,hf,rfl⟩
    · exact absurd hr (by simp)

theorem Failure.within_eq_overflow {R S : Type} {oi : Invalid R → Failure S} {e : Failure R}
    (hn : ∀ r, oi r ≠ .amountOverflow)
    (h : e.within oi = .amountOverflow) : e = .amountOverflow := by
  cases e with
  | invalid r => exact absurd h (hn r)
  | amountOverflow => rfl
  | runtimeError what => simp [within] at h
  | fatal m => simp [within] at h
  | assertion => simp [within] at h
  | cache e => simp [within] at h

theorem checkTxs_spec (vtx : List CTransaction) :
    match checkTransactions vtx with
    | .error e => e ≠ .amountOverflow
    | .ok _ => ∀ tx ∈ vtx, CheckedTx tx := by
  induction vtx with
  | nil => simp [checkTransactions]
  | cons tx vtx ih =>
    have htx := checkTransaction_spec tx
    rw [checkTransactions]
    cases hc : checkTransaction tx with
    | error e =>
      rw [hc] at htx
      refine fun he => htx (Failure.within_eq_overflow (fun r => ?_) he)
      split_ifs <;> simp
    | ok u =>
      rw [hc] at htx
      cases hr : checkTransactions vtx with
      | error e =>
        rw [hr] at ih
        exact ih
      | ok u =>
        rw [hr] at ih
        intro t ht
        rcases List.mem_cons.mp ht with rfl | ht
        · exact htx
        · exact ih t ht

theorem checkBlock_spec (ch : BlockChecks) (block : CBlock) :
    match checkBlock ch block with
    | .error e => e ≠ .amountOverflow
    | .ok _ => CoinbaseFirst block.vtx ∧ ∀ tx ∈ block.vtx, CheckedTx tx := by
  unfold checkBlock
  cases hh : ch.checkHeader block with
  | some r => simp
  | none =>
    have ht := checkTxs_spec block.vtx
    cases hc : checkTransactions block.vtx with
    | error e =>
      rw [hc] at ht
      split_ifs
      all_goals first | exact ht | simp [invalidBlock]
    | ok u =>
      rw [hc] at ht
      split_ifs with hs hf hr hsi
      all_goals first | simp [invalidBlock]; done | skip
      refine ⟨?_,ht⟩
      cases hv : block.vtx with
      | nil => simp [hv] at hs
      | cons coinbase vtx => simpa [hv,CoinbaseFirst] using And.intro hf hr

variable {view : σ → COutPoint → Option Coin} {R : σ → Prop}

section
variable (laws : ReadLaws view R)
include laws

variable {s : σ} {st : ConnectState σ}

theorem accessCoins_spec (h : R s) (vin : List CTxIn) :
    ∃ s' coins, accessCoins vin s = .ok (s',coins) ∧ R s' ∧ view s' = view s := by
  induction vin generalizing s with
  | nil => exact ⟨s,[],rfl,h,rfl⟩
  | cons t vin ih =>
    obtain ⟨s1,coin,ha,h1,hv,-⟩ := laws.accessCoin t.prevout h
    obtain ⟨s2,coins,hl,h2,hv'⟩ := ih h1
    exact ⟨s2,coin::coins,by simp [accessCoins,ha,hl],h2,hv'.trans hv⟩

/-- What the checks of one round establish: a store with the same view, and the fees. -/
theorem checkSpending_spec (ch : BlockChecks) (nHeight : ℕ) {tx : CTransaction}
    (htx : CheckedTx tx) (hb : tx.isCoinBase = false) (h : R st.view)
    (hfe : moneyRange st.nFees = true) : match checkSpending ch nHeight tx st with
    | .error e => RangedView (view st.view) → e ≠ .amountOverflow
    | .ok st' => R st'.view ∧ view st'.view = view st.view ∧ (∀ txin ∈ tx.vin,
      (view st.view txin.prevout).isSome) ∧
        st'.nFees = st.nFees+(inTotal (view st.view) tx.vin-outTotal tx.vout) ∧
        moneyRange st'.nFees = true := by
  have hn := checkTxInputs_spec laws h htx hb nHeight
  rw [checkSpending]
  cases hc : checkTxInputs tx st.view nHeight with
  | error e =>
    rw [hc] at hn
    exact fun hr he => hn hr (Failure.within_eq_overflow (by simp) he)
  | ok r =>
    obtain ⟨s1,t⟩ := r
    rw [hc] at hn
    obtain ⟨h1,hv,ha,rfl,hf⟩ := hn
    simp only [Except.mapError,ok_bind,amount_add hfe hf]
    split_ifs with hs
    · obtain ⟨s2,coins,hac,h2,hv'⟩ := accessCoins_spec laws h1 tx.vin
      simp only [hac,fromCache,Except.mapError,ok_bind]
      split_ifs with hl
      · exact ⟨h2,hv'.trans hv,ha,rfl,hs⟩
      · simp [invalidBlock]
    · simp [invalidBlock]

theorem countSigOps_spec (ch : BlockChecks) (tx : CTransaction) (h : R st.view) :
    match countSigOps ch tx st with
    | .error e => e ≠ .amountOverflow
    | .ok st' => R st'.view ∧ view st'.view = view st.view ∧ st'.nFees = st.nFees := by
  obtain ⟨s1,coins,ha,h1,hv⟩ := accessCoins_spec laws h tx.spends
  simp only [countSigOps,ha,fromCache,Except.mapError,ok_bind]
  split_ifs
  · simp
  · simp [invalidBlock]
  · exact ⟨h1,hv,rfl⟩

theorem checkScripts_spec (ch : BlockChecks) (tx : CTransaction) (h : R st.view) :
    match checkScripts ch tx st with
    | .error e => e ≠ .amountOverflow
    | .ok st' => R st'.view ∧ view st'.view = view st.view ∧ st'.nFees = st.nFees := by
  obtain ⟨s1,coins,ha,h1,hv⟩ := accessCoins_spec laws h tx.vin
  simp only [checkScripts,ha,fromCache,Except.mapError,ok_bind]
  cases hs : ch.checkInputScripts tx coins with
  | some r => simp [invalidBlock]
  | none => exact ⟨h1,hv,rfl⟩

theorem checkBIP30Loop_spec (h : R s) (ou : List COutPoint) :
    match checkBIP30Loop ou s with
    | .error e => e ≠ .amountOverflow
    | .ok s' => R s' ∧ view s' = view s := by
  induction ou generalizing s with
  | nil => exact ⟨h,rfl⟩
  | cons o ou ih =>
    obtain ⟨s1,hh,h1,hv⟩ := laws.haveCoin o h
    simp only [checkBIP30Loop,hh,fromCache,Except.mapError,ok_bind]
    split_ifs
    · simp [invalidBlock]
    · rw [← hv]
      exact ih h1

theorem applyIf_checkBIP30 {s' : σ} (h : R s) {e : Bool} {vtx : List CTransaction}
    (hc : applyIf e (checkBIP30 vtx) s = .ok s') : R s' ∧ view s' = view s := by
  cases e with
  | false =>
    obtain rfl := Except.ok.inj hc
    exact ⟨h,rfl⟩
  | true =>
    have hs := checkBIP30Loop_spec laws h (vtx.flatMap fun tx => tx.outputs.map Prod.fst)
    rw [applyIf_true,checkBIP30] at hc
    rwa [hc] at hs

end

def txFee (v : COutPoint → Option Coin) (tx : CTransaction) : CAmount :=
  if tx.isCoinBase then 0 else inTotal v tx.vin-outTotal tx.vout

variable {tx : CTransaction} {st : ConnectState σ} (laws : ReadLaws view R) (c : BlockChecks)
  (he : ℕ) (htx : CheckedTx tx) (h : R st.view) (hfe : moneyRange st.nFees = true)
include laws c he htx h hfe

theorem checkTx_spec : match checkTx c he tx st with
    | .error e => RangedView (view st.view) → e ≠ .amountOverflow
    | .ok st' => R st'.view ∧ view st'.view = view st.view ∧ (∀ txin ∈ tx.spends,
      (view st.view txin.prevout).isSome) ∧
        st'.nFees = st.nFees+txFee (view st.view) tx ∧ moneyRange st'.nFees = true := by
  unfold checkTx
  cases hc : tx.isCoinBase with
  | true =>
    have hsi := countSigOps_spec laws c tx h
    simp only [Bool.not_true,applyIf_false,ok_bind]
    cases ho : countSigOps c tx st with
    | error e =>
      rw [ho] at hsi
      exact fun _ => hsi
    | ok st1 =>
      rw [ho] at hsi
      obtain ⟨h1,hv1,hfe1⟩ := hsi
      refine ⟨h1,hv1,by simp [spends,hc],?_,hfe1 ▸ hfe⟩
      rw [hfe1,txFee,hc,if_pos rfl,add_zero]
  | false =>
    have hp := checkSpending_spec laws c he htx hc h hfe
    simp only [Bool.not_false,applyIf_true]
    cases hs : checkSpending c he tx st with
    | error e =>
      rw [hs] at hp
      exact hp
    | ok st1 =>
      rw [hs] at hp
      obtain ⟨h1,hv1,ha,hfe1,hr⟩ := hp
      have hsi := countSigOps_spec laws c tx h1
      rw [ok_bind]
      cases ho : countSigOps c tx st1 with
      | error e =>
        rw [ho] at hsi
        exact fun _ => hsi
      | ok st2 =>
        rw [ho] at hsi
        obtain ⟨h2,hv2,hfe2⟩ := hsi
        have hsc := checkScripts_spec laws c tx h2
        rw [ok_bind]
        cases hh : checkScripts c tx st2 with
        | error e =>
          rw [hh] at hsc
          exact fun _ => hsc
        | ok st3 =>
          rw [hh] at hsc
          obtain ⟨h3,hv3,hfe3⟩ := hsc
          refine ⟨h3,hv3.trans (hv2.trans hv1),?_,?_,?_⟩
          · rwa [spends_eq_vin hc]
          · rw [hfe3,hfe2,hfe1,txFee,hc]
            rfl
          · rw [hfe3,hfe2]
            exact hr

theorem connectTx_spec : match connectTx c he tx st with
    | .error e => RangedView (view st.view) → e ≠ .amountOverflow
    | .ok (st',txundo) => ∃ s, R s ∧ view s = view st.view ∧ updateCoins tx s he = .ok (st'.view,
      txundo) ∧
        (∀ txin ∈ tx.spends, (view st.view txin.prevout).isSome) ∧
        st'.nFees = st.nFees+txFee (view st.view) tx ∧ moneyRange st'.nFees = true := by
  have hb := checkTx_spec laws c he htx h hfe
  rw [connectTx]
  cases hc : checkTx c he tx st with
  | error e =>
    rw [hc] at hb
    exact hb
  | ok st1 =>
    rw [hc] at hb
    obtain ⟨h1,hv,ha,hfe1,hr⟩ := hb
    rw [ok_bind]
    cases hu : updateCoins tx st1.view he with
    | error e => simp [fromCache,Except.mapError]
    | ok r => exact ⟨st1.view,h1,hv,hu,ha,hfe1,hr⟩

end DripCore
