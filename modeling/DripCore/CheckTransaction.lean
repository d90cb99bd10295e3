import DripCore.Amount
import DripCore.Serialization
import DripCore.UpdateCoins
import DripCore.ValidationState

/-!
# Checking transactions

`CheckTransaction` looks at a transaction alone, `CheckTxInputs` also at the coins it spends. A sum
that does not fit 64 bits is an outcome of its own, so that its absence can be stated.

The messages and the order of the checks are those of the source. What passes has sums in range,
whatever the view of the coins, and this is all that block connection asks of it.
-/
namespace DripCore
open CoinsView ExceptRules List

def witnessScaleFactor : ℕ := 4

def maxBlockWeight : ℕ := 4000000

def coinbaseMaturity : ℤ := 100

/-- How a check can end other than by accepting. -/
inductive Failure (Result : Type) where
  | invalid (reason : Invalid Result)
  | amountOverflow
  | runtimeError (what : String)
  | fatal (message : String)
  | assertion
  | cache (e : CacheError)
deriving DecidableEq

abbrev TxFailure := Failure TxValidationResult

def invalidTx {α : Type} (result : TxValidationResult) (rejectReason debugMessage : String) :
    Except TxFailure α :=
  .error (.invalid ⟨result,rejectReason,debugMessage⟩)

/-- A sum or difference of amounts, if it fits. -/
def checkedAmount {Result : Type} (n : CAmount) : Except (Failure Result) CAmount :=
  if fitsInt64 n then .ok n else .error .amountOverflow

def fromCache {Result α : Type} (x : Except CacheError α) : Except (Failure Result) α :=
  x.mapError .cache

def checkOutputs : List CTxOut → CAmount → Except TxFailure CAmount
  | [], nValueOut => .ok nValueOut
  | txout::vout, nValueOut =>
    if txout.nValue < 0 then invalidTx .consensus "bad-txns-vout-negative" ""
    else if maxMoney < txout.nValue then invalidTx .consensus "bad-txns-vout-toolarge" ""
    else do
      let nValueOut ← checkedAmount (nValueOut+txout.nValue)
      if moneyRange nValueOut then checkOutputs vout nValueOut
      else invalidTx .consensus "bad-txns-txouttotal-toolarge" ""

def checkDuplicateInputs : List CTxIn → List COutPoint → Except TxFailure Unit
  | [], _ => .ok ()
  | txin::vin, vInOutPoints =>
    if txin.prevout ∈ vInOutPoints then invalidTx .consensus "bad-txns-inputs-duplicate" ""
    else checkDuplicateInputs vin (txin.prevout::vInOutPoints)

def checkPrevouts (tx : CTransaction) : Except TxFailure Unit :=
  if tx.isCoinBase then
    if tx.vin.head?.any fun txin =>
        decide (txin.scriptSig.length < 2 ∨ 100 < txin.scriptSig.length) then
      invalidTx .consensus "bad-cb-length" ""
    else .ok ()
  else if tx.vin.any fun txin => txin.prevout.isNull then
    invalidTx .consensus "bad-txns-prevout-null" ""
  else .ok ()

def checkTransaction (tx : CTransaction) : Except TxFailure Unit :=
  if tx.vin.isEmpty then invalidTx .consensus "bad-txns-vin-empty" ""
  else if tx.vout.isEmpty then invalidTx .consensus "bad-txns-vout-empty" ""
  else if maxBlockWeight < tx.serializeSize*witnessScaleFactor then
    invalidTx .consensus "bad-txns-oversize" ""
  else do
    let _ ← checkOutputs tx.vout 0
    checkDuplicateInputs tx.vin []
    checkPrevouts tx

def valueOutLoop {Result : Type} : List CTxOut → CAmount → Except (Failure Result) CAmount
  | [], nValueOut => if moneyRange nValueOut then .ok nValueOut else .error .assertion
  | tx_out::vout, nValueOut =>
    if moneyRange tx_out.nValue then do
      let sum ← checkedAmount (nValueOut+tx_out.nValue)
      if moneyRange sum then valueOutLoop vout sum
      else .error (.runtimeError "GetValueOut: value out of range")
    else .error (.runtimeError "GetValueOut: value out of range")

def CTransaction.getValueOut {Result : Type} (tx : CTransaction) :
    Except (Failure Result) CAmount :=
  valueOutLoop tx.vout 0

section
variable {σ : Type} [CoinsStore σ]

def haveInputsLoop : List CTxIn → σ → Except CacheError (σ × Bool)
  | [], s => .ok (s,true)
  | txin::vin, s => do
      let (s,have_coin) ← CoinsStore.haveCoin s txin.prevout
      if have_coin then haveInputsLoop vin s else return (s,false)

def haveInputs (tx : CTransaction) (s : σ) : Except CacheError (σ × Bool) :=
  haveInputsLoop tx.spends s

/-- The loop of `CheckTxInputs` over the coins to be spent. -/
def sumInputs (nSpendHeight : ℕ) : List CTxIn → CAmount → σ → Except TxFailure (σ × CAmount)
  | [], nValueIn, s => .ok (s,nValueIn)
  | txin::vin, nValueIn, s => do
      let (s,coin) ← fromCache (CoinsStore.accessCoin s txin.prevout)
      if coin.isSpent then .error .assertion
      else if coin.fCoinBase ∧ (nSpendHeight : ℤ)-coin.nHeight < coinbaseMaturity then
        invalidTx .prematureSpend "bad-txns-premature-spend-of-coinbase"
          ("tried to spend coinbase at depth " ++ toString ((nSpendHeight : ℤ)-coin.nHeight))
      else do
        let nValueIn ← checkedAmount (nValueIn+coin.out.nValue)
        if moneyRange coin.out.nValue ∧ moneyRange nValueIn then
          sumInputs nSpendHeight vin nValueIn s
        else invalidTx .consensus "bad-txns-inputvalues-outofrange" ""

def checkTxInputs (tx : CTransaction) (inputs : σ) (nSpendHeight : ℕ) :
    Except TxFailure (σ × CAmount) := do
  let (inputs,available) ← fromCache (haveInputs tx inputs)
  if available then do
    let (inputs,nValueIn) ← sumInputs nSpendHeight tx.vin 0 inputs
    let value_out ← tx.getValueOut
    if nValueIn < value_out then
      invalidTx .consensus "bad-txns-in-belowout"
        ("value in (" ++ formatMoney nValueIn ++ ") < value out (" ++ formatMoney value_out ++ ")")
    else do
      let txfee_aux ← checkedAmount (nValueIn-value_out)
      if moneyRange txfee_aux then return (inputs,txfee_aux)
      else invalidTx .consensus "bad-txns-fee-outofrange" ""
  else
    invalidTx .missingInputs "bad-txns-inputs-missingorspent" "CheckTxInputs: inputs missing/spent"

end

def outTotal (vout : List CTxOut) : CAmount := (vout.map CTxOut.nValue).sum

@[simp] theorem outTotal_nil : outTotal [] = 0 := rfl

@[simp] theorem outTotal_cons (out : CTxOut) (vout : List CTxOut) :
    outTotal (out::vout) = out.nValue+outTotal vout := sum_cons

section
variable {r : Type} {a b : CAmount}

theorem amount_add (ha : moneyRange a = true) (hb : moneyRange b = true) :
    (checkedAmount (a+b) : Except (Failure r) CAmount) = .ok (a+b) := by
  obtain ⟨ha0,ha1⟩ := moneyRange_iff.mp ha
  obtain ⟨hb0,hb1⟩ := moneyRange_iff.mp hb
  have hm : maxMoney < 2^62 := by decide
  rw [checkedAmount,if_pos]
  exact decide_eq_true ⟨by linarith,by linarith⟩

theorem amount_sub (ha : moneyRange a = true) (hb : moneyRange b = true) :
    (checkedAmount (a-b) : Except (Failure r) CAmount) = .ok (a-b) := by
  obtain ⟨ha0,ha1⟩ := moneyRange_iff.mp ha
  obtain ⟨hb0,hb1⟩ := moneyRange_iff.mp hb
  have hm : maxMoney < 2^62 := by decide
  rw [checkedAmount,if_pos]
  exact decide_eq_true ⟨by linarith,by linarith⟩

theorem checkedAmount_eq {n sum : CAmount}
    (h : (checkedAmount n : Except (Failure r) CAmount) = .ok sum) : sum = n := by
  unfold checkedAmount at h
  split_ifs at h
  exact (Except.ok.inj h).symm

end

variable {vo : CAmount} {vout : List CTxOut}

/-- The sums in the output loop fit, and an accepted list of outputs has valid amounts. -/
theorem checkOutputs_spec (vout : List CTxOut) (h : moneyRange vo = true) :
    match checkOutputs vout vo with
    | .error e => e ≠ .amountOverflow
    | .ok total => total = vo+outTotal vout ∧ moneyRange total = true ∧
        ∀ out ∈ vout, moneyRange out.nValue = true := by
  induction vout generalizing vo with
  | nil => exact ⟨by simp,h,by simp⟩
  | cons out vout ih =>
    rw [checkOutputs]
    split_ifs with hn hl
    · simp [invalidTx]
    · simp [invalidTx]
    · have hu : moneyRange out.nValue = true := moneyRange_iff.mpr ⟨not_lt.mp hn,not_lt.mp hl⟩
      rw [amount_add h hu,ok_bind]
      cases hs : moneyRange (vo+out.nValue) with
      | false => simp [invalidTx]
      | true =>
        have hr := ih hs
        cases hlo : checkOutputs vout (vo+out.nValue) with
        | error e => rwa [hlo] at hr
        | ok total =>
          rw [hlo] at hr
          refine ⟨by rw [hr.1,outTotal_cons]; ring,hr.2.1,?_⟩
          intro o ho
          rcases mem_cons.mp ho with rfl | ho
          · exact hu
          · exact hr.2.2 o ho

theorem duplicateInputs_spec (vin : List CTxIn) (se : List COutPoint) :
    match checkDuplicateInputs vin se with
    | .error e => e ≠ .amountOverflow
    | .ok _ => (vin.map CTxIn.prevout).Nodup ∧ ∀ t ∈ vin, t.prevout ∉ se := by
  induction vin generalizing se with
  | nil => simp [checkDuplicateInputs]
  | cons t vin ih =>
    rw [checkDuplicateInputs]
    split_ifs with hs
    · simp [invalidTx]
    · have hr := ih (t.prevout::se)
      cases hl : checkDuplicateInputs vin (t.prevout::se) with
      | error e => rwa [hl] at hr
      | ok u =>
        rw [hl] at hr
        refine ⟨?_,?_⟩
        · rw [map_cons,nodup_cons]
          refine ⟨fun hm => ?_,hr.1⟩
          obtain ⟨i,hi,he⟩ := mem_map.mp hm
          exact hr.2 i hi (he ▸ mem_cons_self)
        · intro i hi
          rcases mem_cons.mp hi with rfl | hi
          · exact hs
          · exact fun hm => hr.2 i hi (mem_cons_of_mem _ hm)

theorem prevouts_ne_overflow (tx : CTransaction) : checkPrevouts tx ≠ .error .amountOverflow := by
  unfold checkPrevouts
  split_ifs <;> simp [invalidTx]

structure CheckedTx (tx : CTransaction) : Prop where
  vin : tx.vin ≠ []
  nodup : (tx.vin.map CTxIn.prevout).Nodup
  range : ∀ out ∈ tx.vout, moneyRange out.nValue = true
  total : moneyRange (outTotal tx.vout) = true

theorem checkTransaction_spec (tx : CTransaction) :
    match checkTransaction tx with
    | .error e => e ≠ .amountOverflow
    | .ok _ => CheckedTx tx := by
  unfold checkTransaction
  split_ifs with hvi hv hs
  · simp [invalidTx]
  · simp [invalidTx]
  · simp [invalidTx]
  · have ho := checkOutputs_spec tx.vout (show moneyRange 0 = true by decide)
    have hn := duplicateInputs_spec tx.vin []
    cases hu : checkOutputs tx.vout 0 with
    | error e => rwa [hu] at ho
    | ok total =>
      rw [hu] at ho
      cases hin : checkDuplicateInputs tx.vin [] with
      | error e => rwa [hin] at hn
      | ok u =>
        rw [hin] at hn
        cases hp : checkPrevouts tx with
        | error e => exact fun he => prevouts_ne_overflow tx (by rw [hp,he])
        | ok u =>
          refine ⟨by simpa using hvi,hn.1,ho.2.2,?_⟩
          rw [← zero_add (outTotal tx.vout),← ho.1]
          exact ho.2.1

theorem outTotal_nonneg (h : ∀ out ∈ vout, moneyRange out.nValue = true) : 0 ≤ outTotal vout := by
  refine sum_nonneg fun n hn => ?_
  obtain ⟨out,ho,rfl⟩ := mem_map.mp hn
  exact (moneyRange_iff.mp (h out ho)).1

theorem valueOutLoop_eq (re : Type) (h : moneyRange vo = true)
    (hu : ∀ out ∈ vout, moneyRange out.nValue = true)
    (ht : moneyRange (vo+outTotal vout) = true) :
    (valueOutLoop vout vo : Except (Failure re) CAmount) = .ok (vo+outTotal vout) := by
  induction vout generalizing vo with
  | nil => simp [valueOutLoop,h]
  | cons out vout ih =>
    have hh := hu out mem_cons_self
    have hr := fun o ho => hu o (mem_cons_of_mem out ho)
    rw [outTotal_cons,← add_assoc] at ht ⊢
    have hs : moneyRange (vo+out.nValue) = true := by
      have hn := (moneyRange_iff.mp h).1
      have ho := (moneyRange_iff.mp hh).1
      have hp := outTotal_nonneg hr
      have hm := (moneyRange_iff.mp ht).2
      exact moneyRange_iff.mpr ⟨add_nonneg hn ho,by linarith⟩
    rw [valueOutLoop,if_pos hh,amount_add h hh,ok_bind,if_pos hs,ih hs hr ht]

theorem CheckedTx.getValueOut {re : Type} {tx : CTransaction} (h : CheckedTx tx) :
    (tx.getValueOut : Except (Failure re) CAmount) = .ok (outTotal tx.vout) := by
  have hl := valueOutLoop_eq re (show moneyRange 0 = true by decide) h.range
    (by rw [zero_add]; exact h.total)
  rwa [zero_add] at hl

def valueAt (v : COutPoint → Option Coin) (o : COutPoint) : CAmount :=
  ((v o).map fun coin => coin.out.nValue).getD 0

def inTotal (v : COutPoint → Option Coin) (vin : List CTxIn) : CAmount :=
  (vin.map fun txin => valueAt v txin.prevout).sum

def RangedView (v : COutPoint → Option Coin) : Prop :=
  ∀ o coin, v o = some coin → moneyRange coin.out.nValue = true

/-- Reads answer from a view, and keep it and a property of the store. -/
structure ReadLaws {σ : Type} [CoinsStore σ] (view : σ → COutPoint → Option Coin)
    (R : σ → Prop) : Prop where
  haveCoin : ∀ {s : σ} (o : COutPoint), R s →
    ∃ s', CoinsStore.haveCoin s o = .ok (s',(view s o).isSome) ∧ R s' ∧ view s' = view s
  accessCoin : ∀ {s : σ} (o : COutPoint), R s →
    ∃ s' coin, CoinsStore.accessCoin s o = .ok (s',coin) ∧ R s' ∧ view s' = view s ∧
      unspent coin = view s o

variable {σ : Type} [CoinsStore σ] {view : σ → COutPoint → Option Coin} {R : σ → Prop} {s : σ}

variable (laws : ReadLaws view R) (h : R s)
include laws h

theorem haveInputsLoop_spec (vin : List CTxIn) :
    ∃ s' available, haveInputsLoop vin s = .ok (s',available) ∧ R s' ∧ view s' = view s ∧
      (available = true → ∀ t ∈ vin, (view s t.prevout).isSome) := by
  induction vin generalizing s with
  | nil => exact ⟨s,true,rfl,h,rfl,by simp⟩
  | cons t vin ih =>
    obtain ⟨s1,hh,h1,hv⟩ := laws.haveCoin t.prevout h
    cases hs : (view s t.prevout).isSome with
    | false =>
      rw [hs] at hh
      exact ⟨s1,false,by simp [haveInputsLoop,hh],h1,hv,by simp⟩
    | true =>
      rw [hs] at hh
      obtain ⟨s2,available,hl,h2,hv',hav⟩ := ih h1
      refine ⟨s2,available,by simp [haveInputsLoop,hh,hl],h2,hv'.trans hv,fun ha i hi => ?_⟩
      rcases mem_cons.mp hi with rfl | hi
      · exact hs
      · rw [← hv]
        exact hav ha i hi

/-- The sums in the input loop fit if the amounts in the view are valid. -/
theorem sumInputs_spec (nsh : ℕ) {vin : List CTxIn} (nvi : CAmount)
    (ha : ∀ t ∈ vin, (view s t.prevout).isSome) :
    match sumInputs nsh vin nvi s with
    | .error e => RangedView (view s) → moneyRange nvi = true → e ≠ .amountOverflow
    | .ok (s',total) => R s' ∧ view s' = view s ∧ total = nvi+inTotal (view s) vin ∧
        (moneyRange nvi = true → moneyRange total = true) := by
  induction vin generalizing s nvi with
  | nil => exact ⟨h,rfl,by simp [inTotal],id⟩
  | cons t vin ih =>
    obtain ⟨s1,coin,hac,h1,hvi,ho⟩ := laws.accessCoin t.prevout h
    obtain ⟨c,hc⟩ := Option.isSome_iff_exists.mp (ha t mem_cons_self)
    rw [hc] at ho
    obtain rfl := unspent_eq_some ho
    have hp : coin.isSpent = false := by
      cases hs : coin.isSpent with
      | false => rfl
      | true => simp [unspent,hs] at ho
    have hv : valueAt (view s) t.prevout = coin.out.nValue := by simp [valueAt,hc]
    simp only [sumInputs,hac,fromCache,Except.mapError,ok_bind,hp,Bool.false_eq_true,if_false]
    split_ifs with hm
    · simp [invalidTx]
    · cases ham : (checkedAmount (nvi+coin.out.nValue) : Except TxFailure CAmount) with
      | error e =>
        intro hr hn
        rw [amount_add hn (hr _ _ hc)] at ham
        exact absurd ham (by simp)
      | ok sum =>
        obtain rfl := checkedAmount_eq ham
        rw [ok_bind]
        split_ifs with hu
        · have he := ih h1 (nvi+coin.out.nValue) fun i hi => by
            rw [hvi]
            exact ha i (mem_cons_of_mem _ hi)
          rw [hvi] at he
          cases hl : sumInputs nsh vin (nvi+coin.out.nValue) s1 with
          | error e =>
            rw [hl] at he
            exact fun hr _ => he hr hu.2
          | ok r =>
            rw [hl] at he
            refine ⟨he.1,he.2.1,?_,fun _ => he.2.2.2 hu.2⟩
            rw [he.2.2.1,inTotal,inTotal,map_cons,sum_cons,hv]
            ring
        · simp [invalidTx]

theorem checkTxInputs_spec {tx : CTransaction} (ht : CheckedTx tx) (hc : tx.isCoinBase = false)
    (nsh : ℕ) :
    match checkTxInputs tx s nsh with
    | .error e => RangedView (view s) → e ≠ .amountOverflow
    | .ok (s',txfee) => R s' ∧ view s' = view s ∧ (∀ txin ∈ tx.vin, (view s txin.prevout).isSome) ∧
        txfee = inTotal (view s) tx.vin-outTotal tx.vout ∧ moneyRange txfee = true := by
  have hp := CTransaction.spends_eq_vin hc
  obtain ⟨s1,available,hh,h1,hv,ha⟩ := haveInputsLoop_spec laws h tx.vin
  simp only [checkTxInputs,haveInputs,hp,hh,fromCache,Except.mapError,ok_bind]
  cases available with
  | false => simp [invalidTx]
  | true =>
    rw [if_pos rfl]
    have hs := sumInputs_spec laws h1 nsh 0 fun i hi => by
      rw [hv]
      exact ha rfl i hi
    rw [hv] at hs
    cases hl : sumInputs nsh tx.vin 0 s1 with
    | error e =>
      rw [hl] at hs
      exact fun hr => hs hr (by decide)
    | ok r =>
      obtain ⟨s2,nvi⟩ := r
      rw [hl,zero_add] at hs
      obtain ⟨h2,hv',rfl,hn⟩ := hs
      rw [ok_bind,ht.getValueOut,ok_bind]
      split_ifs with hb
      · simp [invalidTx]
      · rw [amount_sub (hn (by decide)) ht.total,ok_bind]
        split_ifs with hf
        · exact ⟨h2,hv',ha rfl,rfl,hf⟩
        · simp [invalidTx]

end DripCore
