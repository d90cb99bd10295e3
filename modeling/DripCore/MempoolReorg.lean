import DripCore.CheckTransaction
import DripCore.Mempool

/-!
# The memory pool in a reorganization

`MaybeUpdateMempoolForReorg`, `LimitMempoolSize`, and what disconnecting and connecting blocks does
to the pool before. What `AcceptToMemoryPool` decides is arbitrary, and so is which entries the
graph gives up under its limits.
-/
namespace DripCore
open ExceptRules

def mempoolHeight : ℕ := 0x7fffffff

def CTxMemPool.getCoin (pool : CTxMemPool) (coins : COutPoint → Option Coin) (o : COutPoint) :
    Option Coin :=
  match pool.find o.hash with
  | some entry => entry.tx.vout[o.n.toNat]?.map fun out => ⟨out,false,mempoolHeight⟩
  | none => coins o

def standardLocktimeVerifyFlags : BitVec 32 := locktimeVerifySequence

/-- The block after the tip, whose header is not read. -/
def nextTip (tip : CBlockIndex) : CBlockIndex := tip.extend ⟨0,0,0⟩

def checkFinalTxAtTip (tip : CBlockIndex) (tx : CTransaction) : Bool :=
  isFinalTx tx (tip.nHeight+1) tip.getMedianTimePast

/-- Inputs from the pool count as confirmed in the next block. -/
def calculatePrevHeights (tip : CBlockIndex) (view : COutPoint → Option Coin) (tx : CTransaction) :
    Option (List ℤ) :=
  tx.vin.mapM fun txin => (view txin.prevout).map fun coin =>
    if coin.nHeight = mempoolHeight then (tip.nHeight : ℤ)+1 else coin.nHeight

def calculateLockPointsAtTip (tip : CBlockIndex) (view : COutPoint → Option Coin)
    (tx : CTransaction) : MempoolResult (Option LockPoints) :=
  match calculatePrevHeights tip view tx with
  | none => return none
  | some prev_heights =>
    match calculateSequenceLocks tx standardLocktimeVerifyFlags prev_heights (nextTip tip) with
    | none => throw .assertion
    | some ((min_height,min_time),prev_heights) =>
      let max_input_height :=
        (prev_heights.filter fun height => height ≠ ((nextTip tip).nHeight : ℤ)).foldl max 0
      match tip.getAncestor max_input_height with
      | none => throw .assertion
      | some block => return some ⟨min_height,min_time,some block⟩

def checkSequenceLocksAtTip (tip : CBlockIndex) (lp : LockPoints) : MempoolResult Bool :=
  match evaluateSequenceLocks (nextTip tip) (lp.height,lp.time) with
  | none => throw .assertion
  | some satisfied => return satisfied

/-- Whether the chain of the tip contains the block that the lock points depend on. -/
def testLockPointValidity (tip : CBlockIndex) (lp : LockPoints) : Bool :=
  match lp.maxInputBlock with
  | none => true
  | some block => tip.getAncestor block.nHeight == some block

section
variable (pool : CTxMemPool) (coins : COutPoint → Option Coin) (tip : CBlockIndex)

/-- Lock points that are still valid, or are calculated again. -/
def renewLockPoints (entry : CTxMemPoolEntry) : MempoolResult (Option LockPoints) :=
  if testLockPointValidity tip entry.lockPoints then return some entry.lockPoints
  else calculateLockPointsAtTip tip (pool.getCoin coins) entry.tx

/-- The lock points, unless they are not satisfied. -/
def currentLockPoints (entry : CTxMemPoolEntry) : MempoolResult (Option LockPoints) := do
  let lp ← renewLockPoints pool coins tip entry
  match lp with
  | none => return none
  | some lp => do
      let satisfied ← checkSequenceLocksAtTip tip lp
      return if satisfied then some lp else none

/-- The loop over the inputs that are not from the pool, which have to be mature. -/
def spendsImmature : List CTxIn → MempoolResult Bool
  | [] => return false
  | txin::vin =>
    if pool.contains txin.prevout.hash then spendsImmature vin
    else do
      let coin := (coins txin.prevout).getD Coin.empty
      failIf coin.isSpent .assertion
      if coin.fCoinBase ∧ (tip.nHeight : ℤ)+1-coin.nHeight < coinbaseMaturity then return true
      else spendsImmature vin

def immatureCoinbase (entry : CTxMemPoolEntry) : MempoolResult Bool :=
  if entry.spendsCoinbase then spendsImmature pool coins tip entry.tx.vin else return false

/-- Whether an entry has to go, and the entry with its lock points. -/
def filterFinalAndMature (entry : CTxMemPoolEntry) : MempoolResult (Bool × CTxMemPoolEntry) :=
  if checkFinalTxAtTip tip entry.tx then do
    let lp ← currentLockPoints pool coins tip entry
    match lp with
    | none => return (true,entry)
    | some lp => do
        let immature ← immatureCoinbase pool coins tip entry
        return (immature,{ entry with lockPoints := lp })
  else return (true,entry)

end

namespace CTxMemPool

def filterLoop (check : CTxMemPoolEntry → MempoolResult (Bool × CTxMemPoolEntry)) :
    List CTxMemPoolEntry → MempoolResult (List CTxMemPoolEntry × List Txid)
  | [] => return ([],[])
  | entry::entries => do
      let (remove,entry) ← check entry
      let (entries,to_remove) ← filterLoop check entries
      return (entry::entries,if remove then entry.hash::to_remove else to_remove)

def removeForReorg (pool : CTxMemPool) (coins : COutPoint → Option Coin) (tip : CBlockIndex) :
    MempoolResult CTxMemPool := do
  let (mapTx,to_remove) ← filterLoop (filterFinalAndMature pool coins tip) pool.mapTx
  let pool ← removeStaged (pool.m_txgraph.descendantsUnion to_remove) { pool with mapTx := mapTx }
  failIf (!pool.mapTx.all fun entry => testLockPointValidity tip entry.lockPoints) .assertion
  return pool

def addChildren (parent : Txid) : List Txid → CTxMemPool → MempoolResult CTxMemPool
  | [], pool => return pool
  | child::children, pool => do
      failIf (!pool.contains child) .assertion
      let pool ← pool.addDependency parent child
      addChildren parent children pool

/-- The loop of `UpdateTransactionsFromBlock`, from the last identifier to the first. -/
def updateLoop : List Txid → CTxMemPool → MempoolResult CTxMemPool
  | [], pool => return pool
  | txid::txids, pool =>
    if pool.contains txid then do
      let pool ← addChildren txid (pool.children txid) pool
      updateLoop txids pool
    else updateLoop txids pool

def expire (pool : CTxMemPool) (time : ℤ) : MempoolResult CTxMemPool :=
  let toremove := (pool.mapTx.filter fun entry => decide (entry.nTime < time)).map
    CTxMemPoolEntry.hash
  removeStaged (pool.m_txgraph.descendantsUnion toremove) pool

end CTxMemPool

/-- What `Trim` and the eviction of the worst chunk give up, with the descendants. -/
structure GraphChoices where
  trim : DependencyGraph Txid → List Txid
  worstChunk : DependencyGraph Txid → List Txid
  trim_nodup : ∀ g, g.nodes.Nodup → (trim g).Nodup
  trim_nodes : ∀ g x, x ∈ trim g → x ∈ g.nodes
  trim_closed : ∀ g x y, x ∈ trim g → y ∈ g.nodes → g.reach x y = true → y ∈ trim g
  worstChunk_nodup : ∀ g, g.nodes.Nodup → (worstChunk g).Nodup
  worstChunk_nodes : ∀ g x, x ∈ worstChunk g → x ∈ g.nodes
  worstChunk_closed : ∀ g x y, x ∈ worstChunk g → y ∈ g.nodes → g.reach x y = true →
    y ∈ worstChunk g
  worstChunk_ne_nil : ∀ g, g.nodes ≠ [] → worstChunk g ≠ []

/-- What an accepted transaction is entered with. -/
structure EntryDetails where
  nTime : ℤ
  spendsCoinbase : Bool
  lockPoints : LockPoints

/-- A transaction is accepted only if its inputs are available, and unspent in the pool. -/
structure AcceptPolicy (coins : COutPoint → Option Coin) where
  accept : CTxMemPool → CTransaction → Option EntryDetails
  available : ∀ pool tx details, accept pool tx = some details → ∀ o ∈ tx.prevouts,
    (pool.getCoin coins o).isSome
  unspent : ∀ pool tx details, accept pool tx = some details → ∀ o ∈ tx.prevouts,
    pool.mapNextTx.lookup o = none

structure PoolLimits where
  dynamicMemoryUsage : CTxMemPool → ℕ
  max_size_bytes : ℕ
  expireBefore : ℤ

namespace CTxMemPool

def updateTransactionsFromBlock (choices : GraphChoices) (vHashesToUpdate : List Txid)
    (pool : CTxMemPool) : MempoolResult CTxMemPool := do
  let pool ← updateLoop vHashesToUpdate.reverse pool
  removeStaged (choices.trim pool.m_txgraph) pool

/-- The loop of `TrimToSize`; every chunk has an entry, so their number is enough fuel. -/
def trimLoop (choices : GraphChoices) (limits : PoolLimits) : ℕ → CTxMemPool →
    MempoolResult CTxMemPool
  | 0, pool => return pool
  | fuel+1, pool =>
    if pool.mapTx.isEmpty ∨ limits.dynamicMemoryUsage pool ≤ limits.max_size_bytes then return pool
    else do
      let pool ← removeStaged (choices.worstChunk pool.m_txgraph) pool
      trimLoop choices limits fuel pool

def limitMempoolSize (choices : GraphChoices) (limits : PoolLimits) (pool : CTxMemPool) :
    MempoolResult CTxMemPool := do
  let pool ← pool.expire limits.expireBefore
  trimLoop choices limits pool.mapTx.length pool

end CTxMemPool

section
variable {coins : COutPoint → Option Coin} (policy : AcceptPolicy coins) (choices : GraphChoices)
  (limits : PoolLimits)

def resurrectLoop (fAddToMempool : Bool) :
    List CTransaction → CTxMemPool → List Txid → MempoolResult (CTxMemPool × List Txid)
  | [], pool, vHashUpdate => return (pool,vHashUpdate)
  | tx::queue, pool, vHashUpdate =>
    let accepted := if !fAddToMempool || tx.isCoinBase then none else policy.accept pool tx
    match accepted with
    | none => do
        let pool ← pool.removeRecursive tx
        resurrectLoop fAddToMempool queue pool vHashUpdate
    | some details => do
        let pool ← pool.addNewTransaction
          ⟨tx,details.nTime,details.spendsCoinbase,details.lockPoints⟩
        let vHashUpdate := if pool.contains tx.hash then vHashUpdate++[tx.hash] else vHashUpdate
        resurrectLoop fAddToMempool queue pool vHashUpdate

def maybeUpdateMempoolForReorg (tip : CBlockIndex) (fAddToMempool : Bool)
    (disconnectpool : DisconnectedBlockTransactions) (pool : CTxMemPool) :
    MempoolResult (CTxMemPool × DisconnectedBlockTransactions) := do
  let (queuedTx,disconnectpool) := disconnectpool.take
  let (pool,vHashUpdate) ← resurrectLoop policy fAddToMempool queuedTx.reverse pool []
  let pool ← pool.updateTransactionsFromBlock choices vHashUpdate
  let pool ← pool.removeForReorg coins tip
  let pool ← pool.limitMempoolSize choices limits
  return (pool,disconnectpool)

end

variable (usage : MemoryUsage)

def removeEvicted : List CTransaction → CTxMemPool → MempoolResult CTxMemPool
  | [], pool => return pool
  | tx::evicted, pool => do
      let pool ← pool.removeRecursive tx
      removeEvicted evicted pool

def disconnectTipPools (vtx : List CTransaction)
    (pools : CTxMemPool × DisconnectedBlockTransactions) :
    MempoolResult (CTxMemPool × DisconnectedBlockTransactions) := do
  let (disconnectpool,evicted) ← pools.2.addTransactionsFromBlock usage vtx
  let pool ← removeEvicted evicted pools.1
  return (pool,disconnectpool)

def connectTipPools (vtx : List CTransaction) (pools : CTxMemPool × DisconnectedBlockTransactions) :
    MempoolResult (CTxMemPool × DisconnectedBlockTransactions) := do
  let pool ← CTxMemPool.removeForBlock vtx pools.1
  return (pool,pools.2.removeForBlock usage vtx)

def runPools (step : List CTransaction → CTxMemPool × DisconnectedBlockTransactions →
      MempoolResult (CTxMemPool × DisconnectedBlockTransactions)) :
    List (List CTransaction) → CTxMemPool × DisconnectedBlockTransactions →
      MempoolResult (CTxMemPool × DisconnectedBlockTransactions)
  | [], pools => return pools
  | vtx::blocks, pools => do
      let pools ← step vtx pools
      runPools step blocks pools

/-- Blocks are disconnected from the tip down, then blocks are connected, and the pool is updated.
-/
def reorganize {coins : COutPoint → Option Coin} (policy : AcceptPolicy coins)
    (choices : GraphChoices) (limits : PoolLimits) (max_mem_usage : ℕ) (tip : CBlockIndex)
    (fAddToMempool : Bool) (disconnected connected : List (List CTransaction)) (pool : CTxMemPool) :
    MempoolResult CTxMemPool := do
  let pools ← runPools (disconnectTipPools usage) disconnected (pool,.init max_mem_usage)
  let pools ← runPools (connectTipPools usage) connected pools
  let (pool,disconnectpool) ←
    maybeUpdateMempoolForReorg policy choices limits tip fAddToMempool pools.2 pools.1
  disconnectpool.destroy
  return pool

end DripCore
