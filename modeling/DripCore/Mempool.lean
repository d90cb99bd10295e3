import DripCore.DependencyGraph
import DripCore.TimeLocks
import DripCore.UpdateCoins

/-!
# The memory pool

Entries with the index of the outpoints they spend and the graph of their dependencies, and the ways
in which entries are removed; also the limited pool of disconnected transactions. Dangling iterators
and broken contracts are failures, as assertions are.
-/
namespace DripCore
open ExceptRules

inductive MempoolFailure where
  | assertion
  | danglingIterator
  | brokenContract
deriving DecidableEq

abbrev MempoolResult := Except MempoolFailure

structure LockPoints where
  height : ℤ
  time : ℤ
  maxInputBlock : Option CBlockIndex

structure CTxMemPoolEntry where
  tx : CTransaction
  nTime : ℤ
  spendsCoinbase : Bool
  lockPoints : LockPoints

namespace CTxMemPoolEntry

def hash (entry : CTxMemPoolEntry) : Txid := entry.tx.hash

end CTxMemPoolEntry

def CTransaction.prevouts (tx : CTransaction) : List COutPoint := tx.vin.map CTxIn.prevout

/-- An iterator into `mapTx` is the identifier of its entry. -/
structure CTxMemPool where
  mapTx : List CTxMemPoolEntry
  mapNextTx : List (COutPoint × Txid)
  m_txgraph : DependencyGraph Txid

namespace CTxMemPool

def find (pool : CTxMemPool) (txid : Txid) : Option CTxMemPoolEntry :=
  pool.mapTx.find? fun entry => entry.hash == txid

def contains (pool : CTxMemPool) (txid : Txid) : Bool := (pool.find txid).isSome

/-- The entries that `mapNextTx` gives for the outputs of a transaction. -/
def children (pool : CTxMemPool) (txid : Txid) : List Txid :=
  (pool.mapNextTx.filter fun p => p.1.hash == txid).map Prod.snd

def removeUnchecked (pool : CTxMemPool) (txid : Txid) : MempoolResult CTxMemPool :=
  match pool.find txid with
  | none => throw .danglingIterator
  | some entry => return {
      mapTx := pool.mapTx.filter fun e => e.hash != txid
      mapNextTx := pool.mapNextTx.filter fun p => !entry.tx.prevouts.contains p.1
      m_txgraph := pool.m_txgraph.remove txid }

def removeStaged : List Txid → CTxMemPool → MempoolResult CTxMemPool
  | [], pool => return pool
  | txid::stage, pool => do
      let pool ← pool.removeUnchecked txid
      removeStaged stage pool

def removeEntry (pool : CTxMemPool) (txid : Txid) : MempoolResult CTxMemPool :=
  removeStaged (pool.m_txgraph.descendants txid) pool

/-- `removeRecursive` of a transaction, whose descendants are removed even if it is not there. -/
def removeRecursive (pool : CTxMemPool) (origTx : CTransaction) : MempoolResult CTxMemPool :=
  if pool.contains origTx.hash then pool.removeEntry origTx.hash
  else removeStaged (pool.m_txgraph.descendantsUnion (pool.children origTx.hash)) pool

def removeConflictsLoop (txid : Txid) : List CTxIn → CTxMemPool → MempoolResult CTxMemPool
  | [], pool => return pool
  | txin::vin, pool =>
    match pool.mapNextTx.lookup txin.prevout with
    | none => removeConflictsLoop txid vin pool
    | some conflict =>
      if conflict = txid then throw .assertion
      else do
        let pool ← pool.removeEntry conflict
        removeConflictsLoop txid vin pool

def removeConflicts (pool : CTxMemPool) (tx : CTransaction) : MempoolResult CTxMemPool :=
  removeConflictsLoop tx.hash tx.vin pool

/-- One round of `removeForBlock`. -/
def removeConfirmed (pool : CTxMemPool) (tx : CTransaction) : MempoolResult CTxMemPool := do
  let pool ← applyIf (pool.contains tx.hash) (fun pool => pool.removeUnchecked tx.hash) pool
  pool.removeConflicts tx

def removeForBlock : List CTransaction → CTxMemPool → MempoolResult CTxMemPool
  | [], pool => return pool
  | tx::vtx, pool => do
      let pool ← pool.removeConfirmed tx
      removeForBlock vtx pool

/-- `AddDependency`, where the parent may not depend on the child. -/
def addDependency (pool : CTxMemPool) (parent child : Txid) : MempoolResult CTxMemPool :=
  if parent = child then return pool
  else do
    failIf (pool.m_txgraph.reach child parent) .brokenContract
    return { pool with m_txgraph := pool.m_txgraph.addDependency parent child }

def addParents (child : Txid) : List Txid → CTxMemPool → MempoolResult CTxMemPool
  | [], pool => return pool
  | parent::parents, pool => do
      let pool ← pool.addDependency parent child
      addParents child parents pool

/-- `addNewTransaction`: the entry depends on those that its inputs name. -/
def addNewTransaction (pool : CTxMemPool) (entry : CTxMemPoolEntry) : MempoolResult CTxMemPool := do
  let parents := (entry.tx.prevouts.map COutPoint.hash).filter pool.contains
  let next := entry.tx.prevouts.filter fun o => (pool.mapNextTx.lookup o).isNone
  addParents entry.hash parents {
    mapTx := entry::pool.mapTx
    mapNextTx := next.map (fun o => (o,entry.hash))++pool.mapNextTx
    m_txgraph := pool.m_txgraph.addNode entry.hash }

end CTxMemPool

/-- The estimates of memory, and how many buckets a map has after making room for elements. -/
structure MemoryUsage where
  recursiveDynamicUsage : CTransaction → ℕ
  mapUsage : ℕ → ℕ → ℕ
  listUsage : ℕ → ℕ
  reserve : ℕ → ℕ → ℕ

/-- The map to iterators is the list of its keys. -/
structure DisconnectedBlockTransactions where
  cachedInnerUsage : ℕ
  m_max_mem_usage : ℕ
  queuedTx : List CTransaction
  iters_by_txid : List Txid
  bucket_count : ℕ

namespace DisconnectedBlockTransactions

def init (max_mem_usage : ℕ) : DisconnectedBlockTransactions := ⟨0,max_mem_usage,[],[],1⟩

def dynamicMemoryUsage (usage : MemoryUsage) (dq : DisconnectedBlockTransactions) : ℕ :=
  dq.cachedInnerUsage+usage.mapUsage dq.iters_by_txid.length dq.bucket_count +
    usage.listUsage dq.queuedTx.length

/-- The loop of `LimitMemoryUsage` with the transactions left in the queue, and those evicted. -/
def limitMemoryLoop (usage : MemoryUsage) (dq : DisconnectedBlockTransactions) :
    List CTransaction → ℕ → List Txid → DisconnectedBlockTransactions × List CTransaction
  | [], cached, iters => ({ dq with
      cachedInnerUsage := cached
      queuedTx := []
      iters_by_txid := iters },[])
  | tx::queue, cached, iters =>
    let dq := { dq with
      cachedInnerUsage := cached
      queuedTx := tx::queue
      iters_by_txid := iters }
    if dq.dynamicMemoryUsage usage ≤ dq.m_max_mem_usage then (dq,[])
    else
      let (dq,evicted) := limitMemoryLoop usage dq queue
        (cached-usage.recursiveDynamicUsage tx) (iters.filter (· ≠ tx.hash))
      (dq,tx::evicted)

def limitMemoryUsage (usage : MemoryUsage) (dq : DisconnectedBlockTransactions) :
    DisconnectedBlockTransactions × List CTransaction :=
  limitMemoryLoop usage dq dq.queuedTx dq.cachedInnerUsage dq.iters_by_txid

/-- The loop of `AddTransactionsFromBlock`, from the last transaction to the first. -/
def enqueueLoop (usage : MemoryUsage) :
    List CTransaction → DisconnectedBlockTransactions → MempoolResult DisconnectedBlockTransactions
  | [], dq => return dq
  | tx::rest, dq => do
      failIf (dq.iters_by_txid.contains tx.hash) .assertion
      enqueueLoop usage rest { dq with
        queuedTx := dq.queuedTx++[tx]
        iters_by_txid := tx.hash::dq.iters_by_txid
        cachedInnerUsage := dq.cachedInnerUsage+usage.recursiveDynamicUsage tx }

def addTransactionsFromBlock (usage : MemoryUsage) (vtx : List CTransaction)
    (dq : DisconnectedBlockTransactions) :
    MempoolResult (DisconnectedBlockTransactions × List CTransaction) := do
  let dq ← enqueueLoop usage vtx.reverse { dq with
    bucket_count := usage.reserve dq.bucket_count (dq.iters_by_txid.length+vtx.length) }
  return dq.limitMemoryUsage usage

/-- A transaction that is in a new block is taken out of the queue. -/
def removeConfirmed (usage : MemoryUsage) (dq : DisconnectedBlockTransactions) (tx : CTransaction) :
    DisconnectedBlockTransactions :=
  if dq.iters_by_txid.contains tx.hash then
    let queued := dq.queuedTx.find? fun queued => queued.hash == tx.hash
    { dq with
      iters_by_txid := dq.iters_by_txid.filter (· ≠ tx.hash)
      cachedInnerUsage := dq.cachedInnerUsage-(queued.map usage.recursiveDynamicUsage).getD 0
      queuedTx := dq.queuedTx.filter fun queued => queued.hash != tx.hash }
  else dq

def removeForBlock (usage : MemoryUsage) (vtx : List CTransaction)
    (dq : DisconnectedBlockTransactions) :
    DisconnectedBlockTransactions :=
  if dq.queuedTx = [] then dq else vtx.foldl (removeConfirmed usage) dq

def clear (dq : DisconnectedBlockTransactions) : DisconnectedBlockTransactions :=
  { dq with
    cachedInnerUsage := 0
    iters_by_txid := []
    queuedTx := [] }

def take (dq : DisconnectedBlockTransactions) : List CTransaction × DisconnectedBlockTransactions :=
  (dq.queuedTx,dq.clear)

def destroy (dq : DisconnectedBlockTransactions) : MempoolResult Unit := do
  failIf (!dq.queuedTx.isEmpty) .assertion
  failIf (!dq.iters_by_txid.isEmpty) .assertion
  failIf (dq.cachedInnerUsage != 0) .assertion

end DisconnectedBlockTransactions
end DripCore
