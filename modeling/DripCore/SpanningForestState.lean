import DripCore.DepGraph

/-!
# The spanning-forest linearization algorithm

`SpanningForestState` and the functions on it, up to `Linearize`. The parents, children and
dependencies of each transaction are functions of the graph; a dependency is named by its parent and
its child. The random number generator is any that keeps to the contract of `randrange`. Sums do not
overflow, so they are unbounded integers. Loops that end because the chunks become fewer have the
number of transactions as fuel, and a missing index is `none`.
-/
namespace DripCore

abbrev TxIdx := DepGraphIndex

abbrev DepIdx := TxIdx × TxIdx

structure RandomContext (σ : Type*) where
  rand64 : σ → ℕ × σ
  randrange : ℕ → σ → ℕ × σ
  randbool : σ → Bool × σ
  randrange_lt : ∀ range rng, 0 < range → (randrange range rng).1 < range

/-- A set of transactions together with their combined fee and size. -/
structure SetInfo where
  transactions : Finset TxIdx
  feerate : FeeFrac
deriving DecidableEq

namespace SetInfo

def empty : SetInfo := ⟨∅,.empty⟩

def single (g : DepGraph) (pos : TxIdx) : SetInfo := ⟨{pos},g.feeRate pos⟩

def add (a b : SetInfo) : SetInfo := ⟨a.transactions ∪ b.transactions,a.feerate+b.feerate⟩

def sub (a b : SetInfo) : SetInfo := ⟨a.transactions \ b.transactions,a.feerate-b.feerate⟩

end SetInfo

namespace DepGraph
variable (g : DepGraph)

def parents (tx : TxIdx) : Finset TxIdx := g.getReducedParents tx

def children (tx : TxIdx) : Finset TxIdx :=
  g.positions.filter fun child => tx ∈ g.getReducedParents child

/-- The dependencies to the children of a transaction, in the order of the children. -/
def childDeps (tx : TxIdx) : List DepIdx := (g.toList (g.children tx)).map fun child => (tx,child)

end DepGraph

structure SpanningForestState (σ : Type*) where
  rng : σ
  chunk_rep : TxIdx → TxIdx
  chunk_setinfo : TxIdx → SetInfo
  active : DepIdx → Bool
  top_setinfo : DepIdx → SetInfo
  suboptimal_chunks : List TxIdx
  cost : ℕ

namespace SpanningForestState
variable {σ : Type*} (R : RandomContext σ) (g : DepGraph)

/-- Every transaction in its own chunk. -/
def init (rng : σ) : SpanningForestState σ where
  rng := rng
  chunk_rep := id
  chunk_setinfo := SetInfo.single g
  active _ := false
  top_setinfo _ := .empty
  suboptimal_chunks := []
  cost := 0

section
variable (subtract : Bool) (query : TxIdx) (dep_change : SetInfo)

def changeTop (top : SetInfo) : SetInfo :=
  if query ∈ top.transactions then if subtract then top.sub dep_change else top.add dep_change
  else top

def updateDep (st : SpanningForestState σ) (dep : DepIdx) : SpanningForestState σ :=
  if st.active dep then
    { st with
      top_setinfo := Function.update st.top_setinfo dep
        (changeTop subtract query dep_change (st.top_setinfo dep)) }
  else st

def updateTx (chunk_rep : TxIdx) (st : SpanningForestState σ) (tx : TxIdx) :
    SpanningForestState σ :=
  (g.childDeps tx).foldl (updateDep subtract query dep_change)
    { st with chunk_rep := Function.update st.chunk_rep tx chunk_rep }

def updateChunk (chunk : Finset TxIdx) (chunk_rep : TxIdx) (st : SpanningForestState σ) :
    SpanningForestState σ :=
  (g.toList chunk).foldl (updateTx g subtract query dep_change chunk_rep) st

end

/-- Makes an inactive dependency active; gives the representative of the merged chunk. -/
def activate (dep : DepIdx) (st : SpanningForestState σ) : TxIdx × SpanningForestState σ :=
  let top_rep := st.chunk_rep dep.1
  let top_part := st.chunk_setinfo top_rep
  let bottom_part := st.chunk_setinfo (st.chunk_rep dep.2)
  let merged := top_part.add bottom_part
  let st :=
    { st with
      chunk_setinfo := Function.update st.chunk_setinfo top_rep merged
      cost := st.cost+merged.transactions.card }
  let st := updateChunk g false dep.1 bottom_part top_part.transactions top_rep st
  let st := updateChunk g false dep.2 top_part bottom_part.transactions top_rep st
  (top_rep,
    { st with
      active := Function.update st.active dep true
      top_setinfo := Function.update st.top_setinfo dep top_part })

def deactivate (dep : DepIdx) (st : SpanningForestState σ) : SpanningForestState σ :=
  let chunk := st.chunk_setinfo (st.chunk_rep dep.1)
  let top_part := st.top_setinfo dep
  let bottom_part := chunk.sub top_part
  let st :=
    { st with
      active := Function.update st.active dep false
      chunk_setinfo := Function.update (Function.update st.chunk_setinfo dep.2 bottom_part) dep.1
        top_part
      cost := st.cost+chunk.transactions.card }
  let st := updateChunk g true dep.1 bottom_part top_part.transactions dep.1 st
  updateChunk g true dep.2 top_part bottom_part.transactions dep.2 st

section
variable (bottom : Finset TxIdx)

/-- The dependency at a place among those of a transaction that lead to the bottom chunk. -/
def pickChildDep : List DepIdx → ℕ → Option DepIdx
  | [], _ => none
  | dep::deps, pick =>
    if dep.2 ∈ bottom then if pick = 0 then some dep else pickChildDep deps (pick-1)
    else pickChildDep deps pick

/-- The dependency at a place among those from the transactions of a list to the bottom chunk. -/
def pickDep : List TxIdx → ℕ → Option DepIdx
  | [], _ => none
  | tx::txs, pick =>
    let count := (g.children tx ∩ bottom).card
    if pick < count then pickChildDep bottom (g.childDeps tx) pick else pickDep txs (pick-count)

def countDeps (txs : List TxIdx) : ℕ := (txs.map fun tx => (g.children tx ∩ bottom).card).sum

end

/-- Activates a random dependency from the bottom chunk to the top chunk. -/
def mergeChunks (top_rep bottom_rep : TxIdx) (st : SpanningForestState σ) :
    Option TxIdx × SpanningForestState σ :=
  let top := g.toList (st.chunk_setinfo top_rep).transactions
  let bottom := (st.chunk_setinfo bottom_rep).transactions
  let (pick,rng) := R.randrange (countDeps g bottom top) st.rng
  let st := { st with rng := rng }
  match pickDep g bottom top pick with
  | none => (none,st)
  | some dep =>
    let (rep,st) := activate g dep st
    (some rep,st)

/-- The search for a chunk to merge with. -/
structure MergeSearch (σ : Type*) where
  explored : Finset TxIdx
  best_other_chunk_feerate : FeeFrac
  best_other_chunk_rep : Option TxIdx
  best_other_chunk_tiebreak : ℕ
  rng : σ

section
variable (downWard : Bool) (st : SpanningForestState σ)

def considerChunk (rep : TxIdx) (search : MergeSearch σ) : MergeSearch σ :=
  let reached := (st.chunk_setinfo rep).feerate
  let cmp := if downWard then search.best_other_chunk_feerate.feeRateCompare reached
    else reached.feeRateCompare search.best_other_chunk_feerate
  if cmp = .gt then search
  else
    let (tiebreak,rng) := R.rand64 search.rng
    if cmp = .lt ∨ search.best_other_chunk_tiebreak ≤ tiebreak then
      { search with
        best_other_chunk_feerate := reached
        best_other_chunk_rep := some rep
        best_other_chunk_tiebreak := tiebreak
        rng := rng }
    else { search with rng := rng }

/-- Goes through the chunks inside a set of transactions; each takes one out of it at least. -/
def visitReached : ℕ → Finset TxIdx → MergeSearch σ → MergeSearch σ
  | 0, _, search => search
  | fuel+1, newly_reached, search =>
    match (g.toList newly_reached).head? with
    | none => search
    | some first =>
      let rep := st.chunk_rep first
      visitReached fuel (newly_reached \ (st.chunk_setinfo rep).transactions)
        (considerChunk R downWard st rep search)

def visitTx (search : MergeSearch σ) (tx : TxIdx) : MergeSearch σ :=
  let newly_reached := (if downWard then g.children tx else g.parents tx) \ search.explored
  visitReached R g downWard st newly_reached.card newly_reached
    { search with explored := search.explored ∪ newly_reached }

def searchChunk (chunk_rep : TxIdx) : MergeSearch σ :=
  let chunk := st.chunk_setinfo chunk_rep
  (g.toList chunk.transactions).foldl (visitTx R g downWard st)
    { explored := chunk.transactions
      best_other_chunk_feerate := chunk.feerate
      best_other_chunk_rep := none
      best_other_chunk_tiebreak := 0
      rng := st.rng }

/-- Merges a chunk upwards or downwards once, if it can be. -/
def mergeStep (chunk_rep : TxIdx) : Option TxIdx × SpanningForestState σ :=
  let search := searchChunk R g downWard st chunk_rep
  let st := { st with rng := search.rng }
  match search.best_other_chunk_rep with
  | none => (none,st)
  | some best =>
    if downWard then mergeChunks R g chunk_rep best st else mergeChunks R g best chunk_rep st

end

/-- Merges a chunk as long as it can be; gives the representative at the end. -/
def mergeLoop (downWard : Bool) : ℕ → TxIdx → SpanningForestState σ → TxIdx × SpanningForestState σ
  | 0, chunk_rep, st => (chunk_rep,st)
  | fuel+1, chunk_rep, st =>
    match mergeStep R g downWard st chunk_rep with
    | (none,st) => (chunk_rep,st)
    | (some merged_rep,st) => mergeLoop downWard fuel merged_rep st

def mergeSequence (downWard : Bool) (tx : TxIdx) (st : SpanningForestState σ) :
    SpanningForestState σ :=
  let (chunk_rep,st) := mergeLoop R g downWard g.txCount (st.chunk_rep tx) st
  { st with suboptimal_chunks := st.suboptimal_chunks++[chunk_rep] }

/-- Splits a chunk, and merges the two parts to make the state topological again. -/
def improve (dep : DepIdx) (st : SpanningForestState σ) : SpanningForestState σ :=
  mergeSequence R g true dep.2 (mergeSequence R g false dep.1 (deactivate g dep st))

def loadLinearization (old_linearization : List TxIdx) (st : SpanningForestState σ) :
    SpanningForestState σ :=
  old_linearization.foldl (fun st tx => (mergeLoop R g false g.txCount (st.chunk_rep tx) st).2) st

def swapBack {α : Type*} (l : List α) (j : ℕ) : List α :=
  match l[j]?, l.getLast? with
  | some a, some b => (l.set j b).set (l.length-1) a
  | _, _ => l

def enqueueChunk (st : SpanningForestState σ) (tx : TxIdx) : SpanningForestState σ :=
  if st.chunk_rep tx = tx then
    let queue := st.suboptimal_chunks++[tx]
    let (j,rng) := R.randrange queue.length st.rng
    { st with
      suboptimal_chunks := if j ≠ queue.length-1 then swapBack queue j else queue
      rng := rng }
  else st

def enqueueChunks (st : SpanningForestState σ) : SpanningForestState σ :=
  (g.toList g.positions).foldl (enqueueChunk R) st

/-- One merge of a chunk, in the given direction if possible and otherwise in the other one. -/
def mergeEither (downFirst : Bool) (chunk : TxIdx) (st : SpanningForestState σ) :
    Option TxIdx × SpanningForestState σ :=
  match mergeStep R g downFirst st chunk with
  | (some merged_rep,st) => (some merged_rep,st)
  | (none,st) => mergeStep R g (!downFirst) st chunk

def makeTopologicalStep (chunk : TxIdx) (st : SpanningForestState σ) : SpanningForestState σ :=
  if st.chunk_rep chunk = chunk then
    let (flip,rng) := R.randbool st.rng
    match mergeEither R g (!flip) chunk { st with rng := rng } with
    | (some merged_rep,st) => { st with suboptimal_chunks := st.suboptimal_chunks++[merged_rep] }
    | (none,st) => st
  else st

/-- The loop over the queue. A chunk is put back only after a merge. -/
def makeTopologicalLoop : ℕ → SpanningForestState σ → SpanningForestState σ
  | 0, st => st
  | fuel+1, st =>
    match st.suboptimal_chunks with
    | [] => st
    | chunk::queue =>
      makeTopologicalLoop fuel
        (makeTopologicalStep R g chunk { st with suboptimal_chunks := queue })

def makeTopological (st : SpanningForestState σ) : SpanningForestState σ :=
  makeTopologicalLoop R g (2*g.txCount) (enqueueChunks R g st)

def startOptimizing (st : SpanningForestState σ) : SpanningForestState σ := enqueueChunks R g st

/-- The first entry of the queue that is a representative, with what comes after it. -/
def popChunk (st : SpanningForestState σ) : List TxIdx → Option (TxIdx × List TxIdx)
  | [] => none
  | chunk::queue => if st.chunk_rep chunk = chunk then some (chunk,queue) else popChunk st queue

/-- The search for a dependency whose top is better than its chunk. -/
structure SplitSearch (σ : Type*) where
  candidate_dep : Option DepIdx
  candidate_tiebreak : ℕ
  rng : σ

def considerDep (st : SpanningForestState σ) (chunk_feerate : FeeFrac) (search : SplitSearch σ)
    (dep : DepIdx) : SplitSearch σ :=
  if st.active dep ∧ (st.top_setinfo dep).feerate.feeRateCompare chunk_feerate = .gt then
    let (tiebreak,rng) := R.rand64 search.rng
    if tiebreak < search.candidate_tiebreak then { search with rng := rng }
    else { candidate_dep := some dep, candidate_tiebreak := tiebreak, rng := rng }
  else search

def searchDep (st : SpanningForestState σ) (chunk : TxIdx) : SplitSearch σ :=
  let info := st.chunk_setinfo chunk
  (g.toList info.transactions).foldl
    (fun search tx => (g.childDeps tx).foldl (considerDep R st info.feerate) search)
    { candidate_dep := none, candidate_tiebreak := 0, rng := st.rng }

/-- Tries to improve the forest; `false` means that it is optimal. -/
def optimizeStep (st : SpanningForestState σ) : Bool × SpanningForestState σ :=
  match popChunk st st.suboptimal_chunks with
  | none => (false,{ st with suboptimal_chunks := [] })
  | some (chunk,queue) =>
    let search := searchDep R g st chunk
    let st := { st with suboptimal_chunks := queue, rng := search.rng }
    let st := match search.candidate_dep with
      | none => st
      | some dep => improve R g dep st
    (!st.suboptimal_chunks.isEmpty,st)

/-- The optimization loop of `Linearize`: whether it has ended with an optimal state. -/
def optimizeLoop (max_iterations : ℕ) : ℕ → SpanningForestState σ → Bool × SpanningForestState σ
  | 0, st => (false,st)
  | fuel+1, st =>
    match optimizeStep R g st with
    | (false,st) => (true,st)
    | (true,st) =>
      if st.cost < max_iterations then optimizeLoop max_iterations fuel st else (false,st)

/-- The data of `GetLinearization`. The heap of ready chunks is the list of its entries. -/
structure LinearizationState (σ : Type*) where
  ret : List TxIdx
  ready_chunks : List (TxIdx × ℕ)
  chunk_deps : TxIdx → ℕ
  tx_deps : TxIdx → ℕ
  ready_tx : List TxIdx
  rng : σ

variable (st : SpanningForestState σ)

/-- The order of the heap: by feerate, then by the random number, then by the representative. -/
def chunkLess (a b : TxIdx × ℕ) : Bool :=
  let feerate_a := (st.chunk_setinfo a.1).feerate
  let feerate_b := (st.chunk_setinfo b.1).feerate
  if feerate_a ≠ feerate_b then feerate_a.less feerate_b
  else if a.2 ≠ b.2 then decide (a.2 < b.2)
  else decide (a.1 < b.1)

def popHeap : List (TxIdx × ℕ) → Option ((TxIdx × ℕ) × List (TxIdx × ℕ))
  | [] => none
  | entry::heap =>
    match popHeap heap with
    | none => some (entry,[])
    | some (best,rest) =>
      if chunkLess st best entry then some (entry,best::rest) else some (best,entry::rest)

def countTxDeps (tx : TxIdx) : ℕ := (g.parents tx).card

def countChunkDeps (rep : TxIdx) : ℕ := ((g.toList g.positions).map fun child =>
    if st.chunk_rep child = rep then
      ((g.parents child).filter fun par => st.chunk_rep par ≠ rep).card
    else 0).sum

def addReadyChunk (ls : LinearizationState σ) (rep : TxIdx) : LinearizationState σ :=
  let (tiebreak,rng) := R.rand64 ls.rng
  { ls with ready_chunks := ls.ready_chunks++[(rep,tiebreak)], rng := rng }

def initLinearization : LinearizationState σ := (g.toList (g.positions.image st.chunk_rep)).foldl
    (fun ls rep => if ls.chunk_deps rep = 0 then addReadyChunk R ls rep else ls)
    { ret := []
      ready_chunks := []
      chunk_deps := countChunkDeps g st
      tx_deps := countTxDeps g
      ready_tx := []
      rng := st.rng }

def releaseTx (chunk_txn : Finset TxIdx) (ls : LinearizationState σ) (child : TxIdx) :
    LinearizationState σ :=
  let ls := { ls with tx_deps := Function.update ls.tx_deps child (ls.tx_deps child-1) }
  if ls.tx_deps child = 0 ∧ child ∈ chunk_txn then { ls with ready_tx := ls.ready_tx++[child] }
  else ls

def releaseChunk (ls : LinearizationState σ) (rep : TxIdx) : LinearizationState σ :=
  let ls := { ls with chunk_deps := Function.update ls.chunk_deps rep (ls.chunk_deps rep-1) }
  if ls.chunk_deps rep = 0 then addReadyChunk R ls rep else ls

def releaseChild (chunk_rep : TxIdx) (ls : LinearizationState σ) (child : TxIdx) :
    LinearizationState σ :=
  let ls := releaseTx (st.chunk_setinfo chunk_rep).transactions ls child
  let rep := st.chunk_rep child
  if rep ≠ chunk_rep then releaseChunk R ls rep else ls

def outputTx (chunk_rep : TxIdx) (ls : LinearizationState σ) (tx : TxIdx) : LinearizationState σ :=
  (g.toList (g.children tx)).foldl (releaseChild R st chunk_rep) { ls with ret := ls.ret++[tx] }

/-- Picks a random ready transaction of the chunk, until there is none. -/
def outputLoop (chunk_rep : TxIdx) : ℕ → LinearizationState σ → LinearizationState σ
  | 0, ls => ls
  | fuel+1, ls =>
    if ls.ready_tx = [] then ls
    else
      let (pos,rng) := R.randrange ls.ready_tx.length ls.rng
      let ready_tx := if pos ≠ ls.ready_tx.length-1 then swapBack ls.ready_tx pos else ls.ready_tx
      match ready_tx.getLast? with
      | none => ls
      | some tx =>
        outputLoop chunk_rep fuel
          (outputTx R g st chunk_rep { ls with ready_tx := ready_tx.dropLast, rng := rng } tx)

def outputChunk (chunk_rep : TxIdx) (ls : LinearizationState σ) : LinearizationState σ :=
  let chunk_txn := (st.chunk_setinfo chunk_rep).transactions
  outputLoop R g st chunk_rep g.txCount
    { ls with
      ready_tx := ls.ready_tx++(g.toList chunk_txn).filter fun tx => ls.tx_deps tx = 0 }

def linearizationLoop : ℕ → LinearizationState σ → LinearizationState σ
  | 0, ls => ls
  | fuel+1, ls =>
    match popHeap st ls.ready_chunks with
    | none => ls
    | some ((chunk_rep,_),heap) =>
      linearizationLoop fuel (outputChunk R g st chunk_rep { ls with ready_chunks := heap })

def getLinearization : List TxIdx :=
    (linearizationLoop R g st g.txCount (initLinearization R g st)).ret

end SpanningForestState

open SpanningForestState in
/-- Finds or improves a linearization: the result, whether it is optimal, and the cost. -/
def linearize {σ : Type*} (R : RandomContext σ) (g : DepGraph) (max_iterations : ℕ) (rng : σ)
    (old_linearization : List DepGraphIndex) : List DepGraphIndex × Bool × ℕ :=
  let forest := init g rng
  let forest := if old_linearization ≠ [] then loadLinearization R g old_linearization forest
    else makeTopological R g forest
  let (optimal,forest) :=
    if forest.cost < max_iterations then
      optimizeLoop R g max_iterations (g.txCount+3*max_iterations+1) (startOptimizing R g forest)
    else (false,forest)
  (getLinearization R g forest,optimal,forest.cost)

end DripCore
