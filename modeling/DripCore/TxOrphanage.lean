import DripCore.BlockBody
import DripCore.Mempool
import DripCore.SpanningForestState
import Mathlib.Data.Finset.Sort
import Mathlib.Data.Prod.Lex

/-!
# The orphanage

Transactions whose parents are missing, with the peers that announced them. The announcements are a
list in the order of their index by wtxid; the index by peer is sorted from this. Wtxids are of any
linearly ordered type. `Assume` is an assertion. `LimitOrphans` returns also what it evicted, each
with the state from which it was taken, and its loop has the number of announcements as fuel.
Iterators are the announcements they point to.

Counts and latency scores are of type `unsigned int` in the source and wrap around here as well. The
denominators of scores are cut to `int32_t`. Usages are of type `int64_t` and are unbounded in the
model, as they stay far from the bounds of that type when the limits are in the range given below.
-/
namespace DripCore
open ExceptRules

abbrev NodeId := ℤ

def maxStandardTxWeight : ℕ := 400000

def getTransactionWeight (tx : CTransaction) : ℕ :=
  tx.serializeSize*(witnessScaleFactor-1)+(serializeTransaction true tx.toMutable).length

inductive OrphanageFailure where
  | assertion
  | assumption
  | danglingIterator
  | outOfFuel
deriving DecidableEq

abbrev OrphanageResult := Except OrphanageFailure

structure OrphanageConfig (Wtxid : Type) where
  getWitnessHash : CTransaction → Wtxid
  m_max_global_latency_score : ℕ
  m_reserved_usage_per_peer : ℕ

/-- Limits for which no count wraps around, as the latency score of a standard transaction is at
most 244, and for which the denominators of scores fit their type. -/
structure OrphanageConfig.InRange {Wtxid : Type} (cfg : OrphanageConfig Wtxid) : Prop where
  latency_range : cfg.m_max_global_latency_score ≤ 2 ^ 24
  usage_pos : 0 < cfg.m_reserved_usage_per_peer
  usage_range : cfg.m_reserved_usage_per_peer < 2 ^ 31

structure Announcement where
  m_tx : CTransaction
  m_announcer : NodeId
  m_entry_sequence : ℕ
  m_reconsider : Bool
deriving DecidableEq

namespace Announcement

def getMemUsage (ann : Announcement) : ℕ := getTransactionWeight ann.m_tx

def getLatencyScore (ann : Announcement) : ℕ := 1+ann.m_tx.vin.length / 10

/-- The key by peer, by whether it is to be reconsidered, and by age. -/
def byPeer (ann : Announcement) : ℤ ×ₗ Bool ×ₗ ℕ :=
  toLex (ann.m_announcer,toLex (ann.m_reconsider,ann.m_entry_sequence))

end Announcement

namespace FeeFrac

def lessEq (a b : FeeFrac) : Bool := !b.less a

def higher (a b : FeeFrac) : Bool := decide (b.fee*a.size < a.fee*b.size)

def maximum (a b : FeeFrac) : FeeFrac := if a.less b then b else a

def one : FeeFrac := ⟨1,1⟩

end FeeFrac

def toInt32 (n : ℕ) : ℤ := Int.bmod n (2^32)

/-- A value of type `Count`, which is `unsigned int`. -/
def toCount (n : ℕ) : ℕ := n % 2 ^ 32

structure PeerDoSInfo where
  m_total_usage : ℕ
  m_count_announcements : ℕ
  m_total_latency_score : ℕ
deriving DecidableEq

namespace PeerDoSInfo

def init : PeerDoSInfo := ⟨0,0,0⟩

def add (info : PeerDoSInfo) (ann : Announcement) : PeerDoSInfo where
  m_total_usage := info.m_total_usage+ann.getMemUsage
  m_count_announcements := toCount (info.m_count_announcements + 1)
  m_total_latency_score := toCount (info.m_total_latency_score + ann.getLatencyScore)

def subtract (info : PeerDoSInfo) (ann : Announcement) : OrphanageResult PeerDoSInfo :=
  if ann.getMemUsage ≤ info.m_total_usage ∧ ann.getLatencyScore ≤ info.m_total_latency_score ∧
      1 ≤ info.m_count_announcements then
    .ok {
      m_total_usage := info.m_total_usage-ann.getMemUsage
      m_count_announcements := info.m_count_announcements-1
      m_total_latency_score := info.m_total_latency_score-ann.getLatencyScore }
  else .error .assumption

def getDosScore (info : PeerDoSInfo) (max_peer_latency_score max_peer_memory : ℕ) :
    OrphanageResult FeeFrac :=
  if 0 < max_peer_latency_score ∧ 0 < max_peer_memory then
    .ok (FeeFrac.maximum ⟨info.m_total_latency_score,toInt32 max_peer_latency_score⟩
      ⟨info.m_total_usage,toInt32 max_peer_memory⟩)
  else .error .assertion

end PeerDoSInfo

structure TxOrphanage (Wtxid : Type) where
  m_current_sequence : ℕ
  m_orphans : List Announcement
  m_unique_orphans : ℕ
  m_unique_orphan_usage : ℕ
  m_unique_rounded_input_scores : ℕ
  m_outpoint_to_orphan_wtxids : AList fun _ : COutPoint => Finset Wtxid
  m_reconsiderable_wtxids : Finset Wtxid
  m_peer_orphanage_info : AList fun _ : NodeId => PeerDoSInfo

/-- An announcement that was evicted, and the state in which this was done. -/
structure Eviction (Wtxid : Type) where
  before : TxOrphanage Wtxid
  ann : Announcement

namespace TxOrphanage
variable {Wtxid : Type} [LinearOrder Wtxid] (cfg : OrphanageConfig Wtxid)

def init : TxOrphanage Wtxid := ⟨0,[],0,0,0,∅,∅,∅⟩

def wtxid (ann : Announcement) : Wtxid := cfg.getWitnessHash ann.m_tx

/-- The key by wtxid and by peer. -/
def byWtxid (ann : Announcement) : Wtxid ×ₗ ℤ := toLex (wtxid cfg ann,ann.m_announcer)

/-- The announcements between the lower and the upper bound of a wtxid. -/
def equalRange (st : TxOrphanage Wtxid) (w : Wtxid) : List Announcement :=
  st.m_orphans.filter fun ann => wtxid cfg ann = w

def lowerBoundByPeer (st : TxOrphanage Wtxid) (key : ℤ ×ₗ Bool ×ₗ ℕ) : List Announcement :=
  (st.m_orphans.insertionSort fun a b => a.byPeer ≤ b.byPeer).dropWhile fun ann => ann.byPeer < key

def emplace (st : TxOrphanage Wtxid) (ann : Announcement) : Option (List Announcement) :=
  if st.m_orphans.any fun other => byWtxid cfg other = byWtxid cfg ann || other.byPeer = ann.byPeer
    then
    none
  else some (st.m_orphans.orderedInsert (fun a b => byWtxid cfg a ≤ byWtxid cfg b) ann)

/-- `modify` of the mark, which loses the announcement if its new key is not new. -/
def modify (ann : Announcement) (reconsider : Bool) (orphans : List Announcement) :
    List Announcement :=
  let changed := { ann with m_reconsider := reconsider }
  if (orphans.erase ann).any fun other => other.byPeer = changed.byPeer then orphans.erase ann
  else orphans.map fun other => if other = ann then changed else other

/-- Whether the neighbours have other wtxids. -/
def isUnique (orphans : List Announcement) (ann : Announcement) : Bool :=
  let i := orphans.idxOf ann
  let same (other : Announcement) : Bool := wtxid cfg other = wtxid cfg ann
  ann ∈ orphans && !orphans[i+1]?.any same && !(i != 0 && orphans[i-1]?.any same)

def maxGlobalLatencyScore : ℕ := cfg.m_max_global_latency_score

def totalLatencyScore (st : TxOrphanage Wtxid) : ℕ :=
  toCount (st.m_unique_rounded_input_scores + st.m_orphans.length)

def maxPeerLatencyScore (st : TxOrphanage Wtxid) : ℕ :=
  cfg.m_max_global_latency_score / max st.m_peer_orphanage_info.entries.length 1

def maxGlobalUsage (st : TxOrphanage Wtxid) : ℕ :=
  cfg.m_reserved_usage_per_peer*max st.m_peer_orphanage_info.entries.length 1

def needsTrim (st : TxOrphanage Wtxid) : Bool :=
  decide (maxGlobalLatencyScore cfg < st.totalLatencyScore) ||
    decide (maxGlobalUsage cfg st < st.m_unique_orphan_usage)

def usageByPeer (st : TxOrphanage Wtxid) (peer : NodeId) : ℕ :=
  ((st.m_peer_orphanage_info.lookup peer).map PeerDoSInfo.m_total_usage).getD 0

def latencyScoreFromPeer (st : TxOrphanage Wtxid) (peer : NodeId) : ℕ :=
  ((st.m_peer_orphanage_info.lookup peer).map PeerDoSInfo.m_total_latency_score).getD 0

/-- Takes an announcement off the account of its peer, whose entry goes with its last one. -/
def subtractPeer (peers : AList fun _ : NodeId => PeerDoSInfo) (ann : Announcement) :
    OrphanageResult (AList fun _ : NodeId => PeerDoSInfo) :=
  match peers.lookup ann.m_announcer with
  | none => .error .assumption
  | some info => do
      let info ← info.subtract ann
      return if info.m_count_announcements = 0 then peers.erase ann.m_announcer
        else peers.insert ann.m_announcer info

/-- Removes the references of a wtxid, and keys that point to an empty set then. -/
def unlink (w : Wtxid) : List CTxIn → (AList fun _ : COutPoint => Finset Wtxid) →
    AList fun _ : COutPoint => Finset Wtxid
  | [], index => index
  | input::vin, index =>
    unlink w vin <|
      match index.lookup input.prevout with
      | none => index
      | some wtxids =>
        if wtxids.erase w = ∅ then index.erase input.prevout
        else index.insert input.prevout (wtxids.erase w)

def link (w : Wtxid) : List CTxIn → (AList fun _ : COutPoint => Finset Wtxid) →
    AList fun _ : COutPoint => Finset Wtxid
  | [], index => index
  | input::vin, index =>
    link w vin (index.insert input.prevout (insert w ((index.lookup input.prevout).getD ∅)))

/-- The totals without a transaction that no announcement is left for. -/
def dropTransaction (st : TxOrphanage Wtxid) (ann : Announcement) : TxOrphanage Wtxid :=
  { st with
    m_unique_orphans := st.m_unique_orphans-1
    m_unique_rounded_input_scores := st.m_unique_rounded_input_scores-(ann.getLatencyScore-1)
    m_unique_orphan_usage := st.m_unique_orphan_usage-ann.getMemUsage
    m_outpoint_to_orphan_wtxids :=
      unlink (wtxid cfg ann) ann.m_tx.vin st.m_outpoint_to_orphan_wtxids }

def dropIfUnique (st : TxOrphanage Wtxid) (ann : Announcement) : TxOrphanage Wtxid :=
  if isUnique cfg st.m_orphans ann then st.dropTransaction cfg ann else st

def erase (st : TxOrphanage Wtxid) (ann : Announcement) : OrphanageResult (TxOrphanage Wtxid) := do
  let peers ← subtractPeer st.m_peer_orphanage_info ann
  return { st.dropIfUnique cfg ann with
    m_peer_orphanage_info := peers
    m_reconsiderable_wtxids :=
      if ann.m_reconsider then st.m_reconsiderable_wtxids.erase (wtxid cfg ann)
      else st.m_reconsiderable_wtxids
    m_orphans := st.m_orphans.erase ann }

def eraseAll : List Announcement → TxOrphanage Wtxid → OrphanageResult (TxOrphanage Wtxid)
  | [], st => return st
  | ann::anns, st => do
      let st ← st.erase cfg ann
      eraseAll anns st

/-- The order of the heap: by score, and more recent peers are worse. -/
def compareScore (left right : NodeId × FeeFrac) : Bool :=
  if left.2 ≠ right.2 then left.2.less right.2 else decide (left.1 < right.1)

def worstOf : List (NodeId × FeeFrac) → Option (NodeId × FeeFrac)
  | [] => none
  | peer::heap => some (heap.foldl (fun worst other => if compareScore worst other then other
    else worst) peer)

/-- Whether the inner loop ends with a peer: nothing is left, or its score is within the threshold.
-/
def peerDone (max_lat max_mem : ℕ) (dos_threshold : FeeFrac) : Option PeerDoSInfo →
    OrphanageResult Bool
  | none => return true
  | some info => do
      let score ← info.getDosScore max_lat max_mem
      return score.lessEq dos_threshold

/-- The inner loop of `LimitOrphans`, over the index by peer. -/
def trimPeer (max_lat max_mem : ℕ) (dos_threshold : FeeFrac) (worst_peer : NodeId) :
    List Announcement → TxOrphanage Wtxid →
      OrphanageResult (TxOrphanage Wtxid × List (Eviction Wtxid))
  | [], st => if needsTrim cfg st then throw .assumption else return (st,[])
  | ann::anns, st =>
    if needsTrim cfg st then
      if ann.m_announcer ≠ worst_peer then throw .assumption
      else do
        let next ← st.erase cfg ann
        let done ← peerDone max_lat max_mem dos_threshold
          (next.m_peer_orphanage_info.lookup worst_peer)
        if done then return (next,[⟨st,ann⟩])
        else do
          let (last,evictions) ← trimPeer max_lat max_mem dos_threshold worst_peer anns next
          return (last,⟨st,ann⟩::evictions)
    else return (st,[])

/-- A peer that has announcements left is put back into the heap. -/
def pushBack (max_lat max_mem : ℕ) (peer : NodeId) (heap : List (NodeId × FeeFrac)) :
    Option PeerDoSInfo → OrphanageResult (List (NodeId × FeeFrac))
  | none => return heap
  | some info =>
    if info.m_count_announcements > 0 then do
      let score ← info.getDosScore max_lat max_mem
      return (peer,score)::heap
    else return heap

def trimLoop (max_lat max_mem : ℕ) : ℕ → List (NodeId × FeeFrac) → TxOrphanage Wtxid →
    OrphanageResult (TxOrphanage Wtxid × List (Eviction Wtxid))
  | 0, _, _ => throw .outOfFuel
  | fuel+1, heap, st =>
    match worstOf heap with
    | none => throw .assumption
    | some (worst_peer,dos_score) =>
      let heap := heap.erase (worst_peer,dos_score)
      if dos_score.higher .one then
        match st.m_peer_orphanage_info.lookup worst_peer with
        | none => throw .danglingIterator
        | some _ => do
            let dos_threshold := ((worstOf heap).map Prod.snd).getD .one
            let (next,evictions) ← trimPeer cfg max_lat max_mem dos_threshold worst_peer
              (st.lowerBoundByPeer (toLex (worst_peer,toLex (false,0)))) st
            if needsTrim cfg next then do
              let heap ← pushBack max_lat max_mem worst_peer heap
                (next.m_peer_orphanage_info.lookup worst_peer)
              let (last,rest) ← trimLoop max_lat max_mem fuel heap next
              return (last,evictions++rest)
            else return (next,evictions)
      else throw .assumption

def scorePeers (max_lat max_mem : ℕ) :
    List (Σ _ : NodeId,PeerDoSInfo) → OrphanageResult (List (NodeId × FeeFrac))
  | [] => return []
  | ⟨nodeid,entry⟩::peers => do
      let dos_score ← entry.getDosScore max_lat max_mem
      let heap ← scorePeers max_lat max_mem peers
      return if dos_score.higher .one then (nodeid,dos_score)::heap else heap

def limitOrphans (st : TxOrphanage Wtxid) :
    OrphanageResult (TxOrphanage Wtxid × List (Eviction Wtxid)) :=
  if needsTrim cfg st then do
    let max_lat := st.maxPeerLatencyScore cfg
    let max_mem := cfg.m_reserved_usage_per_peer
    let heap ← scorePeers max_lat max_mem st.m_peer_orphanage_info.entries
    trimLoop cfg max_lat max_mem st.m_orphans.length heap st
  else return (st,[])

section

def haveTx (st : TxOrphanage Wtxid) (w : Wtxid) : Bool := !(st.equalRange cfg w).isEmpty

/-- The new announcement with its sequence number on the account of the peer. -/
def announce (st : TxOrphanage Wtxid) (ann : Announcement) (orphans : List Announcement) :
    TxOrphanage Wtxid :=
  { st with
    m_orphans := orphans
    m_current_sequence := st.m_current_sequence+1
    m_peer_orphanage_info := st.m_peer_orphanage_info.insert ann.m_announcer
      (((st.m_peer_orphanage_info.lookup ann.m_announcer).getD .init).add ann) }

def addTransaction (st : TxOrphanage Wtxid) (ann : Announcement) : TxOrphanage Wtxid :=
  { st with
    m_outpoint_to_orphan_wtxids := link (wtxid cfg ann) ann.m_tx.vin st.m_outpoint_to_orphan_wtxids
    m_unique_orphans := toCount (st.m_unique_orphans + 1)
    m_unique_orphan_usage := st.m_unique_orphan_usage + ann.getMemUsage
    m_unique_rounded_input_scores :=
      toCount (st.m_unique_rounded_input_scores + (ann.getLatencyScore - 1)) }

/-- The end of an operation: `LimitOrphans`, if the operation has not returned before. -/
def thenLimit (st : TxOrphanage Wtxid) : Option (TxOrphanage Wtxid) →
    OrphanageResult (TxOrphanage Wtxid)
  | none => return st
  | some reached => do
      let (last,_) ← reached.limitOrphans cfg
      return last

def storeTx (st : TxOrphanage Wtxid) (tx : CTransaction) (peer : NodeId) :
    OrphanageResult (Option (TxOrphanage Wtxid)) :=
  let ann : Announcement := ⟨tx,peer,st.m_current_sequence,false⟩
  if maxStandardTxWeight < getTransactionWeight tx then return none
  else
    let brand_new := !st.haveTx cfg (cfg.getWitnessHash tx)
    match st.emplace cfg ann with
    | none => return none
    | some orphans => do
        failIf (isUnique cfg orphans ann != brand_new) .assumption
        return some <|
          if brand_new then (st.announce ann orphans).addTransaction cfg ann
            else st.announce ann orphans

def addTx (st : TxOrphanage Wtxid) (tx : CTransaction) (peer : NodeId) :
    OrphanageResult (TxOrphanage Wtxid × Bool) := do
  let stored ← st.storeTx cfg tx peer
  let last ← st.thenLimit cfg stored
  return (last,stored.isSome && !st.haveTx cfg (cfg.getWitnessHash tx))

def storeAnnouncer (st : TxOrphanage Wtxid) (w : Wtxid) (peer : NodeId) :
    OrphanageResult (Option (TxOrphanage Wtxid)) :=
  match st.equalRange cfg w with
  | [] => return none
  | first::_ =>
    let ann : Announcement := ⟨first.m_tx,peer,st.m_current_sequence,false⟩
    match st.emplace cfg ann with
    | none => return none
    | some orphans => do
        failIf (isUnique cfg orphans ann) .assumption
        return some (st.announce ann orphans)

def addAnnouncer (st : TxOrphanage Wtxid) (w : Wtxid) (peer : NodeId) :
    OrphanageResult (TxOrphanage Wtxid × Bool) := do
  let stored ← st.storeAnnouncer cfg w peer
  let last ← st.thenLimit cfg stored
  return (last,stored.isSome)

def eraseTxInternal (st : TxOrphanage Wtxid) (w : Wtxid) :
    OrphanageResult (TxOrphanage Wtxid × Bool) := do
  let next ← eraseAll cfg (st.equalRange cfg w) st
  return (next,st.haveTx cfg w)

def eraseTx (st : TxOrphanage Wtxid) (w : Wtxid) : OrphanageResult (TxOrphanage Wtxid × Bool) := do
  let (next,ret) ← st.eraseTxInternal cfg w
  let last ← st.thenLimit cfg (some next)
  return (last,ret)

/-- The announcements of a peer, in the order of the index by peer. -/
def peerRange (st : TxOrphanage Wtxid) (peer : NodeId) : List Announcement :=
  (st.lowerBoundByPeer (toLex (peer,toLex (false,0)))).takeWhile fun ann => ann.m_announcer = peer

def removePeer (st : TxOrphanage Wtxid) (peer : NodeId) :
    OrphanageResult (Option (TxOrphanage Wtxid)) :=
  if (st.peerRange peer).isEmpty then return none
  else do
    let next ← eraseAll cfg (st.peerRange peer) st
    failIf (next.m_peer_orphanage_info.lookup peer).isSome .assumption
    return some next

def eraseForPeer (st : TxOrphanage Wtxid) (peer : NodeId) : OrphanageResult (TxOrphanage Wtxid) :=
    do
  let removed ← st.removePeer cfg peer
  st.thenLimit cfg removed

def spenders (st : TxOrphanage Wtxid) (o : COutPoint) : Finset Wtxid :=
  (st.m_outpoint_to_orphan_wtxids.lookup o).getD ∅

def wtxidsToErase (st : TxOrphanage Wtxid) (vtx : List CTransaction) : Finset Wtxid :=
  (vtx.flatMap CTransaction.prevouts).foldl (fun wtxids o => wtxids ∪ st.spenders o) ∅

def eraseWtxids : List Wtxid → TxOrphanage Wtxid → OrphanageResult (TxOrphanage Wtxid × ℕ)
  | [], st => return (st,0)
  | w::wtxids, st => do
      let (next,erased) ← st.eraseTxInternal cfg w
      let (last,num_erased) ← eraseWtxids wtxids next
      return (last,(if erased then 1 else 0)+num_erased)

def removeBlock (st : TxOrphanage Wtxid) (vtx : List CTransaction) :
    OrphanageResult (Option (TxOrphanage Wtxid)) :=
  if st.m_orphans.isEmpty then return none
  else do
    let wtxids := st.wtxidsToErase vtx
    let (next,num_erased) ← eraseWtxids cfg (wtxids.sort (· ≤ ·)) st
    failIf (wtxids.card != num_erased) .assumption
    return some next

def eraseForBlock (st : TxOrphanage Wtxid) (vtx : List CTransaction) :
    OrphanageResult (TxOrphanage Wtxid) := do
  let removed ← st.removeBlock cfg vtx
  st.thenLimit cfg removed

variable {σ : Type} (R : RandomContext σ)

/-- Assigns an orphan to one of its announcers. -/
def reconsiderWtxid (w : Wtxid) (st : TxOrphanage Wtxid) (rng : σ) :
    OrphanageResult (TxOrphanage Wtxid × σ × List (Wtxid × NodeId)) :=
  if w ∈ st.m_reconsiderable_wtxids then return (st,rng,[])
  else
    let range := st.equalRange cfg w
    if range.isEmpty then throw .assumption
    else
      let (pick,rng) := R.randrange range.length rng
      match range[pick]? with
      | none => throw .danglingIterator
      | some ann =>
        if ann.m_reconsider then throw .assumption
        else return ({ st with
          m_orphans := modify ann true st.m_orphans
          m_reconsiderable_wtxids := insert w st.m_reconsiderable_wtxids },rng,
            [(w,ann.m_announcer)])

def reconsiderAll : List Wtxid → TxOrphanage Wtxid → σ →
    OrphanageResult (TxOrphanage Wtxid × σ × List (Wtxid × NodeId))
  | [], st, rng => return (st,rng,[])
  | w::wtxids, st, rng => do
      let (next,rng,ret) ← reconsiderWtxid cfg R w st rng
      let (last,rng,rest) ← reconsiderAll wtxids next rng
      return (last,rng,ret++rest)

/-- The wtxids that spend outputs of a transaction, output by output. -/
def childWtxids (st : TxOrphanage Wtxid) (tx : CTransaction) : List Wtxid :=
  (List.range tx.vout.length).flatMap fun i =>
  (st.spenders ⟨tx.hash,BitVec.ofNat 32 i⟩).sort (· ≤ ·)

def addChildrenToWorkSet (st : TxOrphanage Wtxid) (tx : CTransaction) (rng : σ) :
    OrphanageResult (TxOrphanage Wtxid × σ × List (Wtxid × NodeId)) :=
  reconsiderAll cfg R (st.childWtxids tx) st rng

def getTxToReconsider (st : TxOrphanage Wtxid) (peer : NodeId) :
    TxOrphanage Wtxid × Option CTransaction :=
  match (st.lowerBoundByPeer (toLex (peer,toLex (true,0)))).head? with
  | none => (st,none)
  | some ann =>
    if ann.m_announcer = peer ∧ ann.m_reconsider = true then
      ({ st with
        m_orphans := modify ann false st.m_orphans
        m_reconsiderable_wtxids := st.m_reconsiderable_wtxids.erase (wtxid cfg ann) },some ann.m_tx)
    else (st,none)

end

section
variable {σ : Type} (R : RandomContext σ)

/-- The operations that change the orphanage. -/
inductive Operation (Wtxid : Type) where
  | addTx (tx : CTransaction) (peer : NodeId)
  | addAnnouncer (w : Wtxid) (peer : NodeId)
  | eraseTx (w : Wtxid)
  | eraseForPeer (peer : NodeId)
  | eraseForBlock (vtx : List CTransaction)
  | addChildrenToWorkSet (tx : CTransaction)
  | getTxToReconsider (peer : NodeId)

def Operation.announcer : Operation Wtxid → Option NodeId
  | .addTx _ peer => some peer
  | .addAnnouncer _ peer => some peer
  | _ => none

def Operation.transaction : Operation Wtxid → Option CTransaction
  | .addTx tx _ => some tx
  | _ => none

/-- Whether the operation ends with `LimitOrphans`. -/
def Operation.limits : Operation Wtxid → Bool
  | .addChildrenToWorkSet _ => false
  | .getTxToReconsider _ => false
  | _ => true

def apply (st : TxOrphanage Wtxid) (rng : σ) : Operation Wtxid →
    OrphanageResult (TxOrphanage Wtxid × σ)
  | .addTx tx peer => do
      let (last,_) ← st.addTx cfg tx peer
      return (last,rng)
  | .addAnnouncer w peer => do
      let (last,_) ← st.addAnnouncer cfg w peer
      return (last,rng)
  | .eraseTx w => do
      let (last,_) ← st.eraseTx cfg w
      return (last,rng)
  | .eraseForPeer peer => do
      let last ← st.eraseForPeer cfg peer
      return (last,rng)
  | .eraseForBlock vtx => do
      let last ← st.eraseForBlock cfg vtx
      return (last,rng)
  | .addChildrenToWorkSet tx => do
      let (last,rng,_) ← st.addChildrenToWorkSet cfg R tx rng
      return (last,rng)
  | .getTxToReconsider peer => return ((st.getTxToReconsider cfg peer).1,rng)

def run : List (Operation Wtxid) → TxOrphanage Wtxid → σ → OrphanageResult (TxOrphanage Wtxid × σ)
  | [], st, rng => return (st,rng)
  | op::ops, st, rng => do
      let (next,rng) ← st.apply cfg R rng op
      run ops next rng

/-- The state in which an operation calls `LimitOrphans`, if it comes to that. -/
def reached (st : TxOrphanage Wtxid) : Operation Wtxid →
    OrphanageResult (Option (TxOrphanage Wtxid))
  | .addTx tx peer => st.storeTx cfg tx peer
  | .addAnnouncer w peer => st.storeAnnouncer cfg w peer
  | .eraseTx w => do
      let (next,_) ← st.eraseTxInternal cfg w
      return some next
  | .eraseForPeer peer => st.removePeer cfg peer
  | .eraseForBlock vtx => st.removeBlock cfg vtx
  | .addChildrenToWorkSet _ => return none
  | .getTxToReconsider _ => return none

end

def reconstructPeers : List Announcement → (AList fun _ : NodeId => PeerDoSInfo) →
    AList fun _ : NodeId => PeerDoSInfo
  | [], peers => peers
  | ann::anns, peers =>
    reconstructPeers anns
      (peers.insert ann.m_announcer (((peers.lookup ann.m_announcer).getD .init).add ann))

def uniqueScores : List Announcement → (AList fun _ : Wtxid => ℕ × ℕ) → AList fun _ : Wtxid => ℕ × ℕ
  | [], scores => scores
  | ann::anns, scores =>
    uniqueScores anns <|
      if (scores.lookup (wtxid cfg ann)).isSome then scores
      else scores.insert (wtxid cfg ann) (ann.getMemUsage,ann.getLatencyScore-1)

/-- The wtxids to reconsider, each of which may occur once. -/
def reconstructReconsiderable : List Announcement → Finset Wtxid → OrphanageResult (Finset Wtxid)
  | [], wtxids => return wtxids
  | ann::anns, wtxids =>
    if ann.m_reconsider then
      if wtxid cfg ann ∈ wtxids then throw .assertion
      else reconstructReconsiderable anns (insert (wtxid cfg ann) wtxids)
    else reconstructReconsiderable anns wtxids

def allOutpoints (st : TxOrphanage Wtxid) : Finset COutPoint :=
  (st.m_orphans.flatMap fun ann => ann.m_tx.prevouts).toFinset

def mapsEqual {α β : Type} [DecidableEq α] [DecidableEq β] (a b : AList fun _ : α => β) : Bool :=
  a.entries.length == b.entries.length && a.entries.all fun e => b.lookup e.1 == some e.2

def sanityCheck (st : TxOrphanage Wtxid) : OrphanageResult Unit := do
  let peers := reconstructPeers st.m_orphans ∅
  let scores := uniqueScores cfg st.m_orphans ∅
  let reconsiderable ← reconstructReconsiderable cfg st.m_orphans ∅
  failIf (peers.entries.length != st.m_peer_orphanage_info.entries.length) .assertion
  failIf (!mapsEqual peers st.m_peer_orphanage_info) .assertion
  failIf (st.m_reconsiderable_wtxids != reconsiderable) .assertion
  failIf (st.allOutpoints.card != st.m_outpoint_to_orphan_wtxids.entries.length) .assertion
  failIf (!st.m_outpoint_to_orphan_wtxids.entries.all fun e =>
    decide (e.1 ∈ st.allOutpoints) && decide (∀ w ∈ e.2, (scores.lookup w).isSome)) .assertion
  failIf (!decide (st.m_unique_orphans ≤ st.m_orphans.length)) .assertion
  failIf (!decide (st.m_orphans.length ≤
    st.m_peer_orphanage_info.entries.length*st.m_unique_orphans)) .assertion
  failIf (scores.entries.length != st.m_unique_orphans) .assertion
  failIf ((scores.entries.map fun e => e.2.1).sum != st.m_unique_orphan_usage) .assertion
  failIf (!decide (st.m_unique_orphan_usage ≤
    (st.m_peer_orphanage_info.entries.map fun e => e.2.m_total_usage).sum)) .assertion
  failIf (toCount (scores.entries.map fun e => e.2.2).sum != st.m_unique_rounded_input_scores)
    .assertion
  failIf (!decide (st.m_unique_rounded_input_scores + st.m_orphans.length ≤
    toCount (st.m_peer_orphanage_info.entries.map fun e => e.2.m_total_latency_score).sum))
      .assertion
  failIf (needsTrim cfg st) .assertion

end TxOrphanage

end DripCore
