import DripCore.ReorgFilter

/-!
# The memory pool survives reorganizations

A pool that is consistent with the coins of a tip is consistent with those of another tip after a
switch, whatever is evicted, accepted again or given up, and no assertion fails. An output counts as
an input of another entry only if it becomes a coin when confirmed: an entry that spends an
unspendable output is left without this input.
-/
namespace DripCore
open CTransaction CTxMemPool CTxMemPoolEntry DependencyGraph ExceptRules List

namespace CTxMemPool
variable {pool pool' : CTxMemPool}

/-- A pool with other lock points. -/
structure Relocked (pool pool' : CTxMemPool) : Prop where
  txs : pool'.mapTx.map tx = pool.mapTx.map tx
  mapNextTx : pool'.mapNextTx = pool.mapNextTx
  m_txgraph : pool'.m_txgraph = pool.m_txgraph

section
variable (h : pool.Relocked pool')
include h

theorem Relocked.hashes : pool'.hashes = pool.hashes := by
  have he := congrArg (map CTransaction.hash) h.txs
  rwa [map_map,map_map] at he

theorem Relocked.symm : pool'.Relocked pool := ⟨h.txs.symm,h.mapNextTx.symm,h.m_txgraph.symm⟩

theorem Relocked.exists_entry {en : CTxMemPoolEntry} (he : en ∈ pool'.mapTx) : ∃ e ∈ pool.mapTx,
    e.tx = en.tx := by
  have hm : en.tx ∈ pool'.mapTx.map tx := mem_map.mpr ⟨en,he,rfl⟩
  rw [h.txs] at hm
  exact mem_map.mp hm

variable {x y : Txid}

theorem Relocked.spends_of (hs : pool'.Spends x y) : pool.Spends x y := by
  obtain ⟨hx,en,hn,rfl,o,ho,rfl⟩ := hs
  obtain ⟨e,he,ht⟩ := h.exists_entry hn
  exact ⟨h.hashes ▸ hx,e,he,congrArg CTransaction.hash ht,o,ht ▸ ho,rfl⟩

theorem Relocked.spends : pool'.Spends x y ↔ pool.Spends x y := ⟨h.spends_of,h.symm.spends_of⟩

theorem Relocked.sound (hs : pool.Sound []) : pool'.Sound [] := by
  obtain ⟨hin,hg⟩ := sound_nil.mp hs
  have hn : pool'.hashes.Nodup := h.hashes ▸ hin.nodup
  refine sound_nil.mpr ⟨⟨hn,?_,?_,?_,?_⟩,?_⟩
  · intro o txid
    rw [h.mapNextTx,hin.nextTx]
    constructor
    · rintro ⟨en,hen,rfl,ho⟩
      obtain ⟨e,he,ht⟩ := h.symm.exists_entry hen
      exact ⟨e,he,congrArg CTransaction.hash ht,ht ▸ ho⟩
    · rintro ⟨en,hen,rfl,ho⟩
      obtain ⟨e,he,ht⟩ := h.exists_entry hen
      exact ⟨e,he,congrArg CTransaction.hash ht,ht ▸ ho⟩
  · intro en hen en' hen' o ho ho'
    obtain ⟨e,he,ht⟩ := h.exists_entry hen
    obtain ⟨e',he',ht'⟩ := h.exists_entry hen'
    have hq := hin.single e he e' he' o (ht ▸ ho) (ht' ▸ ho')
    refine inj_on_of_nodup_map hn hen hen' ?_
    rw [CTxMemPoolEntry.hash,CTxMemPoolEntry.hash,← ht,← ht',hq]
  · rw [h.m_txgraph,h.hashes]
    exact hin.nodes
  · rw [h.m_txgraph]
    exact hin.nodup_nodes
  · rw [h.m_txgraph]
    exact hg.congr fun x y => h.spends.symm

theorem Relocked.supplied {ou : CTransaction → COutPoint → Prop} {s : COutPoint → Prop}
    (hs : pool.Supplied ou s) : pool'.Supplied ou s := by
  intro en hen o ho
  obtain ⟨e,he,ht⟩ := h.exists_entry hen
  rcases hs e he o (ht ▸ ho) with hso | ⟨parent,ha,hn,hc⟩
  · exact .inl hso
  · obtain ⟨p,hp,hpt⟩ := h.symm.exists_entry ha
    refine .inr ⟨p,hp,?_,hpt ▸ hc⟩
    rwa [CTxMemPoolEntry.hash,CTxMemPoolEntry.hash,hpt,← ht]

end

section
variable {c : COutPoint → Option Coin} {tip : CBlockIndex}

/-- The loop keeps the transactions, and names the entries whose lock points may not be valid. -/
theorem filterLoop_spec {check : CTxMemPoolEntry → MempoolResult (Bool × CTxMemPoolEntry)}
    {entries : List CTxMemPoolEntry}
    (hc : ∀ en ∈ entries, ∃ remove en', check en = .ok (remove,en') ∧
      en'.tx = en.tx ∧ (remove = false → testLockPointValidity tip en'.lockPoints = true)) :
    ∃ entries' tr, filterLoop check entries = .ok (entries',tr) ∧ entries'.map tx = entries.map tx ∧
      ∀ en ∈ entries', en.hash ∈ tr ∨ testLockPointValidity tip en.lockPoints = true := by
  induction entries with
  | nil => exact ⟨[],[],rfl,rfl,fun _ => nofun⟩
  | cons en entries ih =>
    obtain ⟨remove,en',hn,hx,hv⟩ := hc en mem_cons_self
    obtain ⟨entries',tr,hl,ht,hr⟩ := ih fun e he => hc e (mem_cons_of_mem _ he)
    refine ⟨en'::entries',if remove then en'.hash::tr else tr,?_,?_,?_⟩
    · rw [filterLoop,hn]
      rw [hl]
      rfl
    · rw [map_cons,map_cons,hx,ht]
    · intro e he
      rcases mem_cons.mp he with rfl | he
      · cases remove with
        | false => exact .inr (hv rfl)
        | true => exact .inl mem_cons_self
      · refine (hr e he).imp_left fun hm => ?_
        cases remove with
        | false => exact hm
        | true => exact mem_cons_of_mem _ hm

theorem removeForReorg_spec (hh : ∀ o coin, c o = some coin → coin.nHeight ≤ tip.nHeight)
    (hu : ∀ o coin, c o = some coin → coin.isSpent = false) (hs : pool.Sound [])
    (hsu : pool.Supplied CTransaction.Creates fun o => (c o).isSome) : ∃ pool',
    pool.removeForReorg c tip = .ok pool' ∧ pool'.Sound [] ∧
      pool'.Supplied CTransaction.Creates fun o => (c o).isSome := by
  obtain ⟨entries,tr,hl,ht,hv⟩ := filterLoop_spec fun e he => finalAndMature_spec hh hu hsu he
  have hr : pool.Relocked { pool with mapTx := entries } := ⟨ht,rfl,rfl⟩
  have hs1 := hr.sound hs
  obtain ⟨pool',hre,hs',hsh,ho⟩ := hs1.remove_union_shrinks tr
  have ha : pool'.mapTx.all (fun e => testLockPointValidity tip e.lockPoints) = true := by
    rw [all_eq_true]
    intro e he
    have hm := hsh.entries e he
    have hn := (hs1.nodes _).mpr (mem_hashes.mpr ⟨e,hm,rfl⟩)
    refine (hv e hm).resolve_left fun hto => ho e he ?_
    exact mem_descUnion.mpr ⟨hn,_,hto,hn,.inl rfl⟩
  refine ⟨pool',?_,hs',(hr.supplied hsu).shrinks hsh⟩
  rw [removeForReorg,hl,ok_bind]
  dsimp only
  rw [hre,ok_bind,ha]
  rfl

end

variable (ch : GraphChoices) (l : PoolLimits)
variable {s : List Txid}

/-- Removing a choice of the graph that is closed under descendants. -/
theorem Sound.remove_choice (h : pool.Sound []) (hn : s.Nodup)
    (ho : ∀ x ∈ s, x ∈ pool.m_txgraph.nodes)
    (hc : ∀ x y, x ∈ s → y ∈ pool.m_txgraph.nodes → pool.m_txgraph.reach x y = true →
      y ∈ s) : ∃ pool', removeStaged s pool = .ok pool' ∧ pool'.Sound [] ∧
      pool.Shrinks pool' ∧ pool.Without s pool' := by
  have hs (x y : Txid) (hx : x ∈ s) (hl : pool.Linked [] x y) : y ∈ s :=
    hc x y hx (h.graph.right hl) (h.graph.reach.mpr (.single hl))
  obtain ⟨pool',hr,h',hw⟩ := h.remove_closed hn (fun x hx => (h.nodes x).mp (ho x hx)) hs
  refine ⟨pool',hr,h',hw.shrinks fun x y hx hp => ?_,hw⟩
  exact hs x y hx (linked_nil.mpr hp)

theorem Without.length_lt (h : pool.Without s pool') (hd : pool'.Indexed) {txid : Txid}
    (hs : txid ∈ s) (hm : txid ∈ pool.hashes) :
    pool'.mapTx.length < pool.mapTx.length := by
  have hn : (txid::pool'.hashes).Nodup :=
    nodup_cons.mpr ⟨fun hin => (h.hashes_iff.mp hin).2 hs,hd.nodup⟩
  have hu : txid::pool'.hashes ⊆ pool.hashes :=
    cons_subset.mpr ⟨hm,fun x hx => (h.hashes_iff.mp hx).1⟩
  have hl := (subperm_of_subset hn hu).length_le
  rw [length_cons,hashes,hashes,length_map,length_map] at hl
  exact hl

/-- The loop ends within the limit or with an empty pool if there is fuel for every entry. -/
theorem trimLoop_spec (fuel : ℕ) (h : pool.Sound []) : ∃ pool',
    trimLoop ch l fuel pool = .ok pool' ∧ pool'.Sound [] ∧ pool.Shrinks pool' ∧
      (pool.mapTx.length ≤ fuel →
        pool'.mapTx.isEmpty ∨ l.dynamicMemoryUsage pool' ≤ l.max_size_bytes) := by
  induction fuel generalizing pool with
  | zero =>
    refine ⟨pool,rfl,h,.refl pool,fun hl => .inl ?_⟩
    rw [isEmpty_iff_length_eq_zero]
    exact Nat.le_zero.mp hl
  | succ fuel ih =>
    rw [trimLoop]
    split_ifs with hst
    · exact ⟨pool,rfl,h,.refl pool,fun _ => hst⟩
    · obtain ⟨pool1,hr,h1,hs,hw⟩ := h.remove_choice (ch.worstChunk_nodup _ h.nodup_nodes)
        (ch.worstChunk_nodes _)
        (ch.worstChunk_closed _)
      obtain ⟨pool',ho,h',hs',hli⟩ := ih h1
      refine ⟨pool',by rw [hr,ok_bind,ho],h',hs.trans hs',?_⟩
      intro hl
      apply hli
      -- the chunk has an entry, so there are fewer of them
      have hne : pool.m_txgraph.nodes ≠ [] := by
        obtain ⟨e,he⟩ := exists_mem_of_ne_nil pool.mapTx fun hn => hst (.inl (isEmpty_iff.mpr hn))
        exact ne_nil_of_mem ((h.nodes _).mpr (mem_hashes.mpr ⟨e,he,rfl⟩))
      obtain ⟨txid,ht⟩ := exists_mem_of_ne_nil _ (ch.worstChunk_ne_nil _ hne)
      have hlt := hw.length_lt h1.toIndexed ht ((h.nodes txid).mp (ch.worstChunk_nodes _ txid ht))
      exact Nat.le_of_lt_succ (hlt.trans_le hl)

theorem limitSize_spec (h : pool.Sound []) : ∃ pool',
    pool.limitMempoolSize ch l = .ok pool' ∧ pool'.Sound [] ∧ pool.Shrinks pool' ∧
      (pool'.mapTx.isEmpty ∨ l.dynamicMemoryUsage pool' ≤ l.max_size_bytes) := by
  obtain ⟨pool1,he,h1,hs,_⟩ := h.remove_union_shrinks
    ((pool.mapTx.filter fun e => decide (e.nTime < l.expireBefore)).map CTxMemPoolEntry.hash)
  obtain ⟨pool',ho,h',hs',hl⟩ := trimLoop_spec ch l pool1.mapTx.length h1
  refine ⟨pool',?_,h',hs.trans hs',hl le_rfl⟩
  rw [limitMempoolSize,expire,he,ok_bind,ho]

end CTxMemPool

section
variable {m maxHeight' : ℕ} {all old cn : List CTransaction}
  {v co : COutPoint → Option Coin} {tip : CBlockIndex}
  {po : CTxMemPool × DisconnectedBlockTransactions}

/-- With the blocks of the new tip connected, inputs are coins or come back from the queue. -/
theorem Switching.resurrecting (h : Switching all old cn po) (hn : Applied m cn co) :
    Resurrecting old co [] po.2.queuedTx.reverse po.1 := by
  refine ⟨⟨?_,fun _ _ => nofun⟩,h.between.sound,fun _ => nofun,h.ordered,?_⟩
  · intro e he
    exact .inr (h.between.fresh e.hash (mem_hashes.mpr ⟨e,he,rfl⟩))
  · apply h.between.supplied.of_source
    rintro e he o ho ⟨tx,ht,hc⟩
    rcases mem_append.mp ht with ht | ht
    · exact .inl ((hn.isSome_iff o).mpr ⟨⟨tx,ht,hc⟩,h.between.unspent e he o ho⟩)
    · exact .inr ⟨tx,mem_reverse.mpr ht,hc⟩

theorem mempoolForReorg_spec (p : AcceptPolicy co) (choices : GraphChoices)
    (limits : PoolLimits) (fat : Bool) (hold : Applied m old v)
    (hn : Applied tip.nHeight cn co)
    (hu : ∀ o coin, co o = some coin → coin.isSpent = false)
    (h : Switching all old cn po) : ∃ pool',
    maybeUpdateMempoolForReorg p choices limits tip fat po.2 po.1 =
        .ok (pool',po.2.clear) ∧ pool'.Consistent CTransaction.Creates co := by
  obtain ⟨pool1,added,ho,h1⟩ := resurrectLoop_spec p fat hold (h.resurrecting hn)
  obtain ⟨pool2,hp,hs2,hsu⟩ := h1.update hold
  obtain ⟨pool3,ht,hs3,hh,_⟩ := hs2.remove_choice
    (choices.trim_nodup _ hs2.nodup_nodes) (choices.trim_nodes _) (choices.trim_closed _)
  obtain ⟨pool4,hr,hs4,hsu'⟩ := removeForReorg_spec hn.nHeight_le hu hs3 (hsu.shrinks hh)
  obtain ⟨pool',hl,hs',hh',_⟩ := limitSize_spec choices limits hs4
  obtain ⟨hin,hg⟩ := sound_nil.mp hs'
  refine ⟨pool',?_,⟨hin,hsu'.shrinks hh',hg⟩⟩
  rw [maybeUpdateMempoolForReorg,DisconnectedBlockTransactions.take]
  dsimp only
  rw [ho,ok_bind,updateTransactionsFromBlock,hp,ok_bind,ht,ok_bind,hr,ok_bind,hl]
  rfl

/-- The whole reorganization, for two lists of transactions with a common beginning. -/
theorem reorganize_spec (usage : MemoryUsage) (p : AcceptPolicy co) (choices : GraphChoices)
    (limits : PoolLimits) (mmu : ℕ) (fat : Bool) (txs : List CTransaction)
    {d connected : List (List CTransaction)} {pool : CTxMemPool}
    (hold : Applied m (txs++d.reverse.flatten) v)
    (hn : Applied tip.nHeight (txs++connected.flatten) co)
    (hu : ∀ o coin, co o = some coin → coin.isSpent = false)
    (hde : TxidsDetermine (txs++d.reverse.flatten++connected.flatten++pool.mapTx.map tx))
    (hp : pool.Consistent CTransaction.Creates v) : ∃ pool',
    reorganize usage p choices limits mmu tip fat d connected pool =
        .ok pool' ∧ pool'.Consistent CTransaction.Creates co := by
  have hk : ∀ e ∈ pool.mapTx, e.tx ∈ txs++d.reverse.flatten ++
    connected.flatten++pool.mapTx.map tx := fun e he =>
    mem_append_right _ (mem_map.mpr ⟨e,he,rfl⟩)
  have hs : txs++d.reverse.flatten ⊆ txs++d.reverse.flatten ++
    connected.flatten++pool.mapTx.map tx := fun tx ht =>
    mem_append_left _ (mem_append_left _ ht)
  have hst : Switching (txs++d.reverse.flatten++connected.flatten ++ pool.mapTx.map tx)
    (txs++d.reverse.flatten)
      (txs++d.reverse.flatten) (pool,.init mmu) :=
    ⟨between_of_consistent hold hde hs hk hp,fun txid => Iff.rfl,nil_sublist _⟩
  obtain ⟨pools1,hd,h1⟩ := disconnectTips_spec usage hold.recorded.nodup hst
    (by rw [DisconnectedBlockTransactions.init,reverse_nil,append_nil])
  obtain ⟨pools2,hc,h2⟩ := connectTips_spec usage hde hs h1
    (fun tx ht => mem_append_left _ (mem_append_right _ ht))
    fun l tx l' hl o ho => by
      have hsp : txs++connected.flatten = txs++l++tx::l' := by
        rw [hl,append_assoc]
      exact hn.created_before hsp ho
  obtain ⟨pool',hup,hco⟩ := mempoolForReorg_spec p choices limits fat hold hn hu h2
  refine ⟨pool',?_,hco⟩
  rw [reorganize,hd,ok_bind,hc,ok_bind,hup]
  rfl

end

/-- Blocks that were connected one after the other to a tip. -/
inductive Extends (params : Params) : TipState → List CBlock → TipState → Prop
  | nil (st : TipState) : Extends params st [] st
  | snoc {st st₁ st' : TipState} {blocks : List CBlock} (h : Extends params st blocks st₁)
      (checks : BlockChecks) (context : ContextChecks) (block : CBlock)
      (hgenesis : block.hash ≠ params.hashGenesisBlock)
      (hcontext : contextualCheckBlock params context block (some st₁.tip) = .ok ())
      (hconnect : connectTip params checks block st₁ = .ok st') :
      Extends params st (blocks++[block]) st'

theorem Extends.heightChain {p : Params} {st st' : TipState} {blocks : List CBlock}
    {txs : List CTransaction} (h : Extends p st blocks st') (hs : HeightChain p st txs) :
    HeightChain p st' (txs++(blocks.map CBlock.vtx).flatten) := by
  induction h with
  | nil =>
    rw [map_nil,flatten_nil,append_nil]
    exact hs
  | snoc h ch c block hg hc ho ih =>
    have hb := HeightChain.block ch c block ih hc ho
    rw [map_append,flatten_append,map_singleton,flatten_singleton,← append_assoc]
    rwa [connectedTxs,if_neg hg] at hb

/-- A memory pool that is consistent with the coins of a tip is consistent with those of the new tip
after a reorganization, and no assertion on the way fails. -/
theorem reorganize_consistent (params : Params) (hp : params.bip34Height ≤ 1)
    {fork old new : TipState} {txs : List CTransaction} (hfork : HeightChain params fork txs)
    {disconnected connected : List CBlock} (hold : Extends params fork disconnected old)
    (hnew : Extends params fork connected new) (hheight : old.tip.nHeight < 2 ^ 31)
    (hheight' : new.tip.nHeight < 2 ^ 31) {pool : CTxMemPool}
    (hdet : TxidsDetermine (txs ++ (disconnected.map CBlock.vtx).flatten ++
      (connected.map CBlock.vtx).flatten ++ pool.mapTx.map tx))
    (hpool : pool.Consistent CTransaction.Creates fun o => old.coins.lookup o)
    (tip : CBlockIndex) (htip : tip.nHeight = new.tip.nHeight) (usage : MemoryUsage)
    (max_mem_usage : ℕ) (policy : AcceptPolicy fun o => new.coins.lookup o) (choices : GraphChoices)
    (limits : PoolLimits) (fAddToMempool : Bool) : ∃ pool',
    reorganize usage policy choices limits max_mem_usage tip fAddToMempool
        (disconnected.map CBlock.vtx).reverse (connected.map CBlock.vtx) pool = .ok pool' ∧
      pool'.Consistent CTransaction.Creates fun o => new.coins.lookup o := by
  have hc := hdet.noCollisions
  have hr := (hold.heightChain hfork).record hp
    (hc.mono fun tx ht => mem_append_left _ (mem_append_left _ ht)) hheight
  have hr' := (hnew.heightChain hfork).record hp (hc.mono fun tx ht => by
      rw [append_assoc,append_assoc]
      rcases mem_append.mp ht with ht | ht
      · exact mem_append_left _ ht
      · exact mem_append_right _ (mem_append_right _ (mem_append_left _ ht))) hheight'
  apply reorganize_spec usage policy choices limits max_mem_usage fAddToMempool txs
  · rw [reverse_reverse]
    exact hr.applied
  · rw [htip]
    exact hr'.applied
  · exact hr'.unspent
  · rwa [reverse_reverse]
  · exact hpool

theorem determine_of_nodup {txs l : List CTransaction} (hs : txs ⊆ l)
    (h : (l.map CTransaction.hash).Nodup) : TxidsDetermine txs := by
  intro tx ht tx' ht' hh
  rw [inj_on_of_nodup_map h (hs ht) (hs ht') hh]

/-- A node that accepts whatever can be spent. -/
def acceptAvailable (coins : COutPoint → Option Coin) : AcceptPolicy coins where
  accept pool tx :=
    if ∀ o ∈ tx.prevouts, (pool.getCoin coins o).isSome ∧ pool.mapNextTx.lookup o = none then
      some ⟨0,true,⟨0,0,none⟩⟩
    else none
  available pool tx details h o ho := by
    split_ifs at h with hc
    exact (hc o ho).1
  unspent pool tx details h o ho := by
    split_ifs at h with hc
    exact (hc o ho).2

/-- A node that accepts nothing again, and whose pool has no limits. -/
def rejectAll (coins : COutPoint → Option Coin) : AcceptPolicy coins where
  accept _ _ := none
  available _ _ _ := nofun
  unspent _ _ _ := nofun

def keepAll : GraphChoices where
  trim _ := []
  worstChunk g := g.nodes
  trim_nodup _ _ := List.nodup_nil
  trim_nodes _ _ := nofun
  trim_closed _ _ _ := nofun
  worstChunk_nodup _ := id
  worstChunk_nodes _ _ := id
  worstChunk_closed _ _ _ _ hy _ := hy
  worstChunk_ne_nil _ := id

def noLimits : PoolLimits where
  dynamicMemoryUsage _ := 0
  max_size_bytes := 0
  expireBefore := 0

def noUsage : MemoryUsage where
  recursiveDynamicUsage _ := 0
  mapUsage _ _ := 0
  listUsage _ := 0
  reserve count _ := count

/-- A coinbase that starts with a height. Only the first one can be spent. -/
def heightTx (nHeight hash : ℕ) : CTransaction where
  version := 2
  vin := [⟨nullOutPoint,(pushInt64 [] nHeight).take 9++[0x00#8],0xffffffff#32,[]⟩]
  vout := [⟨0,if nHeight = 1 then [0x51#8] else [0x6a#8]⟩]
  nLockTime := 0
  hash := BitVec.ofNat 256 hash
  vin_size := Nat.one_lt_two_pow (by decide)
  vout_size := Nat.one_lt_two_pow (by decide)
  scriptSig_size := by
    intro i hi
    rw [List.mem_singleton.mp hi,List.length_append,List.length_take]
    exact (Nat.add_le_add_right (Nat.min_le_left _ _) _).trans_lt (by decide)

def spendTx (prevout : Txid) (script : CScript) (hash : ℕ) : CTransaction where
  version := 2
  vin := [⟨⟨prevout,0⟩,[],0xffffffff#32,[]⟩]
  vout := [⟨0,script⟩]
  nLockTime := 0
  hash := BitVec.ofNat 256 hash
  vin_size := Nat.one_lt_two_pow (by decide)
  vout_size := Nat.one_lt_two_pow (by decide)
  scriptSig_size := by
    intro i hi
    rw [List.mem_singleton.mp hi]
    exact Nat.two_pow_pos 32

def entryOf (tx : CTransaction) : CTxMemPoolEntry := ⟨tx,0,false,⟨0,0,none⟩⟩

def singlePool (tx : CTransaction) : CTxMemPool where
  mapTx := [entryOf tx]
  mapNextTx := tx.prevouts.map fun o => (o,tx.hash)
  m_txgraph := ⟨[tx.hash],fun _ _ => false⟩

variable {coins : COutPoint → Option Coin} {block : CBlock} {st st' : TipState} {nHeight : ℕ}

theorem singlePool_consistent {ou : CTransaction → COutPoint → Prop} {tx : CTransaction}
    (hc : ∀ o ∈ tx.prevouts, (coins o).isSome) (hs : ∀ o ∈ tx.prevouts, o.hash ≠ tx.hash) :
    (singlePool tx).Consistent ou coins where
  nodup := nodup_singleton _
  nextTx o txid := by
    simp only [singlePool,mem_map,Prod.mk.injEq,mem_singleton,exists_eq_left]
    constructor
    · rintro ⟨o',ho',rfl,rfl⟩
      exact ⟨rfl,ho'⟩
    · rintro ⟨rfl,ho⟩
      exact ⟨o,ho,rfl,rfl⟩
  single e he e' he' _ _ _ := (mem_singleton.mp he).trans (mem_singleton.mp he').symm
  nodes txid := Iff.rfl
  nodup_nodes := nodup_singleton _
  inputs e he o ho := by
    rw [mem_singleton.mp he] at ho
    exact .inl (hc o ho)
  dependencies := by
    refine represents_empty.addNode tx.hash |>.congr fun x y => ?_
    refine ⟨False.elim,?_⟩
    rintro ⟨hx,e,he,_,o,ho,rfl⟩
    rw [mem_singleton.mp he] at ho
    exact hs o ho (mem_singleton.mp hx)

/-- Connecting a block that passes `ContextualCheckBlock`. -/
def connectNext (block : CBlock) (st : TipState) : Except BlockFailure TipState := do
  contextualCheckBlock cDripParams acceptAllContexts block (some st.tip)
  connectTip cDripParams acceptAll block st

theorem extends_connectNext (hg : block.hash ≠ cDripParams.hashGenesisBlock)
    (h : connectNext block st = .ok st') :
    Extends cDripParams st [block] st' := by
  obtain ⟨u,hc,ho⟩ := bind_eq_ok.mp h
  have he := Extends.snoc (.nil st) acceptAll acceptAllContexts block hg hc ho
  rwa [nil_append] at he

theorem connectNext_nHeight (h : connectNext block st = .ok st') :
    st'.tip.nHeight = st.tip.nHeight+1 := by
  obtain ⟨u,_,hc⟩ := bind_eq_ok.mp h
  exact connectTip_nHeight hc

/-- An output of a transaction, whether it becomes a coin or not. -/
def CTransaction.HasOutput (tx : CTransaction) (o : COutPoint) : Prop :=
  o.hash = tx.hash ∧ o.n.toNat < tx.vout.length

def emptyBlock (nHeight : ℕ) : CBlock :=
    ⟨BitVec.ofNat 256 (nHeight+1),[heightTx nHeight (1000+nHeight)]⟩

def emptyChain : ℕ → Except BlockFailure TipState
  | 0 => .ok ⟨⟨1,[]⟩,∅⟩
  | nHeight+1 => do
      let st ← emptyChain nHeight
      connectNext (emptyBlock (nHeight+1)) st

def emptyChainTxs (nHeight : ℕ) : List CTransaction :=
  (List.range nHeight).flatMap fun n => connectedTxs cDripParams (emptyBlock (n+1))

theorem emptyChain_heightChain (h : emptyChain nHeight = .ok st) :
    HeightChain cDripParams st (emptyChainTxs nHeight) := by
  induction nHeight generalizing st with
  | zero =>
    obtain rfl := Except.ok.inj h
    exact .genesis 1
  | succ nHeight ih =>
    obtain ⟨st1,hh,hn⟩ := bind_eq_ok.mp h
    obtain ⟨u,hc,ho⟩ := bind_eq_ok.mp hn
    have hb := (ih hh).block acceptAll acceptAllContexts _ hc ho
    rwa [emptyChainTxs,range_succ,flatMap_append,flatMap_singleton]

theorem emptyChain_nHeight (h : emptyChain nHeight = .ok st) : st.tip.nHeight = nHeight := by
  induction nHeight generalizing st with
  | zero =>
    obtain rfl := Except.ok.inj h
    rfl
  | succ nHeight ih =>
    obtain ⟨st1,hc,hn⟩ := bind_eq_ok.mp h
    rw [connectNext_nHeight hn,ih hc]

def branchOf : ℕ → CBlockIndex
  | 0 => .genesis ⟨0,1,0⟩
  | nHeight+1 => (branchOf nHeight).extend ⟨0,1,0⟩

theorem branchOf_nHeight (nHeight : ℕ) : (branchOf nHeight).nHeight = nHeight := by
  induction nHeight with
  | zero => rfl
  | succ nHeight ih => rw [branchOf,CBlockIndex.nHeight,ih]

def returningTx : CTransaction := spendTx 1001 [0x51#8] 3000

/-- A transaction is in the block of the old tip and not in that of the new one. -/
def returnFork : Except BlockFailure (TipState × TipState × TipState) := do
  let fork ← emptyChain 100
  let old ← connectNext ⟨5000,[heightTx 101 2000,returningTx]⟩ fork
  let new ← connectNext ⟨5001,[heightTx 101 2001]⟩ fork
  return (fork,old,new)

/-- The pool has a child of the transaction. -/
def returnReorganized (coins : COutPoint → Option Coin) : MempoolResult CTxMemPool :=
  reorganize noUsage (acceptAvailable coins) keepAll noLimits 0 (branchOf 101) true
    [[heightTx 101 2000,returningTx]] [[heightTx 101 2001]] (singlePool (spendTx 3000 [] 3001))

def returnsParent (states : TipState × TipState × TipState) : Bool :=
  (states.2.1.coins.lookup ⟨3000,0⟩).isSome &&
    match returnReorganized fun o => states.2.2.coins.lookup o with
    | .ok pool => decide (pool.hashes = [3000,3001])
    | .error _ => false

theorem returnFork_eq : ∃ s, returnFork = .ok s ∧ returnsParent s = true :=
  exists_of_any (by decide +kernel)

theorem return_txidsDetermine : TxidsDetermine (emptyChainTxs 100 ++
    [heightTx 101 2000,returningTx]++[heightTx 101 2001] ++
      (singlePool (spendTx 3000 [] 3001)).mapTx.map tx) :=
  determine_of_nodup (fun _ => id) (by decide +kernel)

/-- The transaction comes back to the pool before its child. -/
theorem reorganize_consistent_returned : ∃ fork old new pool', returnFork = .ok (fork, old, new) ∧
    returnReorganized (fun o => new.coins.lookup o) = .ok pool' ∧ pool'.hashes = [3000, 3001] ∧
      pool'.Consistent CTransaction.Creates fun o => new.coins.lookup o := by
  obtain ⟨⟨fork,old,new⟩,hs,hr⟩ := returnFork_eq
  obtain ⟨fork',hf,ho⟩ := bind_eq_ok.mp hs
  obtain ⟨old',hold,ho⟩ := bind_eq_ok.mp ho
  obtain ⟨new',hn,ho⟩ := bind_eq_ok.mp ho
  obtain ⟨rfl,rfl,rfl⟩ : fork' = fork ∧ old' = old ∧ new' = new := by
    simpa using ho
  have hh := connectNext_nHeight hold
  have hh' := connectNext_nHeight hn
  rw [emptyChain_nHeight hf] at hh hh'
  rw [returnsParent,Bool.and_eq_true] at hr
  obtain ⟨pool',hp,hco⟩ := reorganize_consistent cDripParams (by decide)
    (emptyChain_heightChain hf) (extends_connectNext (by decide) hold)
    (extends_connectNext (by decide) hn) (by rw [hh]; decide) (by rw [hh']; decide)
    return_txidsDetermine
    (singlePool_consistent (fun o ho => by rw [mem_singleton.mp ho]; exact hr.1)
      fun o ho => by rw [mem_singleton.mp ho]; decide)
    (branchOf 101) (by rw [hh',branchOf_nHeight]) noUsage 0 (acceptAvailable _) keepAll
    noLimits true
  have hk := hr.2
  rw [show returnReorganized _ = .ok pool' from hp] at hk
  exact ⟨fork',old',new',pool',hs,hp,of_decide_eq_true hk,hco⟩

/-- A transaction without an output that could be spent, and one that spends it. -/
def burnTx : CTransaction := spendTx 1001 [0x6a#8] 3000

def afterBurnTx : CTransaction := spendTx 3000 [0x51#8] 3001

def burnPool : CTxMemPool where
  mapTx := [entryOf afterBurnTx,entryOf burnTx]
  mapNextTx := [(⟨3000,0⟩,3001),(⟨1001,0⟩,3000)]
  m_txgraph := ((DependencyGraph.empty.addNode 3000).addNode 3001).addDependency 3000 3001

theorem burnPool_entries {P : CTxMemPoolEntry → Prop} :
    (∃ entry ∈ burnPool.mapTx, P entry) ↔ P (entryOf afterBurnTx) ∨ P (entryOf burnTx) := by
  simp [burnPool]

theorem burnPool_spends {x y : Txid} : burnPool.Spends x y ↔ x = 3000 ∧ y = 3001 := by
  rw [Spends,mem_hashes,burnPool_entries,burnPool_entries]
  constructor
  · rintro ⟨hx,⟨rfl,o,ho,rfl⟩ | ⟨rfl,o,ho,rfl⟩⟩
    · rw [mem_singleton.mp ho]
      exact ⟨rfl,rfl⟩
    · rw [mem_singleton.mp ho] at hx
      exact absurd hx (by decide)
  · rintro ⟨rfl,rfl⟩
    exact ⟨.inr rfl,.inl ⟨rfl,⟨3000,0⟩,mem_singleton_self _,rfl⟩⟩

theorem burnPool_consistent (hc : (coins ⟨1001,0⟩).isSome) :
    burnPool.Consistent CTransaction.HasOutput coins where
  nodup := by decide
  nextTx o txid := by
    rw [burnPool_entries,burnPool,mem_cons,mem_singleton,Prod.mk.injEq,Prod.mk.injEq]
    constructor
    · rintro (⟨rfl,rfl⟩ | ⟨rfl,rfl⟩)
      · exact .inl ⟨rfl,mem_singleton_self _⟩
      · exact .inr ⟨rfl,mem_singleton_self _⟩
    · rintro (⟨rfl,ho⟩ | ⟨rfl,ho⟩)
      · exact .inl ⟨mem_singleton.mp ho,rfl⟩
      · exact .inr ⟨mem_singleton.mp ho,rfl⟩
  single := by
    simp [burnPool,entryOf,afterBurnTx,burnTx,spendTx,prevouts]
  nodes txid := by
    exact Iff.rfl
  nodup_nodes := by decide
  inputs := by
    intro e he o ho
    rcases mem_cons.mp he with rfl | he
    · rw [mem_singleton.mp ho]
      exact .inr ⟨entryOf burnTx,mem_cons_of_mem _ mem_cons_self,by decide,rfl,Nat.one_pos⟩
    · rw [mem_singleton.mp he] at ho
      rw [mem_singleton.mp ho]
      exact .inl hc
  dependencies := by
    have hn := represents_empty.addNode (3000 : Txid) |>.addNode 3001
    refine (hn.addDependency (p := 3000) (c := 3001) (by decide) (by decide)).congr fun x y => ?_
    rw [burnPool_spends,false_or]

def burnFork : Except BlockFailure (TipState × TipState × TipState) := do
  let fork ← emptyChain 100
  let old ← connectNext ⟨5000,[heightTx 101 2000]⟩ fork
  let new ← connectNext ⟨5001,[heightTx 101 2001,burnTx]⟩ fork
  return (fork,old,new)

def burnReorganized (coins : COutPoint → Option Coin) : MempoolResult CTxMemPool :=
  reorganize noUsage (rejectAll coins) keepAll noLimits 0 (branchOf 101) true
    [[heightTx 101 2000]] [[heightTx 101 2001,burnTx]] burnPool

/-- What the run leaves: the entry whose input is gone. -/
def leavesOrphan (states : TipState × TipState × TipState) : Bool :=
  (states.2.1.coins.lookup ⟨1001,0⟩).isSome && (states.2.2.coins.lookup ⟨3000,0⟩).isNone &&
    match burnReorganized fun o => states.2.2.coins.lookup o with
    | .ok pool => decide (pool.mapTx.map (fun entry => (entry.hash,entry.tx.prevouts)) =
      [(3001,[⟨3000,0⟩])])
    | .error _ => false

theorem burnFork_eq : ∃ s, burnFork = .ok s ∧ leavesOrphan s = true :=
  exists_of_any (by decide +kernel)

theorem burn_txidsDetermine : TxidsDetermine (emptyChainTxs 100++[heightTx 101 2000] ++
    [heightTx 101 2001,burnTx]++burnPool.mapTx.map tx) := by
  apply determine_of_nodup (l := emptyChainTxs 100++[heightTx 101 2000,heightTx 101 2001,burnTx,
    afterBurnTx])
  · intro tx ht
    simp only [burnPool,map_cons,mem_append,mem_cons] at ht ⊢
    tauto
  · decide +kernel

/-- When an unspendable parent is confirmed, its child stays and spends an output that is no coin.
-/
theorem unspendable_parent_leaves_orphan : ∃ fork old new txs pool',
    HeightChain cDripParams fork txs ∧
      Extends cDripParams fork [⟨5000, [heightTx 101 2000]⟩] old ∧
      Extends cDripParams fork [⟨5001, [heightTx 101 2001, burnTx]⟩] new ∧
      (branchOf 101).nHeight = new.tip.nHeight ∧
      TxidsDetermine (txs ++ [heightTx 101 2000] ++ [heightTx 101 2001, burnTx] ++
        burnPool.mapTx.map tx) ∧
      (burnPool.Consistent CTransaction.HasOutput fun o => old.coins.lookup o) ∧
      reorganize noUsage (rejectAll fun o => new.coins.lookup o) keepAll noLimits 0 (branchOf 101)
        true
        [[heightTx 101 2000]] [[heightTx 101 2001, burnTx]] burnPool = .ok pool' ∧
      ¬pool'.Consistent CTransaction.HasOutput fun o => new.coins.lookup o := by
  obtain ⟨⟨fork,old,new⟩,hs,hr⟩ := burnFork_eq
  obtain ⟨fork',hf,hs⟩ := bind_eq_ok.mp hs
  obtain ⟨old',hold,hs⟩ := bind_eq_ok.mp hs
  obtain ⟨new',hw,hs⟩ := bind_eq_ok.mp hs
  obtain ⟨rfl,rfl,rfl⟩ : fork' = fork ∧ old' = old ∧ new' = new := by
    simpa using hs
  rw [leavesOrphan] at hr
  cases hp : burnReorganized fun o => new'.coins.lookup o with
  | error e => simp [hp] at hr
  | ok pool' =>
    simp only [hp,Bool.and_eq_true,Option.isNone_iff_eq_none,decide_eq_true_eq] at hr
    obtain ⟨⟨hc,hn⟩,he⟩ := hr
    have hh := emptyChain_heightChain hf
    refine ⟨fork',old',new',emptyChainTxs 100,pool',hh,
      extends_connectNext (by decide) hold,extends_connectNext (by decide) hw,?_,
      burn_txidsDetermine,burnPool_consistent hc,hp,fun hco => ?_⟩
    · rw [connectNext_nHeight hw,emptyChain_nHeight hf,branchOf_nHeight]
    · -- the only entry spends what is no coin and no output of another entry
      cases hm : pool'.mapTx with
      | nil => simp [hm] at he
      | cons en rest =>
        rw [hm,map_cons,cons.injEq,Prod.mk.injEq,map_eq_nil_iff] at he
        obtain ⟨⟨_,hpr⟩,rfl⟩ := he
        have hme : en ∈ pool'.mapTx := hm ▸ mem_cons_self
        have ho : (⟨3000,0⟩ : COutPoint) ∈ en.tx.prevouts := hpr ▸ mem_cons_self
        rcases hco.inputs en hme _ ho with hso | ⟨parent,ha,hne,_⟩
        · rw [hn] at hso
          exact absurd hso Bool.false_ne_true
        · rw [hm] at ha
          exact hne (congrArg _ (mem_singleton.mp ha))

end DripCore
