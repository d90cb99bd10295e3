import DripCore.MempoolConsistency

/-!
# The memory pool while blocks are switched

Between two tips the inputs of entries come from the chain, from other entries, or from the queue of
disconnected transactions. Connecting a block moves its transactions to the chain and removes their
conflicts. Entries that spend an evicted transaction go with it.
-/
namespace DripCore
open CTransaction CTxMemPool ExceptRules List

section

def CTransaction.noWitness (tx : CTransaction) :
    BitVec 32 × List (COutPoint × CScript × BitVec 32) × List CTxOut × BitVec 32 :=
  (tx.version,tx.vin.map CTxIn.noWitness,tx.vout,tx.nLockTime)

/-- Identifiers determine transactions up to their witnesses. -/
def TxidsDetermine (txs : List CTransaction) : Prop :=
  ∀ tx ∈ txs, ∀ tx' ∈ txs, tx.hash = tx'.hash → tx.noWitness = tx'.noWitness

variable {txs : List CTransaction} {tx tx' : CTransaction}

theorem CTransaction.serialize_of_noWitness (h : tx.noWitness = tx'.noWitness) :
    tx.serialize = tx'.serialize := by
  simp only [noWitness,Prod.mk.injEq] at h
  obtain ⟨hv,hvi,ho,hlo⟩ := h
  have hl : tx.vin.length = tx'.vin.length := by
    rw [← length_map CTxIn.noWitness,hvi,length_map]
  rw [serialize,serialize,flatMap_serialize,flatMap_serialize,hv,hvi,ho,hlo,hl]

theorem TxidsDetermine.noCollisions (h : TxidsDetermine txs) : NoCollisions txs :=
  fun tx htx tx' htx' hhas => serialize_of_noWitness (h tx htx tx' htx' hhas)

section
variable (h : TxidsDetermine txs) (htx : tx ∈ txs) (htx' : tx' ∈ txs) (hhas : tx.hash = tx'.hash)
include h htx htx' hhas

theorem TxidsDetermine.prevouts : tx.prevouts = tx'.prevouts := by
  have he := h tx htx tx' htx' hhas
  simp only [noWitness,Prod.mk.injEq] at he
  exact prevouts_of_vin he.2.1

theorem TxidsDetermine.creates {o : COutPoint} (ho : tx.Creates o) : tx'.Creates o := by
  have he := h tx htx tx' htx' hhas
  simp only [noWitness,Prod.mk.injEq] at he
  exact creates_congr hhas he.2.2.1 ho

end

variable {o : COutPoint}

theorem CTransaction.takes_or_isNull (tx : CTransaction) (ho : o ∈ tx.prevouts) :
    tx.Takes o ∨ o.isNull = true := by
  obtain ⟨txin,ht,rfl⟩ := mem_map.mp ho
  cases hc : tx.isCoinBase with
  | false =>
    left
    exact ⟨txin,by rwa [spends_eq_vin hc],rfl⟩
  | true =>
    right
    unfold isCoinBase at hc
    split at hc
    · next i hv =>
        rw [hv,mem_singleton] at ht
        rwa [ht]
    · exact absurd hc Bool.false_ne_true

theorem CTransaction.Takes.mem_prevouts (h : tx.Takes o) : o ∈ tx.prevouts := by
  obtain ⟨txin,ht,rfl⟩ := h
  unfold spends at ht
  split_ifs at ht
  · exact absurd ht not_mem_nil
  · exact mem_map.mpr ⟨txin,ht,rfl⟩

end

/-- The inputs of a pool between two tips, with the old chain, the current one, and the queue. -/
structure Between (all old chain queue : List CTransaction) (pool : CTxMemPool) : Prop where
  sound : pool.Sound []
  known : ∀ entry ∈ pool.mapTx, entry.tx ∈ all
  fresh : ∀ txid ∈ pool.hashes, txid ∉ old.map hash
  apart : ∀ txid ∈ pool.hashes, txid ∉ chain.map hash
  unspent : ∀ entry ∈ pool.mapTx, ∀ o ∈ entry.tx.prevouts, ∀ tx ∈ chain, ¬tx.Takes o
  supplied : pool.Supplied CTransaction.Creates fun o => ∃ tx ∈ chain++queue, tx.Creates o

variable {all old chain q chain' q' : List CTransaction} {pool pool' : CTxMemPool}

section
variable {maxHeight : ℕ} {v : COutPoint → Option Coin}
variable (h : Applied maxHeight old v) (hde : TxidsDetermine all) (hold : old ⊆ all)
  (hk : ∀ entry ∈ pool.mapTx, entry.tx ∈ all) (hpo : pool.Consistent CTransaction.Creates v)
include h hde hold hk hpo

/-- No entry of a consistent pool is in the chain, where its inputs would be spent. -/
theorem fresh_of_consistent : ∀ txid ∈ pool.hashes, txid ∉ old.map hash := by
  intro txid
  induction hr : rankOf old txid using Nat.strong_induction_on generalizing txid with
  | _ n ih =>
    intro hx hm
    obtain ⟨entry,he,rfl⟩ := mem_hashes.mp hx
    obtain ⟨tx,htx,hhas⟩ := mem_map.mp hm
    have hp := hde.prevouts (hold htx) (hk entry he) hhas
    obtain ⟨txin,ht⟩ := exists_mem_of_ne_nil _ (h.vin_ne_nil tx htx)
    have ho : txin.prevout ∈ tx.prevouts := mem_map.mpr ⟨txin,ht,rfl⟩
    rcases hpo.inputs entry he txin.prevout (hp ▸ ho) with
      hco | ⟨parent,hpa,_,hc⟩
    · obtain ⟨⟨t,_,hc⟩,hu⟩ := (h.isSome_iff _).mp hco
      rcases tx.takes_or_isNull ho with ha | hn
      · exact hu tx htx ha
      · exact Bool.false_ne_true (hc.not_isNull.symm.trans hn)
    · rcases tx.takes_or_isNull ho with ha | hn
      · have hl := h.rank_lt htx ha
        rw [hc.hash] at hl
        refine ih _ ?_ parent.hash rfl (mem_hashes.mpr ⟨parent,hpa,rfl⟩) ?_
        · rwa [← hr,← hhas]
        · have hm := h.hash_mem htx ha
          rwa [hc.hash] at hm
      · exact Bool.false_ne_true (hc.not_isNull.symm.trans hn)

theorem between_of_consistent : Between all old old [] pool := by
  have hf := fresh_of_consistent h hde hold hk hpo
  refine ⟨sound_nil.mpr ⟨hpo.toIndexed,hpo.dependencies⟩,hk,hf,hf,?_,?_⟩
  · intro entry he o ho tx htx ht
    rcases hpo.inputs entry he o ho with hc | ⟨parent,hp,_,hr⟩
    · exact ((h.isSome_iff o).mp hc).2 tx htx ht
    · refine hf parent.hash (mem_hashes.mpr ⟨parent,hp,rfl⟩) ?_
      have hm := h.hash_mem htx ht
      rwa [hr.hash] at hm
  · apply hpo.inputs.of_source
    intro entry he o ho hc
    rw [append_nil]
    exact ((h.isSome_iff o).mp hc).1

end

section
variable (h : Between all old chain q pool)
include h

theorem Between.shrinks (ho : pool'.Sound []) (hs : pool.Shrinks pool') :
    Between all old chain q pool' where
  sound := ho
  known entry he := h.known entry (hs.entries entry he)
  fresh txid ht := h.fresh txid (hs.hashes ht)
  apart txid ht := h.apart txid (hs.hashes ht)
  unspent entry he := h.unspent entry (hs.entries entry he)
  supplied := h.supplied.shrinks hs

/-- Moving transactions from the chain to the queue. -/
theorem Between.requeue (hc : chain' ⊆ chain) (hm : chain++q ⊆ chain'++q') :
    Between all old chain' q' pool where
  sound := h.sound
  known := h.known
  fresh := h.fresh
  apart txid htxid he := h.apart txid htxid (map_subset _ hc he)
  unspent entry hentry o ho tx htx := h.unspent entry hentry o ho tx (hc htx)
  supplied := h.supplied.of_source fun _ _ _ _ ⟨tx,htx,hr⟩ => ⟨tx,hm htx,hr⟩

/-- Dropping transactions that no entry spends from the queue. -/
theorem Between.drop (hd : ∀ tx ∈ q, tx ∈ q' ∨ (∃ t ∈ chain, ∀ o, tx.Creates o → t.Creates o) ∨
      ∀ entry ∈ pool.mapTx, ∀ o ∈ entry.tx.prevouts, o.hash ≠ tx.hash) :
    Between all old chain q' pool where
  sound := h.sound
  known := h.known
  fresh := h.fresh
  apart := h.apart
  unspent := h.unspent
  supplied := by
    apply h.supplied.of_source
    rintro entry he o ho ⟨tx,htx,hc⟩
    rcases mem_append.mp htx with htx | htx
    · exact ⟨tx,mem_append_left _ htx,hc⟩
    · rcases hd tx htx with htx | ⟨t,ht,hs⟩ | hn
      · exact ⟨tx,mem_append_right _ htx,hc⟩
      · exact ⟨t,mem_append_left _ ht,hs o hc⟩
      · exact absurd hc.hash (hn entry he o ho)

end

theorem Between.removeEvicted_spec {evicted : List CTransaction}
    (h : Between all old chain (evicted++q) pool) (he : evicted ⊆ old) :
    ∃ pool', removeEvicted evicted pool = .ok pool' ∧ Between all old chain q pool' := by
  induction evicted generalizing pool with
  | nil => exact ⟨pool,rfl,h⟩
  | cons tx evicted ih =>
    have htx : tx.hash ∉ pool.hashes := fun hm =>
      h.fresh _ hm (mem_map.mpr ⟨tx,he mem_cons_self,rfl⟩)
    obtain ⟨pool1,hr,hs,hh,hn⟩ := removeRecursive_spec h.sound (fun _ _ _ => nofun) htx fun _ _ =>
      nofun
    have h1 : Between all old chain (evicted++q) pool1 := by
      apply (h.shrinks hs hh).drop
      intro t ht
      rcases mem_cons.mp ht with rfl | ht
      · exact .inr (.inr hn)
      · exact .inl ht
    obtain ⟨pool',hv,h'⟩ := ih h1 fun t ht => he (mem_cons_of_mem _ ht)
    refine ⟨pool',?_,h'⟩
    rw [removeEvicted,hr,ok_bind,hv]

/-- After the loop no entry has one of the inputs. -/
theorem conflictsLoop_spec (h : pool.Sound []) {txid : Txid} (ht : txid ∉ pool.hashes)
    (vin : List CTxIn) : ∃ pool', removeConflictsLoop txid vin pool = .ok pool' ∧ pool'.Sound [] ∧
      pool.Shrinks pool' ∧ ∀ entry ∈ pool'.mapTx, ∀ txin ∈ vin,
        txin.prevout ∉ entry.tx.prevouts := by
  induction vin generalizing pool with
  | nil => exact ⟨pool,rfl,h,.refl pool,fun _ _ _ => nofun⟩
  | cons txin vin ih =>
    -- the step leaves no entry with the input, and the rest of the loop adds none
    obtain ⟨pool1,hst,h1,hs,hno⟩ : ∃ pool1,
        removeConflictsLoop txid (txin::vin) pool = removeConflictsLoop txid vin pool1 ∧
        pool1.Sound [] ∧ pool.Shrinks pool1 ∧
        ∀ entry ∈ pool1.mapTx, txin.prevout ∉ entry.tx.prevouts := by
      cases hl : pool.mapNextTx.lookup txin.prevout with
      | none =>
        refine ⟨pool,by rw [removeConflictsLoop,hl],h,.refl pool,?_⟩
        intro entry hen ho
        exact notMem_of_lookup hl ((h.nextTx _ _).mpr ⟨entry,hen,rfl,ho⟩)
      | some c =>
        obtain ⟨entry,hen,rfl,ho⟩ := (h.nextTx _ _).mp (mem_of_lookup hl)
        have hm : entry.hash ∈ pool.hashes := mem_hashes.mpr ⟨entry,hen,rfl⟩
        obtain ⟨pool1,hr,h1,hs,hnot⟩ := h.remove_union_shrinks [entry.hash]
        refine ⟨pool1,?_,h1,hs,fun e he ho' => hnot e he ?_⟩
        · rw [removeConflictsLoop,hl]
          dsimp only
          rw [if_neg fun hq : entry.hash = txid => ht (hq ▸ hm),removeEntry,
            DependencyGraph.descendants_eq_union,hr,ok_bind]
        · rw [h.single e (hs.entries e he) entry hen _ ho' ho]
          have hn := (h.nodes _).mpr hm
          exact DependencyGraph.mem_descUnion.mpr ⟨hn,_,mem_singleton_self _,hn,.inl rfl⟩
    obtain ⟨pool',hlo,h',hs',hre⟩ := ih h1 fun hm => ht (hs.hashes hm)
    refine ⟨pool',by rw [hst,hlo],h',hs.trans hs',?_⟩
    intro entry hen i hi
    rcases mem_cons.mp hi with rfl | hi
    · exact hno entry (hs'.entries entry hen)
    · exact hre entry hen i hi

theorem Between.not_isNull (h : Between all old chain q pool) {entry : CTxMemPoolEntry}
    (he : entry ∈ pool.mapTx) {o : COutPoint} (ho : o ∈ entry.tx.prevouts) : o.isNull = false := by
  rcases h.supplied entry he o ho with ⟨_,_,hc⟩ | ⟨_,_,_,hc⟩
  · exact hc.not_isNull
  · exact hc.not_isNull

section
variable {tx : CTransaction} (h : Between all old chain q pool) (hde : TxidsDetermine all)
  (htx : tx ∈ all) (hcre : ∀ o, tx.Takes o → ∃ t ∈ chain, t.Creates o)
include h hde htx hcre

/-- An entry that is in the next transaction of the chain has no parent among the entries. -/
theorem Between.source_of_connected (parent : Txid) : ¬pool.Spends parent tx.hash := by
  rintro ⟨hp,entry,he,hhas,o,ho,rfl⟩
  have ho' : o ∈ tx.prevouts := by
    rwa [← hde.prevouts (h.known entry he) htx hhas]
  rcases tx.takes_or_isNull ho' with ha | hn
  · obtain ⟨t,ht,hc⟩ := hcre o ha
    refine h.apart _ hp (mem_map.mpr ⟨t,ht,?_⟩)
    rw [hc.hash]
  · exact Bool.false_ne_true ((h.not_isNull he ho).symm.trans hn)

/-- The entry of a confirmed transaction goes, and what it created is in the chain. -/
theorem Between.remove_connected :
    ∃ pool', applyIf (pool.contains tx.hash) (fun pool => pool.removeUnchecked tx.hash) pool =
      .ok pool' ∧
      pool'.Sound [] ∧ tx.hash ∉ pool'.hashes ∧ (∀ entry ∈ pool'.mapTx, entry ∈ pool.mapTx) ∧
      pool'.Supplied CTransaction.Creates fun o => ∃ t ∈ (chain++[tx])++q, t.Creates o := by
  have hs : ∀ o, (∃ t ∈ chain++q, t.Creates o) → ∃ t ∈ (chain++[tx])++q, t.Creates o := by
    rintro o ⟨t,ht,hc⟩
    refine ⟨t,?_,hc⟩
    rw [append_assoc]
    rcases mem_append.mp ht with ht | ht
    · exact mem_append_left _ ht
    · exact mem_append_right _ (mem_append_right _ ht)
  by_cases hm : tx.hash ∈ pool.hashes
  · obtain ⟨pool',hr,h',hw⟩ := h.sound.remove_source hm (h.source_of_connected hde htx hcre)
    refine ⟨pool',?_,h',?_,fun entry he => ((hw.entries entry).mp he).1,?_⟩
    · rw [CTxMemPool.contains_iff.mpr hm,applyIf_true,hr]
    · exact fun hm' => (hw.hashes_iff.mp hm').2 (mem_singleton_self _)
    · intro entry he o ho
      rcases h.supplied entry ((hw.entries entry).mp he).1 o ho with
        hh | ⟨parent,hp,hn,hc⟩
      · exact .inl (hs o hh)
      · by_cases hhas : parent.hash = tx.hash
        · refine .inl ⟨tx,by simp,hde.creates (h.known parent hp) htx hhas hc⟩
        · refine .inr ⟨parent,(hw.entries parent).mpr ⟨hp,?_⟩,hn,hc⟩
          rwa [mem_singleton]
  · refine ⟨pool,?_,h.sound,hm,fun _ => id,?_⟩
    · rw [contains_eq_false hm,applyIf_false]
    · exact h.supplied.of_source fun _ _ o _ => hs o

theorem Between.connect_tx :
    ∃ pool', pool.removeConfirmed tx = .ok pool' ∧ Between all old (chain++[tx]) q pool' := by
  obtain ⟨pool1,hr,h1,hno,hs,hu⟩ := h.remove_connected hde htx hcre
  obtain ⟨pool',hc,h',hsh,hn⟩ := conflictsLoop_spec h1 hno tx.vin
  have hen (entry : CTxMemPoolEntry) (he : entry ∈ pool'.mapTx) : entry ∈ pool.mapTx :=
    hs entry (hsh.entries entry he)
  have hh (txid : Txid) (hx : txid ∈ pool'.hashes) : txid ∈ pool.hashes := by
    obtain ⟨entry,he,rfl⟩ := mem_hashes.mp hx
    exact mem_hashes.mpr ⟨entry,hen entry he,rfl⟩
  refine ⟨pool',?_,h',fun entry he => h.known entry (hen entry he),
    fun txid hx => h.fresh txid (hh txid hx),?_,?_,hu.shrinks hsh⟩
  · rw [removeConfirmed,hr]
    exact hc
  · intro txid hx hm
    rw [map_append,mem_append] at hm
    rcases hm with hm | hm
    · exact h.apart txid (hh txid hx) hm
    · rw [map_singleton,mem_singleton] at hm
      exact hno (hm ▸ hsh.hashes hx)
  · intro entry he o ho t ht ha
    rcases mem_append.mp ht with ht | ht
    · exact h.unspent entry (hen entry he) o ho t ht ha
    · rw [mem_singleton.mp ht] at ha
      obtain ⟨txin,htxi,rfl⟩ := mem_map.mp ha.mem_prevouts
      exact hn entry he txin htxi ho

end

variable {vtx : List CTransaction}

theorem Between.connect_txs (h : Between all old chain q pool) (hde : TxidsDetermine all)
    (hv : vtx ⊆ all)
    (hcre : ∀ l tx l', vtx = l++tx::l' → ∀ o, tx.Takes o → ∃ t ∈ chain++l, t.Creates o) :
    ∃ pool', CTxMemPool.removeForBlock vtx pool = .ok pool' ∧
      Between all old (chain++vtx) q pool' := by
  induction vtx generalizing chain pool with
  | nil =>
    rw [append_nil]
    exact ⟨pool,rfl,h⟩
  | cons tx vtx ih =>
    obtain ⟨pool1,hc,h1⟩ := h.connect_tx hde (hv mem_cons_self) fun o ho => by
      simpa using hcre [] tx vtx rfl o ho
    obtain ⟨pool',hb,h'⟩ := ih h1 (fun t ht => hv (mem_cons_of_mem _ ht)) fun l t l' hl o ho => by
        have hr := hcre (tx::l) t l' (by rw [hl]; rfl) o ho
        rwa [append_assoc]
    refine ⟨pool',?_,?_⟩
    · rw [CTxMemPool.removeForBlock,hc,ok_bind,hb]
    · rwa [append_assoc] at h'

def Queued (dq : DisconnectedBlockTransactions) : Prop :=
  ∀ txid, txid ∈ dq.iters_by_txid ↔ txid ∈ dq.queuedTx.map hash

variable (u : MemoryUsage) {dq : DisconnectedBlockTransactions}

theorem enqueueLoop_spec (h : Queued dq) {rest : List CTransaction}
    (hnod : ((dq.queuedTx++rest).map hash).Nodup) : ∃ dq',
    DisconnectedBlockTransactions.enqueueLoop u rest dq = .ok dq' ∧ Queued dq' ∧
      dq'.queuedTx = dq.queuedTx++rest := by
  induction rest generalizing dq with
  | nil => exact ⟨dq,rfl,h,(append_nil _).symm⟩
  | cons tx rest ih =>
    have hn : tx.hash ∉ dq.iters_by_txid := by
      rw [h]
      rw [map_append,nodup_append] at hnod
      exact fun hm => hnod.2.2 _ hm _ mem_cons_self rfl
    let dq1 : DisconnectedBlockTransactions := { dq with
      queuedTx := dq.queuedTx++[tx]
      iters_by_txid := tx.hash::dq.iters_by_txid
      cachedInnerUsage := dq.cachedInnerUsage+u.recursiveDynamicUsage tx }
    have h1 : Queued dq1 := by
      intro txid
      rw [mem_cons,h,map_append,mem_append,map_singleton,mem_singleton,or_comm]
    rw [← singleton_append,← append_assoc] at hnod ⊢
    obtain ⟨dq',hl,h',hq⟩ := ih h1 hnod
    refine ⟨dq',?_,h',hq⟩
    rw [singleton_append,DisconnectedBlockTransactions.enqueueLoop,contains_eq_mem,
      decide_eq_false hn]
    exact hl

/-- A part of the queue from its front on is evicted. -/
theorem limitMemoryLoop_spec (c : ℕ) {i : List Txid} (hnod : (q.map hash).Nodup)
    (h : ∀ txid, txid ∈ i ↔ txid ∈ q.map hash) :
    Queued (dq.limitMemoryLoop u q c i).1 ∧ q = (dq.limitMemoryLoop u q c i).2 ++
        (dq.limitMemoryLoop u q c i).1.queuedTx := by
  induction q generalizing dq c i with
  | nil => exact ⟨h,rfl⟩
  | cons tx q ih =>
    rw [DisconnectedBlockTransactions.limitMemoryLoop]
    split_ifs with hl
    · exact ⟨h,rfl⟩
    · obtain ⟨hn,hnod⟩ := nodup_cons.mp hnod
      have ht (txid : Txid) : txid ∈ i.filter (· ≠ tx.hash) ↔ txid ∈ q.map hash := by
        rw [mem_filter,h,map_cons,mem_cons,decide_eq_true_eq]
        constructor
        · rintro ⟨he | hm,hne⟩
          · exact absurd he hne
          · exact hm
        · exact fun hm => ⟨.inr hm,fun he => hn (he ▸ hm)⟩
      refine ⟨(ih _ hnod ht).1,?_⟩
      rw [cons_append,← (ih _ hnod ht).2]

/-- The whole block is queued from its last transaction on, and the front of the queue evicted. -/
theorem fromBlock_spec (h : Queued dq) (hnod : ((dq.queuedTx++vtx.reverse).map hash).Nodup) :
    ∃ dq' evicted,
    dq.addTransactionsFromBlock u vtx = .ok (dq',evicted) ∧ Queued dq' ∧
      dq.queuedTx++vtx.reverse = evicted++dq'.queuedTx := by
  let dq0 : DisconnectedBlockTransactions := { dq with
    bucket_count := u.reserve dq.bucket_count (dq.iters_by_txid.length+vtx.length) }
  have h0 : Queued dq0 := h
  obtain ⟨dq1,ho,h1,hq⟩ := enqueueLoop_spec u h0 hnod
  rw [← hq] at hnod
  obtain ⟨h',hl⟩ := limitMemoryLoop_spec u dq1.cachedInnerUsage hnod h1
  refine ⟨_,_,?_,h',hq.symm.trans hl⟩
  rw [DisconnectedBlockTransactions.addTransactionsFromBlock,ho]
  rfl

theorem removeConfirmed_queue (h : Queued dq) (tx : CTransaction) :
    Queued (dq.removeConfirmed u tx) ∧
      (dq.removeConfirmed u tx).queuedTx = dq.queuedTx.filter fun t => t.hash != tx.hash := by
  unfold DisconnectedBlockTransactions.removeConfirmed
  split_ifs with hm
  · refine ⟨fun txid => ?_,rfl⟩
    rw [mem_filter,h,decide_eq_true_eq]
    simp only [mem_map,mem_filter,bne_iff_ne]
    constructor
    · rintro ⟨⟨t,ht,rfl⟩,hn⟩
      exact ⟨t,⟨ht,hn⟩,rfl⟩
    · rintro ⟨t,⟨ht,hn⟩,rfl⟩
      exact ⟨⟨t,ht,rfl⟩,hn⟩
  · refine ⟨h,(filter_eq_self.mpr fun t ht => bne_iff_ne.mpr fun he => hm ?_).symm⟩
    rw [contains_iff_mem,h,← he]
    exact mem_map.mpr ⟨t,ht,rfl⟩

theorem removeForBlock_queue (h : Queued dq) (vtx : List CTransaction) :
    Queued (dq.removeForBlock u vtx) ∧ (dq.removeForBlock u vtx).queuedTx =
      dq.queuedTx.filter fun t => decide (t.hash ∉ vtx.map hash) := by
  unfold DisconnectedBlockTransactions.removeForBlock
  split_ifs with hn
  · rw [hn]
    exact ⟨h,rfl⟩
  clear hn
  induction vtx generalizing dq with
  | nil => exact ⟨h,(filter_eq_self.mpr fun t _ => decide_eq_true not_mem_nil).symm⟩
  | cons tx vtx ih =>
    obtain ⟨h1,hq⟩ := removeConfirmed_queue u h tx
    obtain ⟨h',hq'⟩ := ih h1
    refine ⟨h',?_⟩
    rw [foldl_cons,hq',hq,filter_filter]
    apply filter_congr
    intro t _
    rw [Bool.eq_iff_iff,Bool.and_eq_true,decide_eq_true_eq,decide_eq_true_eq,bne_iff_ne,
      map_cons,mem_cons,not_or,and_comm]

/-- Both pools between two tips. What is left of the queue is part of the old chain, in its order.
-/
structure Switching (all old chain : List CTransaction)
    (pools : CTxMemPool × DisconnectedBlockTransactions) : Prop where
  between : Between all old chain pools.2.queuedTx pools.1
  queued : Queued pools.2
  ordered : pools.2.queuedTx.reverse.Sublist old

variable {p : CTxMemPool × DisconnectedBlockTransactions}

section
variable (hnod : (old.map hash).Nodup)
include hnod

theorem disconnectPools_spec (h : Switching all old (chain++vtx) p)
    (ho : (chain++vtx++p.2.queuedTx.reverse).Sublist old) : ∃ pools',
    disconnectTipPools u vtx p = .ok pools' ∧ Switching all old chain pools' ∧
      (chain++pools'.2.queuedTx.reverse).Sublist old := by
  have hr : (p.2.queuedTx++vtx.reverse).reverse = vtx++p.2.queuedTx.reverse := by
    rw [reverse_append,reverse_reverse]
  have hu : ((p.2.queuedTx++vtx.reverse).map hash).Nodup := by
    rw [← nodup_reverse,← map_reverse,hr]
    rw [append_assoc] at ho
    exact hnod.sublist (((sublist_append_right chain _).trans ho).map _)
  obtain ⟨dq,evicted,ha,hq,hs⟩ := fromBlock_spec u h.queued hu
  have hre : dq.queuedTx.reverse.Sublist (vtx++p.2.queuedTx.reverse) := by
    rw [← hr,hs,reverse_append]
    exact sublist_append_left _ _
  have ho' : (chain++dq.queuedTx.reverse).Sublist old := by
    rw [append_assoc] at ho
    exact (hre.append_left chain).trans ho
  have hm : Between all old chain (evicted++dq.queuedTx) p.1 := by
    rw [← hs]
    apply h.between.requeue
    · exact subset_append_left _ _
    · intro tx
      simp only [mem_append,mem_reverse]
      tauto
  have he : evicted ⊆ old := by
    intro tx htx
    have hme : tx ∈ vtx++p.2.queuedTx.reverse := by
      rw [← hr,hs,mem_reverse]
      exact mem_append_left _ htx
    rw [append_assoc] at ho
    exact ho.subset (mem_append_right _ hme)
  obtain ⟨pool',hv,hb⟩ := hm.removeEvicted_spec he
  refine ⟨(pool',dq),?_,⟨hb,hq,?_⟩,ho'⟩
  · rw [disconnectTipPools,ha,ok_bind]
    dsimp only
    rw [hv]
    rfl
  · exact (sublist_append_right chain _).trans ho'

theorem disconnectTips_spec {blocks : List (List CTransaction)}
    (h : Switching all old (chain++blocks.reverse.flatten) p)
    (ho : (chain++blocks.reverse.flatten++p.2.queuedTx.reverse).Sublist old) : ∃ pools',
    runPools (disconnectTipPools u) blocks p = .ok pools' ∧ Switching all old chain pools' := by
  induction blocks generalizing p with
  | nil =>
    rw [reverse_nil,flatten_nil,append_nil] at h
    exact ⟨p,rfl,h⟩
  | cons vtx blocks ih =>
    rw [reverse_cons,flatten_append,flatten_singleton,← append_assoc] at h ho
    obtain ⟨pools1,hs,h1,ho1⟩ := disconnectPools_spec u hnod h ho
    obtain ⟨pools',hr,h'⟩ := ih h1 ho1
    refine ⟨pools',?_,h'⟩
    rw [runPools,hs,ok_bind,hr]

end

variable (hde : TxidsDetermine all) (hold : old ⊆ all) (h : Switching all old chain p)
include hde hold h

theorem connectTipPools_spec (hv : vtx ⊆ all)
    (hcre : ∀ l tx l', vtx = l++tx::l' → ∀ o, tx.Takes o → ∃ t ∈ chain++l, t.Creates o) :
    ∃ pools', connectTipPools u vtx p = .ok pools' ∧ Switching all old (chain++vtx) pools' := by
  obtain ⟨pool',hb,he⟩ := h.between.connect_txs hde hv hcre
  obtain ⟨hu,hq⟩ := removeForBlock_queue u h.queued vtx
  have ho : (p.2.removeForBlock u vtx).queuedTx.reverse.Sublist old := by
    rw [hq,← filter_reverse]
    exact filter_sublist.trans h.ordered
  refine ⟨(pool',p.2.removeForBlock u vtx),?_,⟨?_,hu,ho⟩⟩
  · rw [connectTipPools,hb]
    rfl
  · apply he.drop
    intro tx htx
    by_cases hm : tx.hash ∈ vtx.map hash
    · -- the block has the transaction, up to its witness
      right
      left
      obtain ⟨t,ht,hhas⟩ := mem_map.mp hm
      have ha : tx ∈ all := hold (h.ordered.subset (mem_reverse.mpr htx))
      exact ⟨t,mem_append_right _ ht,fun o => hde.creates ha (hv ht) hhas.symm⟩
    · left
      rw [hq]
      exact mem_filter.mpr ⟨htx,decide_eq_true hm⟩

theorem connectTips_spec {blocks : List (List CTransaction)} (hb : blocks.flatten ⊆ all)
    (hcre : ∀ l tx l', blocks.flatten = l++tx::l' → ∀ o, tx.Takes o → ∃ t ∈ chain++l, t.Creates o) :
    ∃ pools',
    runPools (connectTipPools u) blocks p = .ok pools' ∧
      Switching all old (chain++blocks.flatten) pools' := by
  induction blocks generalizing chain p with
  | nil =>
    rw [flatten_nil,append_nil]
    exact ⟨p,rfl,h⟩
  | cons vtx blocks ih =>
    rw [flatten_cons] at hb hcre ⊢
    obtain ⟨pools1,hs,h1⟩ := connectTipPools_spec u hde hold h
      (fun tx htx => hb (mem_append_left _ htx)) fun l tx l' hl => by
        apply hcre l tx (l'++blocks.flatten)
        rw [hl,append_assoc,cons_append]
    obtain ⟨pools',hr,h'⟩ := ih h1 (fun tx htx => hb (mem_append_right _ htx)) fun l tx l' hl => by
        rw [append_assoc]
        apply hcre (vtx++l) tx l'
        rw [hl,append_assoc]
    refine ⟨pools',?_,?_⟩
    · rw [runPools,hs,ok_bind,hr]
    · rwa [append_assoc] at h'

end DripCore
