import DripCore.MempoolSwitching

/-!
# Transactions that come back to the memory pool

The queue holds transactions of the old chain in its order, so each comes back after what it spends.
An entry from before may depend on one that came back, and the graph misses this until
`UpdateTransactionsFromBlock`; the other way round is impossible. The position in the old chain
shows that no dependency closes a cycle.
-/
namespace DripCore
open CTransaction CTxMemPool ExceptRules List Relation

namespace CTxMemPool
variable {pool : CTxMemPool} {R S : Txid → Txid → Prop}

section

variable {ch pa : Txid}

theorem addDependency_spec (hg : pool.m_txgraph.Represents R)
    (hp : pa ∈ pool.m_txgraph.nodes) (hc : ch ∈ pool.m_txgraph.nodes)
    (hn : pa ≠ ch) (ha : ¬TransGen R ch pa) : ∃ g,
    pool.addDependency pa ch = .ok { pool with m_txgraph := g } ∧
      g.nodes = pool.m_txgraph.nodes ∧ g.Represents fun x y => R x y ∨ x = pa ∧ y = ch := by
  refine ⟨pool.m_txgraph.addDependency pa ch,?_,
    DependencyGraph.nodes_addDependency _ pa ch,hg.addDependency hp hc⟩
  rw [← hg.reach,Bool.not_eq_true] at ha
  rw [addDependency,if_neg hn,ha]
  rfl

/-- Dependencies of one entry on others, inside a relation in which it leads to none of them. -/
theorem addParents_spec (pool : CTxMemPool) (hg : pool.m_txgraph.Represents R)
    (hR : ∀ x y, R x y → S x y) (hc : ch ∈ pool.m_txgraph.nodes) {parents : List Txid}
    (hpa : ∀ pa ∈ parents, pa ∈ pool.m_txgraph.nodes ∧ S pa ch)
    (ha : ∀ pa ∈ parents, ¬TransGen S ch pa) : ∃ g,
    addParents ch parents pool = .ok { pool with m_txgraph := g } ∧ g.nodes = pool.m_txgraph.nodes ∧
      g.Represents fun x y => R x y ∨ x ∈ parents ∧ y = ch := by
  induction parents generalizing pool R with
  | nil =>
    refine ⟨pool.m_txgraph,rfl,rfl,hg.congr fun x y => ?_⟩
    simp only [not_mem_nil,false_and,or_false]
  | cons pa parents ih =>
    obtain ⟨ho,he⟩ := hpa pa mem_cons_self
    have ht := ha pa mem_cons_self
    have hne : pa ≠ ch := by
      rintro rfl
      exact ht (.single he)
    obtain ⟨g1,hd,hn1,hg1⟩ := addDependency_spec hg ho hc hne fun h => ht (h.lift id hR)
    have hR1 : ∀ x y, R x y ∨ x = pa ∧ y = ch → S x y := by
      rintro x y (h | ⟨rfl,rfl⟩)
      · exact hR x y h
      · exact he
    obtain ⟨g,hr,hn,hg'⟩ := ih { pool with m_txgraph := g1 } hg1 hR1
      (hn1 ▸ hc) (fun p hp => hn1 ▸ hpa p (mem_cons_of_mem _ hp))
      fun p hp => ha p (mem_cons_of_mem _ hp)
    refine ⟨g,?_,hn.trans hn1,hg'.congr fun x y => ?_⟩
    · rw [addParents,hd,ok_bind,hr]
    · rw [mem_cons,or_and_right,or_assoc]

theorem addChildren_spec (pool : CTxMemPool) (hin : pool.Indexed)
    (hg : pool.m_txgraph.Represents R) (hR : ∀ x y, R x y → S x y)
    (hpa : pa ∈ pool.hashes) {children : List Txid}
    (hh : ∀ ch ∈ children, ch ∈ pool.hashes ∧ S pa ch)
    (ha : ∀ ch ∈ children, ¬TransGen S ch pa) : ∃ g,
    addChildren pa children pool = .ok { pool with m_txgraph := g } ∧
      g.nodes = pool.m_txgraph.nodes ∧
      g.Represents fun x y => R x y ∨ x = pa ∧ y ∈ children := by
  induction children generalizing pool R with
  | nil =>
    refine ⟨pool.m_txgraph,rfl,rfl,hg.congr fun x y => ?_⟩
    simp only [not_mem_nil,and_false,or_false]
  | cons ch children ih =>
    obtain ⟨hm,he⟩ := hh ch mem_cons_self
    have hp := ha ch mem_cons_self
    have hne : pa ≠ ch := by
      rintro rfl
      exact hp (.single he)
    obtain ⟨g1,hd,hn1,hg1⟩ := addDependency_spec hg ((hin.nodes pa).mpr hpa)
      ((hin.nodes ch).mpr hm) hne
      fun h => hp (h.lift id hR)
    have hR1 : ∀ x y, R x y ∨ x = pa ∧ y = ch → S x y := by
      rintro x y (h | ⟨rfl,rfl⟩)
      · exact hR x y h
      · exact he
    obtain ⟨g,hr,hn,hg'⟩ := ih { pool with m_txgraph := g1 } (hin.of_graph hn1) hg1 hR1 hpa
      (fun c hc => hh c (mem_cons_of_mem _ hc))
      fun c hc => ha c (mem_cons_of_mem _ hc)
    refine ⟨g,?_,hn.trans hn1,hg'.congr fun x y => ?_⟩
    · rw [addChildren,contains_iff.mpr hm,hd]
      exact hr
    · rw [mem_cons,and_or_left,or_assoc]

/-- The loop adds what the graph misses of the dependencies on some entries. -/
theorem updateLoop_spec (pool : CTxMemPool) (hin : pool.Indexed) {t : List Txid}
    (hg : pool.m_txgraph.Represents R) (hR : ∀ x y, R x y → pool.Spends x y)
    (hm : ∀ x y, pool.Spends x y → x ∉ t → R x y)
    (ha : ∀ x ∈ t, ∀ y, pool.Spends x y → ¬TransGen pool.Spends y x) : ∃ g,
    updateLoop t pool = .ok { pool with m_txgraph := g } ∧
      g.nodes = pool.m_txgraph.nodes ∧ g.Represents pool.Spends := by
  induction t generalizing pool R with
  | nil =>
    refine ⟨pool.m_txgraph,rfl,rfl,hg.congr fun x y => ⟨hR x y,fun h => ?_⟩⟩
    exact hm x y h not_mem_nil
  | cons txid t ih =>
    have ha' : ∀ x ∈ t, ∀ y, pool.Spends x y → ¬TransGen pool.Spends y x :=
      fun x hx => ha x (mem_cons_of_mem _ hx)
    by_cases hme : txid ∈ pool.hashes
    · have hh (ch : Txid) : ch ∈ pool.children txid ↔ pool.Spends txid ch := by
        rw [mem_children hin]
        exact (and_iff_right hme).symm
      obtain ⟨g1,hd,hn1,hg1⟩ := addChildren_spec pool hin hg hR hme
        (fun ch hc => ⟨((hh ch).mp hc).right_mem,(hh ch).mp hc⟩)
        fun ch hc => ha txid mem_cons_self ch ((hh ch).mp hc)
      obtain ⟨g,hr,hn,hg'⟩ := ih { pool with m_txgraph := g1 } (hin.of_graph hn1) hg1 (by
          rintro x y (h | ⟨rfl,h⟩)
          · exact hR x y h
          · exact (hh y).mp h)
        (by
          intro x y h hx
          by_cases he : x = txid
          · subst he
            exact .inr ⟨rfl,(hh y).mpr h⟩
          · exact .inl (hm x y h (not_mem_cons_of_ne_of_not_mem he hx)))
        ha'
      refine ⟨g,?_,hn.trans hn1,hg'⟩
      rw [updateLoop,contains_iff.mpr hme,if_pos rfl,hd,ok_bind,hr]
    · obtain ⟨g,hr,hn,hg'⟩ := ih pool hin hg hR (fun x y h hx => hm x y h
          (not_mem_cons_of_ne_of_not_mem (fun he => hme (he ▸ h.1)) hx))
        ha'
      refine ⟨g,?_,hn,hg'⟩
      rw [updateLoop,contains_eq_false hme,if_neg Bool.false_ne_true,hr]

end

def enter (pool : CTxMemPool) (entry : CTxMemPoolEntry) : CTxMemPool where
  mapTx := entry::pool.mapTx
  mapNextTx := (entry.tx.prevouts.filter fun o => (pool.mapNextTx.lookup o).isNone).map
    (fun o => (o,entry.hash))++pool.mapNextTx
  m_txgraph := pool.m_txgraph.addNode entry.hash

variable {en : CTxMemPoolEntry}

theorem enter_hashes {txid : Txid} : txid ∈ (pool.enter en).hashes ↔
    txid = en.hash ∨ txid ∈ pool.hashes := mem_cons

theorem enter_indexed (h : pool.Indexed) (hne : en.hash ∉ pool.hashes)
    (hu : ∀ o ∈ en.tx.prevouts, pool.mapNextTx.lookup o = none) :
    (pool.enter en).Indexed := by
  have hf : ∀ e ∈ pool.mapTx, ∀ o ∈ en.tx.prevouts, o ∉ e.tx.prevouts := fun e he o ho ho' =>
    notMem_of_lookup (hu o ho) ((h.nextTx o e.hash).mpr ⟨e,he,rfl,ho'⟩)
  constructor
  · exact nodup_cons.mpr ⟨hne,h.nodup⟩
  · intro o txid
    simp only [enter,mem_append,mem_map,mem_filter,h.nextTx,exists_mem_cons_iff,
      Prod.mk.injEq,Option.isNone_iff_eq_none]
    constructor
    · rintro (⟨o',⟨ho',_⟩,rfl,rfl⟩ | hen)
      · exact .inl ⟨rfl,ho'⟩
      · exact .inr hen
    · rintro (⟨rfl,ho⟩ | hen)
      · exact .inl ⟨o,⟨ho,hu o ho⟩,rfl,rfl⟩
      · exact .inr hen
  · intro e he e' he' o ho ho'
    rcases mem_cons.mp he with rfl | hm
    · rcases mem_cons.mp he' with rfl | hm'
      · rfl
      · exact absurd ho' (hf e' hm' o ho)
    · rcases mem_cons.mp he' with rfl | hm'
      · exact absurd ho (hf e hm o ho')
      · exact h.single e hm e' hm' o ho ho'
  · intro txid
    rw [enter_hashes,← h.nodes]
    exact mem_cons
  · exact nodup_cons.mpr ⟨fun hn => hne ((h.nodes _).mp hn),h.nodup_nodes⟩

variable {x y : Txid}

theorem Spends.enter (h : pool.Spends x y) : (pool.enter en).Spends x y := by
  obtain ⟨hx,e,he,hr⟩ := h
  exact ⟨enter_hashes.mpr (.inr hx),e,mem_cons_of_mem _ he,hr⟩

theorem enter_spends_cases (h : (pool.enter en).Spends x y) :
    (y = en.hash ∧ ∃ o ∈ en.tx.prevouts, o.hash = x) ∨ x = en.hash ∧ y ∈ pool.hashes ∨
      pool.Spends x y := by
  obtain ⟨hx,e,he,rfl,ho⟩ := h
  rcases mem_cons.mp he with rfl | he
  · exact .inl ⟨rfl,ho⟩
  · rcases enter_hashes.mp hx with rfl | hx
    · exact .inr (.inl ⟨rfl,mem_hashes.mpr ⟨e,he,rfl⟩⟩)
    · exact .inr (.inr ⟨hx,e,he,rfl,ho⟩)

end CTxMemPool

variable {old rest : List CTransaction} {tx : CTransaction}

/-- Along a part of the chain the positions grow. -/
theorem rankOf_lt_of_sublist (hn : (old.map CTransaction.hash).Nodup)
    (h : (tx::rest).Sublist old) {t : CTransaction} (ht : t ∈ rest) :
    rankOf old tx.hash < rankOf old t.hash := by
  obtain ⟨l,l',rfl,hx,hr⟩ := cons_sublist_iff.mp h
  rw [map_append,nodup_append] at hn
  have hm : tx.hash ∈ l.map hash := mem_map.mpr ⟨tx,hx,rfl⟩
  have ho : t.hash ∉ l.map hash := fun hm =>
    hn.2.2 _ hm _ (mem_map.mpr ⟨t,hr.subset ht,rfl⟩) rfl
  rw [rankOf,rankOf,map_append,idxOf_append_of_mem hm,idxOf_append_of_notMem ho]
  exact (idxOf_lt_length_of_mem hm).trans_le (Nat.le_add_right _ _)

theorem CTransaction.takes_of_prevouts (hcb : tx.isCoinBase = false) {o : COutPoint}
    (ho : o ∈ tx.prevouts) : tx.Takes o := by
  obtain ⟨t,ht,rfl⟩ := mem_map.mp ho
  exact ⟨t,by rwa [spends_eq_vin hcb],rfl⟩

variable {m : ℕ} {v coins : COutPoint → Option Coin}
  {added : List Txid} {pool pool' : CTxMemPool} {x y : Txid}

/-- Entries are from before and not in the old chain, or they have come back from it. -/
structure Returned (old : List CTransaction) (added : List Txid) (pool : CTxMemPool) : Prop where
  split : ∀ entry ∈ pool.mapTx, entry.hash ∈ added ∨ entry.hash ∉ old.map CTransaction.hash
  back : ∀ entry ∈ pool.mapTx, entry.hash ∈ added → entry.tx ∈ old ∧ entry.tx.isCoinBase = false

section
variable (h : Returned old added pool) (hold : Applied m old v)
include h hold

/-- What came back depends on what came back, and was later in the chain. -/
theorem Returned.parent (hs : pool.Spends x y) (hy : y ∈ added) :
    x ∈ added ∧ rankOf old x < rankOf old y := by
  obtain ⟨hx,e,he,rfl,o,ho,rfl⟩ := hs
  obtain ⟨hm,hcb⟩ := h.back e he hy
  have ht := takes_of_prevouts hcb ho
  refine ⟨?_,hold.rank_lt hm ht⟩
  obtain ⟨parent,hp,hh⟩ := mem_hashes.mp hx
  rcases h.split parent hp with ha | hot
  · rwa [hh] at ha
  · rw [hh] at hot
    exact absurd (hold.hash_mem hm ht) hot

theorem Returned.ancestor (hp : TransGen pool.Spends x y) (hy : y ∈ added) :
    x ∈ added ∧ rankOf old x < rankOf old y := by
  induction hp with
  | single hs => exact h.parent hold hs hy
  | tail _ hs ih =>
    obtain ⟨hb,hl⟩ := h.parent hold hs hy
    obtain ⟨hx,hl'⟩ := ih hb
    exact ⟨hx,hl'.trans hl⟩

theorem Returned.acyclic (hx : x ∈ added) (hs : pool.Spends x y) : ¬TransGen pool.Spends y x := by
  intro hp
  obtain ⟨hy,hl⟩ := h.ancestor hold hp hx
  obtain ⟨_,hl'⟩ := h.parent hold hs hy
  exact lt_asymm hl hl'

end

/-- The pool while the rest of the queue is still to come. -/
structure Resurrecting (old : List CTransaction) (coins : COutPoint → Option Coin)
    (added : List Txid)
    (rest : List CTransaction) (pool : CTxMemPool) : Prop extends Returned old added pool where
  sound : pool.Sound added
  before : ∀ txid ∈ added, ∀ tx ∈ rest, rankOf old txid < rankOf old tx.hash
  ordered : rest.Sublist old
  supplied : pool.Supplied CTransaction.Creates fun o =>
    (coins o).isSome ∨ ∃ tx ∈ rest, tx.Creates o

theorem Resurrecting.new (h : Resurrecting old coins added rest pool) (ht : tx ∈ rest) :
    tx.hash ∉ pool.hashes := by
  intro hm
  obtain ⟨e,he,hh⟩ := mem_hashes.mp hm
  rcases h.split e he with ha | ho
  · rw [hh] at ha
    exact lt_irrefl _ (h.before _ ha tx ht)
  · rw [hh] at ho
    exact ho (mem_map.mpr ⟨tx,h.ordered.subset ht,rfl⟩)

/-- A transaction that is not accepted takes the entries along that spend it. -/
theorem Resurrecting.reject (h : Resurrecting old coins added (tx::rest) pool)
    (hold : Applied m old v) : ∃ pool', pool.removeRecursive tx = .ok pool' ∧
      Resurrecting old coins added rest pool' := by
  have hch : ∀ txid ∈ pool.children tx.hash, txid ∉ added := by
    intro txid hc ha
    obtain ⟨e,he,rfl,o,ho,hh⟩ := (mem_children h.sound.toIndexed).mp hc
    obtain ⟨hm,hcb⟩ := h.back e he ha
    have hl := hold.rank_lt hm (takes_of_prevouts hcb ho)
    rw [hh] at hl
    exact lt_asymm hl (h.before _ ha tx mem_cons_self)
  obtain ⟨pool',hr,hso,hs,hn⟩ := removeRecursive_spec h.sound
    (fun x y hp hy => (h.parent hold hp hy).1) (h.new mem_cons_self) hch
  refine ⟨pool',hr,⟨⟨?_,?_⟩,hso,?_,?_,?_⟩⟩
  · exact fun e he => h.split e (hs.entries e he)
  · exact fun e he => h.back e (hs.entries e he)
  · exact fun txid hx t ht => h.before txid hx t (mem_cons_of_mem _ ht)
  · exact (sublist_cons_self tx rest).trans h.ordered
  · apply (h.supplied.shrinks hs).of_source
    rintro e he o ho (hco | ⟨t,ht,hcr⟩)
    · exact .inl hco
    · rcases mem_cons.mp ht with rfl | ht
      · exact absurd hcr.hash (hn e he o ho)
      · exact .inr ⟨t,ht,hcr⟩

variable {ey : CTxMemPoolEntry}

theorem Returned.enter (h : Returned old added pool) (hold : ey.tx ∈ old)
    (hcb : ey.tx.isCoinBase = false) (hn : ey.hash ∉ pool.hashes) :
    Returned old (added++[ey.hash]) (pool.enter ey) := by
  constructor
  · intro e he
    rw [mem_append,mem_singleton]
    rcases mem_cons.mp he with rfl | he
    · exact .inl (.inr rfl)
    · rcases h.split e he with ha | ho
      · exact .inl (.inl ha)
      · exact .inr ho
  · intro e he hm
    rcases mem_cons.mp he with rfl | he
    · exact ⟨hold,hcb⟩
    · rw [mem_append,mem_singleton] at hm
      rcases hm with hm | hq
      · exact h.back e he hm
      · exact absurd (mem_hashes.mpr ⟨e,he,hq⟩) hn

section
variable (h : Resurrecting old coins added (ey.tx::rest) pool) (hold : Applied m old v)
  (hcb : ey.tx.isCoinBase = false)
include h hold hcb

/-- The dependencies that the new entry adds to the graph are the ones that were missing. -/
theorem Resurrecting.linked_enter : (pool.Linked added x y ∨
        x ∈ (ey.tx.prevouts.map COutPoint.hash).filter pool.contains ∧ y = ey.hash) ↔
      (pool.enter ey).Linked (added++[ey.hash]) x y := by
  have hne : ey.hash ∉ pool.hashes := h.new mem_cons_self
  have hr := h.toReturned.enter (h.ordered.subset mem_cons_self) hcb hne
  have hl : ey.hash ∈ added++[ey.hash] := mem_append_right _ (mem_singleton_self _)
  have ha {txid : Txid} (ht : txid ∈ pool.hashes) (hm : txid ∈ added++[ey.hash]) :
    txid ∈ added := by
    rcases mem_append.mp hm with hm | hm
    · exact hm
    · exact absurd (mem_singleton.mp hm ▸ ht) hne
  constructor
  · rintro (⟨hs,him⟩ | ⟨hx,rfl⟩)
    · exact ⟨hs.enter,fun hx => mem_append_left _ (him (ha hs.1 hx))⟩
    · rw [mem_filter,mem_map,contains_iff] at hx
      obtain ⟨⟨o,ho,rfl⟩,hm⟩ := hx
      refine ⟨⟨enter_hashes.mpr (.inr hm),ey,mem_cons_self,rfl,o,ho,rfl⟩,fun _ => hl⟩
  · rintro ⟨hs,him⟩
    rcases enter_spends_cases hs with ⟨rfl,o,ho,rfl⟩ | ⟨rfl,hy⟩ | hs'
    · -- no transaction of the chain spends itself
      have hn : o.hash ≠ ey.hash := by
        intro hq
        have hlt := (hr.parent hold hs hl).2
        rw [hq] at hlt
        exact lt_irrefl _ hlt
      have hm := (enter_hashes.mp hs.1).resolve_left hn
      refine .inr ⟨mem_filter.mpr ⟨mem_map.mpr ⟨o,ho,rfl⟩,contains_iff.mpr hm⟩,rfl⟩
    · -- what came back before does not spend the new entry
      have hm := him hl
      have hlt := (hr.parent hold hs hm).2
      exact absurd hlt (lt_asymm (h.before y (ha hy hm) ey.tx mem_cons_self))
    · refine .inl ⟨hs',fun hx => ?_⟩
      obtain ⟨_,e,he,rfl,_⟩ := hs'
      exact ha (mem_hashes.mpr ⟨e,he,rfl⟩) (him (mem_append_left _ hx))

theorem Resurrecting.addNew_spec (hu : ∀ o ∈ ey.tx.prevouts, pool.mapNextTx.lookup o = none) : ∃ g,
    pool.addNewTransaction ey = .ok { pool.enter ey with m_txgraph := g } ∧
      CTxMemPool.Sound (added++[ey.hash]) { pool.enter ey with m_txgraph := g } := by
  have he : ey.hash ∉ pool.hashes := h.new mem_cons_self
  have hr := h.toReturned.enter (h.ordered.subset mem_cons_self) hcb he
  have hin := enter_indexed h.sound.toIndexed he hu
  have hl {x : Txid} (hx : x ∈ (ey.tx.prevouts.map COutPoint.hash).filter pool.contains) :=
    ((h.linked_enter hold hcb).mp (.inr ⟨hx,rfl⟩) : (pool.enter ey).Linked _ x ey.hash)
  have hla : ey.hash ∈ added++[ey.hash] := mem_append_right _ (mem_singleton_self _)
  obtain ⟨g,ha,hn,hg⟩ := addParents_spec (pool.enter ey)
    (S := (pool.enter ey).Spends) (h.sound.graph.addNode ey.hash) (fun x y hy => hy.1.enter)
    mem_cons_self
    (fun x hx => ⟨(hin.nodes x).mpr (hl hx).1.1,(hl hx).1⟩)
    fun x hx hp => by
      obtain ⟨hm,ht⟩ := hr.parent hold (hl hx).1 hla
      exact lt_asymm ht (hr.ancestor hold hp hm).2
  refine ⟨g,ha,hin.of_graph hn,?_⟩
  exact hg.congr fun x y => h.linked_enter hold hcb

/-- The inputs of an accepted transaction are coins, or outputs of what came back before. -/
theorem Resurrecting.supplied_accepted (ha : ∀ o ∈ ey.tx.prevouts,
    (pool.getCoin coins o).isSome) {o : COutPoint}
    (ho : o ∈ ey.tx.prevouts) : ((coins o).isSome ∨ ∃ tx ∈ rest, tx.Creates o) ∨
      ∃ parent ∈ ey::pool.mapTx, parent.hash ≠ ey.hash ∧ parent.tx.Creates o := by
  have hc := ha o ho
  rw [getCoin] at hc
  cases hf : pool.find o.hash with
  | none =>
    rw [hf] at hc
    exact .inl (.inl hc)
  | some parent =>
    obtain ⟨hp,hh⟩ := mem_of_find hf
    have hm : ey.tx ∈ old := h.ordered.subset mem_cons_self
    have hta := takes_of_prevouts hcb ho
    have hn : parent.hash ≠ ey.hash := fun he =>
      h.new mem_cons_self (mem_hashes.mpr ⟨parent,hp,he⟩)
    have hb : parent.tx ∈ old := by
      rcases h.split parent hp with hd | hot
      · exact (h.back parent hp hd).1
      · rw [hh] at hot
        exact absurd (hold.hash_mem hm hta) hot
    -- the parent is the transaction of the chain that created the input
    obtain ⟨l,l',hs⟩ := append_of_mem hm
    obtain ⟨t,ht,hr⟩ := hold.created_before hs hta
    have hto : t ∈ old := hs ▸ mem_append_left _ ht
    have he : parent.tx = t := inj_on_of_nodup_map hold.recorded.nodup hb hto (hh.trans hr.hash)
    exact .inr ⟨parent,mem_cons_of_mem _ hp,hn,he ▸ hr⟩

theorem Resurrecting.accept (ha : ∀ o ∈ ey.tx.prevouts, (pool.getCoin coins o).isSome)
    (hu : ∀ o ∈ ey.tx.prevouts, pool.mapNextTx.lookup o = none) : ∃ pool',
    pool.addNewTransaction ey = .ok pool' ∧ pool'.contains ey.hash = true ∧
      Resurrecting old coins (added++[ey.hash]) rest pool' := by
  have hn : ey.hash ∉ pool.hashes := h.new mem_cons_self
  have hm : ey.tx ∈ old := h.ordered.subset mem_cons_self
  have hr := h.toReturned.enter hm hcb hn
  obtain ⟨g,hd,hs⟩ := h.addNew_spec hold hcb hu
  refine ⟨_,hd,contains_iff.mpr (enter_hashes.mpr (.inl rfl)),⟨⟨hr.split,hr.back⟩,hs,?_,?_,?_⟩⟩
  · intro txid hx tx htx
    rcases mem_append.mp hx with hx | hx
    · exact h.before txid hx tx (mem_cons_of_mem _ htx)
    · rw [mem_singleton.mp hx]
      exact rankOf_lt_of_sublist hold.recorded.nodup h.ordered htx
  · exact (sublist_cons_self ey.tx rest).trans h.ordered
  · intro e he o ho
    rcases mem_cons.mp he with rfl | he
    · exact h.supplied_accepted hold hcb ha ho
    · rcases h.supplied e he o ho with (hco | ⟨t,ht,hc⟩) | ⟨parent,hp,hre⟩
      · exact .inl (.inl hco)
      · rcases mem_cons.mp ht with rfl | ht
        · refine .inr ⟨ey,mem_cons_self,fun hq => hn ?_,hc⟩
          exact mem_hashes.mpr ⟨e,he,hq.symm⟩
        · exact .inl (.inr ⟨t,ht,hc⟩)
      · exact .inr ⟨parent,mem_cons_of_mem _ hp,hre⟩

end

theorem resurrectLoop_spec (p : AcceptPolicy coins) (fat : Bool)
    (hold : Applied m old v) (h : Resurrecting old coins added rest pool) : ∃ pool' added',
    resurrectLoop p fat rest pool added = .ok (pool',added') ∧
      Resurrecting old coins added' [] pool' := by
  induction rest generalizing pool added with
  | nil => exact ⟨pool,added,rfl,h⟩
  | cons tx rest ih =>
    rw [resurrectLoop]
    split
    · obtain ⟨pool1,hr,h1⟩ := h.reject hold
      obtain ⟨pool',added',hl,h'⟩ := ih h1
      refine ⟨pool',added',?_,h'⟩
      rw [hr,ok_bind,hl]
    · next details ha =>
        split_ifs at ha with hs
        rw [Bool.or_eq_true,not_or,Bool.not_eq_true,Bool.not_eq_true] at hs
        let ey : CTxMemPoolEntry :=
          ⟨tx,details.nTime,details.spendsCoinbase,details.lockPoints⟩
        have he : Resurrecting old coins added (ey.tx::rest) pool := h
        obtain ⟨pool1,hd,hc,h1⟩ := he.accept hold hs.2
          (p.available pool tx details ha) (p.unspent pool tx details ha)
        obtain ⟨pool',added',hl,h'⟩ := ih h1
        refine ⟨pool',added',?_,h'⟩
        rw [hd,ok_bind,show pool1.contains tx.hash = true from hc]
        exact hl

/-- After `UpdateTransactionsFromBlock` the graph misses nothing. -/
theorem Resurrecting.update (h : Resurrecting old coins added [] pool)
    (hold : Applied m old v) : ∃ pool', updateLoop added.reverse pool = .ok pool' ∧
      pool'.Sound [] ∧ pool'.Supplied CTransaction.Creates fun o => (coins o).isSome := by
  obtain ⟨g,hu,hn,hg⟩ := updateLoop_spec pool h.sound.toIndexed h.sound.graph (fun x y hl => hl.1)
    (fun x y hs hx => ⟨hs,fun hm => absurd (mem_reverse.mpr hm) hx⟩)
    fun x hx y hs => h.acyclic hold (mem_reverse.mp hx) hs
  have hsu : pool.Supplied CTransaction.Creates fun o => (coins o).isSome := by
    apply h.supplied.of_source
    rintro ey he o ho (hc | ⟨t,ht,_⟩)
    · exact hc
    · exact absurd ht not_mem_nil
  exact ⟨_,hu,sound_nil.mpr ⟨h.sound.toIndexed.of_graph hn,hg⟩,hsu⟩

end DripCore
