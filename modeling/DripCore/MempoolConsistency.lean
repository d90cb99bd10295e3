import DripCore.AppliedTransactions
import DripCore.MempoolReorg

/-!
# Consistent memory pools

A pool is consistent with coins when each input is a coin or an output of another entry, no outpoint
is spent twice, and the graph has the dependencies that the inputs make. Removing entries with all
that depend on them keeps this. During a reorganization the graph misses the dependencies of entries
from before on entries that came back.
-/
namespace DripCore
open DependencyGraph ExceptRules List

namespace CTxMemPool

def hashes (pool : CTxMemPool) : List Txid := pool.mapTx.map CTxMemPoolEntry.hash

/-- An entry has an input from a transaction that is an entry too. -/
def Spends (pool : CTxMemPool) (parent child : Txid) : Prop := parent ∈ pool.hashes ∧
    ∃ entry ∈ pool.mapTx, entry.hash = child ∧ ∃ o ∈ entry.tx.prevouts, o.hash = parent

/-- Identifiers are unique, `mapNextTx` has the inputs, each spent once, and the graph a node for
each. -/
structure Indexed (pool : CTxMemPool) : Prop where
  nodup : pool.hashes.Nodup
  nextTx : ∀ o txid, (o,txid) ∈ pool.mapNextTx ↔
    ∃ entry ∈ pool.mapTx, entry.hash = txid ∧ o ∈ entry.tx.prevouts
  single : ∀ entry ∈ pool.mapTx, ∀ entry' ∈ pool.mapTx, ∀ o ∈ entry.tx.prevouts,
    o ∈ entry'.tx.prevouts → entry = entry'
  nodes : ∀ txid, txid ∈ pool.m_txgraph.nodes ↔ txid ∈ pool.hashes
  nodup_nodes : pool.m_txgraph.nodes.Nodup

/-- Inputs come from a source or from another entry. -/
def Supplied (output : CTransaction → COutPoint → Prop) (source : COutPoint → Prop)
    (pool : CTxMemPool) : Prop :=
  ∀ entry ∈ pool.mapTx, ∀ o ∈ entry.tx.prevouts,
    source o ∨ ∃ parent ∈ pool.mapTx, parent.hash ≠ entry.hash ∧ output parent.tx o

/-- Consistency with a set of coins, for a notion of the outputs of an entry. -/
structure Consistent (output : CTransaction → COutPoint → Prop) (coins : COutPoint → Option Coin)
    (pool : CTxMemPool) : Prop extends Indexed pool where
  inputs : pool.Supplied output fun o => (coins o).isSome
  dependencies : pool.m_txgraph.Represents pool.Spends

variable {pool pool' pool'' : CTxMemPool} {txid : Txid}

theorem mem_hashes : txid ∈ pool.hashes ↔ ∃ entry ∈ pool.mapTx, entry.hash = txid := mem_map

theorem contains_iff : pool.contains txid = true ↔ txid ∈ pool.hashes := by
  simp [contains,find,mem_hashes]

theorem contains_eq_false (h : txid ∉ pool.hashes) : pool.contains txid = false := by
  rw [Bool.eq_false_iff,ne_eq,contains_iff]
  exact h

variable {entry : CTxMemPoolEntry} {o : COutPoint}

theorem mem_of_find (h : pool.find txid = some entry) : entry ∈ pool.mapTx ∧ entry.hash = txid := by
  have hh := find?_some h
  exact ⟨mem_of_find?_eq_some h,beq_iff_eq.mp hh⟩

theorem Indexed.eq_of_hash (h : pool.Indexed) {entry' : CTxMemPoolEntry}
    (he : entry ∈ pool.mapTx) (he' : entry' ∈ pool.mapTx) (hq : entry.hash = entry'.hash) :
    entry = entry' :=
  inj_on_of_nodup_map h.nodup he he' hq

theorem Indexed.of_graph (h : pool.Indexed) {g : DependencyGraph Txid}
    (hn : g.nodes = pool.m_txgraph.nodes) : Indexed { pool with m_txgraph := g } where
  nodup := h.nodup
  nextTx := h.nextTx
  single := h.single
  nodes txid := hn ▸ h.nodes txid
  nodup_nodes := hn ▸ h.nodup_nodes

theorem Spends.right_mem {x y : Txid} (h : pool.Spends x y) : y ∈ pool.hashes := by
  obtain ⟨_,entry,he,hh,_⟩ := h
  exact mem_hashes.mpr ⟨entry,he,hh⟩

theorem mem_children (h : pool.Indexed) {child : Txid} : child ∈ pool.children txid ↔
    ∃ entry ∈ pool.mapTx, entry.hash = child ∧ ∃ o ∈ entry.tx.prevouts, o.hash = txid := by
  simp only [children,mem_map,mem_filter,beq_iff_eq,Prod.exists,h.nextTx]
  constructor
  · rintro ⟨o,_,⟨⟨entry,he,rfl,ho⟩,hh⟩,rfl⟩
    exact ⟨entry,he,rfl,o,ho,hh⟩
  · rintro ⟨entry,he,rfl,o,ho,hh⟩
    exact ⟨o,entry.hash,⟨⟨entry,he,rfl,ho⟩,hh⟩,rfl⟩

theorem mem_of_lookup (h : pool.mapNextTx.lookup o = some txid) : (o,txid) ∈ pool.mapNextTx := by
  obtain ⟨l,l',hl,_⟩ := lookup_eq_some_iff.mp h
  rw [hl]
  exact mem_append_right _ mem_cons_self

theorem notMem_of_lookup (h : pool.mapNextTx.lookup o = none) : (o,txid) ∉ pool.mapNextTx := by
  intro hm
  have hn := lookup_eq_none_iff.mp h _ hm
  rw [bne_self_eq_false] at hn
  exact absurd hn Bool.false_ne_true

section

/-- A pool without some of its entries. -/
structure Without (pool : CTxMemPool) (stage : List Txid) (pool' : CTxMemPool) : Prop where
  entries : ∀ entry, entry ∈ pool'.mapTx ↔ entry ∈ pool.mapTx ∧ entry.hash ∉ stage
  graph : pool'.m_txgraph = pool.m_txgraph.removeAll stage

variable {s : List Txid}

theorem Without.hashes_iff (h : pool.Without s pool') : txid ∈ pool'.hashes ↔
    txid ∈ pool.hashes ∧ txid ∉ s := by
  simp only [CTxMemPool.mem_hashes,h.entries]
  constructor
  · rintro ⟨entry,⟨he,hs⟩,rfl⟩
    exact ⟨⟨entry,he,rfl⟩,hs⟩
  · rintro ⟨⟨entry,he,rfl⟩,hs⟩
    exact ⟨entry,⟨he,hs⟩,rfl⟩

theorem Without.spends (h : pool.Without s pool') {x y : Txid} : pool'.Spends x y ↔
    pool.Spends x y ∧ x ∉ s ∧ y ∉ s := by
  simp only [Spends,h.hashes_iff,h.entries]
  constructor
  · rintro ⟨⟨hx,hxs⟩,entry,⟨he,hs⟩,rfl,ho⟩
    exact ⟨⟨hx,entry,he,rfl,ho⟩,hxs,hs⟩
  · rintro ⟨⟨hx,entry,he,rfl,ho⟩,hxs,hs⟩
    exact ⟨⟨hx,hxs⟩,entry,⟨he,hs⟩,rfl,ho⟩

/-- Removing an entry also removes its inputs from `mapNextTx`, and nothing else. -/
theorem removeUnchecked_spec (h : pool.Indexed) (ht : txid ∈ pool.hashes) : ∃ pool',
    pool.removeUnchecked txid = .ok pool' ∧ pool'.Indexed ∧ pool.Without [txid] pool' := by
  cases hf : pool.find txid with
  | none =>
    have hc := contains_iff.mpr ht
    rw [contains,hf] at hc
    exact absurd hc Bool.false_ne_true
  | some entry =>
    obtain ⟨hent,rfl⟩ := mem_of_find hf
    have hen (e : CTxMemPoolEntry) : e ∈ (pool.mapTx.filter fun e => e.hash != entry.hash) ↔
        e ∈ pool.mapTx ∧ e.hash ∉ [entry.hash] := by
      rw [mem_filter,bne_iff_ne,mem_singleton]
    refine ⟨_,by rw [removeUnchecked,hf]; rfl,⟨?_,?_,?_,?_,?_⟩,hen,rfl⟩
    · exact h.nodup.sublist (filter_sublist.map _)
    · intro o t
      rw [mem_filter,h.nextTx]
      simp only [Bool.not_eq_true',contains_eq_mem,decide_eq_false_iff_not,hen]
      constructor
      · rintro ⟨⟨e,he,rfl,ho⟩,hn⟩
        refine ⟨e,⟨he,fun hq => hn ?_⟩,rfl,ho⟩
        rwa [← h.eq_of_hash he hent (mem_singleton.mp hq)]
      · rintro ⟨e,⟨he,hne⟩,rfl,ho⟩
        refine ⟨⟨e,he,rfl,ho⟩,fun ho' => hne ?_⟩
        rw [h.single e he entry hent o ho ho']
        exact mem_singleton_self _
    · intro e he e' he' o ho ho'
      exact h.single e ((hen e).mp he).1 e' ((hen e').mp he').1 o ho ho'
    · intro t
      rw [remove,mem_filter,decide_eq_true_eq,h.nodes]
      simp only [CTxMemPool.mem_hashes,hen]
      constructor
      · rintro ⟨⟨e,he,rfl⟩,hne⟩
        exact ⟨e,⟨he,fun hm => hne (mem_singleton.mp hm)⟩,rfl⟩
      · rintro ⟨e,⟨he,hne⟩,rfl⟩
        exact ⟨⟨e,he,rfl⟩,fun hq => hne (mem_singleton.mpr hq)⟩
    · exact h.nodup_nodes.filter _

theorem Without.nil (pool : CTxMemPool) : pool.Without [] pool where
  entries entry := by simp
  graph := rfl

theorem Without.cons (h : pool.Without [txid] pool') (h' : pool'.Without s pool'') :
    pool.Without (txid::s) pool'' where
  entries entry := by
    rw [h'.entries,h.entries,mem_singleton,mem_cons,not_or,and_assoc]
  graph := by
    rw [h'.graph,h.graph]
    rfl

theorem removeStaged_spec (h : pool.Indexed) (hn : s.Nodup) (hst : ∀ txid ∈ s, txid ∈ pool.hashes) :
    ∃ pool',
    removeStaged s pool = .ok pool' ∧ pool'.Indexed ∧ pool.Without s pool' := by
  induction s generalizing pool with
  | nil => exact ⟨pool,rfl,h,.nil pool⟩
  | cons txid s ih =>
    obtain ⟨ho,hn⟩ := nodup_cons.mp hn
    obtain ⟨pool1,hr,h1,hw1⟩ := removeUnchecked_spec h (hst txid mem_cons_self)
    have hst1 : ∀ t ∈ s, t ∈ pool1.hashes := by
      intro t ht
      refine hw1.hashes_iff.mpr ⟨hst t (mem_cons_of_mem _ ht),fun he => ho ?_⟩
      rwa [← mem_singleton.mp he]
    obtain ⟨pool',hs,h',hw⟩ := ih h1 hn hst1
    refine ⟨pool',?_,h',hw1.cons hw⟩
    rw [removeStaged,hr,ok_bind,hs]

end

section

/-- The dependencies that the graph has: those on what came back are missing for other entries. -/
def Linked (pool : CTxMemPool) (added : List Txid) (parent child : Txid) : Prop :=
  pool.Spends parent child ∧ (parent ∈ added → child ∈ added)

structure Sound (added : List Txid) (pool : CTxMemPool) : Prop extends Indexed pool where
  graph : pool.m_txgraph.Represents (pool.Linked added)

theorem linked_nil {parent child : Txid} : pool.Linked [] parent child ↔ pool.Spends parent child :=
  and_iff_left nofun

theorem sound_nil : Sound [] pool ↔ pool.Indexed ∧ pool.m_txgraph.Represents pool.Spends := by
  constructor
  · intro h
    exact ⟨h.toIndexed,h.graph.congr fun _ _ => linked_nil⟩
  · rintro ⟨h,hg⟩
    exact ⟨h,hg.congr fun _ _ => linked_nil.symm⟩

variable {a se : List Txid}

theorem Without.linked (h : pool.Without se pool') {x y : Txid} :
    pool'.Linked a x y ↔ pool.Linked a x y ∧ x ∉ se ∧ y ∉ se := by
  rw [Linked,h.spends]
  exact and_right_comm

theorem Sound.remove_closed (h : pool.Sound a) (hn : se.Nodup)
    (hs : ∀ txid ∈ se, txid ∈ pool.hashes)
    (hc : ∀ x y, x ∈ se → pool.Linked a x y → y ∈ se) : ∃ pool',
    removeStaged se pool = .ok pool' ∧ pool'.Sound a ∧ pool.Without se pool' := by
  obtain ⟨pool',hr,h',hw⟩ := removeStaged_spec h.toIndexed hn hs
  refine ⟨pool',hr,⟨h',?_⟩,hw⟩
  rw [hw.graph]
  exact (h.graph.removeAll hc).congr fun x y => hw.linked.symm

theorem Sound.remove_union (h : pool.Sound a) (t : List Txid) : ∃ pool',
    removeStaged (pool.m_txgraph.descendantsUnion t) pool = .ok pool' ∧ pool'.Sound a ∧
      pool.Without (pool.m_txgraph.descendantsUnion t) pool' := by
  apply h.remove_closed
  · exact nodup_union h.nodup_nodes t
  · intro txid ht
    exact (h.nodes txid).mp (mem_descUnion.mp ht).1
  · exact h.graph.union_closed t

/-- An entry without parents can be removed alone. -/
theorem Sound.remove_source (h : pool.Sound a) (ht : txid ∈ pool.hashes)
    (hs : ∀ parent, ¬pool.Spends parent txid) : ∃ pool',
    pool.removeUnchecked txid = .ok pool' ∧ pool'.Sound a ∧ pool.Without [txid] pool' := by
  obtain ⟨pool',hr,h',hw⟩ := removeUnchecked_spec h.toIndexed ht
  refine ⟨pool',hr,⟨h',?_⟩,hw⟩
  rw [hw.graph]
  refine (h.graph.remove_source fun parent hl => hs parent hl.1).congr fun x y => ?_
  rw [hw.linked,mem_singleton,mem_singleton]

end

/-- A pool that has lost entries, but no parent of an entry that is left. -/
structure Shrinks (pool pool' : CTxMemPool) : Prop where
  entries : ∀ entry ∈ pool'.mapTx, entry ∈ pool.mapTx
  parents : ∀ entry ∈ pool'.mapTx, ∀ o ∈ entry.tx.prevouts, ∀ parent ∈ pool.mapTx,
    o.hash = parent.hash → parent ∈ pool'.mapTx

theorem Shrinks.refl (pool : CTxMemPool) : pool.Shrinks pool where
  entries _ := id
  parents _ _ _ _ _ hparent _ := hparent

theorem Shrinks.trans (h : pool.Shrinks pool') (h' : pool'.Shrinks pool'') :
    pool.Shrinks pool'' where
  entries entry he := h.entries entry (h'.entries entry he)
  parents entry he o ho parent hp hh := h'.parents entry he o ho parent
      (h.parents entry (h'.entries entry he) o ho parent hp hh) hh

theorem Shrinks.hashes (h : pool.Shrinks pool') (ht : txid ∈ pool'.hashes) :
    txid ∈ pool.hashes := by
  obtain ⟨entry,he,rfl⟩ := mem_hashes.mp ht
  exact mem_hashes.mpr ⟨entry,h.entries entry he,rfl⟩

theorem Without.shrinks {stage : List Txid} (h : pool.Without stage pool')
    (hc : ∀ x y, x ∈ stage → pool.Spends x y → y ∈ stage) : pool.Shrinks pool' where
  entries entry he := ((h.entries entry).mp he).1
  parents entry he o ho parent hp hh := by
    obtain ⟨he,hn⟩ := (h.entries entry).mp he
    refine (h.entries parent).mpr ⟨hp,fun hm => hn (hc _ _ hm ?_)⟩
    exact ⟨mem_hashes.mpr ⟨parent,hp,rfl⟩,entry,he,rfl,o,ho,hh⟩

variable {so so' : COutPoint → Prop}

theorem Supplied.shrinks (h : pool.Supplied CTransaction.Creates so) (hs : pool.Shrinks pool') :
    pool'.Supplied CTransaction.Creates so := by
  intro entry he o ho
  rcases h entry (hs.entries entry he) o ho with hso | ⟨parent,hp,hn,hc⟩
  · exact .inl hso
  · exact .inr ⟨parent,hs.parents entry he o ho parent hp hc.hash,hn,hc⟩

theorem Supplied.of_source {ou : CTransaction → COutPoint → Prop} (h : pool.Supplied ou so)
    (hs : ∀ entry ∈ pool.mapTx, ∀ o ∈ entry.tx.prevouts, so o → so' o) :
    pool.Supplied ou so' := by
  intro entry he o ho
  rcases h entry he o ho with ho' | hp
  · exact .inl (hs entry he o ho ho')
  · exact .inr hp

variable {ad : List Txid}

/-- Removing the descendants of entries that did not come back still shrinks the pool, if what came
back depends only on what came back. -/
theorem Sound.remove_others_shrinks (h : pool.Sound ad)
    (hba : ∀ x y, pool.Spends x y → y ∈ ad → x ∈ ad) {t : List Txid}
    (htx : ∀ txid ∈ t, txid ∉ ad) : ∃ pool',
    removeStaged (pool.m_txgraph.descendantsUnion t) pool = .ok pool' ∧ pool'.Sound ad ∧
      pool.Shrinks pool' ∧
      ∀ entry ∈ pool'.mapTx, entry.hash ∉ pool.m_txgraph.descendantsUnion t := by
  obtain ⟨pool',hr,h',hw⟩ := h.remove_union t
  refine ⟨pool',hr,h',hw.shrinks fun x y hx hs => ?_,?_⟩
  · have ho : x ∉ ad := by
      obtain ⟨_,txid,ht,_,rfl | hre⟩ := mem_descUnion.mp hx
      · exact htx x ht
      · refine transGen_closed (S := (· ∉ ad)) ?_ (h.graph.reach.mp hre) (htx txid ht)
        exact fun a b ha hl hb => ha (hba a b hl.1 hb)
    exact h.graph.union_closed t x y hx ⟨hs,fun hm => absurd hm ho⟩
  · intro entry he
    exact ((hw.entries entry).mp he).2

theorem Sound.remove_union_shrinks (h : pool.Sound []) (t : List Txid) : ∃ pool',
    removeStaged (pool.m_txgraph.descendantsUnion t) pool = .ok pool' ∧ pool'.Sound [] ∧
      pool.Shrinks pool' ∧
      ∀ entry ∈ pool'.mapTx, entry.hash ∉ pool.m_txgraph.descendantsUnion t :=
  h.remove_others_shrinks (fun _ _ _ => nofun) fun _ _ => nofun

theorem removeRecursive_spec (h : pool.Sound ad)
    (hb : ∀ x y, pool.Spends x y → y ∈ ad → x ∈ ad) {tx : CTransaction}
    (ht : tx.hash ∉ pool.hashes) (hch : ∀ txid ∈ pool.children tx.hash, txid ∉ ad) :
    ∃ pool', pool.removeRecursive tx = .ok pool' ∧ pool'.Sound ad ∧ pool.Shrinks pool' ∧
      ∀ entry ∈ pool'.mapTx, ∀ o ∈ entry.tx.prevouts, o.hash ≠ tx.hash := by
  obtain ⟨pool',hr,h',hs,hno⟩ := h.remove_others_shrinks hb hch
  refine ⟨pool',?_,h',hs,fun entry he o ho hh => hno entry he ?_⟩
  · rw [removeRecursive,contains_eq_false ht]
    exact hr
  · have he := hs.entries entry he
    have hn := (h.nodes _).mpr (mem_hashes.mpr ⟨entry,he,rfl⟩)
    have hc := (mem_children h.toIndexed).mpr ⟨entry,he,rfl,o,ho,hh⟩
    exact mem_descUnion.mpr ⟨hn,_,hc,hn,.inl rfl⟩

end CTxMemPool
end DripCore
