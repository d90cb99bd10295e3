import DripCore.TrucPolicy

/-!
# Families of version-3 transactions

The limits on ancestors and descendants are equivalent to conditions on single edges, which are kept
when entries are removed, and follow for new entries from the local checks.
-/
namespace DripCore
open CTxMemPool DependencyGraph ExceptRules List Relation

def CTransaction.Names (tx : CTransaction) (txid : Txid) : Prop := ∃ o ∈ tx.prevouts, o.hash = txid

def CTransaction.IsTruc (tx : CTransaction) : Prop := tx.version = trucVersion

namespace CTxMemPool

structure WellFormed (pool : CTxMemPool) : Prop extends Sound [] pool where
  acyclic : ∀ txid, ¬TransGen pool.Spends txid txid

/-- An entry is new, and nothing spends it yet. -/
structure Unseen (pool : CTxMemPool) (entry : CTxMemPoolEntry) : Prop where
  new : entry.hash ∉ pool.hashes
  unnamed : ∀ other ∈ pool.mapTx, ¬other.tx.Names entry.hash
  self : ¬entry.tx.Names entry.hash

/-- What the policy wants of all entries, in terms of all their ancestors and descendants. -/
structure TrucClean (txSize : CTxMemPoolEntry → ℤ) (pool : CTxMemPool) : Prop where
  ancestor : ∀ entry ∈ pool.mapTx, entry.tx.IsTruc → ∀ a b,
    TransGen pool.Spends a entry.hash → TransGen pool.Spends b entry.hash → a = b
  descendant : ∀ entry ∈ pool.mapTx, entry.tx.IsTruc → ∀ a b,
    TransGen pool.Spends entry.hash a → TransGen pool.Spends entry.hash b → a = b
  family : ∀ entry ∈ pool.mapTx, entry.tx.IsTruc → ∀ other ∈ pool.mapTx,
    TransGen pool.Spends other.hash entry.hash ∨ TransGen pool.Spends entry.hash other.hash →
      other.tx.IsTruc
  size : ∀ entry ∈ pool.mapTx, entry.tx.IsTruc → txSize entry ≤ trucMaxVsize
  childSize : ∀ entry ∈ pool.mapTx, entry.tx.IsTruc → ∀ parent, pool.Spends parent entry.hash →
    txSize entry ≤ trucChildMaxVsize
  others : ∀ entry ∈ pool.mapTx, ¬entry.tx.IsTruc → ∀ parent ∈ pool.mapTx,
    pool.Spends parent.hash entry.hash → ¬parent.tx.IsTruc

/-- The same in terms of single edges. -/
structure TrucFamilies (txSize : CTxMemPoolEntry → ℤ) (pool : CTxMemPool) : Prop where
  inherit : ∀ parent ∈ pool.mapTx, ∀ child ∈ pool.mapTx, pool.Spends parent.hash child.hash →
    (parent.tx.IsTruc ↔ child.tx.IsTruc)
  parent : ∀ entry ∈ pool.mapTx, entry.tx.IsTruc → ∀ a b,
    pool.Spends a entry.hash → pool.Spends b entry.hash → a = b
  child : ∀ entry ∈ pool.mapTx, entry.tx.IsTruc → ∀ a b,
    pool.Spends entry.hash a → pool.Spends entry.hash b → a = b
  depth : ∀ entry ∈ pool.mapTx, entry.tx.IsTruc → ∀ a b,
    pool.Spends a entry.hash → ¬pool.Spends entry.hash b
  size : ∀ entry ∈ pool.mapTx, entry.tx.IsTruc → txSize entry ≤ trucMaxVsize
  childSize : ∀ entry ∈ pool.mapTx, entry.tx.IsTruc → ∀ parent, pool.Spends parent entry.hash →
    txSize entry ≤ trucChildMaxVsize

variable {pool pool' : CTxMemPool} {entry : CTxMemPoolEntry} {txSize : CTxMemPoolEntry → ℤ}
variable {x y : Txid}

theorem Spends.left_entry (h : pool.Spends x y) : ∃ entry ∈ pool.mapTx, entry.hash = x :=
    mem_hashes.mp h.1

theorem Spends.right_entry (h : pool.Spends x y) : ∃ entry ∈ pool.mapTx, entry.hash = y :=
    mem_hashes.mp h.right_mem

section

variable {x : Txid}

section
variable (h : pool.TrucFamilies txSize) (hent : entry ∈ pool.mapTx) (htr : entry.tx.IsTruc)
include h hent htr

theorem TrucFamilies.ancestor_spends (hp : TransGen pool.Spends x entry.hash) :
    pool.Spends x entry.hash := by
  cases hp with
  | single hs => exact hs
  | tail hp hs =>
    obtain ⟨parent,hpa,rfl⟩ := hs.left_entry
    have htr' := (h.inherit parent hpa entry hent hs).mpr htr
    obtain ⟨a,_,ha⟩ := TransGen.tail'_iff.mp hp
    exact absurd hs (h.depth parent hpa htr' a entry.hash ha)

theorem TrucFamilies.descendant_spends (hp : TransGen pool.Spends entry.hash x) :
    pool.Spends entry.hash x := by
  obtain ⟨child,hs,hr⟩ := TransGen.head'_iff.mp hp
  rcases reflTransGen_iff_eq_or_transGen.mp hr with rfl | hr
  · exact hs
  · obtain ⟨c,hc,rfl⟩ := hs.right_entry
    have htr' := (h.inherit entry hent c hc hs).mp htr
    obtain ⟨b,hb,_⟩ := TransGen.head'_iff.mp hr
    exact absurd hb (h.depth c hc htr' entry.hash b hs)

end

theorem TrucFamilies.clean (h : pool.TrucFamilies txSize) : pool.TrucClean txSize where
  ancestor entry hent htr a b ha hb := h.parent entry hent htr a b (h.ancestor_spends hent htr ha)
      (h.ancestor_spends hent htr hb)
  descendant entry hent htr a b ha hb :=
    h.child entry hent htr a b (h.descendant_spends hent htr ha)
      (h.descendant_spends hent htr hb)
  family entry hent htr other ho hp := by
    rcases hp with hp | hp
    · exact (h.inherit other ho entry hent (h.ancestor_spends hent htr hp)).mpr htr
    · exact (h.inherit entry hent other ho (h.descendant_spends hent htr hp)).mp htr
  size := h.size
  childSize := h.childSize
  others entry hent htr parent hpa hs :=
    fun htr' => htr ((h.inherit parent hpa entry hent hs).mp htr')

theorem TrucClean.families (h : pool.TrucClean txSize) (ho : pool.WellFormed) :
    pool.TrucFamilies txSize where
  inherit parent hp child hc hs := by
    constructor
    · exact fun htr => h.family parent hp htr child hc (.inr (.single hs))
    · exact fun htr => h.family child hc htr parent hp (.inl (.single hs))
  parent entry hent htr a b ha hb := h.ancestor entry hent htr a b (.single ha) (.single hb)
  child entry hent htr a b ha hb := h.descendant entry hent htr a b (.single ha) (.single hb)
  depth entry hent htr a b ha hb := by
    obtain ⟨child,hc,rfl⟩ := hb.right_entry
    have htr' := h.family entry hent htr child hc (.inr (.single hb))
    have he := h.ancestor child hc htr' a entry.hash (.tail (.single ha) hb) (.single hb)
    rw [he] at ha
    exact ho.acyclic entry.hash (.single ha)
  size := h.size
  childSize := h.childSize

theorem TrucFamilies.without (h : pool.TrucFamilies txSize) {s : List Txid}
    (hw : pool.Without s pool') : pool'.TrucFamilies txSize := by
  have hent {e : CTxMemPoolEntry} (he : e ∈ pool'.mapTx) : e ∈ pool.mapTx :=
    ((hw.entries e).mp he).1
  have hs {x y : Txid} (hx : pool'.Spends x y) : pool.Spends x y := (hw.spends.mp hx).1
  constructor
  · intro parent hp child hc hd
    exact h.inherit parent (hent hp) child (hent hc) (hs hd)
  · intro e he htr a b ha hb
    exact h.parent e (hent he) htr a b (hs ha) (hs hb)
  · intro e he htr a b ha hb
    exact h.child e (hent he) htr a b (hs ha) (hs hb)
  · intro e he htr a b ha hb
    exact h.depth e (hent he) htr a b (hs ha) (hs hb)
  · exact fun e he => h.size e (hent he)
  · exact fun e he htr parent hd => h.childSize e (hent he) htr parent (hs hd)

/-- What has to hold of a new entry in the pool that it is in. -/
structure JoinsFamily (txSize : CTxMemPoolEntry → ℤ) (pool : CTxMemPool) (entry : CTxMemPoolEntry) :
    Prop where
  inherit : ∀ parent ∈ pool.mapTx, pool.Spends parent.hash entry.hash →
    (parent.tx.IsTruc ↔ entry.tx.IsTruc)
  parent : entry.tx.IsTruc → ∀ a b, pool.Spends a entry.hash → pool.Spends b entry.hash → a = b
  only : entry.tx.IsTruc → ∀ a b, pool.Spends a entry.hash → pool.Spends a b → b = entry.hash
  depth : entry.tx.IsTruc → ∀ a b, pool.Spends b entry.hash → ¬pool.Spends a b
  size : entry.tx.IsTruc → txSize entry ≤ trucMaxVsize
  childSize : entry.tx.IsTruc → ∀ parent, pool.Spends parent entry.hash →
    txSize entry ≤ trucChildMaxVsize

/-- New entries that nothing else spends. -/
structure Extends (pool : CTxMemPool) (entries : List CTxMemPoolEntry) (pool' : CTxMemPool) :
    Prop where
  mem : ∀ entry, entry ∈ pool'.mapTx ↔ entry ∈ pool.mapTx ∨ entry ∈ entries
  unnamed : ∀ entry ∈ pool.mapTx, ∀ other ∈ entries, ¬entry.tx.Names other.hash

variable {en : List CTxMemPoolEntry}

theorem Extends.spends_old (h : pool.Extends en pool') (ho : pool'.Indexed) {y : Txid}
    (hs : pool'.Spends x y) (hy : y ∈ pool.hashes) : pool.Spends x y := by
  obtain ⟨old,hold,rfl⟩ := mem_hashes.mp hy
  obtain ⟨hx,child,hc,hh,hn⟩ := hs
  rw [ho.eq_of_hash hc ((h.mem old).mpr (.inl hold)) hh] at hn
  obtain ⟨parent,hp,rfl⟩ := mem_hashes.mp hx
  rcases (h.mem parent).mp hp with hp | hp
  · exact ⟨mem_hashes.mpr ⟨parent,hp,rfl⟩,old,hold,rfl,hn⟩
  · exact absurd hn (h.unnamed old hold parent hp)

theorem Unseen.extends (h : pool.Unseen entry) (hm : pool'.mapTx = entry::pool.mapTx) :
    pool.Extends [entry] pool' where
  mem e := by rw [hm,mem_cons,mem_singleton,or_comm]
  unnamed e he other hother := by
    rw [mem_singleton.mp hother]
    exact h.unnamed e he

theorem TrucFamilies.extend (h : pool.TrucFamilies txSize) (hx : pool.Extends en pool')
    (hp : pool'.Indexed) (hen : ∀ entry ∈ en, pool'.JoinsFamily txSize entry) :
    pool'.TrucFamilies txSize := by
  have hca {e : CTxMemPoolEntry} (he : e ∈ pool'.mapTx) : e ∈ pool.mapTx ∨
    pool'.JoinsFamily txSize e :=
    ((hx.mem e).mp he).imp_right (hen e)
  have hold {x : Txid} {e : CTxMemPoolEntry} (he : e ∈ pool.mapTx) (hs : pool'.Spends x e.hash) :
      pool.Spends x e.hash := hx.spends_old hp hs (mem_hashes.mpr ⟨e,he,rfl⟩)
  have hf {e : CTxMemPoolEntry} (he : e ∈ pool'.mapTx) (hm : e.hash ∈ pool.hashes) :
    e ∈ pool.mapTx := by
    obtain ⟨e',he',hq⟩ := mem_hashes.mp hm
    rwa [hp.eq_of_hash he ((hx.mem e').mpr (.inl he')) hq.symm]
  have hn : ∀ parent ∈ pool'.mapTx, ∀ child ∈ pool'.mapTx, pool'.Spends parent.hash child.hash →
      (parent.tx.IsTruc ↔ child.tx.IsTruc) := by
    intro parent hpa child hc hs
    rcases hca hc with hm | hj
    · have hs := hold hm hs
      exact h.inherit parent (hf hpa hs.1) child hm hs
    · exact hj.inherit parent hpa hs
  constructor
  · exact hn
  · intro e he htr a b ha hb
    rcases hca he with hm | hj
    · exact h.parent e hm htr a b (hold hm ha) (hold hm hb)
    · exact hj.parent htr a b ha hb
  · intro e he htr a b ha hb
    obtain ⟨ea,hea,rfl⟩ := ha.right_entry
    obtain ⟨eb,heb,rfl⟩ := hb.right_entry
    rcases hca hea with hm | hj
    · rcases hca heb with hm' | hj
      · have ha := hold hm ha
        exact h.child e (hf he ha.1) htr _ _ ha (hold hm' hb)
      · exact hj.only ((hn e he eb heb hb).mp htr) _ _ hb ha
    · exact (hj.only ((hn e he ea hea ha).mp htr) _ _ ha hb).symm
  · intro e he htr a b ha hb
    obtain ⟨eb,heb,rfl⟩ := hb.right_entry
    rcases hca heb with hm | hj
    · have hb := hold hm hb
      exact h.depth e (hf he hb.1) htr a _ (hx.spends_old hp ha hb.1) hb
    · exact hj.depth ((hn e he eb heb hb).mp htr) a _ hb ha
  · intro e he htr
    rcases hca he with hm | hj
    · exact h.size e hm htr
    · exact hj.size htr
  · intro e he htr parent hs
    rcases hca he with hm | hj
    · exact h.childSize e hm htr parent (hold hm hs)
    · exact hj.childSize htr parent hs

end

theorem enter_spends (hne : pool.Unseen entry) : (pool.enter entry).Spends x y ↔
    pool.Spends x y ∨ x ∈ (entry.tx.prevouts.map COutPoint.hash).filter pool.contains ∧
      y = entry.hash := by
  simp only [mem_filter,contains_iff,mem_map]
  constructor
  · rintro ⟨hx,e,he,rfl,hn⟩
    have hx' : x ∈ pool.hashes := by
      rcases enter_hashes.mp hx with rfl | hx
      · rcases mem_cons.mp he with rfl | he
        · exact absurd hn hne.self
        · exact absurd hn (hne.unnamed e he)
      · exact hx
    rcases mem_cons.mp he with rfl | he
    · exact .inr ⟨⟨hn,hx'⟩,rfl⟩
    · exact .inl ⟨hx',e,he,rfl,hn⟩
  · rintro (h | ⟨⟨hn,hx⟩,rfl⟩)
    · exact h.enter
    · exact ⟨enter_hashes.mpr (.inr hx),entry,mem_cons_self,rfl,hn⟩

theorem enter_acyclic (ho : pool.WellFormed) (he : pool.Unseen entry) (txid : Txid) :
    ¬TransGen (pool.enter entry).Spends txid txid := by
  have hl (b : Txid) : ¬(pool.enter entry).Spends entry.hash b := by
    rw [enter_spends he]
    rintro (h | ⟨h,_⟩)
    · exact he.new h.1
    · exact he.new (contains_iff.mp (mem_filter.mp h).2)
  intro hp
  have hn : txid ≠ entry.hash := by
    rintro rfl
    obtain ⟨b,hb,_⟩ := TransGen.head'_iff.mp hp
    exact hl b hb
  have hr := (outside_closed (S := (· = entry.hash)) fun a b ha hb => absurd (ha ▸ hb) (hl b)).mpr
    ⟨hp,hn⟩
  refine ho.acyclic txid (hr.lift id fun a b hab => ?_)
  exact ((enter_spends he).mp hab.1).resolve_right fun h => hab.2.2 h.2

theorem addNew_wellFormed (hp : pool.WellFormed) (he : pool.Unseen entry)
    (hu : ∀ o ∈ entry.tx.prevouts, pool.mapNextTx.lookup o = none) : ∃ pool',
    pool.addNewTransaction entry = .ok pool' ∧ pool'.WellFormed ∧
      pool'.mapTx = entry::pool.mapTx := by
  obtain ⟨hin,hg⟩ := sound_nil.mp hp.toSound
  have hin' := enter_indexed hin he.new hu
  have hs {x : Txid} (hx : x ∈ (entry.tx.prevouts.map COutPoint.hash).filter pool.contains) :
      (pool.enter entry).Spends x entry.hash := (enter_spends he).mpr (.inr ⟨hx,rfl⟩)
  obtain ⟨g,ha,hn,hg'⟩ := addParents_spec (pool.enter entry)
    (S := (pool.enter entry).Spends) (hg.addNode entry.hash) (fun x y hy => hy.enter)
    mem_cons_self (fun x hx => ⟨(hin'.nodes x).mpr (hs hx).1,hs hx⟩)
    fun x hx hpa => enter_acyclic hp he x (.head (hs hx) hpa)
  refine ⟨_,ha,⟨sound_nil.mpr ⟨hin'.of_graph hn,?_⟩,enter_acyclic hp he⟩,rfl⟩
  exact hg'.congr fun x y => (enter_spends he).symm

theorem eq_of_length_le_one {α : Type} {l : List α} (h : l.length ≤ 1) {a b : α} (ha : a ∈ l)
    (hb : b ∈ l) : a = b := by
  obtain ⟨c,rfl⟩ := length_eq_one_iff.mp (le_antisymm h (length_pos_of_mem ha))
  rw [mem_singleton.mp ha,mem_singleton.mp hb]

theorem WellFormed.no_parent (hp : pool.WellFormed) (hc : pool.getAncestorCount x ≤ 1)
    (a : Txid) : ¬pool.Spends a x := by
  intro hs
  have hg := (sound_nil.mp hp.toSound).2
  have hx := hg.right hs
  obtain rfl : a = x := eq_of_length_le_one hc
    (mem_ancestors.mpr ⟨hx,hg.left hs,.inr (hg.reach.mpr (.single hs))⟩)
    (mem_ancestors.mpr ⟨hx,hx,.inl rfl⟩)
  exact hp.acyclic a (.single hs)

theorem WellFormed.no_child (hp : pool.WellFormed) (hc : pool.getDescendantCount x ≤ 1)
    (a : Txid) : ¬pool.Spends x a := by
  intro hs
  have hg := (sound_nil.mp hp.toSound).2
  have hx := hg.left hs
  obtain rfl : a = x := eq_of_length_le_one hc
    (mem_descendants.mpr ⟨hx,hg.right hs,.inr (hg.reach.mpr (.single hs))⟩)
    (mem_descendants.mpr ⟨hx,hx,.inl rfl⟩)
  exact hp.acyclic a (.single hs)

theorem mem_getParents (hp : pool.Indexed) {tx : CTransaction} {parent : CTxMemPoolEntry} :
    parent ∈ pool.getParents tx ↔ parent ∈ pool.mapTx ∧ tx.Names parent.hash := by
  simp only [getParents,mem_filterMap,mem_txidSet,mem_map]
  constructor
  · rintro ⟨txid,hn,hfi⟩
    obtain ⟨hm,rfl⟩ := mem_of_find hfi
    exact ⟨hm,hn⟩
  · rintro ⟨hm,hn⟩
    refine ⟨parent.hash,hn,?_⟩
    obtain ⟨f,hf⟩ := Option.isSome_iff_exists.mp (contains_iff.mpr (mem_hashes.mpr ⟨parent,hm,rfl⟩))
    obtain ⟨hm',he⟩ := mem_of_find hf
    rw [hf,hp.eq_of_hash hm' hm he]

theorem mem_otherDescendants (hp : pool.WellFormed) (h : y ∈ otherDescendants pool x) :
    y ∈ pool.m_txgraph.nodes ∧ TransGen pool.Spends x y := by
  obtain ⟨hm,he⟩ := mem_filter.mp h
  obtain ⟨_,hn,hr⟩ := mem_descendants.mp (mem_txidSet.mp hm)
  refine ⟨hn,(sound_nil.mp hp.toSound).2.reach.mp (hr.resolve_left ?_)⟩
  exact of_decide_eq_true he

end CTxMemPool

end DripCore
