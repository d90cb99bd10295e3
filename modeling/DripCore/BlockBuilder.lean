import DripCore.FeeFrac
import DripCore.Mempool
import Mathlib.Data.List.TakeWhile

/-!
# Chunks for a block

The mempool delivers chunks of transactions one by one, and each is included or skipped. The
contract: a chunk is as large as its transactions, the chunks of a cluster come in a topological
order, and none comes after one of its cluster was skipped. `BlockBuilderImpl`, which walks the
chunk index, keeps it.
-/
namespace DripCore
open List

/-- An entry of the mempool with what a block assembler reads of it. -/
structure BlockEntry extends CTxMemPoolEntry where
  nFee : CAmount
  nTxWeight : ℕ
  sigOpCost : ℕ

namespace BlockEntry

def txid (e : BlockEntry) : Txid := e.tx.hash

def SpendsFrom (e p : BlockEntry) : Prop := ∃ txin ∈ e.tx.vin, txin.prevout.hash = p.txid

end BlockEntry

open BlockEntry

/-- A chunk with its fee and its size in weight. -/
structure BlockChunk where
  entries : List BlockEntry
  feerate : FeeFrac

/-- The chunks so far, and whether they were included. -/
abbrev ChunkHistory := List (BlockChunk × Bool)

namespace ChunkHistory

def delivered (h : ChunkHistory) : List BlockEntry := h.flatMap fun d => d.1.entries

def kept (d : BlockChunk × Bool) : List BlockEntry := if d.2 then d.1.entries else []

def included (h : ChunkHistory) : List BlockEntry := h.flatMap kept

theorem included_append (h : ChunkHistory) (c : BlockChunk) (b : Bool) :
    included (h++[(c,b)]) = included h++if b then c.entries else [] := by
  rw [included,flatMap_append,flatMap_singleton,included,kept]

theorem delivered_append (h : ChunkHistory) (c : BlockChunk) (b : Bool) :
    delivered (h++[(c,b)]) = delivered h++c.entries := by
  rw [delivered,flatMap_append,flatMap_singleton,delivered]

theorem included_sublist (h : ChunkHistory) : (included h).Sublist (delivered h) := by
  induction h with
  | nil => exact .refl _
  | cons d h ih =>
    rw [included,flatMap_cons,kept]
    refine List.Sublist.append ?_ ih
    split_ifs
    · exact .refl _
    · exact nil_sublist _

theorem length_le_delivered {h : ChunkHistory} (hn : ∀ d ∈ h, d.1.entries ≠ []) :
    h.length ≤ (delivered h).length := by
  induction h with
  | nil => exact Nat.zero_le _
  | cons d h ih =>
    have hd := length_pos_iff.mpr (hn d mem_cons_self)
    have hr := ih fun d' hd' => hn d' (mem_cons_of_mem d hd')
    rw [delivered] at hr
    rw [delivered,flatMap_cons,length_append,length_cons]
    omega

end ChunkHistory

open ChunkHistory

/-- A history in which every chunk is the one that was delivered. -/
inductive Delivered (next : ChunkHistory → Option BlockChunk) : ChunkHistory → Prop
  | nil : Delivered next []
  | snoc {h : ChunkHistory} {c : BlockChunk} (hh : Delivered next h) (hc : next h = some c)
    (b : Bool) :
      Delivered next (h++[(c,b)])

/-- What delivers the chunks of a mempool: the next chunk after those before. -/
structure BlockBuilder (pool : List BlockEntry) where
  next : ChunkHistory → Option BlockChunk
  cluster : Txid → ℕ
  /-- Chunks consist of transactions of the mempool, -/
  entries_mem : ∀ {h c}, Delivered next h → next h = some c → ∀ e ∈ c.entries, e ∈ pool
  /-- each delivered once, -/
  entries_nodup : ∀ {h c}, Delivered next h → next h = some c → (c.entries.map txid).Nodup
  entries_fresh : ∀ {h c}, Delivered next h → next h = some c →
    ∀ e ∈ c.entries, e.txid ∉ (delivered h).map txid
  /-- and are as large as these at least. -/
  size_le : ∀ {h c}, Delivered next h → next h = some c →
    ((c.entries.map nTxWeight).sum : ℤ) ≤ c.feerate.size
  /-- Parents are in the cluster of their children, and come before them, -/
  cluster_eq : ∀ e ∈ pool, ∀ p ∈ pool, e.SpendsFrom p → cluster p.txid = cluster e.txid
  topological : ∀ {h c}, Delivered next h → next h = some c → ∀ before e after,
    c.entries = before++e::after → ∀ p ∈ pool, e.SpendsFrom p → p ∈ before ∨ p ∈ delivered h
  /-- and no chunk of a cluster comes after one that was skipped. -/
  not_skipped : ∀ {h c}, Delivered next h → next h = some c → ∀ d, (d,false) ∈ h →
    ∀ e ∈ c.entries, ∀ e' ∈ d.entries, cluster e.txid ≠ cluster e'.txid

namespace BlockBuilder

variable {pool : List BlockEntry} (b : BlockBuilder pool) {h : ChunkHistory}

variable (hh : Delivered b.next h)
include hh

theorem delivered_nodup : ((delivered h).map txid).Nodup := by
  induction hh with
  | nil => exact nodup_nil
  | snoc hh hc flag ih =>
    rw [delivered_append,map_append]
    refine List.Nodup.append ih (b.entries_nodup hh hc) fun txid hold hn => ?_
    obtain ⟨e,he,rfl⟩ := mem_map.mp hn
    exact b.entries_fresh hh hc e he hold

theorem mem_of_delivered : ∀ e ∈ delivered h, e ∈ pool := by
  induction hh with
  | nil => exact fun e he => absurd he not_mem_nil
  | snoc hh hc flag ih =>
    intro e he
    rw [delivered_append,mem_append] at he
    rcases he with he | he
    · exact ih e he
    · exact b.entries_mem hh hc e he

theorem length_delivered_le : (delivered h).length ≤ pool.length := by
  have hn : (delivered h).Nodup := List.Nodup.of_map _ (b.delivered_nodup hh)
  exact (subperm_of_subset hn (b.mem_of_delivered hh)).length_le

theorem included_closed : ∀ before e after, included h = before++e::after → ∀ p ∈ pool,
    e.SpendsFrom p → p ∈ before := by
  induction hh with
  | nil =>
    intro before e after hq
    exact absurd hq.symm (append_ne_nil_of_right_ne_nil _ (cons_ne_nil _ _))
  | @snoc h c hh hc flag ih =>
    intro before e after hq p hp hs
    rw [included_append] at hq
    cases flag with
    | false =>
      rw [if_neg Bool.false_ne_true,append_nil] at hq
      exact ih before e after hq p hp hs
    | true =>
      have hn : ∀ mid, c.entries = mid++e::after → p ∈ included h ∨ p ∈ mid := by
        intro mid hen
        have he : e ∈ c.entries := by rw [hen]; simp
        rcases b.topological hh hc mid e after hen p hp hs with hm | hde
        · exact .inr hm
        · obtain ⟨d,hd,hpd⟩ := mem_flatMap.mp hde
          have hk : d.2 = true := by
            by_contra hskip
            have hd' : (d.1,false) ∈ h := by
              rw [← Bool.eq_false_iff.mpr hskip]
              exact hd
            exact b.not_skipped hh hc d.1 hd' e he p hpd
              (b.cluster_eq e (b.entries_mem hh hc e he) p hp hs).symm
          refine .inl (mem_flatMap.mpr ⟨d,hd,?_⟩)
          rw [kept,if_pos hk]
          exact hpd
      rcases append_eq_append_iff.mp hq with ⟨mid,hb,hen⟩ | ⟨mid,hold,hr⟩
      · rw [hb,mem_append]
        exact hn mid hen
      · cases mid with
        | nil =>
          rw [append_nil] at hold
          rcases hn [] hr.symm with hp' | hp'
          · rwa [hold] at hp'
          · exact absurd hp' not_mem_nil
        | cons e' mid =>
          obtain ⟨rfl,-⟩ := cons.inj hr
          exact ih before e mid hold p hp hs

/-- An ancestor in the mempool: a parent, or an ancestor of one. -/
inductive Ancestor (pool : List BlockEntry) : BlockEntry → BlockEntry → Prop
  | parent {p e : BlockEntry} (hp : p ∈ pool) (h : e.SpendsFrom p) : Ancestor pool p e
  | trans {a p e : BlockEntry} (ha : Ancestor pool a p) (hp : p ∈ pool) (h : e.SpendsFrom p) :
      Ancestor pool a e

theorem included_ancestors {a e : BlockEntry} (ha : Ancestor pool a e) :
    ∀ before after, included h = before++e::after → a ∈ before := by
  induction ha with
  | parent hp hsp => exact fun before after he => b.included_closed hh before _ after he _ hp hsp
  | trans _ hp hsp ih =>
    intro before after he
    have hpa := b.included_closed hh before _ after he _ hp hsp
    obtain ⟨f,back,hs⟩ := append_of_mem hpa
    rw [hs,append_assoc] at he
    rw [hs]
    exact mem_append_left _ (ih f _ he)

end BlockBuilder

/-- An entry of the chunk index, and whether it is known to be the last one of its cluster. -/
structure IndexedChunk where
  chunk : BlockChunk
  m_sequence : ℕ
  end_of_cluster : Bool

/-- `BlockBuilderImpl`: the index from the current chunk on, and the clusters that are left out. -/
structure BlockBuilderImpl where
  m_cur_iter : List IndexedChunk
  m_excluded_clusters : List ℕ

namespace BlockBuilderImpl

/-- `Next`: one chunk further, and past those of clusters that are left out. -/
def next (s : BlockBuilderImpl) : BlockBuilderImpl :=
  { s with m_cur_iter := s.m_cur_iter.tail.dropWhile fun c =>
    s.m_excluded_clusters.contains c.m_sequence }

def getCurrentChunk (s : BlockBuilderImpl) : Option BlockChunk :=
    s.m_cur_iter.head?.map IndexedChunk.chunk

def includeChunk (s : BlockBuilderImpl) : BlockBuilderImpl := s.next

def skip (s : BlockBuilderImpl) : BlockBuilderImpl :=
  match s.m_cur_iter with
  | [] => s.next
  | c::_ =>
    if c.end_of_cluster then s.next
    else next { s with m_excluded_clusters := c.m_sequence::s.m_excluded_clusters }

/-- The builder after what has been done with the chunks so far. -/
def after (index : List IndexedChunk) (h : ChunkHistory) : BlockBuilderImpl :=
  h.foldl (fun s d => if d.2 then s.includeChunk else s.skip) ⟨index,[]⟩

end BlockBuilderImpl

open BlockBuilderImpl

/-- The chunk index of a mempool, with the parents of a transaction before it. -/
structure ChunkIndex (pool : List BlockEntry) where
  chunks : List IndexedChunk
  cluster : Txid → ℕ
  mem : ∀ c ∈ chunks, ∀ e ∈ c.chunk.entries, e ∈ pool
  nodup : ((chunks.flatMap fun c => c.chunk.entries).map txid).Nodup
  size_le : ∀ c ∈ chunks, ((c.chunk.entries.map nTxWeight).sum : ℤ) ≤ c.chunk.feerate.size
  cluster_entry : ∀ c ∈ chunks, ∀ e ∈ c.chunk.entries, cluster e.txid = c.m_sequence
  cluster_eq : ∀ e ∈ pool, ∀ p ∈ pool, e.SpendsFrom p → cluster p.txid = cluster e.txid
  topological : ∀ front c back, chunks = front++c::back → ∀ before e after,
    c.chunk.entries = before++e::after → ∀ p ∈ pool, e.SpendsFrom p →
      p ∈ before ∨ ∃ d ∈ front, p ∈ d.chunk.entries
  end_of_cluster : ∀ front c back, chunks = front++c::back → c.end_of_cluster = true →
    ∀ d ∈ back, d.m_sequence ≠ c.m_sequence

namespace ChunkIndex

variable {pool : List BlockEntry} (index : ChunkIndex pool)

/-- A builder has delivered or left out the chunks before it, and nothing of a cluster comes after a
chunk of it was skipped. -/
structure Passed (h : ChunkHistory) (s : BlockBuilderImpl) (front : List IndexedChunk) : Prop where
  chunks_eq : index.chunks = front++s.m_cur_iter
  current : ∀ c rest, s.m_cur_iter = c::rest → c.m_sequence ∉ s.m_excluded_clusters
  passed : ∀ c ∈ front, (∃ flag, (c.chunk,flag) ∈ h) ∨ c.m_sequence ∈ s.m_excluded_clusters
  history : ∀ d ∈ h, ∃ c ∈ front, c.chunk = d.1 ∧
    (d.2 = false → c.m_sequence ∈ s.m_excluded_clusters ∨ ∀ c' ∈ s.m_cur_iter,
      c'.m_sequence ≠ c.m_sequence)

variable {h : ChunkHistory}

/-- One chunk is passed, and those of clusters that are left out. -/
theorem Passed.advance {s : BlockBuilderImpl} {f : List IndexedChunk}
    (hs : index.Passed h s f) {c : IndexedChunk} {rest : List IndexedChunk}
    (hu : s.m_cur_iter = c::rest) (flag : Bool) (e : List ℕ)
    (hg : ∀ k ∈ s.m_excluded_clusters, k ∈ e)
    (hk : flag = false → c.m_sequence ∈ e ∨ ∀ c' ∈ rest, c'.m_sequence ≠ c.m_sequence) :
    ∃ f', index.Passed (h++[(c.chunk,flag)]) (next ⟨s.m_cur_iter,e⟩) f' := by
  set p := fun c : IndexedChunk => e.contains c.m_sequence with hp
  have hnex : (next ⟨s.m_cur_iter,e⟩).m_cur_iter = rest.dropWhile p := by
    rw [BlockBuilderImpl.next,hu,tail_cons]
  have hr : ∀ c' ∈ rest.dropWhile p, c' ∈ rest := fun c' hc' => (dropWhile_suffix p).subset hc'
  refine ⟨f++c::rest.takeWhile p,?_,?_,?_,?_⟩
  · rw [hnex,append_assoc,cons_append,takeWhile_append_dropWhile,← hu]
    exact hs.chunks_eq
  · intro c' rest' hu' he
    rw [hnex] at hu'
    have hne : rest.dropWhile p ≠ [] := by
      rw [hu']
      exact cons_ne_nil _ _
    have hhe : (rest.dropWhile p).head hne = c' := by
      simp only [hu',head_cons]
    have hf := head_dropWhile_not p hne
    rw [hhe] at hf
    exact absurd (contains_iff_mem.mpr he) (Bool.eq_false_iff.mp hf)
  · intro c' hc'
    rw [mem_append,mem_cons] at hc'
    rcases hc' with hc' | rfl | hc'
    · rcases hs.passed c' hc' with ⟨flag',hd⟩ | hx
      · exact .inl ⟨flag',mem_append_left _ hd⟩
      · exact .inr (hg _ hx)
    · exact .inl ⟨flag,mem_append_right _ (mem_singleton.mpr rfl)⟩
    · have hl : p c' = true := mem_takeWhile_imp hc'
      exact .inr (contains_iff_mem.mp hl)
  · intro d hd
    rw [hnex]
    rcases mem_append.mp hd with hd | hd
    · obtain ⟨c',hc',hch,ha⟩ := hs.history d hd
      refine ⟨c',mem_append_left _ hc',hch,fun hf => ?_⟩
      rcases ha hf with hx | hn
      · exact .inl (hg _ hx)
      · rw [hu] at hn
        exact .inr fun c'' hc'' => hn c'' (mem_cons_of_mem c (hr c'' hc''))
    · rw [mem_singleton.mp hd]
      refine ⟨c,by simp,rfl,fun hf => ?_⟩
      rcases hk hf with hx | hn
      · exact .inl hx
      · exact .inr fun c' hc' => hn c' (hr c' hc')

def builderNext (h : ChunkHistory) : Option BlockChunk := (after index.chunks h).getCurrentChunk

theorem exists_passed (hh : Delivered index.builderNext h) : ∃ f,
    index.Passed h (after index.chunks h) f := by
  induction hh with
  | nil =>
    refine ⟨[],rfl,fun c rest _ hm => absurd hm not_mem_nil,?_,?_⟩
    · exact fun c hc => absurd hc not_mem_nil
    · exact fun d hd => absurd hd not_mem_nil
  | @snoc h c hh hc flag ih =>
    obtain ⟨f,hs⟩ := ih
    set s := after index.chunks h with hsd
    cases hu : s.m_cur_iter with
    | nil =>
      rw [builderNext,getCurrentChunk,hu] at hc
      exact nomatch hc
    | cons ic rest =>
      have hchu : ic.chunk = c := by
        rw [builderNext,getCurrentChunk,hu] at hc
        exact Option.some.inj hc
      have ha : after index.chunks (h++[(c,flag)]) =
          if flag then s.includeChunk else s.skip := by
        rw [BlockBuilderImpl.after,foldl_append]
        rfl
      rw [ha,← hchu]
      cases flag with
      | true => exact hs.advance index hu true _ (fun k hk => hk) fun hf => nomatch hf
      | false =>
        rw [if_neg Bool.false_ne_true,skip,hu]
        dsimp only
        rw [← hu]
        split_ifs with he
        · refine hs.advance index hu false _ (fun k hk => hk) fun _ => .inr ?_
          have hch := hs.chunks_eq
          rw [hu] at hch
          exact index.end_of_cluster f ic rest hch he
        · exact hs.advance index hu false _ (fun k hk => mem_cons_of_mem _ hk) fun _ =>
            .inl mem_cons_self

/-- What the builder delivers is a chunk of the index, behind those that it has passed. -/
theorem exists_current {c : BlockChunk} (hh : Delivered index.builderNext h)
    (hc : index.builderNext h = some c) :
    ∃ f ic rest, ic.chunk = c ∧ (after index.chunks h).m_cur_iter = ic::rest ∧
      index.chunks = f++ic::rest ∧
      index.Passed h (after index.chunks h) f := by
  obtain ⟨f,hs⟩ := index.exists_passed hh
  rw [builderNext,getCurrentChunk] at hc
  cases hu : (after index.chunks h).m_cur_iter with
  | nil =>
    rw [hu] at hc
    exact nomatch hc
  | cons ic rest =>
    rw [hu] at hc
    have hch := hs.chunks_eq
    rw [hu] at hch
    exact ⟨f,ic,rest,Option.some.inj hc,rfl,hch,hs⟩

/-- The builder keeps the contract. -/
def builder : BlockBuilder pool where
  next := index.builderNext
  cluster := index.cluster
  entries_mem := by
    intro h c hh hc
    obtain ⟨front,ic,rest,rfl,-,hchunks,-⟩ := index.exists_current hh hc
    exact index.mem ic (by rw [hchunks]; simp)
  entries_nodup := by
    intro h c hh hc
    obtain ⟨front,ic,rest,rfl,-,hchunks,-⟩ := index.exists_current hh hc
    have hnodup := index.nodup
    rw [hchunks,flatMap_append,flatMap_cons,map_append,map_append] at hnodup
    exact (nodup_append.mp (nodup_append.mp hnodup).2.1).1
  entries_fresh := by
    intro h c hh hc e he hold
    obtain ⟨front,ic,rest,rfl,-,hchunks,hs⟩ := index.exists_current hh hc
    obtain ⟨e',he',hsame⟩ := mem_map.mp hold
    obtain ⟨d,hd,hde⟩ := mem_flatMap.mp he'
    obtain ⟨ic',hic',hchunk,-⟩ := hs.history d hd
    have hnodup := index.nodup
    rw [hchunks,flatMap_append,flatMap_cons,map_append,map_append] at hnodup
    refine (nodup_append.mp hnodup).2.2 e'.txid ?_ e.txid ?_ hsame
    · refine mem_map_of_mem (mem_flatMap.mpr ⟨ic',hic',?_⟩)
      rw [hchunk]
      exact hde
    · exact mem_append_left _ (mem_map_of_mem he)
  size_le := by
    intro h c hh hc
    obtain ⟨front,ic,rest,rfl,-,hchunks,-⟩ := index.exists_current hh hc
    exact index.size_le ic (by rw [hchunks]; simp)
  cluster_eq := index.cluster_eq
  topological := by
    intro h c hh hc before e after hentries p hp hspends
    obtain ⟨front,ic,rest,rfl,hcur,hchunks,hs⟩ := index.exists_current hh hc
    rcases index.topological front ic rest hchunks before e after hentries p hp hspends
      with hb | ⟨d,hd,hpd⟩
    · exact .inl hb
    · rcases hs.passed d hd with ⟨flag,hmem⟩ | hex
      · exact .inr (mem_flatMap.mpr ⟨_,hmem,hpd⟩)
      · -- A cluster that is left out has no chunk left.
        have he : e ∈ ic.chunk.entries := by rw [hentries]; simp
        have hepool : e ∈ pool := index.mem ic (by rw [hchunks]; simp) e he
        have hsame : d.m_sequence = ic.m_sequence := by
          rw [← index.cluster_entry d (by rw [hchunks]; exact mem_append_left _ hd) p hpd,
            ← index.cluster_entry ic (by rw [hchunks]; simp) e he]
          exact index.cluster_eq e hepool p hp hspends
        rw [hsame] at hex
        exact absurd hex (hs.current ic rest hcur)
  not_skipped := by
    intro h c hh hc d hd e he e' he'
    obtain ⟨front,ic,rest,rfl,hcur,hchunks,hs⟩ := index.exists_current hh hc
    obtain ⟨ic',hic',hchunk,hafter⟩ := hs.history (d,false) hd
    have hde' : e' ∈ ic'.chunk.entries := by rw [hchunk]; exact he'
    rw [index.cluster_entry ic (by rw [hchunks]; simp) e he,
      index.cluster_entry ic' (by rw [hchunks]; exact mem_append_left _ hic') e' hde']
    rcases hafter rfl with hex | hnone
    · intro hsame
      rw [← hsame] at hex
      exact hs.current ic rest hcur hex
    · rw [hcur] at hnone
      exact hnone ic mem_cons_self

end ChunkIndex

end DripCore
