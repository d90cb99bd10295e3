import DripCore.BlockAssembler

/-!
# The early stop of block assembly

The builder delivers chunks by falling fee per weight, and `addChunks` stops at the first one whose
fee per virtual size is below `blockMinFeeRate`. The virtual size is rounded up, which counts for
less in a larger chunk: one that is delivered later can reach the minimum.

What the loop does until then is a relation, `StopsAt`, with a case for each of its branches. What
the builder could still deliver at the stop is what lies behind its iterator in the chunk index,
without the clusters it leaves out. So whether a mempool loses something can be read off its index.
-/
namespace DripCore
open BlockAssembler BlockBuilderImpl ChunkIndex List

namespace FeeFrac

/-- The test at which `addChunks` returns. -/
def Below (rate c : FeeFrac) : Prop := (toFeePerVSize c).feeRateCompare rate = .lt

instance (rate c : FeeFrac) : Decidable (Below rate c) := inferInstanceAs (Decidable (_ = _))

variable {rate c d : FeeFrac}

theorem below_iff (hd : 0 < d.size) :
    Below rate d ↔ d.fee * rate.size < rate.fee * ((d.size + 3) / 4) := by
  have hv : (d.size + 4 - 1).tdiv 4 = (d.size + 3) / 4 := by
    rw [Int.tdiv_eq_ediv_of_nonneg (by omega)]
    omega
  rw [Below, feeRateCompare, compare_lt_iff_lt, toFeePerVSize]
  change _ < _ * (d.size + 4 - 1).tdiv 4 ↔ _
  rw [hv]

/-- Without rounding the order of the chunks decides, and rounding up only lowers a feerate. -/
theorem below_of_le (hr : 0 ≤ rate.fee) (hs : 0 < rate.size) (hc : 0 < c.size) (hd : 0 < d.size)
    (hl : d.fee * c.size ≤ c.fee * d.size) (h : 4 * c.fee * rate.size < rate.fee * c.size) :
    Below rate d := by
  rw [below_iff hd]
  have hv : d.size ≤ 4 * ((d.size + 3) / 4) := by omega
  refine lt_of_mul_lt_mul_left ?_ (mul_pos four_pos hc).le
  calc 4 * c.size * (d.fee * rate.size) = 4 * rate.size * (d.fee * c.size) := by ring
    _ ≤ 4 * rate.size * (c.fee * d.size) := mul_le_mul_of_nonneg_left hl (mul_pos four_pos hs).le
    _ = 4 * c.fee * rate.size * d.size := by ring
    _ < rate.fee * c.size * d.size := mul_lt_mul_of_pos_right h hd
    _ ≤ rate.fee * c.size * (4 * ((d.size + 3) / 4)) :=
      mul_le_mul_of_nonneg_left hv (mul_nonneg hr hc.le)
    _ = 4 * c.size * (rate.fee * ((d.size + 3) / 4)) := by ring

end FeeFrac

open FeeFrac

section
variable (options : AssemblerOptions) (nHeight m_lock_time_cutoff : ℤ)
variable (next : ChunkHistory → Option BlockChunk)

/-- Whether a chunk does not fit. -/
def Unfit (a : BlockAssembler) (c : BlockChunk) : Prop :=
  (!testChunkBlockLimits options a c.feerate ((c.entries.map BlockEntry.sigOpCost).sum : ℕ) ||
    !testChunkTransactions nHeight m_lock_time_cutoff c.entries) = true

/-- From a history, a count of failures and an assembler, the loop of `addChunks` comes to a history
at which a chunk is delivered that is below the minimum, and it returns the assembler there. -/
inductive StopsAt :
    ChunkHistory → ℕ → BlockAssembler → ChunkHistory → BlockChunk → BlockAssembler → Prop
  | stop {h n a c} (hc : next h = some c) (hne : c.entries ≠ [])
      (hb : Below options.blockMinFeeRate c.feerate) : StopsAt h n a h c a
  | skip {h n a c h' c' a'} (hc : next h = some c) (hne : c.entries ≠ [])
      (hb : ¬Below options.blockMinFeeRate c.feerate)
        (hu : Unfit options nHeight m_lock_time_cutoff a c)
      (hgo : ¬(maxConsecutiveFailures < n + 1 ∧
        (options.nBlockMaxWeight : ℤ) < a.nBlockWeight + blockFullEnoughWeightDelta))
      (hs : StopsAt (h ++ [(c, false)]) (n + 1) a h' c' a') : StopsAt h n a h' c' a'
  | take {h n a c h' c' a'} (hc : next h = some c) (hne : c.entries ≠ [])
      (hb : ¬Below options.blockMinFeeRate c.feerate)
      (hf : ¬Unfit options nHeight m_lock_time_cutoff a c)
      (hs : StopsAt (h ++ [(c, true)]) 0 (a.addChunk c) h' c' a') : StopsAt h n a h' c' a'

variable {options nHeight m_lock_time_cutoff next} {h h' : ChunkHistory} {n : ℕ}
    {a a' : BlockAssembler}
  {c : BlockChunk}

theorem StopsAt.next_eq (hs : StopsAt options nHeight m_lock_time_cutoff next h n a h' c a') :
    next h' = some c ∧ Below options.blockMinFeeRate c.feerate := by
  induction hs with
  | stop hc _ hb => exact ⟨hc, hb⟩
  | skip _ _ _ _ _ _ ih => exact ih
  | take _ _ _ _ _ ih => exact ih

/-- The loop returns what the relation says, with fuel enough. -/
theorem StopsAt.addChunksLoop_eq (hs :
    StopsAt options nHeight m_lock_time_cutoff next h n a h' c a') :
    ∃ fuel, addChunksLoop options nHeight m_lock_time_cutoff next fuel h n a = some a' := by
  induction hs with
  | stop hc hne hb =>
    refine ⟨1, ?_⟩
    unfold Below at hb
    rw [addChunksLoop, hc]
    dsimp only
    rw [if_neg (by simpa using hne), if_pos hb]
  | skip hc hne hb hu hgo _ ih =>
    obtain ⟨fuel, ih⟩ := ih
    refine ⟨fuel + 1, ?_⟩
    unfold Below at hb
    unfold Unfit at hu
    rw [addChunksLoop, hc]
    dsimp only
    rw [if_neg (by simpa using hne), if_neg hb, if_pos hu, if_neg hgo, ih]
  | take hc hne hb hf _ ih =>
    obtain ⟨fuel, ih⟩ := ih
    refine ⟨fuel + 1, ?_⟩
    unfold Below at hb
    unfold Unfit at hf
    rw [addChunksLoop, hc]
    dsimp only
    rw [if_neg (by simpa using hne), if_neg hb, if_neg hf, ih]

end

/-- The order of the chunk index, by feerates. -/
def ChunkIndex.Ordered {pool : List BlockEntry} (index : ChunkIndex pool) : Prop :=
  (index.chunks.map fun c => c.chunk.feerate).Pairwise
  (fun a b => b.fee * a.size ≤ a.fee * b.size) ∧
    ∀ c ∈ index.chunks, 0 < c.chunk.feerate.size

namespace BlockBuilderImpl

/-- The chunks from the iterator on whose clusters are not left out. -/
def ahead (s : BlockBuilderImpl) : List IndexedChunk :=
  s.m_cur_iter.filter fun c => !s.m_excluded_clusters.contains c.m_sequence

theorem next_suffix (s : BlockBuilderImpl) : s.next.m_cur_iter <:+ s.m_cur_iter :=
  (dropWhile_suffix _).trans (tail_suffix _)

/-- The iterator stands at a chunk of a cluster that is not left out. -/
theorem next_current {s : BlockBuilderImpl} {x : IndexedChunk}
    (h : s.next.m_cur_iter.head? = some x) :
    s.m_excluded_clusters.contains x.m_sequence = false := by
  have hd := head?_dropWhile_not (fun c :
    IndexedChunk => s.m_excluded_clusters.contains c.m_sequence)
    s.m_cur_iter.tail
  rw [next] at h
  rw [h] at hd
  simpa using hd

/-- A chunk that is not left out stays ahead until the iterator comes to it. -/
theorem mem_next {s : BlockBuilderImpl} {x y : IndexedChunk} {rest : List IndexedChunk}
    (hs : s.m_cur_iter = y :: rest) (hx : x ∈ rest)
    (he : s.m_excluded_clusters.contains x.m_sequence = false) : x ∈ s.next.m_cur_iter := by
  rw [next, hs, tail_cons]
  have hm := takeWhile_append_dropWhile (p := fun c : IndexedChunk =>
    s.m_excluded_clusters.contains c.m_sequence) (l := rest)
  rw [← hm, mem_append] at hx
  rcases hx with hx | hx
  · have ht := mem_takeWhile_imp hx
    rw [he] at ht
    cases ht
  · exact hx

theorem after_append (chunks : List IndexedChunk) (h : ChunkHistory) (d : BlockChunk × Bool) :
    after chunks (h ++ [d]) = if d.2 then (after chunks h).includeChunk
      else (after chunks h).skip := by
  rw [after, foldl_append]
  rfl

/-- A step keeps what is left out, and moves the iterator on. -/
theorem after_step (chunks : List IndexedChunk) (h : ChunkHistory) (d : BlockChunk × Bool) :
    ∃ s : BlockBuilderImpl, after chunks (h ++ [d]) = s.next ∧
      s.m_cur_iter = (after chunks h).m_cur_iter ∧
      ∀ k ∈ (after chunks h).m_excluded_clusters, k ∈ s.m_excluded_clusters := by
  rw [after_append]
  split_ifs
  · exact ⟨_, rfl, rfl, fun _ hk => hk⟩
  · rw [skip]
    split
    · exact ⟨_, rfl, rfl, fun _ hk => hk⟩
    · split_ifs
      · exact ⟨_, rfl, rfl, fun _ hk => hk⟩
      · exact ⟨_, rfl, rfl, fun _ hk => mem_cons_of_mem _ hk⟩

/-- Whatever is done with chunks, the iterator only comes to chunks that are ahead. -/
theorem head_mem_ahead (chunks : List IndexedChunk) (h m : ChunkHistory) {x : IndexedChunk}
    (hx : (after chunks (h ++ m)).m_cur_iter.head? = some x) : x ∈ (after chunks h).ahead := by
  have hc (h : ChunkHistory) {x : IndexedChunk} (hx : (after chunks h).m_cur_iter.head? = some x) :
      (after chunks h).m_excluded_clusters.contains x.m_sequence = false := by
    induction h using reverseRecOn with
    | nil => rfl
    | append_singleton h d _ =>
      obtain ⟨s, he, -, -⟩ := after_step chunks h d
      rw [he] at hx ⊢
      exact next_current (s := s) hx
  have hm : (after chunks (h ++ m)).m_cur_iter <:+ (after chunks h).m_cur_iter ∧
      ∀ k ∈ (after chunks h).m_excluded_clusters,
        k ∈ (after chunks (h ++ m)).m_excluded_clusters := by
    clear hx
    induction m using reverseRecOn with
    | nil =>
      rw [append_nil]
      exact ⟨suffix_rfl, fun _ hk => hk⟩
    | append_singleton m d ih =>
      obtain ⟨s, he, hi, hk⟩ := after_step chunks (h ++ m) d
      rw [← append_assoc, he]
      refine ⟨(next_suffix s).trans (hi ▸ ih.1), fun k hx => hk k (ih.2 k hx)⟩
  refine mem_filter.mpr ⟨hm.1.subset (mem_of_head? hx), ?_⟩
  have hf := hc (h ++ m) hx
  rw [Bool.not_eq_true']
  rw [← Bool.not_eq_true, contains_iff_mem] at hf ⊢
  exact fun hk => hf (hm.2 _ hk)

/-- A chunk that is ahead is delivered once all before it are included. -/
theorem exists_deliver (chunks : List IndexedChunk) (h : ChunkHistory) {x : IndexedChunk}
    (hx : x ∈ (after chunks h).ahead) : ∃ m, (after chunks (h ++ m)).m_cur_iter.head? = some x := by
  obtain ⟨hm, he⟩ := mem_filter.mp hx
  rw [Bool.not_eq_true'] at he
  generalize hn : (after chunks h).m_cur_iter.length = n
  induction n using Nat.strong_induction_on generalizing h with
  | _ n ih =>
    cases hi : (after chunks h).m_cur_iter with
    | nil =>
      rw [hi] at hm
      cases hm
    | cons y rest =>
      rw [hi] at hm
      rcases mem_cons.mp hm with rfl | hr
      · exact ⟨[], by rw [append_nil, hi]; rfl⟩
      · have ha : after chunks (h ++ [(y.chunk, true)]) = (after chunks h).next := after_append ..
        have hx' := mem_next hi hr he
        have hl : (after chunks (h ++ [(y.chunk, true)])).m_cur_iter.length < n := by
          rw [ha, ← hn, hi, next, hi, tail_cons, length_cons]
          exact Nat.lt_succ_of_le (dropWhile_suffix _).length_le
        have he' : (after chunks (h ++ [(y.chunk, true)])).m_excluded_clusters.contains
          x.m_sequence =
            false := by
          rw [ha]
          exact he
        obtain ⟨m, hm⟩ := ih _ hl (h ++ [(y.chunk, true)])
          (mem_filter.mpr ⟨ha ▸ hx', by rw [he']; rfl⟩) (ha ▸ hx') he' rfl
        exact ⟨(y.chunk, true) :: m, by rwa [append_assoc] at hm⟩

end BlockBuilderImpl

/-- A transaction of a feerate that spends nothing of the pool. -/
def loneEntry (hash : Txid) (c : FeeFrac) : BlockEntry :=
  { exampleEntry hash 7 with nFee := c.fee, nTxWeight := c.size.toNat }

def lonePool (c d : FeeFrac) : List BlockEntry := [loneEntry 1 c, loneEntry 2 d]

def loneChunks (c d : FeeFrac) : List IndexedChunk :=
  [⟨⟨[loneEntry 1 c], c⟩, 1, true⟩, ⟨⟨[loneEntry 2 d], d⟩, 2, true⟩]

theorem lone_mem (c d : FeeFrac) : ∀ x ∈ loneChunks c d, ∀ e ∈ x.chunk.entries,
    e ∈ lonePool c d := by
  simp [loneChunks, lonePool]

theorem not_spendsFrom_lone {c d : FeeFrac} {e p : BlockEntry} (he : e ∈ lonePool c d)
    (hp : p ∈ lonePool c d) : ¬e.SpendsFrom p := by
  rintro ⟨t, ht, hx⟩
  have h7 : t.prevout.hash = 7 := by
    rcases mem_pair.mp he with rfl | rfl <;> rw [mem_singleton.mp ht]
  have h1 : p.txid = 1 ∨ p.txid = 2 :=
    (mem_pair.mp hp).imp (congrArg BlockEntry.txid) (congrArg BlockEntry.txid)
  rw [← hx, h7] at h1
  exact absurd h1 (by decide)

/-- Two chunks, each of one transaction. -/
def loneIndex (c d : FeeFrac) (hc : 0 ≤ c.size) (hd : 0 ≤ d.size) : ChunkIndex (lonePool c d) where
  chunks := loneChunks c d
  cluster := BitVec.toNat
  mem := lone_mem c d
  nodup := by
    change [(1 : Txid), 2].Nodup
    decide
  size_le := by simp [loneChunks, loneEntry, hc, hd]
  cluster_entry := by
    simp only [loneChunks, mem_cons, not_mem_nil, or_false, forall_eq_or_imp, forall_eq]
    exact ⟨rfl, rfl⟩
  cluster_eq := fun e he p hp h => absurd h (not_spendsFrom_lone he hp)
  topological := by
    intro front x back hx before e after he p hp h
    exact absurd h (not_spendsFrom_lone (lone_mem c d x (hx ▸ by simp) e (he ▸ by simp)) hp)
  end_of_cluster := by
    intro front x back hx _ y hy he
    have hn : ((loneChunks c d).map IndexedChunk.m_sequence).Nodup := by
      change [1, 2].Nodup
      decide
    rw [hx, map_append, map_cons] at hn
    exact (nodup_cons.mp hn.of_append_right).1 (he ▸ mem_map_of_mem hy)

theorem loneIndex_ordered {c d : FeeFrac} (hc : 0 < c.size) (hd : 0 < d.size)
    (h : d.fee * c.size ≤ c.fee * d.size) :
    (loneIndex c d (Int.le_of_lt hc) (Int.le_of_lt hd)).Ordered :=
  ⟨by simp [loneIndex, loneChunks, h], by simp [loneIndex, loneChunks, hc, hd]⟩

/-- Options with a minimum of 4 per virtual byte. -/
def minFeeOptions : AssemblerOptions := ⟨true, 8000, 400, [], 4000000, ⟨4000, 1000⟩, false⟩

end DripCore
