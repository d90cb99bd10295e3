import DripCore.OrphanageConsistency

/-!
# The sanity check of the orphanage

`SanityCheck` recomputes from the announcements what the orphanage keeps. The recomputed maps match
the announcements in the same sense as the kept ones, so they are equal.

The sums of the check are taken modulo `2 ^ 32`, as the counts of the source are. Within the range
of the limits none of them wraps around.
-/
namespace DripCore
open ExceptRules Finset List Option

namespace TxOrphanage
variable {Wtxid : Type} {cfg : OrphanageConfig Wtxid} {st : TxOrphanage Wtxid}
    {anns : List Announcement}

theorem mem_allOutpoints {o : COutPoint} : o ∈ st.allOutpoints ↔ ∃ tx ∈ things (held st.m_orphans),
    o ∈ tx.prevouts := by
  simp only [allOutpoints,List.mem_toFinset,List.mem_flatMap,mem_things_held]
  constructor
  · rintro ⟨ann,ha,ho⟩
    exact ⟨ann.m_tx,⟨ann,ha,rfl⟩,ho⟩
  · rintro ⟨_,⟨ann,ha,rfl⟩,ho⟩
    exact ⟨ann,ha,ho⟩

section
variable [LinearOrder Wtxid]
variable {A : Finset (NodeId × CTransaction)} {p : AList fun _ : NodeId => PeerDoSInfo}

theorem peers_match (h : PeersMatch p A) (hn : (anns.map Announcement.pair).Nodup)
    (hne : ∀ ann ∈ anns, ann.pair ∉ A) (hf : ∑ p ∈ A ∪ held anns, p.2.latencyScore < 2 ^ 32) :
    PeersMatch (reconstructPeers anns p) (A∪held anns) := by
  induction anns generalizing p A with
  | nil =>
    rw [held,map_nil,toFinset_nil,union_empty]
    exact h
  | cons ann anns ih =>
    rw [List.map_cons,List.nodup_cons] at hn
    rw [held_cons, union_insert, ← insert_union] at hf ⊢
    have hadd := h.add (hne ann mem_cons_self)
      ((sum_le_sum_of_subset subset_union_left).trans_lt hf)
    refine ih hadd hn.2 (fun o ho hme => ?_) hf
    rcases mem_insert.mp hme with he | hme
    · exact hn.1 (mem_map.mpr ⟨o, ho, he⟩)
    · exact hne o (mem_cons_of_mem _ ho) hme

theorem mapsEqual_of_match {peers' : AList fun _ : NodeId => PeerDoSInfo} (h : PeersMatch p A)
    (h' : PeersMatch peers' A) :
    mapsEqual p peers' = true := by
  rw [mapsEqual,h.length,h'.length,beq_self_eq_true,Bool.true_and,List.all_eq_true]
  intro e he
  have hl : p.lookup e.1 = some e.2 := AList.mem_lookup_iff.mpr he
  rw [h e.1,← h' e.1] at hl
  rw [hl,beq_self_eq_true]

/-- The map has the usage and the score of each transaction, under its wtxid. -/
def ScoresMatch (cfg : OrphanageConfig Wtxid) (scores : AList fun _ : Wtxid => ℕ × ℕ)
    (T : Finset CTransaction) : Prop :=
  ∀ w v, scores.lookup w = some v ↔
    ∃ tx ∈ T, cfg.getWitnessHash tx = w ∧ v = (getTransactionWeight tx,tx.vin.length / 10)

section
variable {s : AList fun _ : Wtxid => ℕ × ℕ} {T : Finset CTransaction} (h : ScoresMatch cfg s T)
include h

theorem uniqueScores_match (hn :
    Set.InjOn cfg.getWitnessHash (T∪things (held anns) : Finset CTransaction)) :
    ScoresMatch cfg (uniqueScores cfg anns s) (T∪things (held anns)) := by
  induction anns generalizing s T with
  | nil =>
    rw [held,map_nil,toFinset_nil,things,image_empty,union_empty]
    exact h
  | cons ann anns ih =>
    have hu : T∪things (held (ann::anns)) = insert ann.m_tx T∪things (held anns) := by
      rw [held_cons,Announcement.pair,things_insert,union_insert,insert_union]
    rw [hu] at hn ⊢
    refine ih ?_ hn
    have hn' {tx : CTransaction} (ht : tx ∈ T) (he : cfg.getWitnessHash tx = wtxid cfg ann) :
      tx = ann.m_tx := by
      refine hn ?_ ?_ he
      · exact mem_coe.mpr (mem_union_left _ (mem_insert_of_mem ht))
      · exact mem_coe.mpr (mem_union_left _ (mem_insert_self _ _))
    by_cases hs : (s.lookup (wtxid cfg ann)).isSome = true
    · rw [if_pos hs]
      obtain ⟨v,hv⟩ := isSome_iff_exists.mp hs
      obtain ⟨tx,ht,he,_⟩ := (h _ v).mp hv
      rwa [insert_eq_of_mem (hn' ht he ▸ ht)]
    · rw [if_neg hs]
      intro w v
      simp only [mem_insert,exists_eq_or_imp]
      by_cases hw : w = wtxid cfg ann
      · subst hw
        rw [AList.lookup_insert,some.injEq]
        have ha : (ann.getMemUsage,ann.getLatencyScore-1) =
            (getTransactionWeight ann.m_tx,ann.m_tx.vin.length / 10) := by
          rw [Announcement.getLatencyScore,Nat.add_sub_cancel_left]
          rfl
        rw [ha]
        constructor
        · exact fun he => .inl ⟨rfl,he.symm⟩
        · rintro (⟨_,he⟩ | ⟨tx,ht,he,hv⟩)
          · exact he.symm
          · exact absurd (isSome_iff_exists.mpr ⟨v,(h _ v).mpr ⟨tx,ht,he,hv⟩⟩) hs
      · rw [AList.lookup_insert_ne hw,h w v]
        constructor
        · exact .inr
        · rintro (⟨he,_⟩ | hold)
          · exact absurd he.symm hw
          · exact hold

theorem ScoresMatch.keys : s.keys.toFinset = T.image cfg.getWitnessHash := by
  ext w
  rw [List.mem_toFinset,← AList.mem_keys,← AList.lookup_isSome,Option.isSome_iff_exists,mem_image]
  constructor
  · rintro ⟨v,hv⟩
    obtain ⟨tx,ht,he,_⟩ := (h w v).mp hv
    exact ⟨tx,ht,he⟩
  · rintro ⟨tx,ht,he⟩
    exact ⟨_,(h w _).mpr ⟨tx,ht,he,rfl⟩⟩

theorem ScoresMatch.sum (hn : Set.InjOn cfg.getWitnessHash T) (f : ℕ × ℕ → ℕ) :
    (s.entries.map fun e => f e.2).sum = ∑ tx ∈ T,
      f (getTransactionWeight tx,tx.vin.length / 10) := by
  have hv : ∀ e ∈ s.entries, f e.2 = ((s.lookup e.1).map f).getD 0 := by
    intro e he
    rw [show s.lookup e.1 = some e.2 from AList.mem_lookup_iff.mpr he]
    rfl
  have hk : (s.entries.map fun e => ((s.lookup e.1).map f).getD 0) =
      s.keys.map fun w => ((s.lookup w).map f).getD 0 := by
    rw [AList.keys,List.keys,List.map_map]
    rfl
  rw [map_congr_left hv,hk,← sum_toFinset _ s.keys_nodup,h.keys,sum_image hn]
  refine sum_congr rfl fun tx ht => ?_
  rw [(h _ _).mpr ⟨tx,ht,rfl,rfl⟩]
  rfl

theorem ScoresMatch.length (hn : Set.InjOn cfg.getWitnessHash T) : s.entries.length = #T := by
  have hs := h.sum hn fun _ => 1
  rwa [map_const',sum_replicate,smul_eq_mul,mul_one,← card_eq_sum_ones] at hs

end

theorem reconsiderable_eq {acc : Finset Wtxid}
    (hn : ∀ ann ∈ anns, ann.m_reconsider = true → wtxid cfg ann ∉ acc)
    (hm : ((anns.filter fun ann => ann.m_reconsider).map (wtxid cfg)).Nodup) :
    reconstructReconsiderable cfg anns acc =
      .ok (acc∪((anns.filter fun ann => ann.m_reconsider).map (wtxid cfg)).toFinset) := by
  induction anns generalizing acc with
  | nil =>
    rw [filter_nil,map_nil,toFinset_nil,union_empty]
    rfl
  | cons ann anns ih =>
    have hr : ∀ o ∈ anns, o.m_reconsider = true → wtxid cfg o ∉ acc :=
      fun o ho => hn o (mem_cons_of_mem _ ho)
    rw [reconstructReconsiderable]
    by_cases ha : ann.m_reconsider = true
    · rw [List.filter_cons_of_pos ha,List.map_cons,List.nodup_cons] at hm
      rw [if_pos ha,if_neg (hn ann mem_cons_self ha),ih _ hm.2,
        List.filter_cons_of_pos ha,List.map_cons,List.toFinset_cons,union_insert,insert_union]
      intro o ho ha' hme
      rcases mem_insert.mp hme with he | hme
      · exact hm.1 (he ▸ mem_map.mpr ⟨o,mem_filter.mpr ⟨ho,ha'⟩,rfl⟩)
      · exact hr o ho ha' hme
    · rw [filter_cons_of_neg ha] at hm ⊢
      rw [if_neg ha,ih hr hm]

end

variable [LinearOrder Wtxid]

variable (h : Consistent cfg st)
include h

theorem Consistent.injOn : Set.InjOn cfg.getWitnessHash (things (held st.m_orphans) :
    Finset CTransaction) := by
  intro tx ht tx' ht' he
  obtain ⟨a,ha,rfl⟩ := mem_things_held.mp (mem_coe.mp ht)
  obtain ⟨b,hb,rfl⟩ := mem_things_held.mp (mem_coe.mp ht')
  exact h.collision a ha b hb he

/-- The keys of the index are the outpoints that orphans spend. -/
theorem Consistent.keys_outpoints :
    st.m_outpoint_to_orphan_wtxids.keys.toFinset = st.allOutpoints := by
  ext o
  rw [List.mem_toFinset,← AList.mem_keys,← AList.lookup_isSome,mem_allOutpoints]
  constructor
  · intro hs
    obtain ⟨wt,hl⟩ := isSome_iff_exists.mp hs
    obtain ⟨w,hw⟩ := nonempty_iff_ne_empty.mpr fun hni => h.links.nonempty o (hni ▸ hl)
    obtain ⟨tx,ht,_,ho⟩ := (h.links.linked o w).mp (by rwa [linked,hl])
    exact ⟨tx,ht,ho⟩
  · rintro ⟨tx,ht,ho⟩
    have hm := (h.links.linked o _).mpr ⟨tx,ht,rfl,ho⟩
    by_contra hn
    rw [linked,not_isSome_iff_eq_none.mp hn] at hm
    exact absurd hm (notMem_empty _)

theorem Consistent.outpoint_entry (e : Σ _ : COutPoint,Finset Wtxid)
    (he : e ∈ st.m_outpoint_to_orphan_wtxids.entries) :
    e.1 ∈ st.allOutpoints ∧ ∀ w ∈ e.2, ∃ tx ∈ things (held st.m_orphans),
      cfg.getWitnessHash tx = w := by
  have hl : st.m_outpoint_to_orphan_wtxids.lookup e.1 = some e.2 := AList.mem_lookup_iff.mpr he
  constructor
  · rw [← h.keys_outpoints,List.mem_toFinset,← AList.mem_keys,← AList.lookup_isSome,hl]
    rfl
  · intro w hw
    obtain ⟨tx,ht,hq,_⟩ := (h.links.linked e.1 w).mp (by rwa [linked,hl])
    exact ⟨tx,ht,hq⟩

theorem Consistent.totals_le :
    st.m_unique_orphan_usage ≤
      (st.m_peer_orphanage_info.entries.map fun e => e.2.m_total_usage).sum ∧
      st.m_unique_rounded_input_scores+st.m_orphans.length ≤
        toCount (st.m_peer_orphanage_info.entries.map fun e => e.2.m_total_latency_score).sum := by
  rw [h.peers.sum,h.peers.sum]
  simp only [accountOf,sum_share]
  exact ⟨h.totals.usage ▸ sum_things_le _ _, h.scores_le.trans_eq (toCount_of_lt h.fits).symm⟩

theorem Consistent.sanityCheck (ht : needsTrim cfg st = false) : st.sanityCheck cfg = .ok () := by
  have hpa : (st.m_orphans.map Announcement.pair).Nodup :=
    (nodup_map_iff_inj_on h.nodup).mpr fun a ha b hb hq => h.eq_of_key ha hb (byWtxid_eq_of_pair hq)
  have hp : PeersMatch (reconstructPeers st.m_orphans ∅) (held st.m_orphans) := by
    have hm := peers_match peersMatch_empty hpa (fun _ _ => notMem_empty _)
      (by rw [empty_union]; exact h.fits)
    rwa [empty_union] at hm
  have hs : ScoresMatch cfg (uniqueScores cfg st.m_orphans ∅) (things (held st.m_orphans)) := by
    have hem : ScoresMatch cfg ∅ ∅ := fun w v => by simp
    have hm := uniqueScores_match hem (by rw [empty_union]; exact h.injOn)
    rwa [empty_union] at hm
  have hma : reconstructReconsiderable cfg st.m_orphans ∅ = .ok st.m_reconsiderable_wtxids := by
    rw [reconsiderable_eq (fun _ _ _ => notMem_empty _)]
    · congr 1
      ext w
      rw [h.marks]
      simp [and_assoc]
    · refine (nodup_map_iff_inj_on (h.nodup.filter _)).mpr fun a ha b hb hq => ?_
      obtain ⟨ha,hmar⟩ := mem_filter.mp ha
      obtain ⟨hb,hr⟩ := mem_filter.mp hb
      exact h.marked a ha b hb hmar hr hq
  have hc : #(st.allOutpoints) = st.m_outpoint_to_orphan_wtxids.entries.length := by
    rw [← h.keys_outpoints,toFinset_card_of_nodup st.m_outpoint_to_orphan_wtxids.keys_nodup,
      AList.keys,List.keys,List.length_map]
  have hn : (st.m_outpoint_to_orphan_wtxids.entries.all fun e => decide (e.1 ∈ st.allOutpoints) &&
      decide (∀ w ∈ e.2, ((uniqueScores cfg st.m_orphans ∅).lookup w).isSome)) = true := by
    rw [List.all_eq_true]
    intro e he
    obtain ⟨hme,hwt⟩ := h.outpoint_entry e he
    rw [decide_eq_true hme,Bool.true_and,decide_eq_true_eq]
    intro w hw
    obtain ⟨tx,hx,hq⟩ := hwt w hw
    exact isSome_iff_exists.mpr ⟨_,(hs w _).mpr ⟨tx,hx,hq,rfl⟩⟩
  have hu : st.m_unique_orphans ≤ st.m_orphans.length := by
    rw [h.totals.orphans,← h.card_held]
    exact card_image_le
  have hpr : st.m_orphans.length ≤ st.m_peer_orphanage_info.entries.length*st.m_unique_orphans := by
    rw [h.totals.orphans,← h.card_held,h.peers.length]
    exact card_le_owners_mul _
  have hus := (hs.sum h.injOn Prod.fst).trans h.totals.usage.symm
  have hin := (hs.sum h.injOn Prod.snd).trans h.totals.scores.symm
  have hlt : st.m_unique_rounded_input_scores < 2 ^ 32 :=
    (Nat.le_add_right _ _).trans_lt (h.scores_le.trans_lt h.fits)
  have hl := (hs.length h.injOn).trans h.totals.orphans.symm
  obtain ⟨husage_le,hlatency_le⟩ := h.totals_le
  rw [TxOrphanage.sanityCheck]
  simp only [hma,ok_bind]
  rw [failIf_of_false (by rw [hp.length,h.peers.length,bne_self_eq_false]),ok_bind,
    failIf_of_false (by rw [mapsEqual_of_match hp h.peers]; rfl),ok_bind,
    failIf_of_false (by rw [bne_self_eq_false]),ok_bind,
    failIf_of_false (by rw [hc,bne_self_eq_false]),ok_bind,
    failIf_of_false (by rw [hn]; rfl),ok_bind,
    failIf_of_false (by rw [decide_eq_true hu]; rfl),ok_bind,
    failIf_of_false (by rw [decide_eq_true hpr]; rfl),ok_bind,
    failIf_of_false (by rw [hl,bne_self_eq_false]),ok_bind,
    failIf_of_false (by rw [hus,bne_self_eq_false]),ok_bind,
    failIf_of_false (by rw [decide_eq_true husage_le]; rfl),ok_bind,
    failIf_of_false (by rw [hin, toCount_of_lt hlt, bne_self_eq_false]),ok_bind,
    failIf_of_false (by rw [decide_eq_true hlatency_le]; rfl),ok_bind,failIf_of_false ht]

end TxOrphanage

end DripCore
