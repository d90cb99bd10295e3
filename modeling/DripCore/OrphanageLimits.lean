import DripCore.ComparatorSet
import DripCore.OrphanageConsistency

/-!
# Limiting the orphanage

While the orphanage is above a global limit, a peer is above its share, since there are at most as
many peers as when the shares were fixed. So the worst peer of the heap is above its share, and
stays so while it is evicted from: if its score fell to 1, another peer would have a higher one.
-/
namespace DripCore
open Except ExceptRules Finset List Nat Prod.Lex

namespace FeeFrac

variable {a b : FeeFrac} (ha : 0 < a.size) (hb : 0 < b.size)
include ha hb

theorem higher_one_of_le (hl : b.fee*a.size ≤ a.fee*b.size) (h : b.higher one = true) :
    a.higher one = true := by
  simp only [higher,one,one_mul,mul_one,decide_eq_true_eq] at h ⊢
  have ht : a.size*b.size < a.fee*b.size := by
    calc a.size*b.size < a.size*b.fee := Int.mul_lt_mul_of_pos_left h ha
      _ = b.fee*a.size := mul_comm _ _
      _ ≤ a.fee*b.size := hl
  exact lt_of_mul_lt_mul_right ht hb.le

theorem le_trans_of_pos {c : FeeFrac} (hc : 0 < c.size) (hab : a.fee*b.size ≤ b.fee*a.size)
    (hbc : b.fee*c.size ≤ c.fee*b.size) : a.fee*c.size ≤ c.fee*a.size := by
  refine le_of_mul_le_mul_right ?_ hb
  calc a.fee*c.size*b.size = a.fee*b.size*c.size := mul_right_comm _ _ _
    _ ≤ b.fee*a.size*c.size := Int.mul_le_mul_of_nonneg_right hab hc.le
    _ = b.fee*c.size*a.size := mul_right_comm _ _ _
    _ ≤ c.fee*b.size*a.size := Int.mul_le_mul_of_nonneg_right hbc ha.le
    _ = c.fee*a.size*b.size := mul_right_comm _ _ _

theorem higher_maximum : (maximum a b).higher one = true ↔ a.higher one = true ∨
    b.higher one = true := by
  unfold maximum
  split_ifs with hl
  · refine ⟨.inr,fun h => h.elim (higher_one_of_le hb ha (le_of_less hl)) id⟩
  · rw [Bool.not_eq_true] at hl
    exact ⟨.inl,fun h => h.elim id (higher_one_of_le ha hb (le_of_not_less hl))⟩

end FeeFrac

open FeeFrac

namespace TxOrphanage

/-- The shares of a peer during a call of `LimitOrphans`. -/
structure Shares where
  lat : ℕ
  mem : ℕ
  lat_pos : 0 < lat
  mem_pos : 0 < mem
  lat_range : lat < 2^31
  mem_range : mem < 2^31

theorem toInt32_eq {n : ℕ} (h : n < 2^31) : toInt32 n = n := by
  exact Int.bmod_eq_of_le (m := 4294967296) (by omega) (by omega)

variable (S : Shares) {info : PeerDoSInfo}

def score (info : PeerDoSInfo) : FeeFrac :=
  maximum ⟨info.m_total_latency_score,S.lat⟩ ⟨info.m_total_usage,S.mem⟩

theorem getDosScore_eq (info : PeerDoSInfo) :
    info.getDosScore S.lat S.mem = .ok (score S info) := by
  rw [PeerDoSInfo.getDosScore,if_pos ⟨S.lat_pos,S.mem_pos⟩,toInt32_eq S.lat_range,
    toInt32_eq S.mem_range]
  rfl

theorem score_size_pos (info : PeerDoSInfo) : 0 < (score S info).size := by
  unfold score FeeFrac.maximum
  split_ifs
  · exact Int.natCast_pos.mpr S.mem_pos
  · exact Int.natCast_pos.mpr S.lat_pos

theorem score_higher_one : (score S info).higher .one = true ↔
    S.lat < info.m_total_latency_score ∨ S.mem < info.m_total_usage := by
  rw [score,higher_maximum (Int.natCast_pos.mpr S.lat_pos) (Int.natCast_pos.mpr S.mem_pos)]
  simp [higher,one]

variable {S} {heap : List (NodeId × FeeFrac)}

section
variable {w : NodeId × FeeFrac}

/-- The feerate of one peer is at most that of another. -/
def AtMost (e e' : NodeId × FeeFrac) : Prop := e.2.fee*e'.2.size ≤ e'.2.fee*e.2.size

theorem atMost_of_compareScore (e e' : NodeId × FeeFrac) :
    if compareScore e e' then AtMost e e' else AtMost e' e := by
  unfold compareScore AtMost
  by_cases he : e.2 = e'.2
  · rw [if_neg (not_not.mpr he),he]
    split_ifs
    · exact le_rfl
    · exact le_rfl
  · rw [if_pos he]
    split_ifs with hl
    · exact le_of_less hl
    · exact le_of_not_less (Bool.not_eq_true _ ▸ hl)

theorem foldl_worst {first : NodeId × FeeFrac} (hf : 0 < first.2.size)
    (hp : ∀ e ∈ heap, 0 < e.2.size)
    (hw : heap.foldl (fun w o => if compareScore w o then o else w) first = w) :
    (w = first ∨ w ∈ heap) ∧ AtMost first w ∧ ∀ e ∈ heap, AtMost e w := by
  induction heap generalizing first with
  | nil => exact ⟨.inl hw.symm,hw ▸ le_rfl,nofun⟩
  | cons s heap ih =>
    rw [foldl_cons] at hw
    have hs := hp s mem_cons_self
    have hr : ∀ e ∈ heap, 0 < e.2.size := fun e he => hp e (mem_cons_of_mem _ he)
    have hc := atMost_of_compareScore first s
    split_ifs at hw hc
    · obtain ⟨hm,hl,hal⟩ := ih hs hr hw
      have hworst_pos : 0 < w.2.size := hm.elim (fun h => h ▸ hs) (hr w)
      refine ⟨.inr (mem_cons.mpr hm),?_,forall_mem_cons.mpr ⟨hl,hal⟩⟩
      exact le_trans_of_pos hf hs hworst_pos hc hl
    · obtain ⟨hm,hl,hal⟩ := ih hf hr hw
      have hworst_pos : 0 < w.2.size := hm.elim (fun h => h ▸ hf) (hr w)
      refine ⟨hm.imp_right (mem_cons_of_mem _),hl,forall_mem_cons.mpr ⟨?_,hal⟩⟩
      exact le_trans_of_pos hs hf hworst_pos hc hl

theorem worstOf_spec (hp : ∀ e ∈ heap, 0 < e.2.size) (h : worstOf heap = some w) :
    w ∈ heap ∧ ∀ e ∈ heap, AtMost e w := by
  cases heap with
  | nil => cases h
  | cons first heap =>
    obtain ⟨hm,hl,hal⟩ := foldl_worst (hp first mem_cons_self)
      (fun e he => hp e (mem_cons_of_mem _ he)) (Option.some.inj h)
    exact ⟨mem_cons.mpr hm,forall_mem_cons.mpr ⟨hl,hal⟩⟩

theorem worstOf_isSome {e : NodeId × FeeFrac} (h : e ∈ heap) : ∃ w, worstOf heap = some w := by
  cases heap with
  | nil => exact absurd h not_mem_nil
  | cons first heap => exact ⟨_,rfl⟩

end

section
variable {Wtxid : Type} (st : TxOrphanage Wtxid) (peer : NodeId)

theorem pairwise_byPeer (orphans : List Announcement) : (orphans.insertionSort
    fun a b : Announcement => a.byPeer ≤ b.byPeer).Pairwise fun a b => a.byPeer ≤ b.byPeer :=
  pairwise_insertionSort _ _

variable {ann : Announcement}

theorem mem_byPeer {key : ℤ ×ₗ Bool ×ₗ ℕ} : ann ∈ st.lowerBoundByPeer key ↔
    ann ∈ st.m_orphans ∧ key ≤ ann.byPeer := by
  rw [lowerBoundByPeer,ComparatorSet.dropWhile_eq_filter (pairwise_byPeer _),mem_filter,
    mem_insertionSort,Bool.not_eq_true',decide_eq_false_iff_not,not_lt]
  intro a b hl hb
  exact decide_eq_true (hl.trans_lt (of_decide_eq_true hb))

theorem announcer_le {a b : Announcement} (h : a.byPeer ≤ b.byPeer) :
    a.m_announcer ≤ b.m_announcer := by
  rcases le_iff.mp h with hl | ⟨he,_⟩
  · exact le_of_lt hl
  · exact le_of_eq he

theorem peerKey_le_byPeer : toLex (peer,toLex (false,0)) ≤ ann.byPeer ↔ peer ≤ ann.m_announcer := by
  constructor
  · intro h
    rcases le_iff.mp h with hl | ⟨he,_⟩
    · exact le_of_lt hl
    · exact le_of_eq he
  · intro h
    rcases h.lt_or_eq with hl | he
    · exact le_iff.mpr (.inl hl)
    · refine le_iff.mpr (.inr ⟨he,?_⟩)
      rcases (Bool.false_le ann.m_reconsider).lt_or_eq with hl | he
      · exact le_iff.mpr (.inl hl)
      · exact le_iff.mpr (.inr ⟨he,zero_le _⟩)

/-- The announcements of a peer come first from the lower bound of its key. -/
theorem mem_peerRange : ann ∈ st.peerRange peer ↔ ann ∈ st.m_orphans ∧ ann.m_announcer = peer := by
  have hs : (st.lowerBoundByPeer (toLex (peer,toLex (false,0)))).Pairwise
      fun a b => peer ≤ a.m_announcer ∧ a.m_announcer ≤ b.m_announcer := by
    refine List.Pairwise.imp_of_mem ?_
      ((pairwise_byPeer st.m_orphans).sublist (dropWhile_sublist _))
    intro a b ha _ hl
    exact ⟨(peerKey_le_byPeer peer).mp ((mem_byPeer st).mp ha).2,announcer_le hl⟩
  rw [peerRange,ComparatorSet.takeWhile_eq_filter hs,mem_filter,decide_eq_true_eq,
    mem_byPeer,peerKey_le_byPeer,and_assoc]
  · exact and_congr_right fun _ => and_iff_right_of_imp fun he => he.ge
  · intro a b hab hb
    exact decide_eq_true (le_antisymm (hab.2.trans (of_decide_eq_true hb).le) hab.1)

theorem nodup_peerRange (h : st.m_orphans.Nodup) : (st.peerRange peer).Nodup := by
  have hs := (perm_insertionSort (fun a b : Announcement => a.byPeer ≤ b.byPeer)
    st.m_orphans).nodup_iff.mpr h
  exact hs.sublist ((takeWhile_sublist _).trans (dropWhile_sublist _))

theorem byPeer_eq_append : ∃ others,
    st.lowerBoundByPeer (toLex (peer,toLex (false,0))) = st.peerRange peer++others :=
  ⟨_,takeWhile_append_dropWhile.symm⟩

end

variable {Wtxid : Type} {cfg : OrphanageConfig Wtxid} {st st' : TxOrphanage Wtxid}
  {peer wp : NodeId} {ann : Announcement} {skip : NodeId → Prop}

/-- A peer uses more than its share of the memory or of the latency score. -/
def Exceeds (S : Shares) (st : TxOrphanage Wtxid) (peer : NodeId) : Prop :=
  S.mem < st.usageByPeer peer ∨ S.lat < st.latencyScoreFromPeer peer

/-- The heap has the scores of peers that hold something, and all peers above their share. -/
structure Heaped (S : Shares) (st : TxOrphanage Wtxid) (skip : NodeId → Prop)
    (heap : List (NodeId × FeeFrac)) : Prop where
  scores : ∀ e ∈ heap, e.1 ∈ owners (held st.m_orphans) ∧ ¬skip e.1 ∧
    e.2 = score S (accountOf (held st.m_orphans) e.1)
  nodup : (heap.map Prod.fst).Nodup
  covers : ∀ peer, Exceeds S st peer → ¬skip peer → peer ∈ heap.map Prod.fst

theorem Heaped.size_pos (h : Heaped S st skip heap) : ∀ e ∈ heap, 0 < e.2.size := by
  intro e he
  rw [(h.scores e he).2.2]
  exact score_size_pos S _

theorem Heaped.pop {worst : NodeId × FeeFrac} (h : Heaped S st (fun _ => False) heap)
    (hw : worst ∈ heap) : Heaped S st (· = worst.1) (heap.erase worst) := by
  have hn : heap.Nodup := h.nodup.of_map _
  have hne {e : NodeId × FeeFrac} (he : e ∈ heap) (hq : e.1 = worst.1) : e = worst :=
    inj_on_of_nodup_map h.nodup he hw hq
  constructor
  · intro e he
    obtain ⟨hneq,he⟩ := hn.mem_erase_iff.mp he
    obtain ⟨ho,_,hs⟩ := h.scores e he
    exact ⟨ho,fun hq => hneq (hne he hq),hs⟩
  · exact h.nodup.sublist (erase_sublist.map _)
  · intro peer hx hk
    obtain ⟨e,he,rfl⟩ := mem_map.mp (h.covers peer hx id)
    exact mem_map.mpr ⟨e,hn.mem_erase_iff.mpr ⟨fun hq => hk (hq ▸ rfl),he⟩,rfl⟩

variable [LinearOrder Wtxid]

section
variable (h : Consistent cfg st)
include h

theorem Consistent.usageByPeer_eq (peer : NodeId) :
    st.usageByPeer peer = (accountOf (held st.m_orphans) peer).m_total_usage := by
  rw [usageByPeer,h.peers peer]
  split_ifs with hm
  · rfl
  · exact (share_eq_zero hm).symm

theorem Consistent.peerLatency_eq (peer : NodeId) :
    st.latencyScoreFromPeer peer = (accountOf (held st.m_orphans) peer).m_total_latency_score := by
  rw [latencyScoreFromPeer,h.peers peer]
  split_ifs with hm
  · rfl
  · exact (share_eq_zero hm).symm

theorem Consistent.exceeds_iff :
    Exceeds S st peer ↔ (score S (accountOf (held st.m_orphans) peer)).higher .one = true := by
  rw [score_higher_one,Exceeds,h.usageByPeer_eq,h.peerLatency_eq,or_comm]

theorem Consistent.owner_of_exceeds (he : Exceeds S st peer) :
    peer ∈ owners (held st.m_orphans) := by
  by_contra hn
  simp only [Exceeds,h.usageByPeer_eq,h.peerLatency_eq,accountOf,share_eq_zero hn, Nat.not_lt_zero,
    or_self] at he

/-- While trimming is needed, a peer is above its share. -/
theorem Consistent.exists_exceeding (ht : needsTrim cfg st = true)
    (hl : #(owners (held st.m_orphans))*S.lat ≤ cfg.m_max_global_latency_score)
    (hm : S.mem = cfg.m_reserved_usage_per_peer) : ∃ peer, Exceeds S st peer := by
  rw [needsTrim,Bool.or_eq_true,decide_eq_true_eq,decide_eq_true_eq] at ht
  rcases ht with ht | ht
  · have hs := (hl.trans_lt ht).trans_le h.totalLatency_le
    obtain ⟨peer,_,hg⟩ := exists_share_gt hs
    refine ⟨peer,.inr ?_⟩
    rw [h.peerLatency_eq]
    exact hg
  · have he : #(owners (held st.m_orphans))*S.mem ≤ maxGlobalUsage cfg st := by
      rw [maxGlobalUsage,h.peers.length,hm,mul_comm]
      exact mul_le_mul_left _ (le_max_left _ _)
    rw [h.totals.usage] at ht
    have hs := (he.trans_lt ht).trans_le (sum_things_le _ _)
    obtain ⟨peer,_,hg⟩ := exists_share_gt hs
    refine ⟨peer,.inl ?_⟩
    rw [h.usageByPeer_eq]
    exact hg

end

/-- Some peer in the heap is above its share, so the worst one is. -/
theorem Heaped.worst (h : Heaped S st skip heap) (hs : Consistent cfg st) (hx : Exceeds S st peer)
    (hk : ¬skip peer) : ∃ worst, worstOf heap = some worst ∧ worst ∈ heap ∧
      worst.2.higher .one = true := by
  obtain ⟨e,he,rfl⟩ := mem_map.mp (h.covers peer hx hk)
  obtain ⟨worst,hw⟩ := worstOf_isSome he
  obtain ⟨hm,hl⟩ := worstOf_spec h.size_pos hw
  refine ⟨worst,hw,hm,?_⟩
  apply higher_one_of_le (h.size_pos worst hm) (h.size_pos e he) (hl e he)
  rw [(h.scores e he).2.2]
  exact hs.exceeds_iff.mp hx

theorem accountOf_erase_ne {A : Finset (NodeId × CTransaction)} (hn : ann.m_announcer ≠ peer) :
    accountOf (A.erase ann.pair) peer = accountOf A peer := by
  simp only [accountOf,Announcement.pair,share_erase_of_ne hn]

theorem Heaped.erase (h : Heaped S st (· = ann.m_announcer) heap) (hs : Consistent cfg st)
    (hm : ann ∈ st.m_orphans) (hs' : Consistent cfg st')
    (ho : st'.m_orphans = st.m_orphans.erase ann) : Heaped S st' (· = ann.m_announcer) heap := by
  have hh : held st'.m_orphans = (held st.m_orphans).erase ann.pair := by
    rw [ho,hs.held_erase hm]
  constructor
  · intro e he
    obtain ⟨hw,hn,hc⟩ := h.scores e he
    rw [hh,accountOf_erase_ne (Ne.symm hn),Announcement.pair,mem_owners_erase hn]
    exact ⟨hw,hn,hc⟩
  · exact h.nodup
  · intro peer hx hn
    refine h.covers peer ?_ hn
    rw [hs.exceeds_iff]
    rwa [hs'.exceeds_iff,hh,accountOf_erase_ne (Ne.symm hn)] at hx

/-- Announcements are evicted one by one, each while trimming is needed and from a peer above its
share. -/
inductive Evicts (cfg : OrphanageConfig Wtxid) (S : Shares) :
    TxOrphanage Wtxid → List (Eviction Wtxid) → TxOrphanage Wtxid → Prop where
  | nil (st : TxOrphanage Wtxid) : Evicts cfg S st [] st
  | cons {st next st' : TxOrphanage Wtxid} {ann : Announcement} {evictions : List (Eviction Wtxid)}
      (hmem : ann ∈ st.m_orphans) (htrim : needsTrim cfg st = true)
      (hexceeds : Exceeds S st ann.m_announcer) (herase : st.erase cfg ann = .ok next)
      (hrest : Evicts cfg S next evictions st') : Evicts cfg S st (⟨st,ann⟩::evictions) st'

variable {ev ev' : List (Eviction Wtxid)}

section
variable (h : Evicts cfg S st ev st')
include h

theorem Evicts.append {st'' : TxOrphanage Wtxid} (h' : Evicts cfg S st' ev' st'') :
    Evicts cfg S st (ev++ev') st'' := by
  induction h with
  | nil => exact h'
  | cons hm ht he hr _ ih => exact .cons hm ht he hr (ih h')

theorem Evicts.consistent (hs : Consistent cfg st) : Consistent cfg st' := by
  induction h with
  | nil => exact hs
  | cons hm _ _ he _ ih =>
    obtain ⟨next,he',hn,_⟩ := hs.erase hm
    rw [he'] at he
    exact ih (ok.inj he ▸ hn)

theorem Evicts.subset : st'.m_orphans ⊆ st.m_orphans := by
  induction h with
  | nil => exact List.Subset.refl _
  | cons _ _ _ he _ ih =>
    obtain ⟨peers,_,hn⟩ := bind_eq_ok.mp he
    have ho := congrArg TxOrphanage.m_orphans (ok.inj hn)
    exact List.Subset.trans ih (ho ▸ erase_subset)

theorem Evicts.owners_subset : owners (held st'.m_orphans) ⊆ owners (held st.m_orphans) := by
  intro peer hp
  obtain ⟨ann,hn,rfl⟩ := mem_owners_held.mp hp
  exact mem_owners_held.mpr ⟨ann,h.subset hn,rfl⟩

theorem Evicts.length (hs : Consistent cfg st) :
    st'.m_orphans.length+ev.length = st.m_orphans.length := by
  induction h with
  | nil => rfl
  | cons hm _ _ he _ ih =>
    obtain ⟨next,he',hn,ho⟩ := hs.erase hm
    obtain rfl := ok.inj (he'.symm.trans he)
    rw [length_cons,← add_assoc,ih hn,ho,length_erase_of_mem hm,
      Nat.sub_add_cancel (length_pos_of_mem hm)]

end

theorem trimPeer_of_not {lat mem : ℕ} {threshold : FeeFrac} (h : needsTrim cfg st = false)
    (an : List Announcement) : trimPeer cfg lat mem threshold wp an st = .ok (st,[]) := by
  cases an with
  | nil => simp [trimPeer,h]
  | cons ann an => simp [trimPeer,h]

/-- While the inner loop goes on and trimming is needed, the peer is above its share. -/
theorem Heaped.exceeds_of_above (h : Heaped S st (· = wp) heap) (hs : Consistent cfg st)
    (he : ∃ peer, Exceeds S st peer)
    (hab : less (((worstOf heap).map Prod.snd).getD .one)
      (score S (accountOf (held st.m_orphans) wp)) = true) : Exceeds S st wp := by
  obtain ⟨peer,hx⟩ := he
  by_cases hq : peer = wp
  · exact hq ▸ hx
  · obtain ⟨worst,hw,hm,hh⟩ := h.worst hs hx hq
    rw [hw] at hab
    exact hs.exceeds_iff.mpr (higher_one_of_le (score_size_pos S _) (h.size_pos worst hm)
      (le_of_less hab) hh)

theorem trimPeer_spec {m : List Announcement} (others : List Announcement) (hs : Consistent cfg st)
    (hno : m.Nodup)
    (hm : ∀ a, a ∈ m ↔ a ∈ st.m_orphans ∧ a.m_announcer = wp)
    (hh : Heaped S st (· = wp) heap)
    (hla : #(owners (held st.m_orphans))*S.lat ≤ cfg.m_max_global_latency_score)
    (hme : S.mem = cfg.m_reserved_usage_per_peer)
    (hx : needsTrim cfg st = true → Exceeds S st wp) : ∃ st' ev,
    trimPeer cfg S.lat S.mem (((worstOf heap).map Prod.snd).getD .one) wp (m++others) st =
      .ok (st',ev) ∧ Evicts cfg S st ev st' ∧ Heaped S st' (· = wp) heap ∧
      (needsTrim cfg st = true → ev ≠ []) := by
  induction m generalizing st with
  | nil =>
    have hn : needsTrim cfg st = false := by
      by_contra hn
      obtain ⟨a,ha,hq⟩ := mem_owners_held.mp (hs.owner_of_exceeds (hx (Bool.not_eq_false _ ▸ hn)))
      exact absurd ((hm a).mpr ⟨ha,hq⟩) not_mem_nil
    exact ⟨st,[],trimPeer_of_not hn _,.nil st,hh,fun h => absurd h (Bool.not_eq_true _ ▸ hn)⟩
  | cons ann m ih =>
    by_cases hn : needsTrim cfg st = true
    · obtain ⟨han,rfl⟩ := (hm ann).mp mem_cons_self
      obtain ⟨next,hr,hne,ho⟩ := hs.erase han
      have hh' := hh.erase hs han hne ho
      have he := Evicts.cons han hn (hx hn) hr (.nil next)
      have hw := he.owners_subset
      have hla' := (Nat.mul_le_mul_right S.lat (card_le_card hw)).trans hla
      have hl := hne.peers ann.m_announcer
      rw [cons_append,trimPeer,if_pos hn,if_neg (not_not.mpr rfl),hr,ok_bind,hl]
      by_cases hd : peerDone S.lat S.mem (((worstOf heap).map Prod.snd).getD .one)
          (if ann.m_announcer ∈ owners (held next.m_orphans) then
            some (accountOf (held next.m_orphans) ann.m_announcer) else none) = .ok true
      · rw [hd]
        exact ⟨next,_,rfl,he,hh',fun _ => cons_ne_nil _ _⟩
      · split_ifs at hd ⊢
        · rw [peerDone,getDosScore_eq,ok_bind,lessEq,pure_eq_ok,ok.injEq,
            Bool.not_eq_true',Bool.not_eq_false] at hd
          have hno := nodup_cons.mp hno
          obtain ⟨st',ev,ht,he',hh'',_⟩ := ih hne hno.2 (fun a => by
              rw [ho,hs.nodup.mem_erase_iff,and_assoc,← hm,List.mem_cons]
              refine ⟨fun ha => ⟨fun hq => hno.1 (hq ▸ ha),.inr ha⟩,fun ha => ?_⟩
              exact ha.2.resolve_left ha.1)
            hh' hla'
            (fun ht => hh'.exceeds_of_above hne (hne.exists_exceeding ht hla' hme) hd)
          refine ⟨st',⟨st,ann⟩::ev,?_,?_,hh'',fun _ => cons_ne_nil _ _⟩
          · rw [peerDone,getDosScore_eq,ok_bind,lessEq,hd]
            simp only [Bool.not_true,pure_eq_ok,ok_bind,ht,Bool.false_eq_true,if_false]
          · exact .cons han hn (hx hn) hr he'
        · exact absurd rfl hd
    · rw [Bool.not_eq_true] at hn
      exact ⟨st,[],trimPeer_of_not hn _,.nil st,hh,fun h => absurd h (Bool.not_eq_true _ ▸ hn)⟩

/-- The peer goes back into the heap if it still holds something. -/
theorem Heaped.pushBack (h : Heaped S st (· = wp) heap) (hs : Consistent cfg st) : ∃ heap',
    pushBack S.lat S.mem wp heap (st.m_peer_orphanage_info.lookup wp) = .ok heap' ∧
      Heaped S st (fun _ => False) heap' := by
  have hc : ∀ e ∈ heap, e.1 ∈ owners (held st.m_orphans) ∧ ¬False ∧
      e.2 = score S (accountOf (held st.m_orphans) e.1) := fun e he =>
    ⟨(h.scores e he).1,not_false,(h.scores e he).2.2⟩
  rw [hs.peers wp]
  split_ifs with ho
  · refine ⟨(wp,score S (accountOf (held st.m_orphans) wp))::heap,?_,?_,?_,?_⟩
    · rw [TxOrphanage.pushBack,if_pos (show 0 < (accountOf _ _).m_count_announcements from
        share_one_pos ho),getDosScore_eq]
      rfl
    · exact forall_mem_cons.mpr ⟨⟨ho,not_false,rfl⟩,hc⟩
    · refine nodup_cons.mpr ⟨fun hm => ?_,h.nodup⟩
      obtain ⟨e,he,hq⟩ := mem_map.mp hm
      exact (h.scores e he).2.1 hq
    · intro peer hx _
      by_cases hq : peer = wp
      · exact hq ▸ mem_cons_self
      · exact mem_cons_of_mem _ (h.covers peer hx hq)
  · refine ⟨heap,rfl,hc,h.nodup,fun peer hx _ => h.covers peer hx ?_⟩
    rintro rfl
    exact ho (hs.owner_of_exceeds hx)

theorem trimLoop_spec {fuel : ℕ} (hs : Consistent cfg st) (hn : needsTrim cfg st = true)
    (hh : Heaped S st (fun _ => False) heap)
    (hla : #(owners (held st.m_orphans))*S.lat ≤ cfg.m_max_global_latency_score)
    (hm : S.mem = cfg.m_reserved_usage_per_peer) (hf : st.m_orphans.length ≤ fuel) : ∃ st' ev,
    trimLoop cfg S.lat S.mem fuel heap st = .ok (st',ev) ∧ Evicts cfg S st ev st' ∧
      needsTrim cfg st' = false := by
  induction fuel generalizing st heap with
  | zero =>
    obtain ⟨peer,hx⟩ := hs.exists_exceeding hn hla hm
    obtain ⟨a,ha,_⟩ := mem_owners_held.mp (hs.owner_of_exceeds hx)
    exact absurd (length_pos_of_mem ha) (not_lt.mpr hf)
  | succ fuel ih =>
    obtain ⟨peer,hx⟩ := hs.exists_exceeding hn hla hm
    obtain ⟨⟨wp,ds⟩,hw,hworst_mem,hhi⟩ := hh.worst hs hx id
    obtain ⟨how,_,hc⟩ := hh.scores _ hworst_mem
    have hx : Exceeds S st wp := hs.exceeds_iff.mpr (hc ▸ hhi)
    have hpo := hh.pop hworst_mem
    obtain ⟨others,ho⟩ := byPeer_eq_append st wp
    obtain ⟨next,ev,ht,he,hh',hso⟩ := trimPeer_spec others hs
      (nodup_peerRange st wp hs.nodup) (fun a => mem_peerRange st wp) hpo hla hm
      fun _ => hx
    have hl : st.m_peer_orphanage_info.lookup wp = some (accountOf (held st.m_orphans) wp) := by
      rw [hs.peers wp,if_pos how]
    have hne := he.consistent hs
    rw [trimLoop,hw]
    dsimp only
    rw [if_pos hhi,hl,ho]
    rw [ht,ok_bind]
    by_cases hn' : needsTrim cfg next = true
    · obtain ⟨heap',hu,hhe⟩ := hh'.pushBack hne
      have hla' := (mul_le_mul_right S.lat (card_le_card he.owners_subset)).trans hla
      have hle := he.length hs
      have hp := length_pos_of_ne_nil (hso hn)
      obtain ⟨st',ev',hlo,he',hd⟩ := ih hne hn' hhe hla' (by omega)
      refine ⟨st',ev++ev',?_,he.append he',hd⟩
      rw [if_pos hn',hu,ok_bind,hlo]
      rfl
    · rw [if_neg hn']
      exact ⟨next,ev,rfl,he,Bool.not_eq_true _ ▸ hn'⟩

theorem scorePeers_eq (S : Shares) (peers : List (Σ _ : NodeId,PeerDoSInfo)) :
    scorePeers S.lat S.mem peers = .ok ((peers.map fun e => (e.1,score S e.2)).filter
      fun e => e.2.higher .one) := by
  induction peers with
  | nil => rfl
  | cons e peers ih =>
    rw [scorePeers,getDosScore_eq,ih,List.map_cons,List.filter_cons]
    rfl

theorem Consistent.heaped (h : Consistent cfg st) (S : Shares) : Heaped S st (fun _ => False)
    ((st.m_peer_orphanage_info.entries.map fun e => (e.1,score S e.2)).filter fun e =>
      e.2.higher .one) := by
  have hn {e : Σ _ : NodeId, PeerDoSInfo} (he : e ∈ st.m_peer_orphanage_info.entries) :
      e.1 ∈ owners (held st.m_orphans) ∧ e.2 = accountOf (held st.m_orphans) e.1 := by
    have hl : st.m_peer_orphanage_info.lookup e.1 = some e.2 := AList.mem_lookup_iff.mpr he
    rw [h.peers e.1] at hl
    split_ifs at hl with ho
    exact ⟨ho,(Option.some.inj hl).symm⟩
  constructor
  · intro e he
    obtain ⟨en,hn',rfl⟩ := mem_map.mp (mem_filter.mp he).1
    obtain ⟨ho,hin⟩ := hn hn'
    exact ⟨ho,not_false,congrArg (score S) hin⟩
  · refine List.Nodup.sublist (filter_sublist.map _) ?_
    rw [List.map_map]
    exact st.m_peer_orphanage_info.keys_nodup
  · intro peer hx _
    have ho := h.owner_of_exceeds hx
    have hl := h.peers peer
    rw [if_pos ho] at hl
    refine mem_map.mpr ⟨(peer,score S (accountOf (held st.m_orphans) peer)),?_,rfl⟩
    refine mem_filter.mpr ⟨mem_map.mpr ⟨⟨peer,_⟩,AList.mem_lookup_iff.mp hl,rfl⟩,?_⟩
    exact h.exceeds_iff.mp hx

section
variable (h : Consistent cfg st)
include h

variable (hr : cfg.InRange)

include hr in
theorem Consistent.owners_of_needsTrim (hn : needsTrim cfg st = true) :
    0 < #(owners (held st.m_orphans)) := by
  by_contra ho
  have he : owners (held st.m_orphans) = ∅ := card_eq_zero.mp (Nat.eq_zero_of_not_pos ho)
  have hl : #(owners (held st.m_orphans))*1 ≤ cfg.m_max_global_latency_score := by
    rw [he]
    exact zero_le _
  obtain ⟨peer,hx⟩ := h.exists_exceeding (S :=
    ⟨1,_,one_pos,hr.usage_pos,by norm_num,hr.usage_range⟩) hn hl rfl
  exact absurd (he ▸ h.owner_of_exceeds hx) (notMem_empty peer)

include hr in
theorem Consistent.shares (hn : needsTrim cfg st = true)
    (he : #(owners (held st.m_orphans)) ≤ cfg.m_max_global_latency_score) : ∃ S : Shares,
    S.lat = st.maxPeerLatencyScore cfg ∧ S.mem = cfg.m_reserved_usage_per_peer ∧
      #(owners (held st.m_orphans))*S.lat ≤ cfg.m_max_global_latency_score := by
  have hp := h.owners_of_needsTrim hr hn
  have hl : st.maxPeerLatencyScore cfg =
    cfg.m_max_global_latency_score / #(owners (held st.m_orphans)) := by
    rw [maxPeerLatencyScore,h.peers.length,max_eq_left (succ_le_of_lt hp)]
  have hq : #(owners (held st.m_orphans))*st.maxPeerLatencyScore cfg ≤
    cfg.m_max_global_latency_score := by
    rw [hl]
    exact mul_div_le _ _
  refine ⟨⟨st.maxPeerLatencyScore cfg,cfg.m_reserved_usage_per_peer,?_,hr.usage_pos,?_,
    hr.usage_range⟩,rfl,rfl,hq⟩
  · rw [hl]
    exact div_pos he hp
  · rw [hl]
    exact (div_le_self _ _).trans_lt (hr.latency_range.trans_lt (by norm_num))

include hr in
/-- `LimitOrphans` ends within the limits and evicts only from peers above their shares. -/
theorem limitOrphans_spec (hp : #(owners (held st.m_orphans)) ≤ cfg.m_max_global_latency_score) :
    ∃ st' ev,
    st.limitOrphans cfg = .ok (st',ev) ∧ Consistent cfg st' ∧ needsTrim cfg st' = false ∧
      (st' = st ∧ ev = [] ∨ ∃ S : Shares, S.lat = st.maxPeerLatencyScore cfg ∧
        S.mem = cfg.m_reserved_usage_per_peer ∧ Evicts cfg S st ev st') := by
  by_cases hn : needsTrim cfg st = true
  · obtain ⟨S,hla,hm,hq⟩ := h.shares hr hn hp
    obtain ⟨st',ev,hl,he,hd⟩ := trimLoop_spec h hn (h.heaped S) hq hm le_rfl
    refine ⟨st',ev,?_,he.consistent h,hd,.inr ⟨S,hla,hm,he⟩⟩
    rw [limitOrphans,if_pos hn]
    dsimp only
    rw [← hla,← hm,scorePeers_eq,ok_bind,hl]
  · rw [limitOrphans,if_neg hn]
    exact ⟨st,[],rfl,h,Bool.not_eq_true _ ▸ hn,.inl ⟨rfl,rfl⟩⟩

/-- With more peers than scores to give out the shares are empty, which `GetDosScore` rejects. -/
theorem limitOrphans_overfull (hn : needsTrim cfg st = true)
    (hp : cfg.m_max_global_latency_score < #(owners (held st.m_orphans))) :
    st.limitOrphans cfg = .error .assertion := by
  have hl := h.peers.length
  have hla : st.maxPeerLatencyScore cfg = 0 := by
    rw [maxPeerLatencyScore,hl]
    exact div_eq_of_lt (hp.trans_le (le_max_left _ _))
  rw [limitOrphans,if_pos hn]
  rw [hla]
  cases he : st.m_peer_orphanage_info.entries with
  | nil =>
    rw [he] at hl
    exact absurd (hl ▸ hp) (not_lt_zero _)
  | cons e entries => rfl

end

section
variable (h : Evicts cfg S st ev st')
include h

theorem Evicts.exceeds : ∀ e ∈ ev, Exceeds S e.before e.ann.m_announcer := by
  induction h with
  | nil => exact nofun
  | cons _ _ he _ _ ih => exact forall_mem_cons.mpr ⟨he,ih⟩

/-- A peer within its shares keeps all its announcements. -/
theorem Evicts.keeps (hs : Consistent cfg st) (hw : ¬Exceeds S st peer) :
    ∀ a ∈ st.m_orphans, a.m_announcer = peer → a ∈ st'.m_orphans := by
  induction h with
  | nil => exact fun a ha _ => ha
  | @cons st next st' ann ev hm _ hx hr _ ih =>
    intro a ha han
    obtain ⟨next',hr',hn,ho⟩ := hs.erase hm
    obtain rfl := ok.inj (hr'.symm.trans hr)
    have hne : ann.m_announcer ≠ peer := fun he => hw (he ▸ hx)
    refine ih hn ?_ a ?_ han
    · rwa [hn.exceeds_iff,ho,hs.held_erase hm,accountOf_erase_ne hne,← hs.exceeds_iff]
    · rw [ho,hs.nodup.mem_erase_iff]
      exact ⟨fun he => hne (he ▸ han),ha⟩

theorem Evicts.evicted (hs : Consistent cfg st) : ∀ a ∈ st.m_orphans, a ∈ st'.m_orphans ∨ ∃ e ∈ ev,
    e.ann = a := by
  induction h with
  | nil => exact fun a ha => .inl ha
  | @cons st next st' ann ev hm _ _ hr _ ih =>
    intro a ha
    obtain ⟨next',hr',hn,ho⟩ := hs.erase hm
    obtain rfl := ok.inj (hr'.symm.trans hr)
    by_cases hq : a = ann
    · exact .inr ⟨_,mem_cons_self,hq.symm⟩
    · have ha' : a ∈ next'.m_orphans := by
        rw [ho,hs.nodup.mem_erase_iff]
        exact ⟨hq,ha⟩
      exact (ih hn a ha').imp_right fun ⟨e,he,hq⟩ => ⟨e,mem_cons_of_mem _ he,hq⟩

end

/-- Whenever `LimitOrphans` returns, it has evicted from peers above their shares only. -/
theorem limitOrphans_evicts (h : Consistent cfg st) (hr : cfg.InRange)
    (hl : st.limitOrphans cfg = .ok (st',ev)) :
    st' = st ∧ ev = [] ∨ ∃ S : Shares, S.lat = st.maxPeerLatencyScore cfg ∧
      S.mem = cfg.m_reserved_usage_per_peer ∧ Evicts cfg S st ev st' := by
  by_cases hp : #(owners (held st.m_orphans)) ≤ cfg.m_max_global_latency_score
  · obtain ⟨last,ev',hl',_,_,he⟩ := limitOrphans_spec h hr hp
    obtain ⟨rfl,rfl⟩ := Prod.mk.inj (ok.inj (hl'.symm.trans hl))
    exact he
  · by_cases hn : needsTrim cfg st = true
    · rw [limitOrphans_overfull h hn (Nat.lt_of_not_le hp)] at hl
      exact absurd hl nofun
    · rw [limitOrphans,if_neg hn] at hl
      obtain ⟨rfl,rfl⟩ := Prod.mk.inj (ok.inj hl)
      exact .inl ⟨rfl,rfl⟩

end TxOrphanage

end DripCore
