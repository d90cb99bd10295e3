import DripCore.OrphanageLimits
import DripCore.OrphanageSanity

/-!
# Runs of the orphanage

Every operation keeps the orphanage consistent and within its limits, as long as no more peers
announce transactions than there are latency scores, and different transactions have different
wtxids. The peers and transactions that may occur are fixed for a run.
-/
namespace DripCore
open Bool ExceptRules Finset List Nat TxOrphanage

namespace TxOrphanage
variable {Wtxid : Type}

/-- The peers and transactions of a run with limits in range. -/
structure Setting (cfg : OrphanageConfig Wtxid) where
  inRange : cfg.InRange
  peers : Finset NodeId
  txs : Set CTransaction
  injOn : Set.InjOn cfg.getWitnessHash txs

structure Allowed {cfg : OrphanageConfig Wtxid} (U : Setting cfg) (op : Operation Wtxid) :
    Prop where
  announcer : ∀ peer ∈ op.announcer, peer ∈ U.peers
  transaction : ∀ tx ∈ op.transaction, tx ∈ U.txs

/-- The peers and transactions that the operations bring in. -/
def settingOf {cfg : OrphanageConfig Wtxid} (hrange : cfg.InRange) (ops : List (Operation Wtxid))
    (hhash : Set.InjOn cfg.getWitnessHash {tx | tx ∈ ops.filterMap Operation.transaction}) :
      Setting cfg where
  inRange := hrange
  peers := (ops.filterMap Operation.announcer).toFinset
  txs := {tx | tx ∈ ops.filterMap Operation.transaction}
  injOn := hhash

theorem allowed_settingOf {cfg : OrphanageConfig Wtxid} (hrange : cfg.InRange)
    {ops : List (Operation Wtxid)}
    (hhash : Set.InjOn cfg.getWitnessHash {tx | tx ∈ ops.filterMap Operation.transaction}) :
    ∀ op ∈ ops, Allowed (settingOf hrange ops hhash) op := fun op hop =>
  ⟨fun _ hp => mem_toFinset.mpr (mem_filterMap.mpr ⟨op,hop,hp⟩),
    fun _ ht => mem_filterMap.mpr ⟨op,hop,ht⟩⟩

variable [LinearOrder Wtxid]

/-- A consistent state in which only these peers and transactions occur. -/
structure Within {cfg : OrphanageConfig Wtxid} (U : Setting cfg) (st : TxOrphanage Wtxid) :
    Prop where
  consistent : Consistent cfg st
  peers : ∀ ann ∈ st.m_orphans, ann.m_announcer ∈ U.peers
  txs : ∀ ann ∈ st.m_orphans, ann.m_tx ∈ U.txs

variable {cfg : OrphanageConfig Wtxid} {U : Setting cfg} {st st' : TxOrphanage Wtxid}
    {peer : NodeId}
  {tx : CTransaction} {w : Wtxid}

theorem within_init : Within U init where
  consistent := consistent_init
  peers := nofun
  txs := nofun

theorem Within.subset (h : Within U st) (ht' : Consistent cfg st')
    (hs : st'.m_orphans ⊆ st.m_orphans) :
    Within U st' where
  consistent := ht'
  peers ann ha := h.peers ann (hs ha)
  txs ann ha := h.txs ann (hs ha)

section

variable {next : List Announcement}

/-- There is room for one more announcement before a count could wrap around. -/
def HasCount (st : TxOrphanage Wtxid) : Prop :=
  ∑ p ∈ held st.m_orphans, p.2.latencyScore + 244 < 2 ^ 32

theorem mem_stored {ann a : Announcement} (he : st.emplace cfg ann = some next) :
    a ∈ (stored cfg st ann next).m_orphans ↔ a = ann ∨ a ∈ st.m_orphans := by
  rw [(stored_fields cfg st ann next).1,(emplace_eq_some he).2]
  exact mem_orderedInsert _

theorem Within.stored (h : Within U st) (ann : Announcement) (hp : ann.m_announcer ∈ U.peers)
    (ht : ann.m_tx ∈ U.txs) (hs : ann.m_entry_sequence = st.m_current_sequence)
    (hm : ann.m_reconsider = false) (hw : getTransactionWeight ann.m_tx ≤ maxStandardTxWeight)
    (hroom : HasCount st) (he : st.emplace cfg ann = some next) :
      Within U (stored cfg st ann next) := by
  have hst' := h.consistent.stored (fun a ha hq => U.injOn (h.txs a ha) ht hq) hs hm hw hroom he
  refine ⟨hst',fun a ha => ?_,fun a ha => ?_⟩
  · exact ((mem_stored he).mp ha).elim (fun hq => hq ▸ hp) (h.peers a)
  · exact ((mem_stored he).mp ha).elim (fun hq => hq ▸ ht) (h.txs a)

/-- An announcement is refused only if the peer has one already. -/
theorem owner_of_emplace_none {ann : Announcement} (he : st.emplace cfg ann = none) :
    ann.m_announcer ∈ owners (held st.m_orphans) := by
  unfold emplace at he
  split_ifs at he with ha
  obtain ⟨other, ho, hk⟩ := any_eq_true.mp ha
  refine mem_owners_held.mpr ⟨other, ho, ?_⟩
  rcases Bool.or_eq_true_iff.mp hk with hk | hk
  · exact congrArg (fun key => (ofLex key).2) (of_decide_eq_true hk)
  · exact congrArg (fun key => (ofLex key).1) (of_decide_eq_true hk)

theorem Within.storeTx (h : Within U st) (hroom : HasCount st) (hp : peer ∈ U.peers)
    (ht : tx ∈ U.txs) : ∃ next,
    st.storeTx cfg tx peer = .ok next ∧ ∀ reached ∈ next,
      Within U reached ∧ st.m_orphans ⊆ reached.m_orphans := by
  unfold TxOrphanage.storeTx
  by_cases hw : maxStandardTxWeight < getTransactionWeight tx
  · rw [if_pos hw]
    exact ⟨none,rfl,nofun⟩
  · rw [if_neg hw]
    cases he : st.emplace cfg ⟨tx,peer,st.m_current_sequence,false⟩ with
    | none => exact ⟨none,rfl,nofun⟩
    | some orphans =>
      have hwi := h.stored ⟨tx,peer,st.m_current_sequence,false⟩ hp ht rfl rfl (not_lt.mp hw) hroom
        he
      have hu : isUnique cfg orphans ⟨tx,peer,st.m_current_sequence,false⟩ =
          !st.haveTx cfg (cfg.getWitnessHash tx) := hwi.consistent.isUnique_stored he
      refine ⟨some (TxOrphanage.stored cfg st ⟨tx,peer,st.m_current_sequence,false⟩ orphans),?_,?_⟩
      · dsimp only
        rw [failIf_of_false (by rw [hu,bne_self_eq_false]),TxOrphanage.stored,wtxid]
        cases st.haveTx cfg (cfg.getWitnessHash tx) with
        | true => rfl
        | false => rfl
      · rintro _ ⟨⟩
        exact ⟨hwi,fun a ha => (mem_stored he).mpr (.inr ha)⟩

theorem Within.storeAnnouncer (h : Within U st) (hroom : HasCount st) (hp : peer ∈ U.peers)
    (w : Wtxid) : ∃ next,
    st.storeAnnouncer cfg w peer = .ok next ∧ ∀ reached ∈ next,
      Within U reached ∧ st.m_orphans ⊆ reached.m_orphans := by
  unfold TxOrphanage.storeAnnouncer
  split
  · exact ⟨none,rfl,nofun⟩
  · next first rest hr =>
    have hf : first ∈ st.equalRange cfg w := hr ▸ mem_cons_self
    obtain ⟨hm,hw⟩ := mem_filter.mp hf
    dsimp only
    cases he : st.emplace cfg ⟨first.m_tx,peer,st.m_current_sequence,false⟩ with
    | none => exact ⟨none,rfl,nofun⟩
    | some orphans =>
      have hwi := h.stored ⟨first.m_tx,peer,st.m_current_sequence,false⟩ hp (h.txs first hm) rfl rfl
        (h.consistent.standard first hm) hroom he
      have hh : st.haveTx cfg (wtxid cfg ⟨first.m_tx,peer,st.m_current_sequence,false⟩) = true :=
        haveTx_iff.mpr ⟨first,hm,rfl⟩
      have hu := hwi.consistent.isUnique_stored he
      have hs : st.m_orphans ⊆ _ := fun a ha => (mem_stored he).mpr (.inr ha)
      rw [TxOrphanage.stored,if_pos hh] at hwi hs
      refine ⟨some (st.announce ⟨first.m_tx,peer,st.m_current_sequence,false⟩ orphans),?_,?_⟩
      · dsimp only
        rw [failIf_of_false (by rw [hu,hh]; rfl)]
        rfl
      · rintro _ ⟨⟩
        exact ⟨hwi,hs⟩

end

section

theorem Within.eraseAll {an : List Announcement} (h : Within U st) (hn : an.Nodup)
    (hm : ∀ ann ∈ an, ann ∈ st.m_orphans) : ∃ st', eraseAll cfg an st = .ok st' ∧ Within U st' ∧
      ∀ a, a ∈ st'.m_orphans ↔ a ∈ st.m_orphans ∧ a ∉ an := by
  obtain ⟨st',he,hs',ho⟩ := h.consistent.eraseAll hn hm
  exact ⟨st',he,h.subset hs' fun a ha => ((ho a).mp ha).1,ho⟩

theorem mem_equalRange {ann : Announcement} : ann ∈ st.equalRange cfg w ↔
    ann ∈ st.m_orphans ∧ wtxid cfg ann = w := by
  rw [equalRange,mem_filter,decide_eq_true_eq]

theorem Within.eraseTxInternal (h : Within U st) (w : Wtxid) : ∃ st',
    st.eraseTxInternal cfg w = .ok (st',st.haveTx cfg w) ∧ Within U st' ∧
      ∀ a, a ∈ st'.m_orphans ↔ a ∈ st.m_orphans ∧ wtxid cfg a ≠ w := by
  obtain ⟨st',he,hs',ho⟩ := h.eraseAll (h.consistent.nodup.filter _) fun ann ha =>
    (mem_equalRange.mp ha).1
  refine ⟨st',?_,hs',fun a => ?_⟩
  · rw [TxOrphanage.eraseTxInternal,equalRange,he]
    rfl
  · rw [ho,← equalRange,mem_equalRange]
    tauto

theorem Within.removePeer (h : Within U st) (peer : NodeId) : ∃ next,
    st.removePeer cfg peer = .ok next ∧ ∀ reached ∈ next, Within U reached := by
  unfold TxOrphanage.removePeer
  split_ifs
  · exact ⟨none,rfl,nofun⟩
  · obtain ⟨next,her,hn,ho⟩ := h.eraseAll (nodup_peerRange st peer h.consistent.nodup)
      fun ann han => ((mem_peerRange st peer).mp han).1
    have hno : next.m_peer_orphanage_info.lookup peer = none := by
      rw [hn.consistent.peers peer,if_neg]
      intro hw
      obtain ⟨a,ha,he⟩ := mem_owners_held.mp hw
      obtain ⟨hm,ht⟩ := (ho a).mp ha
      exact ht ((mem_peerRange st peer).mpr ⟨hm,he⟩)
    refine ⟨some next,?_,fun reached hr => Option.some.inj hr ▸ hn⟩
    rw [her,ok_bind,failIf_of_false (by rw [hno]; rfl)]
    rfl

/-- All wtxids are found if they are there and different. -/
theorem Within.eraseWtxids {wt : List Wtxid} (h : Within U st) (hn : wt.Nodup)
    (hh : ∀ w ∈ wt, st.haveTx cfg w = true) : ∃ st',
    eraseWtxids cfg wt st = .ok (st',wt.length) ∧ Within U st' := by
  induction wt generalizing st with
  | nil => exact ⟨st,rfl,h⟩
  | cons w wt ih =>
    obtain ⟨hno,hn⟩ := nodup_cons.mp hn
    obtain ⟨next,her,hne,ho⟩ := h.eraseTxInternal w
    have hh' : ∀ w' ∈ wt, next.haveTx cfg w' = true := by
      intro w' hw'
      obtain ⟨a,ha,rfl⟩ := haveTx_iff.mp (hh w' (mem_cons_of_mem _ hw'))
      exact haveTx_iff.mpr ⟨a,(ho a).mpr ⟨ha,fun he => hno (he ▸ hw')⟩,rfl⟩
    obtain ⟨last,hr,hl⟩ := ih hne hn hh'
    refine ⟨last,?_,hl⟩
    rw [eraseWtxids,her,ok_bind,hh w mem_cons_self]
    dsimp only
    rw [hr,length_cons,add_comm]
    rfl

theorem Consistent.haveTx_of_spenders (h : Consistent cfg st) {o : COutPoint}
    (hw : w ∈ st.spenders o) :
    st.haveTx cfg w = true := by
  obtain ⟨tx,ht,rfl,_⟩ := (h.links.linked o w).mp hw
  obtain ⟨ann,ha,rfl⟩ := mem_things_held.mp ht
  exact haveTx_iff.mpr ⟨ann,ha,rfl⟩

theorem mem_wtxidsToErase {vtx : List CTransaction} (h : w ∈ st.wtxidsToErase vtx) : ∃ o,
    w ∈ st.spenders o := by
  unfold wtxidsToErase at h
  generalize vtx.flatMap CTransaction.prevouts = ou at h
  have hf : ∀ acc : Finset Wtxid, w ∈ ou.foldl (fun wt o => wt∪st.spenders o) acc →
      w ∈ acc ∨ ∃ o, w ∈ st.spenders o := by
    clear h
    induction ou with
    | nil => exact fun acc hw => .inl hw
    | cons o ou ih =>
      intro acc hw
      rcases ih _ hw with hw | hw
      · exact (mem_union.mp hw).imp_right fun hw => ⟨o,hw⟩
      · exact .inr hw
  exact (hf ∅ h).resolve_left (notMem_empty _)

theorem Within.removeBlock (h : Within U st) (vtx : List CTransaction) : ∃ next,
    st.removeBlock cfg vtx = .ok next ∧ ∀ reached ∈ next, Within U reached := by
  unfold TxOrphanage.removeBlock
  split_ifs
  · exact ⟨none,rfl,nofun⟩
  · obtain ⟨next,he,hn⟩ := h.eraseWtxids ((st.wtxidsToErase vtx).sort_nodup (· ≤ ·)) fun w hw => by
        obtain ⟨o,hw⟩ := mem_wtxidsToErase ((mem_sort _).mp hw)
        exact h.consistent.haveTx_of_spenders hw
    refine ⟨some next,?_,fun reached hr => Option.some.inj hr ▸ hn⟩
    dsimp only
    rw [he,ok_bind]
    rw [length_sort,failIf_of_false (bne_self_eq_false _)]
    rfl

variable {op : Operation Wtxid}

/-- The state in which `LimitOrphans` is called is consistent. Announcements only add to it. -/
theorem Within.reached (h : Within U st) (hroom : HasCount st) (hop : Allowed U op) : ∃ next,
    st.reached cfg op = .ok next ∧ ∀ reached ∈ next, Within U reached ∧
      (op.announcer.isSome → st.m_orphans ⊆ reached.m_orphans) := by
  cases op with
  | addTx tx peer =>
    obtain ⟨next,hs,hn⟩ := h.storeTx hroom (hop.announcer peer rfl) (hop.transaction tx rfl)
    exact ⟨next,hs,fun reached hr => (hn reached hr).imp_right fun hu _ => hu⟩
  | addAnnouncer w peer =>
    obtain ⟨next,hs,hn⟩ := h.storeAnnouncer hroom (hop.announcer peer rfl) w
    exact ⟨next,hs,fun reached hr => (hn reached hr).imp_right fun hu _ => hu⟩
  | eraseTx w =>
    obtain ⟨next,he,hn,_⟩ := h.eraseTxInternal w
    refine ⟨some next,?_,?_⟩
    · rw [reached,he]
      rfl
    · rintro _ ⟨⟩
      exact ⟨hn,nofun⟩
  | eraseForPeer peer =>
    obtain ⟨next,hre,hn⟩ := h.removePeer peer
    exact ⟨next,hre,fun reached hr => ⟨hn reached hr,nofun⟩⟩
  | eraseForBlock vtx =>
    obtain ⟨next,hre,hn⟩ := h.removeBlock vtx
    exact ⟨next,hre,fun reached hr => ⟨hn reached hr,nofun⟩⟩
  | addChildrenToWorkSet tx => exact ⟨none,rfl,nofun⟩
  | getTxToReconsider peer => exact ⟨none,rfl,nofun⟩

theorem limits_of_reached {reached : TxOrphanage Wtxid}
    (h : st.reached cfg op = .ok (some reached)) :
    op.limits = true := by
  cases op with
  | addChildrenToWorkSet tx => exact absurd (Except.ok.inj h) nofun
  | getTxToReconsider peer => exact absurd (Except.ok.inj h) nofun
  | _ => rfl

theorem apply_eq {σ : Type} {R : RandomContext σ} {rng : σ} {next : Option (TxOrphanage Wtxid)}
    {last : TxOrphanage Wtxid} (hop : op.limits = true) (hr : st.reached cfg op = .ok next)
    (ht : st.thenLimit cfg next = .ok last) :
    st.apply cfg R rng op = .ok (last,rng) := by
  cases op with
  | addTx tx peer =>
    rw [reached] at hr
    rw [apply,addTx,hr,ok_bind,ht]
    rfl
  | addAnnouncer w peer =>
    rw [reached] at hr
    rw [apply,addAnnouncer,hr,ok_bind,ht]
    rfl
  | eraseTx w =>
    obtain ⟨⟨e,ret⟩,he,hn⟩ := bind_eq_ok.mp hr
    obtain rfl : some e = next := Except.ok.inj hn
    rw [apply,eraseTx,he,ok_bind]
    dsimp only
    rw [ht]
    rfl
  | eraseForPeer peer =>
    rw [reached] at hr
    rw [apply,eraseForPeer,hr,ok_bind,ht]
    rfl
  | eraseForBlock vtx =>
    rw [reached] at hr
    rw [apply,eraseForBlock,hr,ok_bind,ht]
    rfl
  | addChildrenToWorkSet tx => exact absurd hop false_ne_true
  | getTxToReconsider peer => exact absurd hop false_ne_true

end

/-- A state within the limits. -/
structure Valid {cfg : OrphanageConfig Wtxid} (U : Setting cfg) (st : TxOrphanage Wtxid) : Prop
    extends Within U st where
  trimmed : needsTrim cfg st = false

theorem valid_init : Valid U init where
  toWithin := within_init
  trimmed := by
    rw [needsTrim,or_eq_false_iff]
    exact ⟨decide_eq_false (not_lt_zero _),decide_eq_false (not_lt_zero _)⟩

theorem Within.owners_le (h : Within U st) : #(owners (held st.m_orphans)) ≤ #U.peers := by
  refine card_le_card fun peer hp => ?_
  obtain ⟨ann,ha,rfl⟩ := mem_owners_held.mp hp
  exact h.peers ann ha

theorem Within.owners_reached_le (h : Within U st) (hroom : HasCount st) {op : Operation Wtxid}
    (hop : Allowed U op)
    {c : TxOrphanage Wtxid} (hc : st.reached cfg op = .ok (some c)) :
    #(owners (held c.m_orphans)) ≤ #U.peers := by
  obtain ⟨next,hr,hn⟩ := h.reached hroom hop
  obtain rfl := Except.ok.inj (hr.symm.trans hc)
  exact (hn c rfl).1.owners_le

theorem Within.limit (h : Within U st)
    (hp : #(owners (held st.m_orphans)) ≤ cfg.m_max_global_latency_score) :
    ∃ st' e, st.limitOrphans cfg = .ok (st',e) ∧ Valid U st' := by
  obtain ⟨st',e,hl,hs',ht,hq | ⟨S,_,_,he⟩⟩ := limitOrphans_spec h.consistent U.inRange hp
  · exact ⟨st',e,hl,hq.1 ▸ h,ht⟩
  · exact ⟨st',e,hl,h.subset hs' he.subset,ht⟩

section
variable {σ : Type} {R : RandomContext σ}

section
variable (h : Valid U st)
include h

theorem Valid.hasCount : HasCount st := h.consistent.room U.inRange h.trimmed

/-- Marking changes nothing that the limits depend on. -/
theorem Valid.remarked {ann : Announcement} {r : Bool} {marks : Finset Wtxid}
    (he : ann ∈ st.m_orphans) (hs' : Consistent cfg { st with
      m_orphans := modify ann r st.m_orphans
      m_reconsiderable_wtxids := marks }) : Valid U { st with
      m_orphans := modify ann r st.m_orphans
      m_reconsiderable_wtxids := marks } := by
  have hm := h.consistent.modify_eq he r
  refine ⟨⟨hs',fun a ha => ?_,fun a ha => ?_⟩,?_⟩
  · rw [hm] at ha
    obtain ⟨a',ha',rfl⟩ := mem_map.mp ha
    rw [(remark_fields ann r a').2.1]
    exact h.peers a' ha'
  · rw [hm] at ha
    obtain ⟨a',ha',rfl⟩ := mem_map.mp ha
    rw [(remark_fields ann r a').1]
    exact h.txs a' ha'
  · have ht := h.trimmed
    rw [needsTrim,totalLatencyScore] at ht ⊢
    rw [hm,length_map]
    exact ht

theorem Valid.reconsiderWtxid (hh : st.haveTx cfg w = true) (rng : σ) : ∃ st' rng' ret,
    reconsiderWtxid cfg R w st rng = .ok (st',rng',ret) ∧ Valid U st' ∧
      ∀ w', st.haveTx cfg w' = true → st'.haveTx cfg w' = true := by
  unfold TxOrphanage.reconsiderWtxid
  by_cases hm : w ∈ st.m_reconsiderable_wtxids
  · rw [if_pos hm]
    exact ⟨st,rng,[],rfl,h,fun _ => id⟩
  · rw [if_neg hm]
    dsimp only
    obtain ⟨a,ha,rfl⟩ := haveTx_iff.mp hh
    have hp : 0 < (st.equalRange cfg (wtxid cfg a)).length :=
      length_pos_of_mem (mem_equalRange.mpr ⟨ha,rfl⟩)
    have he : (st.equalRange cfg (wtxid cfg a)).isEmpty = false :=
      isEmpty_eq_false_iff.mpr (ne_nil_of_length_pos hp)
    have hl := R.randrange_lt _ rng hp
    rw [he,List.getElem?_eq_getElem hl]
    dsimp only
    generalize hn : (st.equalRange cfg (wtxid cfg a))[(R.randrange
      (st.equalRange cfg (wtxid cfg a)).length rng).1] = ann
    obtain ⟨hme,hw⟩ := mem_equalRange.mp (hn ▸ getElem_mem hl)
    have hma : ann.m_reconsider = false := by
      rw [eq_false_iff]
      exact fun hma => hm ((h.consistent.marks _).mpr ⟨ann,hme,hma,hw⟩)
    rw [hma]
    have hs' := h.consistent.mark hme (hw ▸ hm)
    rw [hw] at hs'
    refine ⟨_,_,_,rfl,h.remarked hme hs',fun w' hw' => ?_⟩
    obtain ⟨b,hb,rfl⟩ := haveTx_iff.mp hw'
    refine haveTx_iff.mpr ⟨remark ann true b,?_,?_⟩
    · rw [h.consistent.modify_eq hme]
      exact mem_map_of_mem hb
    · rw [wtxid,(remark_fields ann true b).1,wtxid]

theorem Valid.reconsiderAll {wt : List Wtxid} (hh : ∀ w ∈ wt, st.haveTx cfg w = true) (rng : σ) :
    ∃ st' rng' ret,
    reconsiderAll cfg R wt st rng = .ok (st',rng',ret) ∧ Valid U st' := by
  induction wt generalizing st rng with
  | nil => exact ⟨st,rng,[],rfl,h⟩
  | cons w wt ih =>
    obtain ⟨next,rng',ret,hs,hn,hk⟩ := h.reconsiderWtxid (R := R) (hh w mem_cons_self) rng
    obtain ⟨last,rng'',rest,hr,hl⟩ :=
      ih hn (fun w' hw' => hk w' (hh w' (mem_cons_of_mem _ hw'))) rng'
    refine ⟨last,rng'',ret++rest,?_,hl⟩
    rw [reconsiderAll,hs,ok_bind]
    dsimp only
    rw [hr]
    rfl

theorem Valid.addChildrenToWorkSet (tx : CTransaction) (rng : σ) : ∃ st' rng' ret,
    st.addChildrenToWorkSet cfg R tx rng = .ok (st',rng',ret) ∧ Valid U st' := by
  refine h.reconsiderAll (fun w hw => ?_) rng
  obtain ⟨i,_,hw⟩ := mem_flatMap.mp hw
  exact h.consistent.haveTx_of_spenders ((mem_sort _).mp hw)

theorem Valid.getTxToReconsider (peer : NodeId) : Valid U (st.getTxToReconsider cfg peer).1 := by
  unfold TxOrphanage.getTxToReconsider
  split
  · exact h
  · next ann hh =>
    split_ifs with hm
    · have he := ((mem_byPeer st).mp (mem_of_head? hh)).1
      exact h.remarked he (h.consistent.unmark he hm.2)
    · exact h

theorem Valid.thenLimit {next : Option (TxOrphanage Wtxid)}
    (hn : ∀ reached ∈ next, Within U reached ∧
      #(owners (held reached.m_orphans)) ≤ cfg.m_max_global_latency_score) :
    ∃ last, st.thenLimit cfg next = .ok last ∧ Valid U last := by
  cases next with
  | none => exact ⟨st,rfl,h⟩
  | some reached =>
    obtain ⟨hin,hp⟩ := hn reached rfl
    obtain ⟨last,e,hl,ha⟩ := hin.limit hp
    refine ⟨last,?_,ha⟩
    rw [TxOrphanage.thenLimit,hl]
    rfl

theorem Valid.apply {op : Operation Wtxid} (hop : Allowed U op)
    (hp : ∀ reached, st.reached cfg op = .ok (some reached) →
      #(owners (held reached.m_orphans)) ≤ cfg.m_max_global_latency_score) (rng : σ) : ∃ st' rng',
    st.apply cfg R rng op = .ok (st',rng') ∧ Valid U st' := by
  by_cases hl : op.limits = true
  · obtain ⟨next,hr,hn⟩ := h.reached h.hasCount hop
    obtain ⟨last,ht,hla⟩ := h.thenLimit fun c hc =>
      ⟨(hn c hc).1,hp c (Option.mem_def.mp hc ▸ hr)⟩
    exact ⟨last,rng,apply_eq hl hr ht,hla⟩
  · cases op with
    | addChildrenToWorkSet tx =>
      obtain ⟨last,rng',ret,ha,hla⟩ := h.addChildrenToWorkSet (R := R) tx rng
      refine ⟨last,rng',?_,hla⟩
      rw [TxOrphanage.apply,ha]
      rfl
    | getTxToReconsider peer => exact ⟨_,rng,rfl,h.getTxToReconsider peer⟩
    | _ => exact absurd rfl hl

theorem Valid.run {ops : List (Operation Wtxid)} (ho : ∀ op ∈ ops, Allowed U op)
    (hp : #U.peers ≤ cfg.m_max_global_latency_score) (rng : σ) : ∃ st' rng',
    run cfg R ops st rng = .ok (st',rng') ∧ Valid U st' := by
  induction ops generalizing st rng with
  | nil => exact ⟨st,rng,rfl,h⟩
  | cons op ops ih =>
    obtain ⟨hop,ho⟩ := forall_mem_cons.mp ho
    obtain ⟨next,rng',hs,hn⟩ := h.apply (R := R) hop (fun c hc =>
      (h.owners_reached_le h.hasCount hop hc).trans hp) rng
    obtain ⟨last,rng'',hr,hl⟩ := ih hn ho rng'
    refine ⟨last,rng'',?_,hl⟩
    rw [run,hs]
    exact hr

/-- The usage is within what is reserved for the peers that are there. -/
theorem Valid.usage_le :
    st.m_unique_orphan_usage ≤
      cfg.m_reserved_usage_per_peer*st.m_peer_orphanage_info.entries.length := by
  rcases Nat.eq_zero_or_pos st.m_peer_orphanage_info.entries.length with hz | hp
  · have ho : owners (held st.m_orphans) = ∅ :=
      card_eq_zero.mp (h.consistent.peers.length.symm.trans hz)
    have hh : things (held st.m_orphans) = ∅ := by
      refine eq_empty_of_forall_notMem fun tx hx => ?_
      obtain ⟨ann,ha,_⟩ := mem_things_held.mp hx
      exact absurd (ho ▸ mem_owners_held.mpr ⟨ann,ha,rfl⟩) (notMem_empty _)
    rw [h.consistent.totals.usage,hh]
    exact zero_le _
  · have ht := h.trimmed
    rw [needsTrim,or_eq_false_iff,maxGlobalUsage,max_eq_left hp] at ht
    exact Nat.le_of_not_lt (of_decide_eq_false ht.2)

theorem Valid.totalLatency_le_max : st.totalLatencyScore ≤ cfg.m_max_global_latency_score := by
  have ht := h.trimmed
  rw [needsTrim,or_eq_false_iff] at ht
  exact Nat.le_of_not_lt (of_decide_eq_false ht.1)

end

theorem Consistent.spends_iff (h : Consistent cfg st) (o : COutPoint) (w : Wtxid) :
    w ∈ st.spenders o ↔ ∃ ann ∈ st.m_orphans, wtxid cfg ann = w ∧ o ∈ ann.m_tx.prevouts := by
  refine (h.links.linked o w).trans ⟨?_,?_⟩
  · rintro ⟨tx,ht,hw,ho⟩
    obtain ⟨ann,ha,rfl⟩ := mem_things_held.mp ht
    exact ⟨ann,ha,hw,ho⟩
  · rintro ⟨ann,ha,hw,ho⟩
    exact ⟨ann.m_tx,mem_things_held.mpr ⟨ann,ha,rfl⟩,hw,ho⟩

/-- In every run no assertion fails, also none of `LimitOrphans`, and the sanity check passes after
it. -/
theorem orphanage_invariants (cfg : OrphanageConfig Wtxid) (hrange : cfg.InRange)
    (R : RandomContext σ) (rng : σ) (ops : List (Operation Wtxid))
    (hpeers : #(ops.filterMap Operation.announcer).toFinset ≤ cfg.m_max_global_latency_score)
    (hhash : Set.InjOn cfg.getWitnessHash {tx | tx ∈ ops.filterMap Operation.transaction}) :
      ∃ st rng',
    run cfg R ops init rng = .ok (st, rng') ∧ st.sanityCheck cfg = .ok () ∧
      (∀ o w, w ∈ st.spenders o ↔ ∃ ann ∈ st.m_orphans, wtxid cfg ann = w ∧ o ∈ ann.m_tx.prevouts) ∧
      st.totalLatencyScore ≤ cfg.m_max_global_latency_score ∧
      st.m_unique_orphan_usage ≤
        cfg.m_reserved_usage_per_peer * st.m_peer_orphanage_info.entries.length := by
  obtain ⟨st,rng',hr,hs⟩ := valid_init.run (R := R) (allowed_settingOf hrange hhash) hpeers rng
  exact ⟨st,rng',hr,hs.consistent.sanityCheck hs.trimmed,hs.consistent.spends_iff,
    hs.totalLatency_le_max,hs.usage_le⟩

theorem no_outputs : 0 < 2^32 := by decide

def orphan (txid : Txid) : CTransaction where
  version := 2
  vin := [⟨⟨100,0⟩,[],0xffffffff,[]⟩]
  vout := []
  nLockTime := 0
  hash := txid
  vin_size := by simp
  vout_size := no_outputs
  scriptSig_size := by simp

/-- Two announcements, each of which needs one of the two scores. -/
def smallOrphanage : OrphanageConfig ℕ :=
  ⟨fun tx => tx.hash.toNat, 2, 1000⟩

theorem smallOrphanage_inRange : smallOrphanage.InRange := ⟨by decide, by decide, by decide⟩

def firstContext : RandomContext Unit where
  rand64 rng := (0,rng)
  randrange _ rng := (0,rng)
  randbool rng := (false,rng)
  randrange_lt _ _ h := h

/-- The first peer announces two transactions, and the second one of them. -/
def exampleRun : List (Operation ℕ) :=
  [.addTx (orphan 1) 7,.addTx (orphan 2) 7,.addAnnouncer 2 8,.eraseForPeer 7]

theorem injOn_exampleRun : Set.InjOn smallOrphanage.getWitnessHash
    {tx | tx ∈ exampleRun.filterMap Operation.transaction} := by
  intro a ha b hb hab
  rcases mem_pair.mp ha with rfl | rfl
  all_goals rcases mem_pair.mp hb with rfl | rfl
  · rfl
  · exact absurd hab (by decide)
  · exact absurd hab (by decide)
  · rfl

/-- Nothing is reserved for peers, so that trimming fails at once. -/
theorem unreserved_fails_assertion : ∃ cfg : OrphanageConfig ℕ,
    #(([.addTx (orphan 1) 7] : List (Operation ℕ)).filterMap Operation.announcer).toFinset ≤
      cfg.m_max_global_latency_score ∧
    run cfg firstContext [.addTx (orphan 1) 7] init () = .error .assertion :=
  ⟨⟨fun tx => tx.hash.toNat, 1, 0⟩, by decide, rfl⟩

theorem orphanage_invariants_example : ∃ st rng',
    run smallOrphanage firstContext exampleRun init () = .ok (st, rng') ∧
      st.sanityCheck smallOrphanage = .ok () := by
  obtain ⟨st,rng',hr,hs,_⟩ :=
    orphanage_invariants smallOrphanage smallOrphanage_inRange firstContext () exampleRun
      (by decide)
      injOn_exampleRun
  exact ⟨st,rng',hr,hs⟩

end

variable {σ : Type}

/-- The peers and transactions of a state and of an operation. -/
def settingWith (hrange : cfg.InRange) (h : Consistent cfg st) (op : Operation Wtxid)
    (hhash : ∀ tx ∈ op.transaction, ∀ ann ∈ st.m_orphans,
      wtxid cfg ann = cfg.getWitnessHash tx → ann.m_tx = tx) : Setting cfg where
  inRange := hrange
  peers := owners (held st.m_orphans) ∪ op.announcer.toFinset
  txs := {tx | (∃ ann ∈ st.m_orphans, ann.m_tx = tx) ∨ tx ∈ op.transaction}
  injOn := by
    rintro a (⟨x,hx,rfl⟩ | ha) b (⟨y,hy,rfl⟩ | hb) hab
    · exact h.collision x hx y hy hab
    · exact hhash b hb x hx hab
    · exact (hhash a ha y hy hab.symm).symm
    · exact Option.some.inj (Eq.trans (Eq.symm ha) hb)

section
variable (hrange : cfg.InRange) (h : Consistent cfg st) {op : Operation Wtxid}
  (hhash : ∀ tx ∈ op.transaction, ∀ ann ∈ st.m_orphans, wtxid cfg ann = cfg.getWitnessHash tx →
    ann.m_tx = tx)

theorem within_settingWith : Within (settingWith hrange h op hhash) st :=
  ⟨h,fun ann ha => mem_union_left _ (mem_owners_held.mpr ⟨ann,ha,rfl⟩),
    fun ann ha => .inl ⟨ann,ha,rfl⟩⟩

theorem allowed_settingWith : Allowed (settingWith hrange h op hhash) op :=
  ⟨fun _ hp => mem_union_right _ (Option.mem_toFinset.mpr hp),fun _ ht => .inr ht⟩

end

/-- `LimitOrphans` returns for as many peers as there are scores to give out. At the end of an
operation it has evicted only announcements of peers that were above the reserved usage or above the
latency score per peer as of its start. A peer within both shares keeps all that it announced. -/
theorem orphanage_reservation (cfg : OrphanageConfig Wtxid) (hrange : cfg.InRange)
    (R : RandomContext σ) (rng : σ) (st : TxOrphanage Wtxid) (h : Consistent cfg st)
    (htrimmed : needsTrim cfg st = false) (op : Operation Wtxid)
    (hhash : ∀ tx ∈ op.transaction, ∀ ann ∈ st.m_orphans,
      wtxid cfg ann = cfg.getWitnessHash tx → ann.m_tx = tx) : ∃ next,
    st.reached cfg op = .ok next ∧ ∀ called ∈ next,
      (op.announcer.isSome → st.m_orphans ⊆ called.m_orphans) ∧
      (called.m_peer_orphanage_info.entries.length ≤ cfg.m_max_global_latency_score →
        ∃ result, called.limitOrphans cfg = .ok result) ∧
      ∀ last evictions, called.limitOrphans cfg = .ok (last, evictions) →
        st.apply cfg R rng op = .ok (last, rng) ∧
        (∀ ann ∈ called.m_orphans, ann ∈ last.m_orphans ∨ ∃ e ∈ evictions, e.ann = ann) ∧
        (∀ e ∈ evictions, cfg.m_reserved_usage_per_peer < e.before.usageByPeer e.ann.m_announcer ∨
          called.maxPeerLatencyScore cfg < e.before.latencyScoreFromPeer e.ann.m_announcer) ∧
        ∀ peer, called.usageByPeer peer ≤ cfg.m_reserved_usage_per_peer →
          called.latencyScoreFromPeer peer ≤ called.maxPeerLatencyScore cfg →
          ∀ ann ∈ called.m_orphans, ann.m_announcer = peer → ann ∈ last.m_orphans := by
  obtain ⟨next,hr,hn⟩ := (within_settingWith hrange h hhash).reached (h.room hrange htrimmed)
    (allowed_settingWith hrange h hhash)
  refine ⟨next,hr,fun called hca => ?_⟩
  obtain rfl : next = some called := hca
  obtain ⟨hw,hsu⟩ := hn called rfl
  have hc := hw.consistent
  refine ⟨hsu,fun hp => ?_,fun last evictions hl => ?_⟩
  · obtain ⟨last,evictions,hl,_⟩ := limitOrphans_spec hc hrange (hc.peers.length ▸ hp)
    exact ⟨_,hl⟩
  · have ha : st.apply cfg R rng op = .ok (last,rng) := by
      refine apply_eq (limits_of_reached hr) hr ?_
      rw [thenLimit,hl]
      rfl
    refine ⟨ha,?_⟩
    rcases limitOrphans_evicts hc hrange hl with ⟨rfl,rfl⟩ | ⟨S,hla,hm,he⟩
    · exact ⟨fun ann han => .inl han,nofun,fun peer _ _ ann han _ => han⟩
    · refine ⟨he.evicted hc,hla ▸ hm ▸ he.exceeds,?_⟩
      intro peer hu hs
      rw [← hm] at hu
      rw [← hla] at hs
      exact he.keeps hc (not_or.mpr ⟨not_lt.mpr hu,not_lt.mpr hs⟩)

/-- Before the second peer comes, after the first one has announced two transactions. -/
theorem orphanage_reservation_example : ∃ st,
    run smallOrphanage firstContext (exampleRun.take 2) init () = .ok (st, ()) ∧
      ∃ next, st.reached smallOrphanage (.addAnnouncer 2 8) = .ok next ∧
        ∀ called ∈ next, ∀ last evictions,
          called.limitOrphans smallOrphanage = .ok (last, evictions) →
          ∀ e ∈ evictions, 1000 < e.before.usageByPeer e.ann.m_announcer ∨
            called.maxPeerLatencyScore smallOrphanage <
              e.before.latencyScoreFromPeer e.ann.m_announcer := by
  obtain ⟨st,rng',hu,hs⟩ := valid_init.run (R := firstContext)
    (fun op hop => allowed_settingOf smallOrphanage_inRange injOn_exampleRun op
    (mem_of_mem_take hop)) (by decide) ()
  obtain ⟨next,hr,hn⟩ := orphanage_reservation smallOrphanage smallOrphanage_inRange firstContext ()
    st
    hs.consistent hs.trimmed (.addAnnouncer 2 8) nofun
  refine ⟨st,hu,next,hr,fun called hc last evictions hl => ?_⟩
  exact ((hn called hc).2.2 last evictions hl).2.2.1

/-- A reserved usage whose low 32 bits are one. -/
def wideOrphanage : OrphanageConfig ℕ := ⟨fun tx => tx.hash.toNat, 2, 2 ^ 32 + 1⟩

/-- A transaction with as much weight as three of the others. -/
def heavyOrphan (txid : Txid) : CTransaction where
  version := 2
  vin := List.replicate 4 ⟨⟨100, 0⟩, [], 0xffffffff, []⟩
  vout := []
  nLockTime := 0
  hash := txid
  vin_size := by simp
  vout_size := no_outputs
  scriptSig_size := by simp

set_option maxRecDepth 4000 in
/-- The usage of the first peer is within what is reserved and its score within the share, but its
announcement is evicted because of the second peer. -/
theorem wideOrphanage_evicts : ∃ st called last evictions,
    run wideOrphanage firstContext [.addTx (heavyOrphan 3) 8, .addTx (orphan 1) 7] init () =
      .ok (st, ()) ∧
    st.reached wideOrphanage (.addTx (orphan 2) 7) = .ok (some called) ∧
    called.usageByPeer 8 ≤ wideOrphanage.m_reserved_usage_per_peer ∧
    called.latencyScoreFromPeer 8 ≤ called.maxPeerLatencyScore wideOrphanage ∧
    called.limitOrphans wideOrphanage = .ok (last, evictions) ∧
    (∃ ann ∈ called.m_orphans, ann.m_announcer = 8) ∧ ∀ ann ∈ last.m_orphans,
      ann.m_announcer ≠ 8 := by
  refine ⟨_, _, _, _, rfl, rfl, ?_, ?_, rfl, ?_, ?_⟩
  all_goals decide +kernel

/-- Whether an operation stores an announcement, unless the peer has made it before. -/
def Operation.stores (cfg : OrphanageConfig Wtxid) (st : TxOrphanage Wtxid) : Operation Wtxid → Bool
  | .addTx tx _ => decide (getTransactionWeight tx ≤ maxStandardTxWeight)
  | .addAnnouncer w _ => st.haveTx cfg w
  | _ => false

/-- Together with the peer that announces something, no more peers than there are scores. -/
def HasRoom (cfg : OrphanageConfig Wtxid) (st : TxOrphanage Wtxid) (op : Operation Wtxid) : Prop :=
  op.stores cfg st = true → ∀ peer ∈ op.announcer,
    #(insert peer st.m_peer_orphanage_info.keys.toFinset) ≤ cfg.m_max_global_latency_score

def HasRoomThroughout (cfg : OrphanageConfig Wtxid) (R : RandomContext σ) :
    List (Operation Wtxid) → TxOrphanage Wtxid → σ → Prop
  | [], _, _ => True
  | op::ops, st, rng => HasRoom cfg st op ∧
    ∀ next rng', st.apply cfg R rng op = .ok (next,rng') → HasRoomThroughout cfg R ops next rng'

theorem reached_of_not_stores {op : Operation Wtxid} (hop : op.announcer.isSome)
    (h : op.stores cfg st = false) : st.reached cfg op = .ok none := by
  cases op with
  | addTx tx peer => exact if_pos (not_le.mp (of_decide_eq_false h))
  | addAnnouncer w peer =>
    have hn : st.equalRange cfg w = [] := by simpa [Operation.stores,haveTx] using h
    rw [reached,storeAnnouncer,hn]
    rfl
  | _ => cases hop

theorem exists_called {op : Operation Wtxid} (hs : op.stores cfg st = true)
    (hp : peer ∈ op.announcer) (hnew : peer ∉ owners (held st.m_orphans))
    {next : Option (TxOrphanage Wtxid)} (hr : st.reached cfg op = .ok next) : ∃ called,
    next = some called ∧ peer ∈ owners (held called.m_orphans) := by
  cases op with
  | addTx tx q =>
    obtain rfl : q = peer := Option.some.inj hp
    rw [reached, storeTx, if_neg (not_lt.mpr (of_decide_eq_true hs))] at hr
    dsimp only at hr
    cases he : st.emplace cfg ⟨tx, q, st.m_current_sequence, false⟩ with
    | none => exact absurd (owner_of_emplace_none he) hnew
    | some orphans =>
      rw [he] at hr
      obtain ⟨-, -, hr⟩ := bind_eq_ok.mp hr
      obtain rfl := Except.ok.inj hr
      refine ⟨_, rfl, mem_owners_held.mpr ⟨⟨tx, q, st.m_current_sequence, false⟩, ?_, rfl⟩⟩
      have hm : (⟨tx, q, st.m_current_sequence, false⟩ : Announcement) ∈ orphans := by
        rw [(emplace_eq_some he).2]
        exact (mem_orderedInsert _).mpr (.inl rfl)
      split_ifs <;> exact hm
  | addAnnouncer w q =>
    obtain rfl : q = peer := Option.some.inj hp
    rw [reached, storeAnnouncer] at hr
    split at hr
    · next hn => simp [Operation.stores, haveTx, hn] at hs
    · next first rest hf =>
      dsimp only at hr
      cases he : st.emplace cfg ⟨first.m_tx, q, st.m_current_sequence, false⟩ with
      | none => exact absurd (owner_of_emplace_none he) hnew
      | some orphans =>
        rw [he] at hr
        obtain ⟨-, -, hr⟩ := bind_eq_ok.mp hr
        obtain rfl := Except.ok.inj hr
        refine ⟨_, rfl, mem_owners_held.mpr ⟨⟨first.m_tx, q, st.m_current_sequence, false⟩, ?_,
          rfl⟩⟩
        change _ ∈ orphans
        rw [(emplace_eq_some he).2]
        exact (mem_orderedInsert _).mpr (.inl rfl)
  | _ => cases hs

theorem apply_of_called {R : RandomContext σ} {rng : σ} {op : Operation Wtxid}
    {called : TxOrphanage Wtxid} {e : OrphanageFailure}
    (hr : st.reached cfg op = .ok (some called)) (hf : called.limitOrphans cfg = .error e) :
    st.apply cfg R rng op = .error e := by
  have ht : st.thenLimit cfg (some called) = .error e := by
    rw [thenLimit, hf]
    rfl
  cases op with
  | addTx tx peer =>
    rw [reached] at hr
    rw [apply, addTx, hr, ok_bind, ht]
    rfl
  | addAnnouncer w peer =>
    rw [reached] at hr
    rw [apply, addAnnouncer, hr, ok_bind, ht]
    rfl
  | eraseTx w =>
    obtain ⟨⟨next, ret⟩, he, hn⟩ := bind_eq_ok.mp hr
    obtain rfl := Option.some.inj (Except.ok.inj hn)
    rw [apply, eraseTx, he, ok_bind]
    dsimp only
    rw [ht]
    rfl
  | eraseForPeer peer =>
    rw [reached] at hr
    rw [apply, eraseForPeer, hr, ok_bind, ht]
    rfl
  | eraseForBlock vtx =>
    rw [reached] at hr
    rw [apply, eraseForBlock, hr, ok_bind, ht]
    rfl
  | addChildrenToWorkSet tx => exact nomatch Except.ok.inj hr
  | getTxToReconsider peer => exact nomatch Except.ok.inj hr

section
variable (h : Valid U st) {op : Operation Wtxid} (hop : Allowed U op)
include h

theorem Valid.owners_le_max : #(owners (held st.m_orphans)) ≤ cfg.m_max_global_latency_score :=
  calc #(owners (held st.m_orphans)) ≤ #(held st.m_orphans) := card_image_le
    _ = st.m_orphans.length := h.consistent.card_held
    _ ≤ st.totalLatencyScore := h.consistent.totalLatencyScore_eq ▸ Nat.le_add_left _ _
    _ ≤ cfg.m_max_global_latency_score := h.totalLatency_le_max

include hop

theorem Valid.owners_reached_le_max (hr : HasRoom cfg st op) {c : TxOrphanage Wtxid}
    (hc : st.reached cfg op = .ok (some c)) :
    #(owners (held c.m_orphans)) ≤ cfg.m_max_global_latency_score := by
  have hhash : ∀ tx ∈ op.transaction, ∀ ann ∈ st.m_orphans,
      wtxid cfg ann = cfg.getWitnessHash tx → ann.m_tx = tx := fun tx ht ann hn he =>
    U.injOn (h.txs ann hn) (hop.transaction tx ht) he
  refine ((within_settingWith U.inRange h.consistent hhash).owners_reached_le h.hasCount
    (allowed_settingWith U.inRange _ hhash) hc).trans ?_
  cases ha : op.announcer with
  | none =>
    rw [settingWith,ha,Option.toFinset_none,union_empty]
    exact h.owners_le_max
  | some peer =>
    rw [settingWith,ha,Option.toFinset_some,union_comm,← Finset.insert_eq,← h.consistent.peers.keys]
    refine hr ?_ peer ha
    by_contra hs
    rw [reached_of_not_stores (ha ▸ rfl) (Bool.not_eq_true _ ▸ hs)] at hc
    cases hc

end

/-- A peer beyond the number of scores makes the operation fail. -/
theorem Valid.hasRoom_of_apply {R : RandomContext σ} (h : Valid U st) {op : Operation Wtxid}
    (hop : Allowed U op) {rng : σ} {r : TxOrphanage Wtxid × σ}
    (ha : st.apply cfg R rng op = .ok r) : HasRoom cfg st op := by
  intro hs peer hp
  by_contra hmany
  rw [not_le, h.consistent.peers.keys] at hmany
  obtain ⟨next, hr, hn⟩ := h.reached h.hasCount hop
  have hnew : peer ∉ owners (held st.m_orphans) := fun hm => by
    rw [insert_eq_of_mem hm] at hmany
    exact absurd h.owners_le_max (not_le.mpr hmany)
  obtain ⟨called, rfl, hm⟩ := exists_called hs hp hnew hr
  obtain ⟨hw, hsub⟩ := hn called rfl
  have hc := hw.consistent
  -- The peers of the state are there in the next one, together with the new one.
  have hover : cfg.m_max_global_latency_score < #(owners (held called.m_orphans)) := by
    refine hmany.trans_le (card_le_card fun q hq => ?_)
    rcases mem_insert.mp hq with rfl | hq
    · exact hm
    · obtain ⟨ann, han, rfl⟩ := mem_owners_held.mp hq
      exact mem_owners_held.mpr ⟨ann, hsub (Option.isSome_of_mem hp) han, rfl⟩
  have hl : #(owners (held called.m_orphans)) ≤ called.totalLatencyScore := by
    rw [hc.totalLatencyScore_eq, ← hc.card_held]
    exact card_image_le.trans (Nat.le_add_left _ _)
  have ht : needsTrim cfg called = true := by
    rw [needsTrim, maxGlobalLatencyScore, decide_eq_true (hover.trans_le hl), Bool.true_or]
  have hfail := limitOrphans_overfull hc ht hover
  rw [apply_of_called hr hfail] at ha
  cases ha

theorem Valid.run_of_hasRoom {R : RandomContext σ} (h : Valid U st) {ops : List (Operation Wtxid)}
    (ho : ∀ op ∈ ops, Allowed U op) {rng : σ} (hr : HasRoomThroughout cfg R ops st rng)
    {f : List (Operation Wtxid)} (hf : f <+: ops) : ∃ st' rng',
    TxOrphanage.run cfg R f st rng = .ok (st', rng') ∧ Valid U st' := by
  induction f generalizing ops st rng with
  | nil => exact ⟨st, rng, rfl, h⟩
  | cons op f ih =>
    obtain ⟨rest, rfl⟩ := hf
    obtain ⟨hop, ho⟩ := forall_mem_cons.mp ho
    obtain ⟨hfi, hr⟩ := hr
    obtain ⟨next, rng', hs, hn⟩ :=
      h.apply (R := R) hop (fun _ => h.owners_reached_le_max hop hfi) rng
    obtain ⟨last, rng'', he, hl⟩ := ih hn ho (hr next rng' hs) ⟨rest, rfl⟩
    refine ⟨last, rng'', ?_, hl⟩
    rw [TxOrphanage.run, hs]
    exact he

theorem Valid.hasRoomThroughout {R : RandomContext σ}
    (h : Valid U st) {ops : List (Operation Wtxid)}
    (ho : ∀ op ∈ ops, Allowed U op) {rng : σ}
    (hr : ∀ front, front <+: ops → ∃ r, TxOrphanage.run cfg R front st rng = .ok r) :
    HasRoomThroughout cfg R ops st rng := by
  induction ops generalizing st rng with
  | nil => trivial
  | cons op ops ih =>
    obtain ⟨hop, ho⟩ := forall_mem_cons.mp ho
    obtain ⟨r, hfirst⟩ := hr [op] ⟨ops, rfl⟩
    obtain ⟨⟨next, rng'⟩, hs, -⟩ := bind_eq_ok.mp hfirst
    have hroom := h.hasRoom_of_apply hop hs
    obtain ⟨next', rng'', hs', hn⟩ := h.apply (R := R) hop
      (fun _ => h.owners_reached_le_max hop hroom) rng
    obtain ⟨rfl, rfl⟩ := Prod.mk.inj (Except.ok.inj (hs'.symm.trans hs))
    refine ⟨hroom, fun last rng₁ hl => ?_⟩
    obtain ⟨rfl, rfl⟩ := Prod.mk.inj (Except.ok.inj (hs.symm.trans hl))
    refine ih hn ho fun front hf => ?_
    obtain ⟨r, hrun⟩ := hr (op :: front) ((prefix_cons_inj op).mpr hf)
    rw [TxOrphanage.run, hs] at hrun
    exact ⟨r, hrun⟩

/-- No assertion fails in any part of a run if and only if no peer comes when as many peers as there
are scores have announcements. Then the sanity check passes in every state of the run. -/
theorem orphanage_crash_free (cfg : OrphanageConfig Wtxid) (hrange : cfg.InRange)
    (R : RandomContext σ) (rng : σ) (ops : List (Operation Wtxid))
    (hhash : Set.InjOn cfg.getWitnessHash {tx | tx ∈ ops.filterMap Operation.transaction}) :
    HasRoomThroughout cfg R ops init rng ↔ ∀ front, front <+: ops → ∃ st rng',
      run cfg R front init rng = .ok (st, rng') ∧ st.sanityCheck cfg = .ok () := by
  constructor
  · intro hr front hf
    obtain ⟨st, rng', hu, hs⟩ := valid_init.run_of_hasRoom (allowed_settingOf hrange hhash) hr hf
    exact ⟨st, rng', hu, hs.consistent.sanityCheck hs.trimmed⟩
  · intro hr
    refine valid_init.hasRoomThroughout (allowed_settingOf hrange hhash) fun front hf => ?_
    obtain ⟨st, rng', hu, -⟩ := hr front hf
    exact ⟨_, hu⟩

/-- As many peers as there are scores, one of which is trimmed. -/
theorem orphanage_crash_free_example :
    HasRoomThroughout smallOrphanage firstContext exampleRun init () := by
  refine (orphanage_crash_free smallOrphanage smallOrphanage_inRange firstContext () exampleRun
    injOn_exampleRun).mpr fun front hf => ?_
  obtain ⟨st, rng', hu, hs⟩ := valid_init.run (R := firstContext)
    (fun op hop => allowed_settingOf smallOrphanage_inRange injOn_exampleRun op (hf.subset hop))
    (by decide) ()
  exact ⟨st, rng', hu, hs.consistent.sanityCheck hs.trimmed⟩

/-- The share of a third peer is zero when there are two scores. -/
theorem third_peer_fails_assertion : 0 < smallOrphanage.m_max_global_latency_score ∧
    run smallOrphanage firstContext [.addTx (orphan 1) 7, .addAnnouncer 1 8,
      .addAnnouncer 1 9] init () =
      .error .assertion :=
  ⟨by decide,rfl⟩

end TxOrphanage

end DripCore
