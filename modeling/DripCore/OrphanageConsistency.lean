import DripCore.SharedHoldings
import DripCore.TxOrphanage

/-!
# A consistent orphanage

The pairs of a peer and a transaction that it announced determine what the orphanage keeps besides
its announcements: the accounts of the peers, the totals, and the index of outpoints.

The invariant has one part for each thing that is kept. A change of one announcement is a change of
one pair, and each operation is a sequence of such changes.
-/
namespace DripCore
open Announcement ExceptRules Finset List Option

theorem toCount_of_lt {n : ℕ} (h : n < 2 ^ 32) : toCount n = n := Nat.mod_eq_of_lt h

def CTransaction.latencyScore (tx : CTransaction) : ℕ := 1+tx.vin.length / 10

section

theorem length_flatMap_ge {α β : Type} {f : α → List β} {m : ℕ} (h : ∀ a, m ≤ (f a).length)
    (l : List α) : m * l.length ≤ (l.flatMap f).length := by
  induction l with
  | nil => exact Nat.le_refl 0
  | cons a l ih =>
    have ha := h a
    rw [flatMap_cons, length_append, length_cons, Nat.mul_add]
    omega

/-- An input has an outpoint, the length of its script and a sequence number. -/
theorem length_input_ge (txin : CTxIn) : 41 ≤ txin.serialize.length := by
  have hc : 1 ≤ (writeCompactSize txin.scriptSig.length).length := by
    unfold writeCompactSize
    split_ifs <;> simp
  simp only [CTxIn.serialize, COutPoint.serialize, CScript.serialize, length_append,
    PrefixCode.length_leBytes]
  omega

/-- A standard transaction has less than 2440 inputs. -/
theorem latencyScore_le {tx : CTransaction} (h : getTransactionWeight tx ≤ maxStandardTxWeight) :
    tx.latencyScore ≤ 244 := by
  have hi := length_flatMap_ge length_input_ge tx.vin
  have h1 : 41 * tx.vin.length ≤ tx.serializeSize := by
    simp only [CTransaction.serializeSize, CTransaction.serialize, length_append]
    omega
  have h2 : 41 * tx.vin.length ≤ (serializeTransaction true tx.toMutable).length := by
    simp only [serializeTransaction, writeVector, length_append, CTransaction.toMutable]
    omega
  rw [getTransactionWeight, maxStandardTxWeight, witnessScaleFactor] at h
  rw [CTransaction.latencyScore]
  omega

end

def Announcement.pair (ann : Announcement) : NodeId × CTransaction := (ann.m_announcer,ann.m_tx)

theorem ite_subtract {i : PeerDoSInfo} {ann : Announcement} {u c l : ℕ}
    (h : i = ⟨ann.getMemUsage+u,1+c,ann.getLatencyScore+l⟩) :
    i.subtract ann = .ok ⟨u,c,l⟩ := by
  subst h
  rw [PeerDoSInfo.subtract,if_pos ⟨Nat.le_add_right _ _,Nat.le_add_right _ _,Nat.le_add_right _ _⟩]
  simp only [Nat.add_sub_cancel_left]

namespace TxOrphanage
variable {ann a b : Announcement} {orphans : List Announcement} {peer : NodeId} {tx : CTransaction}
  {Wtxid : Type} {T : Finset CTransaction}

section

def accountOf (A : Finset (NodeId × CTransaction)) (peer : NodeId) : PeerDoSInfo where
  m_total_usage := share A getTransactionWeight peer
  m_count_announcements := share A (fun _ => 1) peer
  m_total_latency_score := share A CTransaction.latencyScore peer

/-- The accounts are those of the peers that hold something. -/
def PeersMatch (peers : AList fun _ : NodeId => PeerDoSInfo) (A : Finset (NodeId × CTransaction)) :
    Prop :=
  ∀ peer, peers.lookup peer = if peer ∈ owners A then some (accountOf A peer) else none

variable {p p' : AList fun _ : NodeId => PeerDoSInfo} {A : Finset (NodeId × CTransaction)}

theorem peersMatch_empty : PeersMatch ∅ ∅ := fun _ => rfl

theorem share_one_pos (h : peer ∈ owners A) : 0 < share A (fun _ => 1) peer := by
  obtain ⟨tx,hmem⟩ := mem_owners.mp h
  rw [← share_erase hmem]
  exact Nat.add_pos_left Nat.one_pos _

theorem share_le_sum (f : CTransaction → ℕ) (peer : NodeId) : share A f peer ≤ ∑ p ∈ A, f p.2 :=
  sum_le_sum_of_subset (filter_subset _ _)

theorem sum_le_scores {f : CTransaction → ℕ} (hf : ∀ tx, f tx ≤ tx.latencyScore)
    (A : Finset (NodeId × CTransaction)) : ∑ p ∈ A, f p.2 ≤ ∑ p ∈ A, p.2.latencyScore :=
  sum_le_sum fun p _ => hf p.2

variable (h : PeersMatch p A)
include h

theorem PeersMatch.lookup_getD (peer : NodeId) : (p.lookup peer).getD .init = accountOf A peer := by
  rw [h peer]
  split_ifs with hmem
  · rfl
  · rw [accountOf,share_eq_zero hmem,share_eq_zero hmem,share_eq_zero hmem]
    rfl

theorem PeersMatch.add (hn : ann.pair ∉ A)
    (hf : ∑ p ∈ insert ann.pair A, p.2.latencyScore < 2 ^ 32) :
    PeersMatch (p.insert ann.m_announcer (((p.lookup ann.m_announcer).getD .init).add ann))
      (insert ann.pair A) := by
  intro peer
  rw [pair,owners_insert]
  by_cases he : peer = ann.m_announcer
  · subst he
    have hl := (share_le_sum CTransaction.latencyScore ann.m_announcer).trans_lt hf
    have hc := ((share_le_sum (fun _ => 1) ann.m_announcer).trans
      (sum_le_scores (fun tx => Nat.le_add_right 1 _) _)).trans_lt hf
    rw [pair, share_insert hn] at hl hc
    rw [AList.lookup_insert, if_pos (mem_insert_self _ _), h.lookup_getD]
    simp only [accountOf, share_insert hn, PeerDoSInfo.add, getMemUsage, getLatencyScore,
      add_comm (share A _ _)]
    rw [toCount_of_lt hc, ← CTransaction.latencyScore, toCount_of_lt hl]
  · rw [AList.lookup_insert_ne he,h peer]
    have hmem : peer ∈ insert ann.m_announcer (owners A) ↔ peer ∈ owners A :=
      mem_insert.trans (or_iff_right he)
    simp only [hmem,accountOf,share_insert_of_ne (Ne.symm he)]

theorem PeersMatch.subtract (hmem : ann.pair ∈ A) : ∃ p',
    subtractPeer p ann = .ok p' ∧ PeersMatch p' (A.erase ann.pair) := by
  have ho : ann.m_announcer ∈ owners A := mem_owners.mpr ⟨ann.m_tx,hmem⟩
  have hl := h ann.m_announcer
  rw [if_pos ho] at hl
  have hs : (accountOf A ann.m_announcer).subtract ann =
    .ok (accountOf (A.erase ann.pair) ann.m_announcer) := by
    apply ite_subtract
    simp only [accountOf,← share_erase hmem]
    rfl
  refine ⟨_,by rw [subtractPeer,hl]; simp only [hs]; rfl,fun peer => ?_⟩
  have hc : (accountOf (A.erase ann.pair) ann.m_announcer).m_count_announcements = 0 ↔
      ann.m_announcer ∉ owners (A.erase ann.pair) := by
    constructor
    · exact fun hz hmem => (share_one_pos hmem).ne' hz
    · intro hn
      simp only [accountOf,share_eq_zero hn]
  by_cases he : peer = ann.m_announcer
  · subst he
    split_ifs with hz ho' ho'
    · exact absurd ho' (hc.mp hz)
    · exact AList.lookup_erase _ _
    · exact AList.lookup_insert _
    · exact absurd (hc.mpr ho') hz
  · have hr : p.lookup peer =
        if peer ∈ owners (A.erase ann.pair) then some (accountOf (A.erase ann.pair) peer)
          else none := by
      rw [h peer]
      simp only [pair,mem_owners_erase he,accountOf,share_erase_of_ne (Ne.symm he)]
    rw [← hr]
    split_ifs
    · exact AList.lookup_erase_ne he
    · exact AList.lookup_insert_ne he

theorem PeersMatch.keys : p.keys.toFinset = owners A := by
  ext peer
  rw [List.mem_toFinset,← AList.mem_keys,← AList.lookup_isSome,h peer]
  split_ifs with hmem
  · simp [hmem]
  · simp [hmem]

theorem PeersMatch.length : p.entries.length = #(owners A) := by
  rw [← h.keys,List.toFinset_card_of_nodup p.keys_nodup,AList.keys,List.keys,List.length_map]

theorem PeersMatch.sum (f : PeerDoSInfo → ℕ) :
    (p.entries.map fun e => f e.2).sum = ∑ peer ∈ owners A, f (accountOf A peer) := by
  have hv : ∀ e ∈ p.entries, f e.2 = f (accountOf A e.1) := by
    intro e he
    have hl : p.lookup e.1 = some e.2 := AList.mem_lookup_iff.mpr he
    rw [h e.1] at hl
    split_ifs at hl
    rw [Option.some.inj hl]
  rw [List.map_congr_left hv,← h.keys,List.sum_toFinset _ p.keys_nodup,AList.keys,List.keys,
    List.map_map]
  rfl

end

section
variable {index : AList fun _ : COutPoint => Finset Wtxid} {w w' : Wtxid} {o : COutPoint}
  {getWitnessHash : CTransaction → Wtxid}

def linked (index : AList fun _ : COutPoint => Finset Wtxid) (o : COutPoint) : Finset Wtxid :=
  (index.lookup o).getD ∅

/-- The index has for each outpoint the transactions that spend it, and no key for none. -/
structure LinksMatch (getWitnessHash : CTransaction → Wtxid)
    (index : AList fun _ : COutPoint => Finset Wtxid) (T : Finset CTransaction) : Prop where
  linked : ∀ o w, w ∈ linked index o ↔ ∃ tx ∈ T, getWitnessHash tx = w ∧ o ∈ tx.prevouts
  nonempty : ∀ o, index.lookup o ≠ some ∅

theorem linked_insert (o' : COutPoint) (ws : Finset Wtxid) :
    linked (index.insert o' ws) o = if o = o' then ws else linked index o := by
  unfold linked
  split_ifs with he
  · rw [he,AList.lookup_insert]
    rfl
  · rw [AList.lookup_insert_ne he]

theorem linksMatch_empty : LinksMatch getWitnessHash (∅ : AList fun _ :
    COutPoint => Finset Wtxid) ∅ where
  linked o w := by simp [TxOrphanage.linked]
  nonempty o := by simp

variable [LinearOrder Wtxid]

theorem mem_linked_link (vin : List CTxIn) : w' ∈ linked (link w vin index) o ↔
    w' ∈ linked index o ∨ w' = w ∧ o ∈ vin.map CTxIn.prevout := by
  induction vin generalizing index with
  | nil => simp [link]
  | cons i vin ih =>
    rw [link,ih,linked_insert,List.map_cons,List.mem_cons]
    split_ifs with he
    · rw [he,mem_insert]
      tauto
    · simp only [he,false_or]

theorem link_nonempty (h : ∀ o, index.lookup o ≠ some ∅) (vin : List CTxIn) :
    (link w vin index).lookup o ≠ some ∅ := by
  induction vin generalizing index with
  | nil => exact h o
  | cons i vin ih =>
    refine ih fun o' => ?_
    by_cases he : o' = i.prevout
    · rw [he,AList.lookup_insert]
      exact fun hn => insert_ne_empty _ _ (some.inj hn)
    · rw [AList.lookup_insert_ne he]
      exact h o'

def unlinkInput (w : Wtxid) (o : COutPoint) (index : AList fun _ : COutPoint => Finset Wtxid) :
    AList fun _ : COutPoint => Finset Wtxid :=
  match index.lookup o with
  | none => index
  | some wtxids => if wtxids.erase w = ∅ then index.erase o else index.insert o (wtxids.erase w)

theorem linked_unlinkInput (o' : COutPoint) : linked (unlinkInput w o' index) o =
    if o = o' then (linked index o).erase w else linked index o := by
  unfold unlinkInput
  by_cases he : o = o'
  · subst he
    rw [if_pos rfl]
    cases hl : index.lookup o with
    | none => simp [linked,hl]
    | some wt =>
      dsimp only
      split_ifs with hn
      · simp [linked,hl,hn]
      · simp [linked,hl]
  · rw [if_neg he]
    cases index.lookup o' with
    | none => rfl
    | some wt =>
      dsimp only
      split_ifs
      · rw [linked,AList.lookup_erase_ne he,linked]
      · rw [linked,AList.lookup_insert_ne he,linked]

theorem unlinkInput_nonempty (h : ∀ o, index.lookup o ≠ some ∅) (o' : COutPoint) :
    (unlinkInput w o' index).lookup o ≠ some ∅ := by
  unfold unlinkInput
  cases index.lookup o' with
  | none => exact h o
  | some wt =>
    dsimp only
    by_cases he : o = o'
    · subst he
      split_ifs with hn
      · rw [AList.lookup_erase]
        exact some_ne_none _ |>.symm
      · rw [AList.lookup_insert]
        exact fun h => hn (some.inj h)
    · split_ifs
      · rw [AList.lookup_erase_ne he]
        exact h o
      · rw [AList.lookup_insert_ne he]
        exact h o

theorem unlink_cons (i : CTxIn) (vin : List CTxIn) :
    unlink w (i::vin) index = unlink w vin (unlinkInput w i.prevout index) := rfl

theorem mem_linked_unlink (vin : List CTxIn) : w' ∈ linked (unlink w vin index) o ↔
    w' ∈ linked index o ∧ ¬(w' = w ∧ o ∈ vin.map CTxIn.prevout) := by
  induction vin generalizing index with
  | nil => simp [unlink]
  | cons i vin ih =>
    rw [unlink_cons,ih,linked_unlinkInput,List.map_cons,List.mem_cons]
    split_ifs with he
    · rw [mem_erase]
      tauto
    · simp only [he,false_or]

theorem unlink_nonempty (h : ∀ o, index.lookup o ≠ some ∅) (vin : List CTxIn) :
    (unlink w vin index).lookup o ≠ some ∅ := by
  induction vin generalizing index with
  | nil => exact h o
  | cons i vin ih => exact ih fun o' => unlinkInput_nonempty h _

variable (h : LinksMatch getWitnessHash index T)
include h

theorem LinksMatch.add : LinksMatch getWitnessHash (link (getWitnessHash tx) tx.vin index)
    (insert tx T) where
  linked o w := by
    rw [mem_linked_link,h.linked]
    simp only [mem_insert,exists_eq_or_imp]
    constructor
    · rintro (hold | ⟨rfl,hmem⟩)
      · exact .inr hold
      · exact .inl ⟨rfl,hmem⟩
    · rintro (⟨rfl,hmem⟩ | hold)
      · exact .inr ⟨rfl,hmem⟩
      · exact .inl hold
  nonempty o := link_nonempty h.nonempty _

theorem LinksMatch.erase (hc : ∀ tx' ∈ T, getWitnessHash tx' = getWitnessHash tx → tx' = tx) :
    LinksMatch getWitnessHash (unlink (getWitnessHash tx) tx.vin index) (T.erase tx) where
  linked o w := by
    rw [mem_linked_unlink,h.linked]
    simp only [mem_erase]
    constructor
    · rintro ⟨⟨tx',ht',rfl,ho⟩,hn⟩
      refine ⟨tx',⟨?_,ht'⟩,rfl,ho⟩
      rintro rfl
      exact hn ⟨rfl,ho⟩
    · rintro ⟨tx',⟨hne,ht'⟩,rfl,ho⟩
      exact ⟨⟨tx',ht',rfl,ho⟩,fun he => hne (hc tx' ht' he.1)⟩
  nonempty o := unlink_nonempty h.nonempty _

end

section
variable [LinearOrder Wtxid] {cfg : OrphanageConfig Wtxid}

theorem wtxid_le_of_le (h : byWtxid cfg a ≤ byWtxid cfg b) : wtxid cfg a ≤ wtxid cfg b := by
  rcases Prod.Lex.le_iff.mp h with hl | ⟨he,_⟩
  · exact hl.le
  · exact he.le

theorem isUnique_append {before after : List Announcement} (ho : ann ∉ before) :
    isUnique cfg (before++ann::after) ann = true ↔
      (∀ b ∈ after.head?, wtxid cfg b ≠ wtxid cfg ann) ∧
        ∀ b ∈ before.getLast?, wtxid cfg b ≠ wtxid cfg ann := by
  have hd : (before++ann::after).idxOf ann = before.length := by
    rw [idxOf_append_of_notMem ho,idxOf_cons_self,Nat.add_zero]
  have hn : (before++ann::after)[before.length+1]? = after.head? := by
    rw [getElem?_append_right (Nat.le_add_right _ 1),Nat.add_sub_cancel_left, getElem?_cons_succ,
      head?_eq_getElem?]
  have hp : (before.length != 0 && (before++ann::after)[before.length-1]?.any
      fun ot => decide (wtxid cfg ot = wtxid cfg ann)) =
        before.getLast?.any fun ot => decide (wtxid cfg ot = wtxid cfg ann) := by
    rcases eq_nil_or_concat before with rfl | ⟨init,last,rfl⟩
    · rfl
    · simp
  unfold isUnique
  rw [hd]
  dsimp only
  rw [hn,hp]
  simp [Option.any_eq_false]

/-- In the order by wtxid it suffices to look at the neighbours. -/
theorem isUnique_iff (hs : orphans.Pairwise fun a b => byWtxid cfg a ≤ byWtxid cfg b)
    (hn : orphans.Nodup) (hmem : ann ∈ orphans) : isUnique cfg orphans ann = true ↔
      ∀ ot ∈ orphans, wtxid cfg ot = wtxid cfg ann → ot = ann := by
  obtain ⟨before,after,rfl⟩ := append_of_mem hmem
  have hno : ann ∉ before := fun h => (nodup_append.mp hn).2.2 ann h ann mem_cons_self rfl
  have hno' : ann ∉ after := (nodup_cons.mp (nodup_append.mp hn).2.1).1
  rw [List.pairwise_append,List.pairwise_cons] at hs
  obtain ⟨hbe,⟨ha,haf⟩,hc⟩ := hs
  rw [isUnique_append hno]
  constructor
  · rintro ⟨hne,hp⟩ ot ho he
    rcases mem_append.mp ho with hmem | hmem
    · -- The last one before lies between the other one and this one.
      rcases eq_nil_or_concat before with rfl | ⟨init,last,rfl⟩
      · exact absurd hmem not_mem_nil
      · rw [concat_eq_append] at *
        have hl := hp last (by simp)
        have hle : wtxid cfg last ≤ wtxid cfg ann :=
          wtxid_le_of_le (hc last (by simp) ann mem_cons_self)
        have hg : wtxid cfg ann ≤ wtxid cfg last := by
          rcases mem_append.mp hmem with hmem | hmem
          · rw [← he]
            exact wtxid_le_of_le
              ((pairwise_append.mp hbe).2.2 ot hmem last (List.mem_singleton_self _))
          · rw [← he,List.mem_singleton.mp hmem]
        exact absurd (le_antisymm hle hg) hl
    · rcases mem_cons.mp hmem with rfl | hmem
      · rfl
      · cases after with
        | nil => exact absurd hmem not_mem_nil
        | cons first rest =>
          have hf := hne first rfl
          have hle : wtxid cfg ann ≤ wtxid cfg first := wtxid_le_of_le (ha first mem_cons_self)
          have hg : wtxid cfg first ≤ wtxid cfg ann := by
            rcases mem_cons.mp hmem with rfl | hmem
            · exact he.le
            · rw [← he]
              exact wtxid_le_of_le ((pairwise_cons.mp haf).1 ot hmem)
          exact absurd (le_antisymm hg hle) hf
  · intro h
    refine ⟨fun b hb he => hno' ?_,fun b hb he => hno ?_⟩
    · have hb := mem_of_head? hb
      rwa [h b (mem_append_right _ (mem_cons_of_mem _ hb)) he] at hb
    · have hb := mem_of_getLast? hb
      rwa [h b (mem_append_left _ hb) he] at hb

end

variable {cfg : OrphanageConfig Wtxid} {st st' : TxOrphanage Wtxid}

/-- Who announced what. -/
def held (orphans : List Announcement) : Finset (NodeId × CTransaction) :=
    (orphans.map pair).toFinset

/-- The totals over a set of transactions. -/
structure TotalsMatch (st : TxOrphanage Wtxid) (T : Finset CTransaction) : Prop where
  orphans : st.m_unique_orphans = #T
  usage : st.m_unique_orphan_usage = ∑ tx ∈ T, getTransactionWeight tx
  scores : st.m_unique_rounded_input_scores = ∑ tx ∈ T, tx.vin.length / 10

theorem byWtxid_eq_of_pair (h : a.pair = b.pair) : byWtxid cfg a = byWtxid cfg b := by
  obtain ⟨ha,ht⟩ := Prod.mk.inj h
  rw [byWtxid,byWtxid,wtxid,wtxid,ht,ha]

def remark (ann : Announcement) (reconsider : Bool) (other : Announcement) : Announcement :=
  if other = ann then { ann with m_reconsider := reconsider } else other

theorem remark_fields (ann : Announcement) (r : Bool) (a : Announcement) :
    (remark ann r a).m_tx = a.m_tx ∧ (remark ann r a).m_announcer = a.m_announcer ∧
      (remark ann r a).m_entry_sequence = a.m_entry_sequence := by
  unfold remark
  split_ifs with he
  · exact he ▸ ⟨rfl,rfl,rfl⟩
  · exact ⟨rfl,rfl,rfl⟩

theorem byWtxid_remark (cfg : OrphanageConfig Wtxid) (ann : Announcement) (r : Bool)
    (a : Announcement) : byWtxid cfg (remark ann r a) = byWtxid cfg a := by
  obtain ⟨ht,ha,_⟩ := remark_fields ann r a
  exact byWtxid_eq_of_pair (Prod.ext ha ht)

variable [LinearOrder Wtxid]

/-- The container is in order and has unique keys, and all else follows from it. -/
structure Consistent (cfg : OrphanageConfig Wtxid) (st : TxOrphanage Wtxid) : Prop where
  sorted : st.m_orphans.Pairwise fun a b => byWtxid cfg a ≤ byWtxid cfg b
  keys : (st.m_orphans.map (byWtxid cfg)).Nodup
  sequences : (st.m_orphans.map m_entry_sequence).Nodup
  sequence_lt : ∀ ann ∈ st.m_orphans, ann.m_entry_sequence < st.m_current_sequence
  collision : ∀ a ∈ st.m_orphans, ∀ b ∈ st.m_orphans, wtxid cfg a = wtxid cfg b → a.m_tx = b.m_tx
  peers : PeersMatch st.m_peer_orphanage_info (held st.m_orphans)
  totals : TotalsMatch st (things (held st.m_orphans))
  links : LinksMatch cfg.getWitnessHash st.m_outpoint_to_orphan_wtxids (things (held st.m_orphans))
  marked : ∀ a ∈ st.m_orphans, ∀ b ∈ st.m_orphans, a.m_reconsider = true → b.m_reconsider = true →
    wtxid cfg a = wtxid cfg b → a = b
  marks : ∀ w, w ∈ st.m_reconsiderable_wtxids ↔
    ∃ ann ∈ st.m_orphans, ann.m_reconsider = true ∧ wtxid cfg ann = w
  standard : ∀ ann ∈ st.m_orphans, getTransactionWeight ann.m_tx ≤ maxStandardTxWeight
  fits : ∑ p ∈ held st.m_orphans, p.2.latencyScore < 2 ^ 32

theorem mem_held : (peer,tx) ∈ held orphans ↔ ∃ ann ∈ orphans, ann.m_announcer = peer ∧
    ann.m_tx = tx := by
  simp [held,pair]

theorem pair_mem_held (h : ann ∈ orphans) : ann.pair ∈ held orphans := mem_held.mpr ⟨ann,h,rfl,rfl⟩

theorem mem_things_held : tx ∈ things (held orphans) ↔ ∃ ann ∈ orphans, ann.m_tx = tx := by
  simp [mem_things,mem_held]

theorem mem_owners_held : peer ∈ owners (held orphans) ↔ ∃ ann ∈ orphans,
    ann.m_announcer = peer := by
  simp [mem_owners,mem_held]

theorem held_cons : held (ann::orphans) = insert ann.pair (held orphans) := toFinset_cons

section
variable (h : Consistent cfg st)
include h

theorem Consistent.eq_of_key (ha : a ∈ st.m_orphans) (hb : b ∈ st.m_orphans)
    (hk : byWtxid cfg a = byWtxid cfg b) : a = b := inj_on_of_nodup_map h.keys ha hb hk

theorem Consistent.eq_of_sequence (ha : a ∈ st.m_orphans) (hb : b ∈ st.m_orphans)
    (hs : a.m_entry_sequence = b.m_entry_sequence) : a = b :=
  inj_on_of_nodup_map h.sequences ha hb hs

theorem Consistent.nodup : st.m_orphans.Nodup := h.keys.of_map _

theorem Consistent.card_held : #(held st.m_orphans) = st.m_orphans.length := by
  have hn : (st.m_orphans.map pair).Nodup :=
    (nodup_map_iff_inj_on h.nodup).mpr fun a ha b hb he => h.eq_of_key ha hb (byWtxid_eq_of_pair he)
  rw [held,toFinset_card_of_nodup hn,length_map]

theorem Consistent.isUnique_iff (hmem : ann ∈ st.m_orphans) : isUnique cfg st.m_orphans ann = true ↔
      ∀ other ∈ st.m_orphans, wtxid cfg other = wtxid cfg ann → other = ann :=
  TxOrphanage.isUnique_iff h.sorted h.nodup hmem

/-- The latency scores of all announcements together are at least the total. -/
theorem Consistent.scores_le : st.m_unique_rounded_input_scores + st.m_orphans.length ≤
    ∑ p ∈ held st.m_orphans, p.2.latencyScore := by
  have hn := sum_things_le (held st.m_orphans) fun tx => tx.vin.length / 10
  rw [h.totals.scores, ← h.card_held, card_eq_sum_ones, add_comm]
  refine (Nat.add_le_add_left hn _).trans_eq ?_
  rw [← sum_add_distrib]
  rfl

theorem Consistent.totalLatencyScore_eq :
    st.totalLatencyScore = st.m_unique_rounded_input_scores + st.m_orphans.length :=
  toCount_of_lt (h.scores_le.trans_lt h.fits)

theorem Consistent.totalLatency_le :
    st.totalLatencyScore ≤ ∑ p ∈ held st.m_orphans, p.2.latencyScore :=
  h.totalLatencyScore_eq ▸ h.scores_le

/-- Within the limits there is room for one more announcement before a count could wrap around. -/
theorem Consistent.room (hr : cfg.InRange) (ht : needsTrim cfg st = false) :
    ∑ p ∈ held st.m_orphans, p.2.latencyScore + 244 < 2 ^ 32 := by
  have hs : ∑ p ∈ held st.m_orphans, p.2.latencyScore ≤ #(held st.m_orphans) * 244 := by
    refine sum_le_card_nsmul _ _ _ fun p hp => ?_
    obtain ⟨ann, ha, -, he⟩ := mem_held.mp hp
    exact latencyScore_le (he ▸ h.standard ann ha)
  have hl : st.totalLatencyScore ≤ cfg.m_max_global_latency_score := by
    rw [needsTrim, Bool.or_eq_false_iff] at ht
    exact Nat.le_of_not_lt (of_decide_eq_false ht.1)
  have hm := hr.latency_range
  rw [h.totalLatencyScore_eq] at hl
  rw [h.card_held] at hs
  omega

end

theorem consistent_init : Consistent cfg (init : TxOrphanage Wtxid) where
  sorted := List.Pairwise.nil
  keys := nodup_nil
  sequences := nodup_nil
  sequence_lt := nofun
  collision := nofun
  peers := peersMatch_empty
  totals := ⟨rfl,rfl,rfl⟩
  links := linksMatch_empty
  marked := nofun
  marks w := by simp [init]
  standard := nofun
  fits := Nat.two_pow_pos 32

theorem TotalsMatch.drop (h : TotalsMatch st T) (hmem : ann.m_tx ∈ T) :
    TotalsMatch (st.dropTransaction cfg ann) (T.erase ann.m_tx) where
  orphans := by
    rw [dropTransaction,h.orphans,card_erase_of_mem hmem]
  usage := by
    rw [dropTransaction,h.usage,← add_sum_erase T getTransactionWeight hmem]
    exact Nat.add_sub_cancel_left _ _
  scores := by
    rw [dropTransaction,h.scores,← add_sum_erase T (fun tx => tx.vin.length / 10) hmem,
      getLatencyScore]
    simp only [Nat.add_sub_cancel_left]

theorem dropIfUnique_sequence (st : TxOrphanage Wtxid) (ann : Announcement) :
    (st.dropIfUnique cfg ann).m_current_sequence = st.m_current_sequence := by
  unfold dropIfUnique
  split_ifs
  · rfl
  · rfl

section
variable (h : Consistent cfg st) (hmem : ann ∈ st.m_orphans)
include h hmem

theorem Consistent.held_erase :
    held (st.m_orphans.erase ann) = (held st.m_orphans).erase ann.pair := by
  ext ⟨peer,tx⟩
  simp only [mem_erase,mem_held,h.nodup.mem_erase_iff]
  constructor
  · rintro ⟨a,⟨hn,ha⟩,rfl,rfl⟩
    exact ⟨fun he => hn (h.eq_of_key ha hmem (byWtxid_eq_of_pair he)),a,ha,rfl,rfl⟩
  · rintro ⟨hn,a,ha,rfl,rfl⟩
    exact ⟨a,⟨fun he => hn (he ▸ rfl),ha⟩,rfl,rfl⟩

theorem Consistent.things_erase : things ((held st.m_orphans).erase ann.pair) =
      if isUnique cfg st.m_orphans ann then (things (held st.m_orphans)).erase ann.m_tx
      else things (held st.m_orphans) := by
  split_ifs with hu
  · refine things_erase_of_unique fun peer hp => ?_
    obtain ⟨ot,ho,rfl,ht⟩ := mem_held.mp hp
    rw [(h.isUnique_iff hmem).mp hu ot ho (by rw [wtxid,ht,wtxid])]
  · rw [h.isUnique_iff hmem] at hu
    push Not at hu
    obtain ⟨ot,ho,he,hn⟩ := hu
    have ht := h.collision ot ho ann hmem he
    have hs : (ot.m_announcer,ann.m_tx) ∈ held st.m_orphans := mem_held.mpr ⟨ot,ho,rfl,ht⟩
    refine things_erase_of_shared hs fun hp => hn ?_
    exact h.eq_of_key ho hmem (byWtxid_eq_of_pair (Prod.ext hp ht))

theorem Consistent.dropIfUnique :
    TotalsMatch (st.dropIfUnique cfg ann) (things ((held st.m_orphans).erase ann.pair)) ∧
      LinksMatch cfg.getWitnessHash (st.dropIfUnique cfg ann).m_outpoint_to_orphan_wtxids
        (things ((held st.m_orphans).erase ann.pair)) := by
  rw [h.things_erase hmem,TxOrphanage.dropIfUnique]
  split_ifs
  · refine ⟨h.totals.drop (mem_things_held.mpr ⟨ann,hmem,rfl⟩),h.links.erase fun tx ht he => ?_⟩
    obtain ⟨ot,ho,rfl⟩ := mem_things_held.mp ht
    exact h.collision ot ho ann hmem he
  · exact ⟨h.totals,h.links⟩

/-- Erasing takes away one announcement and the mark that it may have. -/
theorem Consistent.marks_erase (w : Wtxid) :
    w ∈ (if ann.m_reconsider then st.m_reconsiderable_wtxids.erase (wtxid cfg ann)
      else st.m_reconsiderable_wtxids) ↔
      ∃ a ∈ st.m_orphans.erase ann, a.m_reconsider = true ∧ wtxid cfg a = w := by
  simp only [h.nodup.mem_erase_iff]
  split_ifs with hm
  · rw [mem_erase,h.marks]
    constructor
    · rintro ⟨hn,a,ha,hm',rfl⟩
      exact ⟨a,⟨fun he => hn (he ▸ rfl),ha⟩,hm',rfl⟩
    · rintro ⟨a,⟨hn,ha⟩,hm',rfl⟩
      exact ⟨fun he => hn (h.marked a ha ann hmem hm' hm he),a,ha,hm',rfl⟩
  · rw [h.marks]
    constructor
    · rintro ⟨a,ha,hm',rfl⟩
      exact ⟨a,⟨fun he => hm (he ▸ hm'),ha⟩,hm',rfl⟩
    · rintro ⟨a,⟨_,ha⟩,hm',rfl⟩
      exact ⟨a,ha,hm',rfl⟩

theorem Consistent.erase : ∃ st',
    st.erase cfg ann = .ok st' ∧ Consistent cfg st' ∧ st'.m_orphans = st.m_orphans.erase ann := by
  obtain ⟨peers,hu,hp⟩ := h.peers.subtract (pair_mem_held hmem)
  obtain ⟨ht,hl⟩ := h.dropIfUnique hmem
  rw [← h.held_erase hmem] at hp ht hl
  have hs : (st.m_orphans.erase ann).Sublist st.m_orphans := erase_sublist
  refine ⟨_,by rw [TxOrphanage.erase,hu]; rfl,?_,rfl⟩
  constructor
  · exact h.sorted.sublist hs
  · exact h.keys.sublist (hs.map _)
  · exact h.sequences.sublist (hs.map _)
  · intro a ha
    rw [dropIfUnique_sequence]
    exact h.sequence_lt a (hs.subset ha)
  · exact fun a ha b hb => h.collision a (hs.subset ha) b (hs.subset hb)
  · exact hp
  · exact ⟨ht.orphans,ht.usage,ht.scores⟩
  · exact hl
  · exact fun a ha b hb => h.marked a (hs.subset ha) b (hs.subset hb)
  · exact h.marks_erase hmem
  · exact fun a ha => h.standard a (hs.subset ha)
  · refine (sum_le_sum_of_subset fun p hp => ?_).trans_lt h.fits
    exact List.mem_toFinset.mpr ((hs.map _).subset (List.mem_toFinset.mp hp))

end

theorem Consistent.eraseAll {an : List Announcement} (h : Consistent cfg st) (hn : an.Nodup)
    (hmem : ∀ ann ∈ an, ann ∈ st.m_orphans) : ∃ st', eraseAll cfg an st = .ok st' ∧
      Consistent cfg st' ∧ ∀ a, a ∈ st'.m_orphans ↔ a ∈ st.m_orphans ∧ a ∉ an := by
  induction an generalizing st with
  | nil => exact ⟨st,rfl,h,fun a => by simp⟩
  | cons ann an ih =>
    obtain ⟨hno,hn⟩ := nodup_cons.mp hn
    obtain ⟨next,her,hne,ho⟩ := h.erase (hmem ann mem_cons_self)
    have hmem' : ∀ a ∈ an, a ∈ next.m_orphans := by
      intro a ha
      rw [ho,h.nodup.mem_erase_iff]
      exact ⟨fun he => hno (he ▸ ha),hmem a (mem_cons_of_mem _ ha)⟩
    obtain ⟨st',hr,hs',ho'⟩ := ih hne hn hmem'
    refine ⟨st',by rw [TxOrphanage.eraseAll,her,ok_bind,hr],hs',fun a => ?_⟩
    rw [ho',ho,h.nodup.mem_erase_iff,List.mem_cons,not_or,and_comm (a := a ≠ ann),and_assoc]

theorem haveTx_iff {w : Wtxid} : st.haveTx cfg w = true ↔ ∃ a ∈ st.m_orphans, wtxid cfg a = w := by
  simp [haveTx,equalRange]

variable {next : List Announcement}

theorem emplace_eq_some (h : st.emplace cfg ann = some next) :
    (∀ ot ∈ st.m_orphans, byWtxid cfg ot ≠ byWtxid cfg ann) ∧
      next = st.m_orphans.orderedInsert (fun a b => byWtxid cfg a ≤ byWtxid cfg b) ann := by
  unfold emplace at h
  split_ifs at h with ha
  refine ⟨fun ot ho he => ha ?_,(some.inj h).symm⟩
  exact any_eq_true.mpr ⟨ot,ho,Bool.or_eq_true_iff.mpr (.inl (decide_eq_true he))⟩

/-- The state with a new announcement, before `LimitOrphans`. -/
def stored (cfg : OrphanageConfig Wtxid) (st : TxOrphanage Wtxid) (ann : Announcement)
    (orphans : List Announcement) : TxOrphanage Wtxid :=
  if st.haveTx cfg (wtxid cfg ann) then st.announce ann orphans
  else (st.announce ann orphans).addTransaction cfg ann

theorem stored_fields (cfg : OrphanageConfig Wtxid) (st : TxOrphanage Wtxid) (ann : Announcement)
    (next : List Announcement) : (stored cfg st ann next).m_orphans = next ∧
    (stored cfg st ann next).m_current_sequence = st.m_current_sequence+1 ∧
    (stored cfg st ann next).m_reconsiderable_wtxids = st.m_reconsiderable_wtxids ∧
    (stored cfg st ann next).m_peer_orphanage_info =
    (st.announce ann next).m_peer_orphanage_info := by
  unfold stored
  split_ifs
  · exact ⟨rfl,rfl,rfl,rfl⟩
  · exact ⟨rfl,rfl,rfl,rfl⟩

theorem TotalsMatch.add (h : TotalsMatch st T) (hn : ann.m_tx ∉ T)
    (hf : ∑ tx ∈ insert ann.m_tx T, tx.latencyScore < 2 ^ 32) :
    TotalsMatch ((st.announce ann next).addTransaction cfg ann) (insert ann.m_tx T) where
  orphans := by
    have hc : #(insert ann.m_tx T) < 2 ^ 32 := by
      rw [card_eq_sum_ones]
      exact (Finset.sum_le_sum fun tx _ => Nat.le_add_right 1 _).trans_lt hf
    rw [card_insert_of_notMem hn, ← h.orphans] at hc ⊢
    exact toCount_of_lt hc
  usage := by
    rw [sum_insert hn,← h.usage,add_comm]
    rfl
  scores := by
    have hs : ∑ tx ∈ insert ann.m_tx T, tx.vin.length / 10 < 2 ^ 32 :=
      (Finset.sum_le_sum fun tx _ => Nat.le_add_left _ 1).trans_lt hf
    rw [sum_insert hn, ← h.scores, add_comm] at hs ⊢
    have he : ann.getLatencyScore - 1 = ann.m_tx.vin.length / 10 := Nat.add_sub_cancel_left 1 _
    rw [← he] at hs ⊢
    exact toCount_of_lt hs

theorem Consistent.stored_match (h : Consistent cfg st) (next : List Announcement)
    (hf : ∑ tx ∈ insert ann.m_tx (things (held st.m_orphans)), tx.latencyScore < 2 ^ 32)
    (hc : ∀ a ∈ st.m_orphans, wtxid cfg a = wtxid cfg ann → a.m_tx = ann.m_tx) :
    TotalsMatch (stored cfg st ann next) (insert ann.m_tx (things (held st.m_orphans))) ∧
      LinksMatch cfg.getWitnessHash (stored cfg st ann next).m_outpoint_to_orphan_wtxids
        (insert ann.m_tx (things (held st.m_orphans))) := by
  unfold stored
  split_ifs with hh
  · obtain ⟨a,ha,he⟩ := haveTx_iff.mp hh
    have hmem : ann.m_tx ∈ things (held st.m_orphans) := mem_things_held.mpr ⟨a,ha,hc a ha he⟩
    rw [insert_eq_of_mem hmem]
    exact ⟨⟨h.totals.orphans,h.totals.usage,h.totals.scores⟩,h.links⟩
  · have hn : ann.m_tx ∉ things (held st.m_orphans) := by
      intro hmem
      obtain ⟨a,ha,he⟩ := mem_things_held.mp hmem
      exact hh (haveTx_iff.mpr ⟨a,ha,by rw [wtxid,he,wtxid]⟩)
    exact ⟨h.totals.add hn hf,h.links.add⟩

theorem Consistent.stored (h : Consistent cfg st)
    (hco : ∀ a ∈ st.m_orphans, wtxid cfg a = wtxid cfg ann → a.m_tx = ann.m_tx)
    (hs : ann.m_entry_sequence = st.m_current_sequence) (hr : ann.m_reconsider = false)
    (hw : getTransactionWeight ann.m_tx ≤ maxStandardTxWeight)
    (hroom : ∑ p ∈ held st.m_orphans, p.2.latencyScore + 244 < 2 ^ 32)
    (he : st.emplace cfg ann = some next) : Consistent cfg (stored cfg st ann next) := by
  obtain ⟨hk,hn⟩ := emplace_eq_some he
  have hp : next.Perm (ann::st.m_orphans) := hn ▸ perm_orderedInsert _ _ _
  have hmem {a : Announcement} : a ∈ next ↔ a = ann ∨ a ∈ st.m_orphans := hp.mem_iff.trans mem_cons
  have hh : held next = insert ann.pair (held st.m_orphans) := by
    rw [← held_cons]
    exact toFinset_eq_of_perm _ _ (hp.map _)
  have hne : ann.pair ∉ held st.m_orphans := by
    intro hpa
    obtain ⟨a,ha,han,ht⟩ := mem_held.mp hpa
    exact hk a ha (byWtxid_eq_of_pair (Prod.ext han ht))
  have hfit : ∑ p ∈ insert ann.pair (held st.m_orphans), p.2.latencyScore < 2 ^ 32 := by
    have hle : ann.pair.2.latencyScore ≤ 244 := latencyScore_le hw
    rw [sum_insert hne]
    omega
  have hthings := (sum_things_le (insert ann.pair (held st.m_orphans))
    CTransaction.latencyScore).trans_lt hfit
  rw [pair, things_insert] at hthings
  obtain ⟨hto,hl⟩ := h.stored_match next hthings hco
  obtain ⟨ho,hu,hmarks,hpe⟩ := stored_fields cfg st ann next
  have hlt {a : Announcement} (ha : a ∈ st.m_orphans) : a.m_entry_sequence ≠ ann.m_entry_sequence :=
    fun hq => (h.sequence_lt a ha).ne (hq.trans hs)
  constructor
  · rw [ho,hn]
    exact h.sorted.orderedInsert _ _
  · rw [ho,(hp.map _).nodup_iff,List.map_cons,List.nodup_cons]
    refine ⟨fun hmem => ?_,h.keys⟩
    obtain ⟨a,ha,hq⟩ := mem_map.mp hmem
    exact hk a ha hq
  · rw [ho,(hp.map _).nodup_iff,List.map_cons,List.nodup_cons]
    refine ⟨fun hmem => ?_,h.sequences⟩
    obtain ⟨a,ha,hq⟩ := mem_map.mp hmem
    exact hlt ha hq
  · intro a ha
    rw [ho,hmem] at ha
    rw [hu]
    rcases ha with rfl | ha
    · exact hs ▸ Nat.lt_succ_self _
    · exact (h.sequence_lt a ha).trans (Nat.lt_succ_self _)
  · intro a ha b hb hq
    rw [ho,hmem] at ha hb
    rcases ha with rfl | ha
    · rcases hb with rfl | hb
      · rfl
      · exact (hco b hb hq.symm).symm
    · rcases hb with rfl | hb
      · exact hco a ha hq
      · exact h.collision a ha b hb hq
  · rw [ho,hpe,hh]
    exact h.peers.add hne hfit
  · rw [ho,hh,things_insert]
    exact hto
  · rw [ho,hh,things_insert]
    exact hl
  · intro a ha b hb hm hma
    rw [ho,hmem] at ha hb
    have hold {c : Announcement} (hc : c = ann ∨ c ∈ st.m_orphans) (hmar : c.m_reconsider = true) :
        c ∈ st.m_orphans := hc.resolve_left fun hq => by
      rw [hq,hr] at hmar
      exact Bool.false_ne_true hmar
    exact h.marked a (hold ha hm) b (hold hb hma) hm hma
  · intro w
    rw [ho,hmarks,h.marks]
    simp only [hmem,exists_eq_or_imp,hr,Bool.false_eq_true,false_and,false_or]
  · intro a ha
    rw [ho, hmem] at ha
    exact ha.elim (fun hq => hq ▸ hw) (h.standard a)
  · rw [ho, hh]
    exact hfit

/-- The transaction of a new announcement is unique exactly if it is new. -/
theorem Consistent.isUnique_stored (ht' : Consistent cfg (TxOrphanage.stored cfg st ann next))
    (he : st.emplace cfg ann = some next) :
    isUnique cfg next ann = !st.haveTx cfg (wtxid cfg ann) := by
  obtain ⟨hk,hn⟩ := emplace_eq_some he
  obtain ⟨ho,_⟩ := stored_fields cfg st ann next
  have hmem {a : Announcement} : a ∈ next ↔ a = ann ∨ a ∈ st.m_orphans := hn ▸ mem_orderedInsert _
  have hs : ann ∈ (TxOrphanage.stored cfg st ann next).m_orphans := by
    rw [ho]
    exact hmem.mpr (.inl rfl)
  have hf := ht'.isUnique_iff hs
  rw [ho] at hf
  rw [Bool.eq_iff_iff,hf,Bool.not_eq_true',← Bool.not_eq_true,haveTx_iff]
  push Not
  constructor
  · intro hu a ha hq
    have hs := hu a (hmem.mpr (.inr ha)) hq
    exact hk a ha (hs ▸ rfl)
  · intro hno ot hot hq
    exact (hmem.mp hot).resolve_right fun hmem => hno ot hmem hq

/-- What the announcements determine does not change with a mark. -/
theorem Consistent.remarked (h : Consistent cfg st) (ann : Announcement) (r : Bool)
    {marks : Finset Wtxid}
    (hm : ∀ a ∈ st.m_orphans.map (remark ann r),
      ∀ b ∈ st.m_orphans.map (remark ann r), a.m_reconsider = true → b.m_reconsider = true →
        wtxid cfg a = wtxid cfg b → a = b)
    (hma : ∀ w, w ∈ marks ↔ ∃ a ∈ st.m_orphans.map (remark ann r),
      a.m_reconsider = true ∧ wtxid cfg a = w) :
    Consistent cfg { st with
      m_orphans := st.m_orphans.map (remark ann r)
      m_reconsiderable_wtxids := marks } := by
  have hfi := remark_fields ann r
  have hp {β : Type} {f : Announcement → β} (hf : ∀ a, f (remark ann r a) = f a) :
      (st.m_orphans.map (remark ann r)).map f = st.m_orphans.map f := by
    rw [List.map_map]
    exact map_congr_left fun a _ => hf a
  have hh : held (st.m_orphans.map (remark ann r)) = held st.m_orphans := by
    rw [held,hp fun a => Prod.ext (hfi a).2.1 (hfi a).1,held]
  have hk := hp fun a => byWtxid_remark cfg ann r a
  have hs := hp fun a => (hfi a).2.2
  constructor
  · refine pairwise_map.mpr (h.sorted.imp fun hl => ?_)
    rwa [byWtxid_remark,byWtxid_remark]
  · rw [hk]
    exact h.keys
  · rw [hs]
    exact h.sequences
  · intro a ha
    obtain ⟨a',ha',rfl⟩ := mem_map.mp ha
    rw [(hfi a').2.2]
    exact h.sequence_lt a' ha'
  · intro a ha b hb he
    obtain ⟨a',ha',rfl⟩ := mem_map.mp ha
    obtain ⟨b',hb',rfl⟩ := mem_map.mp hb
    rw [wtxid,wtxid,(hfi a').1,(hfi b').1] at he
    rw [(hfi a').1,(hfi b').1]
    exact h.collision a' ha' b' hb' he
  · rw [hh]
    exact h.peers
  · rw [hh]
    exact ⟨h.totals.orphans,h.totals.usage,h.totals.scores⟩
  · rw [hh]
    exact h.links
  · exact hm
  · exact hma
  · intro a ha
    obtain ⟨a', ha', rfl⟩ := mem_map.mp ha
    rw [(hfi a').1]
    exact h.standard a' ha'
  · rw [hh]
    exact h.fits

variable (h : Consistent cfg st) (hmem : ann ∈ st.m_orphans)
include h hmem

/-- Sequence numbers keep the keys apart, so that nothing is lost. -/
theorem Consistent.modify_eq (r : Bool) :
    modify ann r st.m_orphans = st.m_orphans.map (remark ann r) := by
  unfold modify
  rw [if_neg]
  · rfl
  · rw [List.any_eq_true]
    rintro ⟨ot,ho,hk⟩
    rw [h.nodup.mem_erase_iff] at ho
    have hs := congrArg (fun key => (ofLex (ofLex key).2).2) (of_decide_eq_true hk)
    exact ho.1 (h.eq_of_sequence ho.2 hmem hs)

theorem Consistent.mark (hn : wtxid cfg ann ∉ st.m_reconsiderable_wtxids) : Consistent cfg { st with
      m_orphans := modify ann true st.m_orphans
      m_reconsiderable_wtxids := insert (wtxid cfg ann) st.m_reconsiderable_wtxids } := by
  have ho {a : Announcement} (ha : a ∈ st.m_orphans) (hr : a.m_reconsider = true) :
      wtxid cfg a ≠ wtxid cfg ann := fun he => hn ((h.marks _).mpr ⟨a,ha,hr,he⟩)
  rw [h.modify_eq hmem]
  refine h.remarked ann true ?_ fun w => ?_
  · intro a ha b hb
    obtain ⟨a',ha',rfl⟩ := mem_map.mp ha
    obtain ⟨b',hb',rfl⟩ := mem_map.mp hb
    unfold remark
    intro hm hma he
    split_ifs at hm hma he ⊢
    · rfl
    · exact absurd he.symm (ho hb' hma)
    · exact absurd he (ho ha' hm)
    · exact h.marked a' ha' b' hb' hm hma he
  · rw [mem_insert,h.marks]
    simp only [List.mem_map,exists_exists_and_eq_and]
    constructor
    · rintro (rfl | ⟨a,ha,hr,rfl⟩)
      · refine ⟨ann,hmem,?_⟩
        rw [remark,if_pos rfl]
        exact ⟨rfl,rfl⟩
      · refine ⟨a,ha,?_⟩
        rw [remark,if_neg fun he : a = ann => ho ha hr (he ▸ rfl)]
        exact ⟨hr,rfl⟩
    · rintro ⟨a,ha,hr,rfl⟩
      unfold remark at hr ⊢
      split_ifs at hr ⊢
      · exact .inl rfl
      · exact .inr ⟨a,ha,hr,rfl⟩

theorem Consistent.unmark (hr : ann.m_reconsider = true) : Consistent cfg { st with
      m_orphans := modify ann false st.m_orphans
      m_reconsiderable_wtxids := st.m_reconsiderable_wtxids.erase (wtxid cfg ann) } := by
  have hl {a : Announcement} (hm : (remark ann false a).m_reconsider = true) :
    a ≠ ann ∧ remark ann false a = a := by
    unfold remark at hm ⊢
    split_ifs at hm ⊢ with hq
    exact ⟨hq,rfl⟩
  rw [h.modify_eq hmem]
  refine h.remarked ann false ?_ fun w => ?_
  · intro a ha b hb hm hma hq
    obtain ⟨a',ha',rfl⟩ := mem_map.mp ha
    obtain ⟨b',hb',rfl⟩ := mem_map.mp hb
    have he := (hl hm).2
    have heq := (hl hma).2
    rw [he] at hm hq ⊢
    rw [heq] at hma hq ⊢
    exact h.marked a' ha' b' hb' hm hma hq
  · rw [mem_erase,h.marks]
    simp only [List.mem_map,exists_exists_and_eq_and]
    constructor
    · rintro ⟨hn,a,ha,hm,rfl⟩
      refine ⟨a,ha,?_⟩
      rw [remark,if_neg fun hq : a = ann => hn (hq ▸ rfl)]
      exact ⟨hm,rfl⟩
    · rintro ⟨a,ha,hm,rfl⟩
      obtain ⟨hn,hq⟩ := hl hm
      rw [hq] at hm ⊢
      exact ⟨fun hw => hn (h.marked a ha ann hmem hm hr hw),a,ha,hm,rfl⟩

end TxOrphanage

end DripCore
