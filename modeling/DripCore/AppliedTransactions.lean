import DripCore.HeightInCoinbase

/-!
# What applied transactions leave behind

The coins after a list of transactions are the outputs that none of them spends, and what a
transaction spends was created before it, so that the position in the list grows along spending.
-/
namespace DripCore
open List

/-- An output of a transaction that becomes a coin. -/
def CTransaction.Creates (tx : CTransaction) (o : COutPoint) : Prop := ∃ out, (o,out) ∈ tx.spendable

def CTransaction.Takes (tx : CTransaction) (o : COutPoint) : Prop := ∃ txin ∈ tx.spends,
    txin.prevout = o

variable {o : COutPoint} {tx : CTransaction}

theorem CTransaction.Creates.hash (h : tx.Creates o) : o.hash = tx.hash := by
  obtain ⟨out,ho⟩ := h
  exact (mem_outputs.mp (mem_spendable.mp ho).1).1

theorem CTransaction.Creates.not_isNull (h : tx.Creates o) : o.isNull = false := by
  obtain ⟨out,ho⟩ := h
  have hin := (List.getElem?_eq_some_iff.mp (mem_outputs.mp (mem_spendable.mp ho).1).2).1
  have hs := tx.vout_size
  rw [COutPoint.isNull,Bool.and_eq_false_iff]
  right
  rw [beq_eq_false_iff_ne]
  rintro hn
  rw [hn] at hin
  exact absurd (hin.trans_le (Nat.le_of_lt_succ hs)) (by decide)

theorem CTransaction.creates_congr {tx' : CTransaction} (hh : tx.hash = tx'.hash)
    (hv : tx.vout = tx'.vout) (h : tx.Creates o) : tx'.Creates o := by
  obtain ⟨out,hu⟩ := h
  obtain ⟨hm,hs⟩ := mem_spendable.mp hu
  obtain ⟨ho,hg⟩ := mem_outputs.mp hm
  exact ⟨out,mem_spendable.mpr ⟨mem_outputs.mpr ⟨ho.trans hh,hv ▸ hg⟩,hs⟩⟩

variable {nh : ℕ} {v : COutPoint → Option Coin}

theorem afterTx_of_creates (h : tx.Creates o) : (afterTx tx nh v o).isSome := by
  obtain ⟨out,ho⟩ := h
  rw [afterTx,afterOutputs_of_mem ho]
  rfl

theorem afterTx_of_not (h : ¬tx.Creates o) : afterTx tx nh v o = afterInputs tx.spends v o := by
  rw [afterTx,afterOutputs_notMem]
  intro p hp he
  exact h ⟨p.2,he ▸ hp⟩

theorem afterInputs_isSome : (afterInputs tx.spends v o).isSome ↔ (v o).isSome ∧ ¬tx.Takes o := by
  by_cases ha : tx.Takes o
  · obtain ⟨t,ht,rfl⟩ := ha
    rw [afterInputs_of_mem ht]
    constructor
    · exact nofun
    · intro h
      exact absurd ⟨t,ht,rfl⟩ h.2
  · rw [afterInputs_notMem fun t ht he => ha ⟨t,ht,he⟩]
    exact (and_iff_left ha).symm

variable {m : ℕ} {txs : List CTransaction}

variable (h : Applied m txs v)
include h

theorem Applied.vin_ne_nil : ∀ tx ∈ txs, tx.vin ≠ [] := by
  induction h with
  | nil => exact nofun
  | snoc h tx nh hv hn ha hh ih =>
    intro t ht
    rcases mem_append.mp ht with ht | ht
    · exact ih t ht
    · rw [mem_singleton.mp ht]
      exact hv

theorem Applied.nHeight_le : ∀ o coin, v o = some coin → coin.nHeight ≤ m := by
  induction h with
  | nil => exact nofun
  | snoc h tx nh hv hn ha hh ih =>
    exact afterTx_induction (P := fun coin => coin.nHeight ≤ m) ih fun p hp => hh

/-- What a transaction takes was created by another one before it. -/
theorem Applied.created_before {l l' : List CTransaction} (hx : txs = l++tx::l') (ho : tx.Takes o) :
    ∃ t ∈ l, t.Creates o := by
  have hco : ∀ {txs v}, Applied m txs v → ∀ o, (v o).isSome → ∃ t ∈ txs, t.Creates o := by
    intro txs v h
    induction h with
    | nil => exact nofun
    | snoc h tx nh hv hn ha hh ih =>
      intro o ho
      by_cases hc : tx.Creates o
      · exact ⟨tx,mem_append_right _ (mem_singleton_self tx),hc⟩
      · rw [afterTx_of_not hc,afterInputs_isSome] at ho
        obtain ⟨t,ht,hc⟩ := ih o ho.1
        exact ⟨t,mem_append_left _ ht,hc⟩
  induction h generalizing l' with
  | nil => exact absurd hx (by simp)
  | snoc h last nh hv hn ha hh ih =>
    rcases eq_nil_or_concat l' with rfl | ⟨l'',t,rfl⟩
    · obtain ⟨rfl,hl⟩ := append_inj' hx rfl
      obtain rfl := singleton_inj.mp hl
      obtain ⟨txin,htx,rfl⟩ := ho
      exact hco h _ (ha txin htx)
    · rw [concat_eq_append,← cons_append,← append_assoc] at hx
      exact ih (append_inj' hx rfl).1

theorem Applied.isSome_iff (o : COutPoint) : (v o).isSome ↔ (∃ tx ∈ txs, tx.Creates o) ∧ ∀ tx ∈ txs,
    ¬tx.Takes o := by
  induction h with
  | nil => simp
  | @snoc txs v h tx nh hv hn ha hh ih =>
    by_cases hc : tx.Creates o
    · constructor
      · intro _
        refine ⟨⟨tx,mem_append_right _ (mem_singleton_self tx),hc⟩,?_⟩
        -- the outpoint is new, so nothing in the list takes it
        rintro t ht ⟨txin,hx,rfl⟩
        apply hn
        rw [← hc.hash]
        rcases mem_append.mp ht with ht | ht
        · exact (h.recorded.spent t ht txin hx).1
        · rw [mem_singleton.mp ht] at hx
          exact h.recorded.known _ (Option.isSome_iff_ne_none.mp (ha txin hx))
      · intro _
        exact afterTx_of_creates hc
    · rw [afterTx_of_not hc,afterInputs_isSome,ih]
      simp only [mem_append,mem_singleton,or_imp,forall_and,forall_eq,or_and_right,
        exists_or,exists_eq_left,hc,or_false]
      exact and_assoc

def rankOf (txs : List CTransaction) (txid : Txid) : ℕ := (txs.map CTransaction.hash).idxOf txid

theorem Applied.rank_lt (hx : tx ∈ txs) (ho : tx.Takes o) :
    rankOf txs o.hash < rankOf txs tx.hash := by
  obtain ⟨l,l',rfl⟩ := append_of_mem hx
  obtain ⟨t,ht,hc⟩ := h.created_before rfl ho
  have hn := h.recorded.nodup
  have hno : tx.hash ∉ l.map CTransaction.hash := by
    rw [map_append,nodup_append] at hn
    exact fun hm => hn.2.2 _ hm _ mem_cons_self rfl
  have hm : o.hash ∈ l.map CTransaction.hash := by
    rw [hc.hash]
    exact mem_map.mpr ⟨t,ht,rfl⟩
  rw [rankOf,rankOf,map_append,idxOf_append_of_mem hm,idxOf_append_of_notMem hno]
  exact (idxOf_lt_length_of_mem hm).trans_le (Nat.le_add_right _ _)

theorem Applied.hash_mem (hx : tx ∈ txs) (ho : tx.Takes o) :
    o.hash ∈ txs.map CTransaction.hash := by
  obtain ⟨t,ht,rfl⟩ := ho
  exact (h.recorded.spent tx hx t ht).1

end DripCore
