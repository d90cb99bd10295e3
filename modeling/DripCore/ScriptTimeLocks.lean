import DripCore.TimeLocks

/-!
# Time locks in scripts

`OP_CHECKLOCKTIMEVERIFY` and `OP_CHECKSEQUENCEVERIFY` compare an operand with the lock time of the
transaction and with the sequence number of the input. What passes is enforced by the rules for
transactions in blocks: the operand is a height or a time that the block has reached.
-/
namespace DripCore
open BitVec Bool CTxIn Nat Option Prod

def checkLockTime (txTo : CTransaction) (nIn : Fin txTo.vin.length) (nLockTime : ℤ) : Bool :=
  if !((decide ((txTo.nLockTime.toNat : ℤ) < locktimeThreshold) &&
    decide (nLockTime < locktimeThreshold)) ||
      (decide (locktimeThreshold ≤ (txTo.nLockTime.toNat : ℤ)) &&
        decide (locktimeThreshold ≤ nLockTime))) then false
  else if (txTo.nLockTime.toNat : ℤ) < nLockTime then false
  else if sequenceFinal = (txTo.vin.get nIn).nSequence then false
  else true

/-- The bits of a sequence number that consensus rules read. -/
def nLockTimeMask : BitVec 32 := sequenceLocktimeTypeFlag ||| sequenceLocktimeMask

def checkSequence (txTo : CTransaction) (nIn : Fin txTo.vin.length) (nSequence : ℤ) : Bool :=
  let txToSequence := (txTo.vin.get nIn).nSequence
  if txTo.version.toNat < 2 then false
  else if txToSequence &&& sequenceLocktimeDisableFlag ≠ 0 then false
  else
    let typeFlag : ℤ := sequenceLocktimeTypeFlag.toNat
    let txToSequenceMasked : ℤ := (txToSequence &&& nLockTimeMask).toNat
    let nSequenceMasked : ℤ := (BitVec.ofInt 64 nSequence &&& nLockTimeMask.setWidth 64).toInt
    if !((decide (txToSequenceMasked < typeFlag) && decide (nSequenceMasked < typeFlag)) ||
        (decide (typeFlag ≤ txToSequenceMasked) && decide (typeFlag ≤ nSequenceMasked))) then false
    else if txToSequenceMasked < nSequenceMasked then false
    else true

/-- The bits that a flag selects from an operand. -/
def operandBits (nSequence : ℤ) (flag : BitVec 32) : ℕ :=
  (BitVec.ofInt 64 nSequence &&& flag.setWidth 64).toNat

/-- The masked bits are the value, with the type flag above it if it is set. -/
theorem and_lockTimeMask (n : ℕ) : (n &&& 0x400000 = 0 ∧ n &&& 0x40ffff = n &&& 0xffff) ∨
    (n &&& 0x400000 = 0x400000 ∧ n &&& 0x40ffff = 0x400000+(n &&& 0xffff)) := by
  have hs : n &&& 0x40ffff = (n &&& 0x400000) ||| (n &&& 0xffff) :=
    and_or_distrib_left n 0x400000 0xffff
  have hf : n &&& 0x400000 = 2^22*(n.testBit 22).toNat := by
    rw [mul_comm]
    exact and_two_pow n 22
  have hl : n &&& 0xffff < 2^22 := lt_of_le_of_lt and_le_right (by norm_num)
  rw [hs,hf,← two_pow_add_eq_or_of_lt hl]
  cases n.testBit 22 with
  | false => exact .inl ⟨rfl,zero_add _⟩
  | true => exact .inr ⟨rfl,rfl⟩

theorem operandBits_eq (n : ℤ) (flag : BitVec 32) :
    operandBits n flag = (BitVec.ofInt 64 n).toNat &&& flag.toNat := by
  rw [operandBits,toNat_and,toNat_setWidth_of_le (by norm_num)]

theorem toInt_masked (n : ℤ) :
    (BitVec.ofInt 64 n &&& nLockTimeMask.setWidth 64).toInt = operandBits n nLockTimeMask := by
  have hl : operandBits n nLockTimeMask ≤ 0x40ffff := by
    rw [operandBits_eq]
    exact and_le_right
  refine toInt_eq_toNat_of_lt ?_
  change 2*operandBits n nLockTimeMask < 2^64
  omega

/-- An operand that passes is of the type of the sequence number and not greater. -/
theorem checkSequence_spec {tt : CTransaction} {nIn : Fin tt.vin.length} {n : ℤ}
    (h : checkSequence tt nIn n = true) : 2 ≤ tt.version.toNat ∧
      (tt.vin.get nIn).nSequence &&& sequenceLocktimeDisableFlag = 0 ∧
      (operandBits n sequenceLocktimeTypeFlag = 0 ↔
        (tt.vin.get nIn).nSequence &&& sequenceLocktimeTypeFlag = 0) ∧
      operandBits n sequenceLocktimeMask ≤
        ((tt.vin.get nIn).nSequence &&& sequenceLocktimeMask).toNat := by
  unfold checkSequence at h
  generalize (tt.vin.get nIn).nSequence = sequence at h ⊢
  dsimp only at h
  rw [toInt_masked] at h
  split_ifs at h with hv hd hy hl
  refine ⟨Nat.le_of_not_lt hv,not_not.mp hd,?_⟩
  rw [← toNat_inj,toNat_and,toNat_and,operandBits_eq,operandBits_eq]
  rw [toNat_and,operandBits_eq] at hy hl
  have ho := and_lockTimeMask (BitVec.ofInt 64 n).toNat
  have hs := and_lockTimeMask sequence.toNat
  have hlt : sequence.toNat &&& 0xffff ≤ 0xffff := and_le_right
  have hlt' : (BitVec.ofInt 64 n).toNat &&& 0xffff ≤ 0xffff := Nat.and_le_right
  have ht : sequenceLocktimeTypeFlag.toNat = 0x400000 := rfl
  have ha : sequenceLocktimeMask.toNat = 0xffff := rfl
  have hm : nLockTimeMask.toNat = 0x40ffff := rfl
  rw [ht,hm,not_eq_true',not_eq_false,or_eq_true,and_eq_true,and_eq_true,
    decide_eq_true_eq,decide_eq_true_eq,decide_eq_true_eq,decide_eq_true_eq] at hy
  rw [hm] at hl
  rw [ht,ha]
  change (_ = 0 ↔ _ = 0) ∧ _
  omega

section
variable {b : CBlockIndex} {vin : List CTxIn} {p heights : List ℤ} {m mt : ℤ}
  {lp : ℤ × ℤ}

theorem exists_rest {x : Option ((ℤ × ℤ) × List ℤ)}
    {k : (ℤ × ℤ) × List ℤ → Option ((ℤ × ℤ) × List ℤ)}
    (hk : ∀ r, ∃ l, k r = some (r.1,l)) (h : x >>= k = some (lp,heights)) :
    ∃ rest, x = some (lp,rest) := by
  obtain ⟨⟨pair,rest⟩,hr,he⟩ := bind_eq_some_iff.mp h
  obtain ⟨l,hl⟩ := hk (pair,rest)
  obtain ⟨rfl,_⟩ := mk.inj (some.inj (hl.symm.trans he))
  exact ⟨rest,hr⟩

theorem locksLoop_le (h : sequenceLocksLoop b vin p m mt = some (lp,heights)) :
    m ≤ lp.1 ∧ mt ≤ lp.2 := by
  induction vin generalizing p heights m mt with
  | nil =>
    obtain ⟨rfl,_⟩ := mk.inj (some.inj h)
    exact ⟨le_rfl,le_rfl⟩
  | cons t vin ih =>
    cases p with
    | nil => exact absurd h nofun
    | cons nch p =>
      unfold sequenceLocksLoop at h
      split_ifs at h
      · obtain ⟨rest,hr⟩ := exists_rest (fun _ => ⟨_,rfl⟩) h
        exact ih hr
      · obtain ⟨nct,_,h⟩ := bind_eq_some_iff.mp h
        obtain ⟨rest,hr⟩ := exists_rest (fun _ => ⟨_,rfl⟩) h
        obtain ⟨hh,ht⟩ := ih hr
        exact ⟨hh,(le_max_left _ _).trans ht⟩
      · obtain ⟨rest,hr⟩ := exists_rest (fun _ => ⟨_,rfl⟩) h
        obtain ⟨hh,ht⟩ := ih hr
        exact ⟨(le_max_left _ _).trans hh,ht⟩

theorem toNat_granularity (s : BitVec 32) :
    ((s &&& sequenceLocktimeMask) <<< sequenceLocktimeGranularity).toNat =
      512*(s &&& sequenceLocktimeMask).toNat := by
  have hl : (s &&& sequenceLocktimeMask).toNat ≤ 0xffff := by
    rw [BitVec.toNat_and]
    exact Nat.and_le_right
  have hg : 2^sequenceLocktimeGranularity = 512 := rfl
  rw [BitVec.toNat_shiftLeft,Nat.shiftLeft_eq,hg,Nat.mul_comm]
  exact Nat.mod_eq_of_lt (by omega)

/-- The locks cover every input whose sequence number is a lock. -/
theorem locksLoop_covers {i : ℕ} {t : CTxIn} {nch : ℤ}
    (h : sequenceLocksLoop b vin p m mt = some (lp,heights))
    (ht : vin[i]? = some t) (hc : p[i]? = some nch)
    (hd : t.nSequence &&& sequenceLocktimeDisableFlag = 0) :
    (t.nSequence &&& sequenceLocktimeTypeFlag = 0 →
      nch+(t.nSequence &&& sequenceLocktimeMask).toNat-1 ≤ lp.1) ∧
    (t.nSequence &&& sequenceLocktimeTypeFlag ≠ 0 → ∃ before,
      b.getAncestor (max (nch-1) 0) = some before ∧
        before.getMedianTimePast+512*(t.nSequence &&& sequenceLocktimeMask).toNat-1 ≤ lp.2) := by
  induction vin generalizing p heights m mt i with
  | nil => exact absurd ht nofun
  | cons first vin ih =>
    cases p with
    | nil => exact absurd hc nofun
    | cons height p =>
      cases i with
      | zero =>
        obtain rfl : first = t := some.inj ht
        obtain rfl : height = nch := some.inj hc
        unfold sequenceLocksLoop at h
        rw [if_neg (not_not.mpr hd)] at h
        constructor
        · intro hy
          rw [if_neg (not_not.mpr hy)] at h
          obtain ⟨rest,hr⟩ := exists_rest (fun _ => ⟨_,rfl⟩) h
          exact (le_max_right _ _).trans (locksLoop_le hr).1
        · intro hy
          rw [if_pos hy] at h
          obtain ⟨nct,ho,h⟩ := bind_eq_some_iff.mp h
          obtain ⟨before,hb,rfl⟩ := map_eq_some_iff.mp ho
          obtain ⟨rest,hr⟩ := exists_rest (fun _ => ⟨_,rfl⟩) h
          have hl := (le_max_right _ _).trans (locksLoop_le hr).2
          rw [toNat_granularity] at hl
          exact ⟨before,hb,by exact_mod_cast hl⟩
      | succ i =>
        unfold sequenceLocksLoop at h
        split_ifs at h
        · obtain ⟨rest,hr⟩ := exists_rest (fun _ => ⟨_,rfl⟩) h
          exact ih hr ht hc
        · obtain ⟨nct,_,h⟩ := bind_eq_some_iff.mp h
          obtain ⟨rest,hr⟩ := exists_rest (fun _ => ⟨_,rfl⟩) h
          exact ih hr ht hc
        · obtain ⟨rest,hr⟩ := exists_rest (fun _ => ⟨_,rfl⟩) h
          exact ih hr ht hc

end

/-- A lock time that passes the check is later than what blocks allow. -/
theorem checkLockTime_enforced {tx : CTransaction} {nIn : Fin tx.vin.length} {n h t : ℤ}
    (hn : 0 < n)
    (hc : checkLockTime tx nIn n = true) (hf : isFinalTx tx h t = true) :
    (n < locktimeThreshold → n < h) ∧ (locktimeThreshold ≤ n → n < t) := by
  unfold checkLockTime at hc
  split_ifs at hc with ht hl hs
  rw [not_eq_true',not_eq_false,or_eq_true,and_eq_true,and_eq_true,
    decide_eq_true_eq,decide_eq_true_eq,decide_eq_true_eq,decide_eq_true_eq] at ht
  have hz : tx.nLockTime ≠ 0 := by
    intro hz
    rw [hz] at hl
    exact hl hn
  have ho : ¬(tx.vin.all fun txin => txin.nSequence == sequenceFinal) = true := fun ha =>
    hs (beq_iff_eq.mp (List.all_eq_true.mp ha _ (tx.vin.get_mem nIn))).symm
  unfold isFinalTx at hf
  rw [if_neg hz] at hf
  split_ifs at hf with hh hlt hlt
  · exact ⟨fun _ => by omega,fun _ => by omega⟩
  · exact absurd hf ho
  · exact ⟨fun _ => by omega,fun _ => by omega⟩
  · exact absurd hf ho

/-- A sequence number that passes the check is a lock that has passed in the block. -/
theorem checkSequence_enforced {tx : CTransaction} {nIn : Fin tx.vin.length} {n nch : ℤ}
    {f : BitVec 32} {ph heights : List ℤ} {block : CBlockIndex}
    (hch : checkSequence tx nIn n = true) (hf : f &&& locktimeVerifySequence ≠ 0)
    (hco : ph[nIn.val]? = some nch)
    (hl : sequenceLocks tx f ph block = some (true,heights)) :
    (operandBits n sequenceLocktimeTypeFlag = 0 →
      nch+operandBits n sequenceLocktimeMask ≤ block.nHeight) ∧
    (operandBits n sequenceLocktimeTypeFlag ≠ 0 → ∃ before prev,
      block.getAncestor (max (nch-1) 0) = some before ∧ block.pprev = some prev ∧
        before.getMedianTimePast+512*operandBits n sequenceLocktimeMask ≤
          prev.getMedianTimePast) := by
  obtain ⟨hv,hd,ht,hva⟩ := checkSequence_spec hch
  obtain ⟨⟨l,heights'⟩,hc,hr⟩ := bind_eq_some_iff.mp hl
  obtain ⟨passed,hev,hp⟩ := bind_eq_some_iff.mp hr
  obtain ⟨rfl,rfl⟩ := mk.inj (some.inj hp)
  obtain ⟨prev,hpr,ha⟩ := bind_eq_some_iff.mp hev
  rw [pure_def,some.injEq,not_eq_true',or_eq_false_iff,decide_eq_false_iff_not,
    decide_eq_false_iff_not] at ha
  have hlo : sequenceLocksLoop block tx.vin ph (-1) (-1) = some (l,heights') := by
    unfold calculateSequenceLocks at hc
    have he : (decide (2 ≤ tx.version.toNat) && f &&& locktimeVerifySequence != 0) = true := by
      rw [decide_eq_true hv,Bool.true_and,bne_iff_ne]
      exact hf
    rw [he] at hc
    split_ifs at hc
    exact hc
  have hx : tx.vin[nIn.val]? = some (tx.vin.get nIn) := List.getElem?_eq_getElem nIn.isLt
  obtain ⟨hh,hti⟩ := locksLoop_covers hlo hx hco hd
  constructor
  · intro ho
    have hle := hh (ht.mp ho)
    omega
  · intro ho
    obtain ⟨before,hb,hle⟩ := hti fun hz => ho (ht.mpr hz)
    exact ⟨before,prev,hb,hpr,by omega⟩

/-- A lock time that passes is a height or time that a block has passed in which the transaction is
final, and a sequence number that passes is an age that the coin has in a block in which the
sequence locks have passed. -/
theorem scriptTimeLocks_enforced (tx : CTransaction) (nIn : Fin tx.vin.length) (n : ℤ) :
    (0 < n → n < 2 ^ 39 → checkLockTime tx nIn n = true → ∀ h t, isFinalTx tx h t = true →
      (n < locktimeThreshold → n < h) ∧ (locktimeThreshold ≤ n → n < t)) ∧
    (operandBits n sequenceLocktimeDisableFlag = 0 → checkSequence tx nIn n = true →
      ∀ (flags : BitVec 32) (prevHeights heights : List ℤ) (block : CBlockIndex) (c : ℤ),
        flags &&& locktimeVerifySequence ≠ 0 → prevHeights[nIn.val]? = some c →
        sequenceLocks tx flags prevHeights block = some (true, heights) →
          (operandBits n sequenceLocktimeTypeFlag = 0 →
            c + operandBits n sequenceLocktimeMask ≤ block.nHeight) ∧
          (operandBits n sequenceLocktimeTypeFlag ≠ 0 → ∃ before prev,
            block.getAncestor (max (c - 1) 0) = some before ∧ block.pprev = some prev ∧
              before.getMedianTimePast + 512 * operandBits n sequenceLocktimeMask ≤
                prev.getMedianTimePast)) :=
  ⟨fun hn _ hc _ _ hf => checkLockTime_enforced hn hc hf,
    fun _ hc _ _ _ _ _ hfl ho hl => checkSequence_enforced hc hfl ho hl⟩

/-- A transaction with a lock time, and an input with a lock of 512 seconds. -/
theorem scriptTimeLocks_enforced_example : (500000000 : ℤ) < 500002000 ∧
      ∃ before prev, (shortBranch.extend ⟨4, 0, 0⟩).getAncestor 0 = some before ∧
        (shortBranch.extend ⟨4, 0, 0⟩).pprev = some prev ∧
        before.getMedianTimePast + 512 * 1 ≤ prev.getMedianTimePast := by
  have hl := (scriptTimeLocks_enforced lockedTx ⟨0,by decide⟩ 500000000).1 (by decide) (by decide)
    (by decide) 3 500002000 (by decide)
  have hs := (scriptTimeLocks_enforced lockedTx ⟨0,by decide⟩ 0x400001).2 (by decide) (by decide)
    1#32 [0] [0] (shortBranch.extend ⟨4,0,0⟩) 0 (by decide) rfl (by decide +kernel)
  exact ⟨hl.2 (by decide),hs.2 (by decide)⟩

end DripCore
