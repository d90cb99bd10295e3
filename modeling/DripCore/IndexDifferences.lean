import DripCore.Deserialization

/-!
# Indexes as differences

The indexes of a `getblocktxn` message are written as the gaps between them. `DifferenceFormatter`
keeps the index after the last one in 64 bits; a list comes back exactly if it is rising.

Reading fails on an index beyond 16 bits and on a sum that leaves 64 bits. So a message has one list
of indexes, and a list one message.
-/
namespace DripCore
open ExceptRules List Nat StreamReader

/-- `Ser` of `DifferenceFormatter`: what is written, and the next `m_shift`. -/
def serDifference (m_shift v : ℕ) : Except ReadError (List (BitVec 8) × ℕ) :=
  if v < m_shift ∨ 2^64-1 ≤ v then .error .differentialValueOverflow
  else .ok (writeCompactSize (v-m_shift),(v+1) % 2^64)

/-- `Unser`, for an unsigned type of some bits: the value that is read, and the next `m_shift`. -/
def unserDifference (bits m_shift : ℕ) : ByteReader (ℕ × ℕ) := do
  let n ← readCompactSize true
  let m_shift := (m_shift+n) % 2^64
  if m_shift < n ∨ 2^64-1 ≤ m_shift ∨ m_shift < 0 ∨ 2^bits-1 < m_shift then
    throw .differentialValueOverflow
  else return (m_shift % 2^bits,(m_shift+1) % 2^64)

def serDifferences : ℕ → List ℕ → Except ReadError (List (BitVec 8))
  | _, [] => .ok []
  | m_shift, v::vs => do
      let (bytes,m_shift) ← serDifference m_shift v
      let tail ← serDifferences m_shift vs
      return bytes++tail

def unserDifferences (bits : ℕ) : ℕ → ℕ → ByteReader (List ℕ)
  | 0, _ => pure []
  | size+1, m_shift => do
      let (v,m_shift) ← unserDifference bits m_shift
      let vs ← unserDifferences bits size m_shift
      return v::vs

/-- `VectorFormatter<DifferenceFormatter>`. -/
def serIndexes (indexes : List ℕ) : Except ReadError (List (BitVec 8)) := do
  let differences ← serDifferences 0 indexes
  return writeCompactSize indexes.length++differences

def unserIndexes (bits : ℕ) : ByteReader (List ℕ) := do
  let size ← readCompactSize true
  unserDifferences bits size 0

theorem readSize_le {s rest : List (BitVec 8)} {n : ℕ}
    (h : (readCompactSize true).run s = .ok (n,rest)) : n ≤ maxSize := by
  obtain ⟨cs,s1,-,h⟩ := run_bind_eq_ok.mp h
  obtain ⟨nsr,s2,-,h⟩ := run_bind_eq_ok.mp h
  split_ifs at h with hl
  · exact absurd h (by simp)
  · obtain ⟨rfl,-⟩ := run_pure_eq_ok.mp h
    simpa using hl

/-- Indexes from `m` on, one after the other, that the type holds. -/
structure RisingFrom (bits m : ℕ) (indexes : List ℕ) : Prop where
  sorted : indexes.Pairwise (· < ·)
  least : ∀ i ∈ indexes, m ≤ i
  fits : ∀ i ∈ indexes, i < 2^bits

variable {bits m : ℕ}

theorem rising_cons {v : ℕ} {vs : List ℕ} :
    RisingFrom bits m (v::vs) ↔ m ≤ v ∧ v < 2^bits ∧ RisingFrom bits (v+1) vs := by
  constructor
  · rintro ⟨hs,hl,hf⟩
    rw [pairwise_cons] at hs
    rw [forall_mem_cons] at hl hf
    exact ⟨hl.1,hf.1,hs.2,hs.1,hf.2⟩
  · rintro ⟨hl,hf,h⟩
    refine ⟨pairwise_cons.mpr ⟨h.least,h.sorted⟩,forall_mem_cons.mpr ⟨hl,fun i hi => ?_⟩,
      forall_mem_cons.mpr ⟨hf,h.fits⟩⟩
    exact hl.trans (le_of_succ_le (h.least i hi))

theorem RisingFrom.length_le {i : List ℕ} (h : RisingFrom bits m i) (hm : m ≤ 2^bits) :
    m+i.length ≤ 2^bits := by
  induction i generalizing m with
  | nil => exact hm
  | cons v vs ih =>
    obtain ⟨he,hf,h⟩ := rising_cons.mp h
    have hl := ih h hf
    rw [length_cons]
    omega

section
variable {bits m v : ℕ} (hbits : 2^bits ≤ maxSize)
include hbits

theorem serDifference_eq (hm : m ≤ v) (hv : v < 2^bits) :
    serDifference m v = .ok (writeCompactSize (v-m),v+1) := by
  have hs : 2^bits < 2^64-1 := lt_of_le_of_lt hbits (by decide)
  rw [serDifference,if_neg (by omega),mod_eq_of_lt (by omega)]

theorem run_unserDifference (hm : m ≤ v) (hv : v < 2^bits) (rest : List (BitVec 8)) :
    (unserDifference bits m).run (writeCompactSize (v-m)++rest) = .ok ((v,v+1),rest) := by
  have hs : 2^bits < 2^64-1 := lt_of_le_of_lt hbits (by decide)
  rw [unserDifference,run_bind (reads_readSize (v-m) (by omega) rest),Nat.add_sub_cancel' hm,
    mod_eq_of_lt (show v < 2^64 by omega),if_neg (by omega),mod_eq_of_lt hv,
    mod_eq_of_lt (by omega)]
  rfl

variable {rest s : List (BitVec 8)} {vs : List ℕ}

theorem unserDifference_eq_ok {m' : ℕ} (hm : m ≤ 2^bits)
    (h : (unserDifference bits m).run s = .ok ((v,m'),rest)) :
    m ≤ v ∧ v < 2^bits ∧ m' = v+1 ∧ s = writeCompactSize (v-m)++rest := by
  obtain ⟨n,s',hr,h⟩ := run_bind_eq_ok.mp h
  have hn : n ≤ 2^25 := readSize_le hr
  have hs : 2^bits ≤ 2^25 := hbits
  have hp : 0 < 2^bits := Nat.two_pow_pos bits
  rw [mod_eq_of_lt (show m+n < 2^64 by omega)] at h
  dsimp only at h
  split_ifs at h with hc
  · exact absurd h (by simp)
  · obtain ⟨hv,rfl⟩ := run_pure_eq_ok.mp h
    rw [Prod.mk.injEq,mod_eq_of_lt (show m+n < 2^bits by omega),
      mod_eq_of_lt (show m+n+1 < 2^64 by omega)] at hv
    obtain ⟨rfl,rfl⟩ := hv
    refine ⟨by omega,by omega,rfl,?_⟩
    rw [Nat.add_sub_cancel_left]
    exact exact_readSize true _ _ _ hr

theorem run_unserAll (h : RisingFrom bits m vs) : ∃ bytes, serDifferences m vs = .ok bytes ∧
      ∀ rest, (unserDifferences bits vs.length m).run (bytes++rest) = .ok (vs,rest) := by
  induction vs generalizing m with
  | nil => exact ⟨[],rfl,fun rest => rfl⟩
  | cons v vs ih =>
    obtain ⟨hl,hf,h⟩ := rising_cons.mp h
    obtain ⟨bytes,hs,hu⟩ := ih h
    refine ⟨writeCompactSize (v-m)++bytes,?_,fun rest => ?_⟩
    · rw [serDifferences,serDifference_eq hbits hl hf,ok_bind]
      dsimp only
      rw [hs]
      rfl
    · rw [length_cons,unserDifferences,append_assoc,run_bind (run_unserDifference hbits hl hf _)]
      dsimp only
      rw [run_bind (hu rest)]
      rfl

theorem unserAll_eq_ok {size : ℕ} (hm : m ≤ 2^bits)
    (h : (unserDifferences bits size m).run s = .ok (vs,rest)) :
    vs.length = size ∧ RisingFrom bits m vs ∧ ∃ bytes, serDifferences m vs = .ok bytes ∧
      s = bytes++rest := by
  induction size generalizing m vs s with
  | zero =>
    obtain ⟨rfl,rfl⟩ := run_pure_eq_ok.mp h
    exact ⟨rfl,⟨.nil,nofun,nofun⟩,[],rfl,rfl⟩
  | succ size ih =>
    obtain ⟨⟨v,m'⟩,s',he,h⟩ := run_bind_eq_ok.mp h
    obtain ⟨tail,s'',ht,h⟩ := run_bind_eq_ok.mp h
    obtain ⟨rfl,rfl⟩ := run_pure_eq_ok.mp h
    obtain ⟨hl,hf,rfl,rfl⟩ := unserDifference_eq_ok hbits hm he
    obtain ⟨rfl,hr,bytes,hs,rfl⟩ := ih hf ht
    refine ⟨rfl,rising_cons.mpr ⟨hl,hf,hr⟩,writeCompactSize (v-m)++bytes,?_,?_⟩
    · rw [serDifferences,serDifference_eq hbits hl hf,ok_bind]
      dsimp only
      rw [hs]
      rfl
    · rw [append_assoc]

end

/-- Rising indexes of 16 bits come back from their differences, and nothing else is accepted. -/
theorem unserIndexes_serIndexes :
    (∀ indexes : List ℕ, indexes.Pairwise (· < ·) → (∀ i ∈ indexes, i < 2 ^ 16) →
      ∃ bytes, serIndexes indexes = .ok bytes ∧
        ∀ rest, (unserIndexes 16).run (bytes ++ rest) = .ok (indexes, rest)) ∧
    ∀ s indexes rest, (unserIndexes 16).run s = .ok (indexes, rest) →
      indexes.Pairwise (· < ·) ∧ (∀ i ∈ indexes, i < 2 ^ 16) ∧
        ∃ bytes, serIndexes indexes = .ok bytes ∧ s = bytes ++ rest := by
  have hbits : 2^16 ≤ maxSize := by decide
  constructor
  · intro indexes ho hf
    have hr : RisingFrom 16 0 indexes := ⟨ho,fun i _ => zero_le i,hf⟩
    have hl := hr.length_le (zero_le _)
    obtain ⟨bytes,hs,hu⟩ := run_unserAll hbits hr
    refine ⟨writeCompactSize indexes.length++bytes,
      by rw [serIndexes,hs,ok_bind]; rfl,fun rest => ?_⟩
    rw [unserIndexes,append_assoc,run_bind (reads_readSize _ (by omega) _)]
    exact hu rest
  · intro s indexes rest h
    obtain ⟨size,s',hsi,h⟩ := run_bind_eq_ok.mp h
    obtain ⟨rfl,hr,bytes,hs,rfl⟩ := unserAll_eq_ok hbits (zero_le _) h
    refine ⟨hr.sorted,hr.fits,writeCompactSize indexes.length++bytes,?_,?_⟩
    · rw [serIndexes,hs,ok_bind]
      rfl
    · rw [append_assoc]
      exact exact_readSize true _ _ _ hsi

theorem unserIndexes_serIndexes_two : ∃ bytes, serIndexes [3, 65535] = .ok bytes ∧
    ∀ rest, (unserIndexes 16).run (bytes ++ rest) = .ok ([3, 65535], rest) :=
  unserIndexes_serIndexes.1 [3,65535] (by decide) (by decide)

end DripCore
