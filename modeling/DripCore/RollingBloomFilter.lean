import Mathlib.Algebra.Order.Ring.Nat
import Mathlib.Tactic.IntervalCases
import Mathlib.Tactic.Ring.RingNF

/-!
# Rolling bloom filters

Each cell of a `CRollingBloomFilter` has two bits, in neighbouring words, with the number of the
generation that set it, or zero. A key is inserted by setting its cells to the number of the current
generation. When a generation is full, the next one begins, and the cells with its number, which are
those of the generation three before, are cleared word by word.

The vector of words has the size that the constructor gives it, and an access beyond its end is a
failure. The number of hash functions and that of filter bits come from expressions on doubles,
which are parameters here; the integers around them have the widths of the source, and so the
constructor fails, or makes an empty vector, for large capacities. For all others the filter never
fails and keeps at least the last keys that it was made for.
-/
namespace DripCore
open List

structure CRollingBloomFilter where
  nEntriesPerGeneration : ℕ
  nEntriesThisGeneration : ℕ
  nGeneration : ℕ
  data : List (BitVec 64)
  nTweak : BitVec 32
  nHashFuncs : ℕ
deriving DecidableEq

namespace CRollingBloomFilter

/-- What the constructor computes on doubles from the rate of false positives: the number of hash
functions, and the number of filter bits for a number of elements. -/
structure Sizes where
  nHashFuncs : ℕ
  nFilterBits : ℕ → ℕ

def reset (nTweak : BitVec 32) (f : CRollingBloomFilter) : CRollingBloomFilter :=
  { f with
    nTweak
    nEntriesThisGeneration := 0
    nGeneration := 1
    data := replicate f.data.length 0 }

/-- The constructor, for a 32-bit number of elements. The product is of type `int`, and the number
of bits is converted to 32 bits, as the sum with 63 is. -/
def new (sizes : Sizes) (nTweak : BitVec 32) (nElements : BitVec 32) : Option CRollingBloomFilter :=
  let nEntriesPerGeneration := ((nElements + 1) / 2).toNat
  let nMaxElements := nEntriesPerGeneration * 3
  let nFilterBits := sizes.nFilterBits nMaxElements
  if 2 ^ 31 ≤ nMaxElements ∨ 2 ^ 32 ≤ nFilterBits then none
  else some (reset nTweak
    ⟨nEntriesPerGeneration, 0, 0, replicate (2 * ((nFilterBits + 63) % 2 ^ 32 / 64)) 0, 0,
      sizes.nHashFuncs⟩)

section Source
variable {Key : Type} (murmurHash3 : BitVec 32 → Key → BitVec 32)

def rollingBloomHash (n : ℕ) (nTweak : BitVec 32) (k : Key) : BitVec 32 :=
  murmurHash3 (BitVec.ofNat 32 n * 0xFBA4C795#32 + nTweak) k

def fastRange32 (x : BitVec 32) (n : ℕ) : ℕ := x.toNat * n / 2 ^ 32

/-- The bit of a hash, and half the number of the first of its two words. -/
def bitOf (h : BitVec 32) : ℕ := (h &&& 0x3F#32).toNat

def wordOf (h : BitVec 32) (size : ℕ) : ℕ := fastRange32 h size / 2

def setBit (w : BitVec 64) (bit v : ℕ) : BitVec 64 :=
  (w &&& ~~~(1#64 <<< bit)) ||| BitVec.ofNat 64 v <<< bit

/-- Words with the number of a generation cleared, two at a time. -/
def wipe (nGeneration : ℕ) : List (BitVec 64) → Option (List (BitVec 64))
  | [] => some []
  | [_] => none
  | p1 :: p2 :: data =>
    let nGenerationMask1 := 0#64 - BitVec.ofNat 64 (nGeneration % 2)
    let nGenerationMask2 := 0#64 - BitVec.ofNat 64 (nGeneration / 2)
    let mask := (p1 ^^^ nGenerationMask1) ||| (p2 ^^^ nGenerationMask2)
    (wipe nGeneration data).map fun data => (p1 &&& mask) :: (p2 &&& mask) :: data

def setCell (nGeneration : ℕ) (data : List (BitVec 64)) (h : BitVec 32) :
    Option (List (BitVec 64)) := do
  let pos := 2 * wordOf h data.length
  let p1 ← data[pos]?
  let data := data.set pos (setBit p1 (bitOf h) (nGeneration % 2))
  let p2 ← data[pos + 1]?
  return data.set (pos + 1) (setBit p2 (bitOf h) (nGeneration / 2))

def nextGeneration (f : CRollingBloomFilter) : Option CRollingBloomFilter :=
  if f.nEntriesThisGeneration = f.nEntriesPerGeneration then
    let nGeneration := if f.nGeneration + 1 = 4 then 1 else f.nGeneration + 1
    (wipe nGeneration f.data).map fun data =>
      { f with nEntriesThisGeneration := 0, nGeneration, data }
  else some f

def insert (f : CRollingBloomFilter) (vKey : Key) : Option CRollingBloomFilter := do
  let f ← f.nextGeneration
  let data ← (range f.nHashFuncs).foldlM (fun data n =>
    setCell f.nGeneration data (rollingBloomHash murmurHash3 n f.nTweak vKey)) f.data
  return { f with nEntriesThisGeneration := f.nEntriesThisGeneration + 1, data }

/-- Whether the cell of a hash is set. -/
def testCell (data : List (BitVec 64)) (h : BitVec 32) : Option Bool := do
  let p1 ← data[2 * wordOf h data.length]?
  let p2 ← data[2 * wordOf h data.length + 1]?
  return (p1 ||| p2).getLsbD (bitOf h)

/-- The loop over the hash functions from one of them on. -/
def containsFrom (f : CRollingBloomFilter) (vKey : Key) : List ℕ → Option Bool
  | [] => some true
  | n :: ns => do
    if ← testCell f.data (rollingBloomHash murmurHash3 n f.nTweak vKey) then containsFrom f vKey ns
    else return false

def contains (f : CRollingBloomFilter) (vKey : Key) : Option Bool :=
  containsFrom murmurHash3 f vKey (range f.nHashFuncs)

/-- The calls that change a filter. -/
inductive Operation (Key : Type) where
  | insert (vKey : Key)
  | reset (nTweak : BitVec 32)

def apply (f : CRollingBloomFilter) : Operation Key → Option CRollingBloomFilter
  | .insert vKey => f.insert murmurHash3 vKey
  | .reset nTweak => some (f.reset nTweak)

def run (f : CRollingBloomFilter) (ops : List (Operation Key)) : Option CRollingBloomFilter :=
  ops.foldlM (apply murmurHash3) f

end Source

/-- The bits of a cell: those of a generation, if it was set. -/
def cellAt (data : List (BitVec 64)) (w bit : ℕ) : Bool × Bool :=
  ((data.getD (2 * w) 0).getLsbD bit, (data.getD (2 * w + 1) 0).getLsbD bit)

/-- The bits of the number of a generation, with generations counted from zero. -/
def bitsOf (g : ℕ) : Bool × Bool := (decide ((g % 3 + 1) % 2 = 1), decide ((g % 3 + 1) / 2 = 1))

variable {f : CRollingBloomFilter} {data : List (BitVec 64)} {h : BitVec 32} {g d n : ℕ}

theorem bitOf_lt (h : BitVec 32) : bitOf h < 64 := by
  rw [bitOf, BitVec.toNat_and]
  exact Nat.lt_of_le_of_lt Nat.and_le_right (by decide)

theorem wordOf_lt (h : BitVec 32) (hn : 0 < n) : wordOf h (2 * n) < n := by
  have hl : h.toNat * (2 * n) < 2 * n * 2 ^ 32 := by
    rw [Nat.mul_comm]
    exact Nat.mul_lt_mul_of_pos_left h.isLt (by omega)
  have hd : fastRange32 h (2 * n) < 2 * n := Nat.div_lt_of_lt_mul (by rwa [Nat.mul_comm (2 ^ 32)])
  rw [wordOf]
  omega

theorem getLsbD_setBit {w : BitVec 64} {bit v j : ℕ} (hv : v < 2) (hj : j < 64) :
    (setBit w bit v).getLsbD j = if j = bit then decide (v = 1) else w.getLsbD j := by
  rw [setBit, BitVec.getLsbD_or, BitVec.getLsbD_and, BitVec.getLsbD_not, BitVec.getLsbD_shiftLeft,
    BitVec.getLsbD_shiftLeft, BitVec.getLsbD_one, BitVec.getLsbD_ofNat]
  rcases lt_trichotomy j bit with h | rfl | h
  · simp [hj, h, h.ne]
  · interval_cases v <;> simp [hj]
  · have hn : j - bit ≠ 0 := by omega
    have hv : v.testBit (j - bit) = false := Nat.testBit_lt_two_pow (hv.trans_le (by
      simpa using Nat.pow_le_pow_right Nat.two_pos (Nat.one_le_iff_ne_zero.mpr hn)))
    simp [hj, h.ne', h.not_gt, hn, hv]

theorem getD_of_lt {i : ℕ} (hi : i < data.length) : data.getD i 0 = data[i] := by
  rw [getD_eq_getElem?_getD, getElem?_eq_getElem hi, Option.getD_some]

theorem getD_of_le {i : ℕ} (hi : data.length ≤ i) : data.getD i 0 = 0 := by
  rw [getD_eq_getElem?_getD, getElem?_eq_none hi, Option.getD_none]

/-- Setting a cell changes the bits of this cell only. -/
theorem setCell_spec (hl : data.length = 2 * n) (hn : 0 < n) (g : ℕ) (h : BitVec 32) : ∃ data',
    setCell (g % 3 + 1) data h = some data' ∧ data'.length = 2 * n ∧ ∀ w bit, bit < 64 →
      cellAt data' w bit =
        if w = wordOf h (2 * n) ∧ bit = bitOf h then bitsOf g else cellAt data w bit := by
  have hw := wordOf_lt h hn
  generalize hp : wordOf h (2 * n) = p at hw
  have h1 : 2 * p < data.length := by omega
  have h2 : 2 * p + 1 < data.length := by omega
  refine ⟨(data.set (2 * p) (setBit data[2 * p] (bitOf h) ((g % 3 + 1) % 2))).set (2 * p + 1)
    (setBit data[2 * p + 1] (bitOf h) ((g % 3 + 1) / 2)), ?_, ?_, fun w bit hb => ?_⟩
  · have h2' : 2 * p + 1 < (data.set (2 * p)
      (setBit data[2 * p] (bitOf h) ((g % 3 + 1) % 2))).length := by
      rwa [length_set]
    rw [setCell, hl, hp, getElem?_eq_getElem h1]
    dsimp only [Option.bind_eq_bind, Option.bind_some]
    rw [getElem?_eq_getElem h2', getElem_set_ne (by omega)]
    rfl
  · rw [length_set, length_set, hl]
  · have hg (i : ℕ) (v : BitVec 64) (l : List (BitVec 64)) (j : ℕ) (hj : j < l.length) :
        (l.set i v).getD j 0 = if i = j then v else l.getD j 0 := by
      rw [getD_of_lt (by rwa [length_set]), getElem_set, getD_of_lt hj]
    by_cases hin : w < n
    · rw [cellAt, cellAt, hg _ _ _ _ (by rw [length_set]; omega), hg _ _ _ _ (by omega),
        hg _ _ _ _ (by rw [length_set]; omega), hg _ _ _ _ (by omega)]
      by_cases he : w = p
      · subst he
        rw [if_neg (by omega), if_pos rfl, if_pos rfl, getLsbD_setBit (by omega) hb,
          getLsbD_setBit (by omega) hb, getD_of_lt h1, getD_of_lt h2]
        by_cases hbit : bit = bitOf h
        · simp only [hbit, if_true, and_self, bitsOf]
        · simp only [hbit, if_false, and_false]
      · rw [if_neg (by omega), if_neg (by omega), if_neg (by omega), if_neg (by omega),
          if_neg fun hh => he hh.1]
    · rw [if_neg (by omega), cellAt, cellAt]
      rw [getD_of_le (by rw [length_set, length_set]; omega),
        getD_of_le (by rw [length_set, length_set]; omega), getD_of_le (by omega),
        getD_of_le (by omega)]

theorem wiped_bits (a b x y : Bool) : (a && (a ^^ x || b ^^ y), b && (a ^^ x || b ^^ y)) =
    if (a, b) = (x, y) then (false, false) else (a, b) := by
  revert a b x y
  decide

theorem bitsOf_ne (g : ℕ) : bitsOf g ≠ (false, false) := by
  have h : g % 3 = 0 ∨ g % 3 = 1 ∨ g % 3 = 2 := by omega
  rcases h with h | h | h <;> simp [bitsOf, h]

theorem bitsOf_inj {g' : ℕ} (h : bitsOf g = bitsOf g') : g % 3 = g' % 3 := by
  have hg : g % 3 = 0 ∨ g % 3 = 1 ∨ g % 3 = 2 := by omega
  have hg' : g' % 3 = 0 ∨ g' % 3 = 1 ∨ g' % 3 = 2 := by omega
  rcases hg with hg | hg | hg <;> rcases hg' with hg' | hg' | hg' <;>
    simp [bitsOf, hg, hg'] at h ⊢

/-- Wiping clears the cells of a generation and leaves all others. -/
theorem wipe_spec (hl : data.length = 2 * n) (g : ℕ) : ∃ data',
    wipe (g % 3 + 1) data = some data' ∧ data'.length = 2 * n ∧ ∀ w bit, bit < 64 →
      cellAt data' w bit =
        if cellAt data w bit = bitsOf g then (false, false) else cellAt data w bit := by
  induction n generalizing data with
  | zero =>
    obtain rfl := length_eq_zero_iff.mp hl
    exact ⟨[], rfl, rfl, fun w bit _ => by simp [cellAt]⟩
  | succ n ih =>
    match data, hl with
    | p1 :: p2 :: data, hl =>
      have hlen : data.length = 2 * n := by
        simp only [length_cons] at hl
        omega
      obtain ⟨data', hw, hd, hc⟩ := ih hlen
      refine ⟨_, by rw [wipe, hw]; rfl, by simp only [length_cons]; omega, fun w bit hb => ?_⟩
      cases w with
      | zero =>
        have hm (v : ℕ) (hv : v < 2) : (0#64 - BitVec.ofNat 64 v).getLsbD bit = decide (v = 1) := by
          interval_cases v
          · simp
          · rw [show 0#64 - BitVec.ofNat 64 1 = BitVec.allOnes 64 by decide, BitVec.getLsbD_allOnes]
            exact decide_eq_true hb
        simp only [cellAt, Nat.mul_zero, Nat.zero_add, getD_cons_zero, getD_cons_succ,
          BitVec.getLsbD_and, BitVec.getLsbD_or, BitVec.getLsbD_xor,
          hm _ (show (g % 3 + 1) % 2 < 2 by omega), hm _ (show (g % 3 + 1) / 2 < 2 by omega)]
        exact wiped_bits _ _ _ _
      | succ w => exact hc w bit hb

section
variable {Key : Type} {murmurHash3 : BitVec 32 → Key → BitVec 32} {k : Key}

/-- The cell of a hash function for a key. -/
def cell (murmurHash3 : BitVec 32 → Key → BitVec 32) (f : CRollingBloomFilter) (k : Key) (i : ℕ) :
    Bool × Bool :=
  cellAt f.data (wordOf (rollingBloomHash murmurHash3 i f.nTweak k) f.data.length)
    (bitOf (rollingBloomHash murmurHash3 i f.nTweak k))

/-- Cells that are set are those of the generation, and the others as before. -/
theorem setCells_spec (hl : data.length = 2 * n) (hn : 0 < n) (g : ℕ) (hash : ℕ → BitVec 32)
    (ns : List ℕ) : ∃ data', ns.foldlM (fun data n => setCell (g % 3 + 1) data (hash n)) data =
      some data' ∧ data'.length = 2 * n ∧ ∀ w bit, bit < 64 → cellAt data' w bit = bitsOf g ∨
        (∀ i ∈ ns, wordOf (hash i) (2 * n) ≠ w ∨ bitOf (hash i) ≠ bit) ∧
          cellAt data' w bit = cellAt data w bit := by
  induction ns generalizing data with
  | nil => exact ⟨data, rfl, hl, fun w bit _ => .inr ⟨fun _ hi => absurd hi not_mem_nil, rfl⟩⟩
  | cons i ns ih =>
    obtain ⟨data1, hs, hl1, hc⟩ := setCell_spec hl hn g (hash i)
    obtain ⟨data', hf, hl', hc'⟩ := ih hl1
    refine ⟨data', by rw [foldlM_cons, hs]; exact hf, hl', fun w bit hb => ?_⟩
    rcases hc' w bit hb with he | ⟨hne, he⟩
    · exact .inl he
    · rw [hc w bit hb] at he
      split_ifs at he with hi
      · exact .inl he
      · refine .inr ⟨forall_mem_cons.mpr ⟨?_, hne⟩, he⟩
        by_contra hno
        push Not at hno
        exact hi ⟨hno.1.symm, hno.2.symm⟩

/-- A filter in a generation, counted from zero, with its sizes and its tweak. -/
structure Valid (E n N : ℕ) (nTweak : BitVec 32) (g : ℕ) (f : CRollingBloomFilter) : Prop where
  perGeneration : f.nEntriesPerGeneration = E
  length : f.data.length = 2 * n
  hashFuncs : f.nHashFuncs = N
  tweak : f.nTweak = nTweak
  generation : f.nGeneration = g % 3 + 1
  count_le : f.nEntriesThisGeneration ≤ E

variable {E N c m : ℕ} {nTweak : BitVec 32}

/-- An insertion begins at most one generation, and only cells of an old one are lost. -/
theorem Valid.insert (hE : 0 < E) (hn : 0 < n) (hv : Valid E n N nTweak g f) (k : Key) : ∃ r f',
    f.insert murmurHash3 k = some f' ∧ (r = 0 ∨ r = 1 ∧ f.nEntriesThisGeneration = E) ∧
    Valid E n N nTweak (g + r) f' ∧ 0 < f'.nEntriesThisGeneration ∧
    f'.nEntriesThisGeneration + E * r = f.nEntriesThisGeneration + 1 ∧
    (∀ i ∈ range N, cell murmurHash3 f' k i = bitsOf (g + r)) ∧
    ∀ k' i, r = 0 ∨ cell murmurHash3 f k' i ≠ bitsOf (g + r) →
      cell murmurHash3 f' k' i = bitsOf (g + r) ∨
        cell murmurHash3 f' k' i = cell murmurHash3 f k' i := by
  -- What the loop over the hash functions does after the generation has been chosen.
  have hloop {f1 : CRollingBloomFilter} {g1 : ℕ} (h1 : Valid E n N nTweak g1 f1)
      (hlt : f1.nEntriesThisGeneration < E) : ∃ f', (do
        let data ← (range f1.nHashFuncs).foldlM (fun data n => setCell f1.nGeneration data
          (rollingBloomHash murmurHash3 n f1.nTweak k)) f1.data
        return { f1 with nEntriesThisGeneration := f1.nEntriesThisGeneration + 1, data }) =
          some f' ∧
      Valid E n N nTweak g1 f' ∧ f'.nEntriesThisGeneration = f1.nEntriesThisGeneration + 1 ∧
      (∀ i ∈ range N, cell murmurHash3 f' k i = bitsOf g1) ∧
      ∀ k' i, cell murmurHash3 f' k' i = bitsOf g1 ∨
        cell murmurHash3 f' k' i = cell murmurHash3 f1 k' i := by
    obtain ⟨data', hs, hl, hc⟩ := setCells_spec h1.length hn g1
      (fun i => rollingBloomHash murmurHash3 i f1.nTweak k) (range f1.nHashFuncs)
    refine ⟨{ f1 with nEntriesThisGeneration := f1.nEntriesThisGeneration + 1, data := data' }, ?_,
      ⟨h1.perGeneration, hl, h1.hashFuncs, h1.tweak, h1.generation, hlt⟩, rfl, fun i hi => ?_,
      fun k' i => ?_⟩
    · rw [h1.generation, hs]
      rfl
    · rw [cell, hl]
      refine (hc _ _ (bitOf_lt _)).resolve_right fun hno => ?_
      rcases hno.1 i (h1.hashFuncs ▸ hi) with hne | hne
      · exact hne rfl
      · exact hne rfl
    · rw [cell, cell, hl, h1.length]
      exact (hc _ _ (bitOf_lt _)).imp_right And.right
  rw [CRollingBloomFilter.insert, nextGeneration]
  by_cases hc : f.nEntriesThisGeneration = f.nEntriesPerGeneration
  · obtain ⟨data', hw, hl, hcell⟩ := wipe_spec hv.length (g + 1)
    have hng : (if f.nGeneration + 1 = 4 then 1 else f.nGeneration + 1) = (g + 1) % 3 + 1 := by
      have hg := hv.generation
      split_ifs <;> omega
    have hv1 : Valid E n N nTweak (g + 1)
        { f with nEntriesThisGeneration := 0, nGeneration := (g + 1) % 3 + 1, data := data' } :=
      ⟨hv.perGeneration, hl, hv.hashFuncs, hv.tweak, rfl, Nat.zero_le _⟩
    obtain ⟨f', hf, hv', hcount, hset, hold⟩ := hloop hv1 hE
    have hE' := hv.perGeneration
    refine ⟨1, f', ?_, .inr ⟨rfl, hc.trans hE'⟩, hv', by omega, ?_, hset, fun k' i hk => ?_⟩
    · rw [if_pos hc, hng]
      dsimp only
      rw [hw]
      exact hf
    · rw [hcount, hc, hE']
      dsimp only
      omega
    · rcases hold k' i with ho | ho
      · exact .inl ho
      · rcases hk with hk | hk
        · exact absurd hk one_ne_zero
        · refine .inr (ho.trans ?_)
          rw [cell, cell] at *
          dsimp only at hk ⊢
          rw [hv.length] at hk ⊢
          rw [hl, hcell _ _ (bitOf_lt _), if_neg hk]
  · obtain ⟨f', hf, hv', hcount, hset, hold⟩ := hloop hv
      (lt_of_le_of_ne hv.count_le (hv.perGeneration ▸ hc))
    refine ⟨0, f', ?_, .inl rfl, hv', by omega, by omega, hset, fun k' i _ => hold k' i⟩
    rw [if_neg hc]
    exact hf

/-- A filter with a key in it, `m` insertions and `d` generations after that of the key. -/
structure Remembers (murmurHash3 : BitVec 32 → Key → BitVec 32) (E n N : ℕ) (nTweak : BitVec 32)
    (g c : ℕ) (k : Key) (m d : ℕ) (f : CRollingBloomFilter) : Prop
    extends Valid E n N nTweak (g + d) f where
  count_pos : 0 < f.nEntriesThisGeneration
  count_eq : f.nEntriesThisGeneration + E * d = c + m
  cells : d ≤ 2 → ∀ i ∈ range N, ∃ j ≤ d, cell murmurHash3 f k i = bitsOf (g + j)

theorem Remembers.insert (hE : 0 < E) (hn : 0 < n)
    (hr : Remembers murmurHash3 E n N nTweak g c k m d f) (k' : Key) : ∃ d' f',
    f.insert murmurHash3 k' = some f' ∧
      Remembers murmurHash3 E n N nTweak g c k (m + 1) d' f' := by
  obtain ⟨r, f', hf, hc, hv, hp, he, -, hl⟩ := hr.toValid.insert hE hn k'
  rw [Nat.add_assoc] at hv hl
  have hpo := hr.count_pos
  have ho := hr.count_eq
  refine ⟨d + r, f', hf, hv, hp, by rw [Nat.mul_add]; omega, fun hd i hi => ?_⟩
  obtain ⟨j, hj, hb⟩ := hr.cells (by omega) i hi
  have hk : r = 0 ∨ cell murmurHash3 f k i ≠ bitsOf (g + (d + r)) := by
    rcases hc with rfl | ⟨rfl, -⟩
    · exact .inl rfl
    · refine .inr fun hq => ?_
      have hq := bitsOf_inj (hb.symm.trans hq)
      omega
  rcases hl k i hk with hs | hs
  · exact ⟨d + r, le_rfl, hs⟩
  · exact ⟨j, by omega, hs.trans hb⟩

theorem Remembers.run (hE : 0 < E) (hn : 0 < n)
    (hr : Remembers murmurHash3 E n N nTweak g c k m d f) (keys : List Key) : ∃ d' f',
    f.run murmurHash3 (keys.map .insert) = some f' ∧
      Remembers murmurHash3 E n N nTweak g c k (m + keys.length) d' f' := by
  induction keys generalizing f m d with
  | nil => exact ⟨d, f, rfl, hr⟩
  | cons k' keys ih =>
    obtain ⟨d1, f1, hf, hr1⟩ := hr.insert hE hn k'
    obtain ⟨d', f', hf', hr'⟩ := ih hr1
    refine ⟨d', f', ?_, by rwa [length_cons, Nat.add_comm keys.length, ← Nat.add_assoc]⟩
    rw [CRollingBloomFilter.run, map_cons, foldlM_cons, apply, hf]
    exact hf'

theorem Valid.reset (hv : Valid E n N nTweak g f) (nTweak' : BitVec 32) :
    Valid E n N nTweak' 0 (f.reset nTweak') :=
  ⟨hv.perGeneration, by rw [CRollingBloomFilter.reset, length_replicate, hv.length], hv.hashFuncs,
    rfl, rfl, Nat.zero_le _⟩

/-- No sequence of calls fails, and all of them keep the sizes. -/
theorem Valid.run (hE : 0 < E) (hn : 0 < n) (hv : Valid E n N nTweak g f)
    (ops : List (Operation Key)) : ∃ nTweak' g' f', f.run murmurHash3 ops = some f' ∧
      Valid E n N nTweak' g' f' := by
  induction ops generalizing f g nTweak with
  | nil => exact ⟨nTweak, g, f, rfl, hv⟩
  | cons op ops ih =>
    cases op with
    | insert k =>
      obtain ⟨r, f1, hf, -, hv1, -⟩ := hv.insert hE hn k
      obtain ⟨t, g', f', hf', hv'⟩ := ih hv1
      refine ⟨t, g', f', ?_, hv'⟩
      rw [CRollingBloomFilter.run, foldlM_cons, apply, hf]
      exact hf'
    | reset t => exact ih (hv.reset t)

theorem testCell_eq (hl : f.data.length = 2 * n) (hn : 0 < n) (i : ℕ) :
    testCell f.data (rollingBloomHash murmurHash3 i f.nTweak k) =
      some ((cell murmurHash3 f k i).1 || (cell murmurHash3 f k i).2) := by
  have hw := wordOf_lt (rollingBloomHash murmurHash3 i f.nTweak k) hn
  rw [testCell, cell, cellAt, hl, getElem?_eq_getElem (by omega), getElem?_eq_getElem (by omega),
    getD_of_lt (by omega), getD_of_lt (by omega), ← BitVec.getLsbD_or]
  rfl

theorem contains_of_cells (hv : Valid E n N nTweak g f) (hn : 0 < n) {g' : ℕ}
    (h : ∀ i ∈ range N, ∃ j ≤ d, cell murmurHash3 f k i = bitsOf (g' + j)) :
    f.contains murmurHash3 k = some true := by
  rw [contains, hv.hashFuncs]
  generalize range N = ns at h
  induction ns with
  | nil => rfl
  | cons i ns ih =>
    obtain ⟨j, -, hb⟩ := h i mem_cons_self
    have ht : ((cell murmurHash3 f k i).1 || (cell murmurHash3 f k i).2) = true := by
      by_contra hc
      rw [Bool.not_eq_true, Bool.or_eq_false_iff] at hc
      exact bitsOf_ne _ (hb.symm.trans (Prod.ext hc.1 hc.2))
    rw [containsFrom, testCell_eq hv.length hn, ht]
    exact ih fun i hi => h i (mem_cons_of_mem _ hi)

/-- A capacity for which the sizes that the constructor computes fit their types. -/
structure Capacity (sizes : Sizes) (nElements : BitVec 32) : Prop where
  pos : 0 < nElements.toNat
  maxElements : 3 * ((nElements.toNat + 1) / 2) < 2 ^ 31
  filterBits_pos : 0 < sizes.nFilterBits (3 * ((nElements.toNat + 1) / 2))
  filterBits_lt : sizes.nFilterBits (3 * ((nElements.toNat + 1) / 2)) + 63 < 2 ^ 32

theorem new_eq {sizes : Sizes} {nElements : BitVec 32} (h : Capacity sizes nElements)
    (nTweak : BitVec 32) : ∃ f n, new sizes nTweak nElements = some f ∧ 0 < n ∧
      Valid ((nElements.toNat + 1) / 2) n sizes.nHashFuncs nTweak 0 f := by
  have hE : ((nElements + 1) / 2).toNat = (nElements.toNat + 1) / 2 := by
    have hm := h.maxElements
    rw [BitVec.toNat_udiv, BitVec.toNat_add, show (1 : BitVec 32).toNat = 1 from rfl,
      show (2 : BitVec 32).toNat = 2 from rfl]
    omega
  have h1 := h.maxElements
  have h2 := h.filterBits_pos
  have h3 := h.filterBits_lt
  rw [new, hE, Nat.mul_comm _ 3, if_neg (by omega)]
  refine ⟨_, (sizes.nFilterBits (3 * ((nElements.toNat + 1) / 2)) + 63) % 2 ^ 32 / 64, rfl,
    by omega,
    rfl, ?_, rfl, rfl, rfl, Nat.zero_le _⟩
  simp only [reset, length_replicate]

end
end CRollingBloomFilter
end DripCore
