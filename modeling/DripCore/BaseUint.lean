import DripCore.Limbs
import Mathlib.Data.List.Range

/-!
# Big integers in 32-bit digits

`base_uint` keeps a number in an array `pn` of `WIDTH` digits of 32 bits, the least significant
first. Its operators are loops over the digits: the shifts move every digit to two places, the sum
carries in a 64-bit word, the increment goes on while a digit wraps around, and comparison and the
number of bits start at the highest digit.

Each operator is given here as the loop of the source, and refines the operation of a machine word
of `32 * WIDTH` bits. Reads and writes are at places that the loops have tested, so the default of a
read outside the array is never seen.
-/
namespace DripCore

/-- The digits `pn`. -/
abbrev BaseUint (WIDTH : ℕ) := Vector (BitVec 32) WIDTH

namespace BaseUint
open Limbs

variable {WIDTH : ℕ}

def limb (a : BaseUint WIDTH) (i : ℕ) : BitVec 32 := a[i]?.getD 0#32

/-- The word that the digits stand for. -/
def toWord (a : BaseUint WIDTH) : BitVec (32 * WIDTH) := BitVec.ofNat _ (value a.limb WIDTH)

def toNat (a : BaseUint WIDTH) : ℕ := a.toWord.toNat

/-- `base_uint()`. -/
def zero : BaseUint WIDTH := Vector.replicate WIDTH 0#32

/-- `base_uint(uint64_t b)`. -/
def ofUint64 (b : BitVec 64) : BaseUint WIDTH :=
  (zero.setIfInBounds 0 (b.setWidth 32)).setIfInBounds 1 ((b >>> 32).setWidth 32)

/-- The assignment `pn[i] |= x`. -/
def orLimb (pn : BaseUint WIDTH) (i : ℕ) (x : BitVec 32) : BaseUint WIDTH :=
  pn.setIfInBounds i (pn.limb i ||| x)

/-- One round of `operator<<=` by `k` digits and `shift` bits. -/
def shiftLeftStep (a : BaseUint WIDTH) (k shift : ℕ) (pn : BaseUint WIDTH) (i : ℕ) :
    BaseUint WIDTH :=
  let pn := if i + k + 1 < WIDTH ∧ shift ≠ 0 then pn.orLimb (i + k + 1) (a.limb i >>> (32 - shift))
    else pn
  if i + k < WIDTH then pn.orLimb (i + k) (a.limb i <<< shift) else pn

/-- `operator<<=`. -/
def shiftLeft (a : BaseUint WIDTH) (shift : ℕ) : BaseUint WIDTH :=
  (List.range WIDTH).foldl (shiftLeftStep a (shift / 32) (shift % 32)) zero

/-- One round of `operator>>=`. -/
def shiftRightStep (a : BaseUint WIDTH) (k shift : ℕ) (pn : BaseUint WIDTH) (i : ℕ) :
    BaseUint WIDTH :=
  let pn := if k + 1 ≤ i ∧ shift ≠ 0 then pn.orLimb (i - k - 1) (a.limb i <<< (32 - shift)) else pn
  if k ≤ i then pn.orLimb (i - k) (a.limb i >>> shift) else pn

/-- `operator>>=`. -/
def shiftRight (a : BaseUint WIDTH) (shift : ℕ) : BaseUint WIDTH :=
  (List.range WIDTH).foldl (shiftRightStep a (shift / 32) (shift % 32)) zero

/-- `operator~`. -/
def not (a : BaseUint WIDTH) : BaseUint WIDTH := a.map fun x => ~~~x

/-- The loop of `operator++`, with the number of digits still ahead. -/
def incrementLoop : ℕ → BaseUint WIDTH → BaseUint WIDTH
  | 0, pn => pn
  | n + 1, pn =>
    let i := WIDTH - (n + 1)
    let pn : BaseUint WIDTH := pn.setIfInBounds i (pn.limb i + 1#32)
    if pn.limb i = 0#32 then incrementLoop n pn else pn

/-- `operator++`. -/
def increment (a : BaseUint WIDTH) : BaseUint WIDTH := incrementLoop WIDTH a

/-- The unary `operator-`. -/
def neg (a : BaseUint WIDTH) : BaseUint WIDTH := a.not.increment

/-- One round of `operator+=`, with the carry. -/
def addStep (b : BaseUint WIDTH) (s : BaseUint WIDTH × BitVec 64) (i : ℕ) :
    BaseUint WIDTH × BitVec 64 :=
  let n := s.2 + (s.1.limb i).setWidth 64 + (b.limb i).setWidth 64
  (s.1.setIfInBounds i ((n &&& 0xffffffff#64).setWidth 32), n >>> 32)

/-- `operator+=`. -/
def add (a b : BaseUint WIDTH) : BaseUint WIDTH :=
    ((List.range WIDTH).foldl (addStep b) (a, 0#64)).1

/-- `operator-=`. -/
def sub (a b : BaseUint WIDTH) : BaseUint WIDTH := a.add b.neg

/-- The loop of `CompareTo` over the first digits, from the highest. -/
def compareLoop (a b : BaseUint WIDTH) : ℕ → ℤ
  | 0 => 0
  | i + 1 =>
    if a.limb i < b.limb i then -1 else if b.limb i < a.limb i then 1 else compareLoop a b i

def compareTo (a b : BaseUint WIDTH) : ℤ := compareLoop a b WIDTH

/-- The loop of `EqualTo` over the digits from the third on, with their number. -/
def highLimbsZero (a : BaseUint WIDTH) : ℕ → Bool
  | 0 => true
  | i + 1 => if a.limb (i + 2) ≠ 0#32 then false else highLimbsZero a i

def equalTo (a : BaseUint WIDTH) (b : BitVec 64) : Bool :=
  if !highLimbsZero a (WIDTH - 2) then false
  else if (a.limb 1).setWidth 64 ≠ b >>> 32 then false
  else if (a.limb 0).setWidth 64 ≠ b &&& 0xffffffff#64 then false
  else true

/-- The inner loop of `bits`: from bit `nbits` down to bit 1 of a digit that is not zero. -/
def limbBits (x : BitVec 32) : ℕ → ℕ
  | 0 => 1
  | nbits + 1 => if x &&& 1#32 <<< (nbits + 1) ≠ 0#32 then nbits + 1 + 1 else limbBits x nbits

/-- The outer loop of `bits`. -/
def bitsLoop (a : BaseUint WIDTH) : ℕ → ℕ
  | 0 => 0
  | pos + 1 => if a.limb pos ≠ 0#32 then 32 * pos + limbBits (a.limb pos) 31 else bitsLoop a pos

def bits (a : BaseUint WIDTH) : ℕ := bitsLoop a WIDTH

/-- `GetLow64`. -/
def getLow64 (a : BaseUint WIDTH) : BitVec 64 :=
  (a.limb 0).setWidth 64 ||| (a.limb 1).setWidth 64 <<< 32

section
variable {a b pn : BaseUint WIDTH} {i j k s : ℕ} {x : BitVec 32}

@[simp]
theorem limb_of_le (h : WIDTH ≤ i) : a.limb i = 0#32 := by
  rw [limb, Vector.getElem?_eq_none h, Option.getD_none]

@[simp]
theorem limb_zero (i : ℕ) : (zero : BaseUint WIDTH).limb i = 0#32 := by
  by_cases h : i < WIDTH
  · simp [limb, zero, h]
  · simp [not_lt.mp h]

theorem limb_set : limb (pn.setIfInBounds i x) j = if j = i ∧ i < WIDTH then x else pn.limb j := by
  rw [limb, limb, Vector.getElem?_setIfInBounds]
  by_cases hij : i = j
  · subst hij
    by_cases hi : i < WIDTH
    · simp [hi]
    · simp [hi]
  · rw [if_neg hij, if_neg fun hc => hij hc.1.symm]

theorem limb_orLimb :
    (pn.orLimb i x).limb j = if j = i ∧ i < WIDTH then pn.limb j ||| x else pn.limb j := by
  rw [orLimb, limb_set]
  split_ifs with h
  · rw [h.1]
  · rfl

theorem toNat_eq : a.toNat = value a.limb WIDTH :=
  Nat.mod_eq_of_lt (value_lt a.limb WIDTH)

theorem getLsbD_toWord (j : ℕ) : a.toWord.getLsbD j = (a.limb (j / 32)).getLsbD (j % 32) := by
  rw [BitVec.getLsbD, show a.toWord.toNat = _ from toNat_eq, testBit_value (by norm_num)]
  by_cases h : j < 32 * WIDTH
  · simp [h]
  · rw [limb_of_le (by omega)]
    simp

/-- Digits that stand for the same word are the same. -/
theorem toWord_injective : Function.Injective (toWord : BaseUint WIDTH → _) := by
  intro a b h
  have hl (i : ℕ) : a.limb i = b.limb i := by
    refine BitVec.eq_of_getLsbD_eq fun t ht => ?_
    have hb := congrArg (BitVec.getLsbD · (32 * i + t)) h
    simp only [getLsbD_toWord] at hb
    rwa [Nat.mul_add_div (by norm_num), Nat.div_eq_of_lt ht, Nat.add_zero, Nat.mul_add_mod,
      Nat.mod_eq_of_lt ht] at hb
  refine Vector.ext fun i hi => ?_
  have := hl i
  simpa [limb, hi] using this

/-- A loop whose rounds only set bits sets those of all its rounds. -/
theorem getLsbD_foldl {step : BaseUint WIDTH → ℕ → BaseUint WIDTH} {c : ℕ → BitVec 32}
    (h : ∀ pn i, limb (step pn i) j = limb pn j ||| c i) (l : List ℕ) (pn : BaseUint WIDTH)
    (t : ℕ) :
    (limb (l.foldl step pn) j).getLsbD t =
    ((limb pn j).getLsbD t || l.any fun i => (c i).getLsbD t) := by
  induction l generalizing pn with
  | nil => simp
  | cons i l ih => rw [List.foldl_cons, ih, h, BitVec.getLsbD_or, List.any_cons, Bool.or_assoc]

theorem limb_orIf {p : Prop} [Decidable p] (hj : j < WIDTH) :
    limb (if p then pn.orLimb i x else pn) j = limb pn j ||| if p ∧ j = i then x else 0#32 := by
  by_cases hp : p
  · by_cases hi : j = i
    · subst hi
      simp [hp, limb_orLimb, hj]
    · simp [hp, limb_orLimb, hi]
  · simp [hp]

theorem limb_shiftLeftStep (a : BaseUint WIDTH) (k s : ℕ) (hj : j < WIDTH) (pn : BaseUint WIDTH)
    (i : ℕ) :
    limb (shiftLeftStep a k s pn i) j = limb pn j |||
      ((if j = i + k + 1 ∧ s ≠ 0 then a.limb i >>> (32 - s) else 0#32) |||
        if j = i + k then a.limb i <<< s else 0#32) := by
  rw [shiftLeftStep, limb_orIf hj, limb_orIf hj, BitVec.or_assoc]
  have hu : (i + k + 1 < WIDTH ∧ s ≠ 0) ∧ j = i + k + 1 ↔ j = i + k + 1 ∧ s ≠ 0 := by omega
  have hl : i + k < WIDTH ∧ j = i + k ↔ j = i + k := by omega
  simp only [hu, hl]

theorem limb_shiftRightStep (a : BaseUint WIDTH) (k s : ℕ) (hj : j < WIDTH) (pn : BaseUint WIDTH)
    (i : ℕ) :
    limb (shiftRightStep a k s pn i) j = limb pn j |||
      ((if i = j + k + 1 ∧ s ≠ 0 then a.limb i <<< (32 - s) else 0#32) |||
        if i = j + k then a.limb i >>> s else 0#32) := by
  rw [shiftRightStep, limb_orIf hj, limb_orIf hj, BitVec.or_assoc]
  have hu : (k + 1 ≤ i ∧ s ≠ 0) ∧ j = i - k - 1 ↔ i = j + k + 1 ∧ s ≠ 0 := by omega
  have hl : k ≤ i ∧ j = i - k ↔ i = j + k := by omega
  simp only [hu, hl]

theorem getLsbD_ite {p : Prop} [Decidable p] {t : ℕ} :
    (if p then x else 0#32).getLsbD t = true ↔ p ∧ x.getLsbD t = true := by
  split_ifs with h
  · simp [h]
  · simp [h]

theorem toWord_shiftLeft (a : BaseUint WIDTH) (shift : ℕ) :
    (a.shiftLeft shift).toWord = a.toWord <<< shift := by
  refine BitVec.eq_of_getLsbD_eq fun j hj => ?_
  have hd : j / 32 < WIDTH := by omega
  rw [getLsbD_toWord, shiftLeft, getLsbD_foldl (limb_shiftLeftStep a _ _ hd), limb_zero,
    BitVec.getLsbD_shiftLeft, getLsbD_toWord, Bool.eq_iff_iff]
  simp only [BitVec.getLsbD_zero, Bool.false_or, List.any_eq_true, List.mem_range,
    BitVec.getLsbD_or,
    Bool.or_eq_true, Bool.and_eq_true, decide_eq_true_eq, Bool.not_eq_true',
      decide_eq_false_iff_not,
    getLsbD_ite, BitVec.getLsbD_shiftLeft, BitVec.getLsbD_ushiftRight]
  constructor
  · rintro ⟨i, hi, ⟨⟨he, hs⟩, hb⟩ | ⟨he, hl, hb⟩⟩
    · have hu := BitVec.lt_of_getLsbD hb
      refine ⟨⟨hj, by omega⟩, ?_⟩
      rwa [show (j - shift) / 32 =
        i by omega, show (j - shift) % 32 = 32 - shift % 32 + j % 32 by omega]
    · refine ⟨⟨hj, by omega⟩, ?_⟩
      rwa [show (j - shift) / 32 = i by omega, show (j - shift) % 32 = j % 32 - shift % 32 by omega]
  · rintro ⟨⟨-, hl⟩, hb⟩
    refine ⟨(j - shift) / 32, by omega, ?_⟩
    -- The bit crosses a digit if its place in the digit is below the shift.
    by_cases ht : j % 32 < shift % 32
    · refine .inl ⟨by omega, ?_⟩
      rwa [show 32 - shift % 32 + j % 32 = (j - shift) % 32 by omega]
    · refine .inr ⟨by omega, by omega, ?_⟩
      rwa [show j % 32 - shift % 32 = (j - shift) % 32 by omega]

theorem toWord_shiftRight (a : BaseUint WIDTH) (shift : ℕ) :
    (a.shiftRight shift).toWord = a.toWord >>> shift := by
  refine BitVec.eq_of_getLsbD_eq fun j hj => ?_
  have hd : j / 32 < WIDTH := by omega
  rw [getLsbD_toWord, shiftRight, getLsbD_foldl (limb_shiftRightStep a _ _ hd), limb_zero,
    BitVec.getLsbD_ushiftRight, getLsbD_toWord, Bool.eq_iff_iff]
  simp only [BitVec.getLsbD_zero, Bool.false_or, List.any_eq_true, List.mem_range,
    BitVec.getLsbD_or,
    Bool.or_eq_true, Bool.and_eq_true, decide_eq_true_eq, Bool.not_eq_true',
      decide_eq_false_iff_not,
    getLsbD_ite, BitVec.getLsbD_shiftLeft, BitVec.getLsbD_ushiftRight]
  constructor
  · rintro ⟨i, hi, ⟨⟨he, hs⟩, hl, hb⟩ | ⟨he, hb⟩⟩
    · rwa [show (shift + j) / 32 =
        i by omega, show (shift + j) % 32 = j % 32 - (32 - shift % 32) by omega]
    · have hu := BitVec.lt_of_getLsbD hb
      rwa [show (shift + j) / 32 = i by omega, show (shift + j) % 32 = shift % 32 + j % 32 by omega]
  · intro hb
    have hi : (shift + j) / 32 < WIDTH := by
      by_contra hn
      rw [limb_of_le (not_lt.mp hn)] at hb
      simp at hb
    refine ⟨_, hi, ?_⟩
    by_cases ht : shift % 32 + j % 32 < 32
    · refine .inr ⟨by omega, ?_⟩
      rwa [show shift % 32 + j % 32 = (shift + j) % 32 by omega]
    · refine .inl ⟨by omega, by omega, ?_⟩
      rwa [show j % 32 - (32 - shift % 32) = (shift + j) % 32 by omega]

theorem limb_not (hi : i < WIDTH) : a.not.limb i = ~~~a.limb i := by
  simp [limb, not, hi]

theorem toWord_not (a : BaseUint WIDTH) : a.not.toWord = ~~~a.toWord := by
  refine BitVec.eq_of_getLsbD_eq fun j hj => ?_
  have ht : j % 32 < 32 := Nat.mod_lt j (by norm_num)
  rw [getLsbD_toWord, limb_not (by omega), BitVec.getLsbD_not, BitVec.getLsbD_not, getLsbD_toWord]
  simp [hj, ht]

/-- Setting one bit of a digit. -/
theorem toWord_orLimb (a : BaseUint WIDTH) (i : ℕ) :
    (a.orLimb (i / 32) (1#32 <<< (i % 32))).toWord = a.toWord ||| BitVec.twoPow _ i := by
  refine BitVec.eq_of_getLsbD_eq fun j hj => ?_
  have ht : i % 32 < 32 := Nat.mod_lt i (by norm_num)
  rw [getLsbD_toWord, limb_orLimb, BitVec.getLsbD_or, BitVec.getLsbD_twoPow, getLsbD_toWord,
    ← BitVec.twoPow_eq]
  by_cases hd : j / 32 = i / 32
  · rw [if_pos ⟨hd, by omega⟩, BitVec.getLsbD_or, BitVec.getLsbD_twoPow]
    have he : i % 32 = j % 32 ↔ i = j := by omega
    have hi : i < 32 * WIDTH := by omega
    simp [he, hi, ht]
  · have hn : i ≠ j := fun h => hd (h ▸ rfl)
    simp [hd, hn]

theorem toWord_zero : (zero : BaseUint WIDTH).toWord = 0#_ := by
  refine BitVec.eq_of_getLsbD_eq fun j hj => ?_
  rw [getLsbD_toWord, limb_zero]
  simp

theorem toWord_ofUint64 (b : BitVec 64) : (ofUint64 b : BaseUint WIDTH).toWord = b.setWidth _ := by
  refine BitVec.eq_of_getLsbD_eq fun j hj => ?_
  have ht : j % 32 < 32 := Nat.mod_lt j (by norm_num)
  rw [getLsbD_toWord, ofUint64, limb_set, limb_set, BitVec.getLsbD_setWidth]
  rcases Nat.lt_or_ge j 32 with h0 | h0
  · rw [if_neg (by omega), if_pos (by omega), BitVec.getLsbD_setWidth]
    simp [hj, h0, Nat.mod_eq_of_lt h0]
  rcases Nat.lt_or_ge j 64 with h1 | h1
  · rw [if_pos (by omega), BitVec.getLsbD_setWidth, BitVec.getLsbD_ushiftRight,
      show 32 + j % 32 = j by omega]
    simp [hj, ht]
  · rw [if_neg (by omega), if_neg (by omega), limb_zero, BitVec.getLsbD_of_ge b j h1]
    simp

theorem getLow64_eq (a : BaseUint WIDTH) : a.getLow64 = a.toWord.setWidth 64 := by
  refine BitVec.eq_of_getLsbD_eq fun j hj => ?_
  rw [getLow64, BitVec.getLsbD_or, BitVec.getLsbD_setWidth, BitVec.getLsbD_shiftLeft,
    BitVec.getLsbD_setWidth, BitVec.getLsbD_setWidth, getLsbD_toWord]
  rcases Nat.lt_or_ge j 32 with h0 | h0
  · simp [hj, h0, Nat.div_eq_of_lt h0, Nat.mod_eq_of_lt h0]
  · rw [BitVec.getLsbD_of_ge (a.limb 0) j h0,
      show j / 32 = 1 by omega, show j % 32 = j - 32 by omega]
    simp [hj, show ¬j < 32 by omega, show j - 32 < 64 by omega]

theorem value_set (pn : BaseUint WIDTH) (x : BitVec 32) (hi : i < WIDTH) :
    value (limb (pn.setIfInBounds i x)) WIDTH + 2 ^ (32 * i) * (pn.limb i).toNat =
      value pn.limb WIDTH + 2 ^ (32 * i) * x.toNat := by
  have h := value_update (f := pn.limb) (g := limb (pn.setIfInBounds i x)) hi fun j hj => by
    rw [limb_set, if_neg fun hc => hj hc.1]
  rwa [limb_set (j := i), if_pos ⟨rfl, hi⟩] at h

/-- The loop adds the weight of the digit at which it stands. -/
theorem toWord_incrementLoop {n : ℕ} (hn : n ≤ WIDTH) (a : BaseUint WIDTH) :
    (incrementLoop n a).toWord = a.toWord + BitVec.ofNat _ (2 ^ (32 * (WIDTH - n))) := by
  induction n generalizing a with
  | zero =>
    refine BitVec.eq_of_toNat_eq ?_
    rw [incrementLoop, BitVec.toNat_add, BitVec.toNat_ofNat, Nat.sub_zero, Nat.mod_self,
      Nat.add_zero,
      Nat.mod_eq_of_lt a.toWord.isLt]
  | succ n ih =>
    have hi : WIDTH - (n + 1) < WIDTH := by omega
    have hs : WIDTH - n = WIDTH - (n + 1) + 1 := by omega
    have hv := value_set a (a.limb (WIDTH - (n + 1)) + 1#32) hi
    have hx := (a.limb (WIDTH - (n + 1))).isLt
    rw [incrementLoop]
    simp only [limb_set, and_self, hi, if_true]
    rw [BitVec.toNat_add, show (1#32).toNat = 1 from rfl] at hv
    split_ifs with hz
    · have hm := congrArg BitVec.toNat hz
      rw [BitVec.toNat_add, show (1#32).toNat = 1 from rfl, show (0#32).toNat = 0 from rfl] at hm
      have hl : (a.limb (WIDTH - (n + 1))).toNat = 2 ^ 32 - 1 := by omega
      rw [hm, hl, Nat.mul_sub, Nat.mul_one, Nat.mul_zero] at hv
      rw [ih (by omega), hs, toWord, toWord, ← BitVec.ofNat_add, ← BitVec.ofNat_add, Nat.mul_succ,
        pow_add]
      refine congrArg (BitVec.ofNat _) ?_
      have hw := Nat.le_mul_of_pos_right (2 ^ (32 * (WIDTH - (n + 1)))) (Nat.two_pow_pos 32)
      rw [show value a.limb WIDTH = _ from hv.symm, Nat.add_assoc, Nat.sub_add_cancel hw]
    · have hl : (a.limb (WIDTH - (n + 1))).toNat + 1 < 2 ^ 32 := by
        by_contra hc
        refine hz (BitVec.eq_of_toNat_eq ?_)
        rw [BitVec.toNat_add, show (1#32).toNat = 1 from rfl, show (0#32).toNat = 0 from rfl]
        omega
      rw [Nat.mod_eq_of_lt hl, Nat.mul_add, Nat.mul_one] at hv
      rw [toWord, toWord, ← BitVec.ofNat_add]
      congr 1
      omega

theorem toWord_increment (a : BaseUint WIDTH) : a.increment.toWord = a.toWord + 1#_ := by
  rw [increment, toWord_incrementLoop le_rfl, Nat.sub_self]
  rfl

theorem toWord_neg (a : BaseUint WIDTH) : a.neg.toWord = -a.toWord := by
  rw [neg, toWord_increment, toWord_not, BitVec.neg_eq_not_add]

/-- The sum of the digits before the `n`-th, with the carry out of them. -/
structure SummedTo (a b : BaseUint WIDTH) (n : ℕ) (s : BaseUint WIDTH × BitVec 64) : Prop where
  carry : s.2.toNat ≤ 1
  ahead : ∀ i, n ≤ i → s.1.limb i = a.limb i
  sum : value s.1.limb n + 2 ^ (32 * n) * s.2.toNat = value a.limb n + value b.limb n

theorem SummedTo.addStep {n : ℕ} {s : BaseUint WIDTH × BitVec 64} (h : SummedTo a b n s)
    (hn : n < WIDTH) :
    SummedTo a b (n + 1) (addStep b s n) := by
  obtain ⟨hc, ha, hs⟩ := h
  have hx := (a.limb n).isLt
  have hy := (b.limb n).isLt
  have hm : (s.2 + (s.1.limb n).setWidth 64 + (b.limb n).setWidth 64).toNat =
      s.2.toNat + (a.limb n).toNat + (b.limb n).toNat := by
    rw [BitVec.toNat_add, BitVec.toNat_add, BitVec.toNat_setWidth, BitVec.toNat_setWidth,
      ha n le_rfl]
    omega
  have hl : ((s.2 + (s.1.limb n).setWidth 64 + (b.limb n).setWidth 64 &&& 0xffffffff#64).setWidth
    32).toNat =
      (s.2.toNat + (a.limb n).toNat + (b.limb n).toNat) % 2 ^ 32 := by
    rw [BitVec.toNat_setWidth, BitVec.toNat_and, hm,
      show (0xffffffff#64).toNat = 2 ^ 32 - 1 from rfl,
      Nat.and_two_pow_sub_one_eq_mod, Nat.mod_mod]
  have hh : ((s.2 + (s.1.limb n).setWidth 64 + (b.limb n).setWidth 64) >>> 32).toNat =
      (s.2.toNat + (a.limb n).toNat + (b.limb n).toNat) / 2 ^ 32 := by
    rw [BitVec.toNat_ushiftRight, hm, Nat.shiftRight_eq_div_pow]
  have hv : value (BaseUint.addStep b s n).1.limb n = value s.1.limb n := value_congr fun i hi => by
    rw [BaseUint.addStep, limb_set, if_neg fun hc => hi.ne hc.1]
  refine ⟨?_, fun i hi => ?_, ?_⟩
  · rw [BaseUint.addStep, hh]
    omega
  · rw [BaseUint.addStep, limb_set, if_neg fun hc => by omega, ha i (by omega)]
  · rw [value, value, value, hv, BaseUint.addStep, limb_set, if_pos ⟨rfl, hn⟩, hl, hh, Nat.mul_succ,
      pow_add,
      Nat.mul_assoc]
    have hd := Nat.mod_add_div (s.2.toNat + (a.limb n).toNat + (b.limb n).toNat) (2 ^ 32)
    generalize (s.2.toNat + (a.limb n).toNat + (b.limb n).toNat) / 2 ^ 32 = q at hd ⊢
    generalize (s.2.toNat + (a.limb n).toNat + (b.limb n).toNat) % 2 ^ 32 = r at hd ⊢
    have := congrArg (2 ^ (32 * n) * ·) hd
    simp only [Nat.mul_add] at this ⊢
    omega

theorem summedTo_foldl (a b : BaseUint WIDTH) {n : ℕ} (hn : n ≤ WIDTH) :
    SummedTo a b n ((List.range n).foldl (BaseUint.addStep b) (a, 0#64)) := by
  induction n with
  | zero => exact ⟨by simp, fun _ _ => rfl, rfl⟩
  | succ n ih =>
    rw [List.range_succ, List.foldl_append]
    exact (ih (by omega)).addStep hn

theorem toWord_add (a b : BaseUint WIDTH) : (a.add b).toWord = a.toWord + b.toWord := by
  have h := (summedTo_foldl a b le_rfl).sum
  refine BitVec.eq_of_toNat_eq ?_
  rw [BitVec.toNat_add, show a.toWord.toNat = _ from toNat_eq,
    show b.toWord.toNat = _ from toNat_eq, ← h,
    Nat.add_mul_mod_self_left]
  rfl

theorem toWord_sub (a b : BaseUint WIDTH) : (a.sub b).toWord = a.toWord - b.toWord := by
  rw [sub, toWord_add, toWord_neg, BitVec.sub_eq_add_neg]

theorem compareLoop_nonneg (a b : BaseUint WIDTH) (n : ℕ) :
    0 ≤ compareLoop a b n ↔ value b.limb n ≤ value a.limb n := by
  induction n with
  | zero => simp [compareLoop, value]
  | succ n ih =>
    rw [compareLoop]
    split_ifs with hl hg
    · have := value_lt_of_lt (f := a.limb) (g := b.limb) hl
      simp only [show ¬(0 : ℤ) ≤ -1 by decide, false_iff, not_le]
      exact this
    · have := value_lt_of_lt (f := b.limb) (g := a.limb) hg
      simp only [show (0 : ℤ) ≤ 1 by decide, true_iff]
      exact this.le
    · have he : a.limb n = b.limb n := by
        rw [BitVec.lt_def] at hl hg
        exact BitVec.eq_of_toNat_eq (by omega)
      rw [ih, value, value, he, Nat.add_le_add_iff_left]

/-- The comparison of the digits is that of the words. -/
theorem compareTo_nonneg (a b : BaseUint WIDTH) : 0 ≤ a.compareTo b ↔ b.toWord ≤ a.toWord := by
  rw [compareTo, compareLoop_nonneg, BitVec.le_def, ← toNat_eq, ← toNat_eq]
  rfl

theorem highLimbsZero_iff (a : BaseUint WIDTH) (n : ℕ) :
    a.highLimbsZero n = true ↔ ∀ i < n, a.limb (i + 2) = 0#32 := by
  induction n with
  | zero => simp [highLimbsZero]
  | succ n ih =>
    rw [highLimbsZero, Nat.forall_lt_succ_right]
    split_ifs with h
    · simp [h]
    · rw [ih]
      simp [not_not.mp h]

theorem eq_zero_of_setWidth (h : x.setWidth 64 = 0#64) : x = 0#32 := by
  have ht := congrArg BitVec.toNat h
  rw [BitVec.toNat_setWidth, Nat.mod_eq_of_lt (x.isLt.trans (by norm_num))] at ht
  exact BitVec.eq_of_toNat_eq ht

theorem equalTo_zero (a : BaseUint WIDTH) : a.equalTo 0#64 = true ↔ a.toWord = 0#_ := by
  constructor
  · intro h
    simp only [equalTo, Bool.not_eq_true', ne_eq, BitVec.zero_and, BitVec.zero_ushiftRight] at h
    split_ifs at h with hh h1 h0
    rw [Bool.not_eq_false, highLimbsZero_iff] at hh
    have hz : ∀ i, a.limb i = 0#32
      | 0 => eq_zero_of_setWidth h0
      | 1 => eq_zero_of_setWidth h1
      | i + 2 => by
        by_cases hi : i < WIDTH - 2
        · exact hh i hi
        · exact limb_of_le (by omega)
    rw [toWord, value_of_zero (Nat.zero_le _) fun i _ _ => hz i]
    rfl
  · intro h
    obtain rfl : a = zero := toWord_injective (h.trans toWord_zero.symm)
    have hz : (zero : BaseUint WIDTH).highLimbsZero (WIDTH - 2) = true := by
      simp [highLimbsZero_iff]
    simp [equalTo, hz]

theorem limbBits_eq {n : ℕ} (hx : x ≠ 0#32) (hn : n < 32) (h : x.toNat < 2 ^ (n + 1)) :
    limbBits x n = x.toNat.log2 + 1 := by
  have hp : x.toNat ≠ 0 := fun hz => hx (BitVec.eq_of_toNat_eq hz)
  induction n with
  | zero =>
    rw [limbBits, show x.toNat = 1 by omega]
    rfl
  | succ n ih =>
    have hb : x &&& 1#32 <<< (n + 1) ≠ 0#32 ↔ x.toNat.testBit (n + 1) = true := by
      have hw : BitVec.twoPow 32 (n + 1) ≠ 0#32 := fun hz => by
        have := congrArg BitVec.toNat hz
        rw [BitVec.toNat_twoPow_of_lt hn] at this
        exact (Nat.two_pow_pos _).ne' this
      rw [← BitVec.twoPow_eq, BitVec.and_twoPow]
      cases hx : x.getLsbD (n + 1) <;> simp_all [BitVec.getLsbD]
    rw [limbBits]
    simp only [hb]
    split_ifs with ht
    · rw [(Nat.log2_eq_iff hp).mpr ⟨Nat.ge_two_pow_of_testBit ht, h⟩]
    · refine ih (by omega) (Nat.lt_pow_two_of_testBit _ fun i hi => ?_)
      rcases hi.eq_or_lt with rfl | hi
      · simpa using ht
      · exact Nat.testBit_lt_two_pow (h.trans_le (Nat.pow_le_pow_right (by norm_num) hi))

theorem bitsLoop_eq (a : BaseUint WIDTH) (n : ℕ) :
    a.bitsLoop n = if value a.limb n = 0 then 0 else (value a.limb n).log2 + 1 := by
  induction n with
  | zero => rfl
  | succ n ih =>
    rw [bitsLoop]
    by_cases h : a.limb n = 0#32
    · rw [if_neg (not_not.mpr h), ih, value_of_zero n.le_succ fun i hi hl => by
        rwa [show i = n by omega]]
    · rw [if_pos h, if_neg (value_pos_of_ne n.lt_succ_self h).ne',
        limbBits_eq h (by norm_num) (a.limb n).isLt,
        log2_value h, Nat.add_assoc]

/-- The position of the highest bit plus one. -/
theorem bits_eq (a : BaseUint WIDTH) : a.bits = if a.toNat = 0 then 0 else a.toNat.log2 + 1 := by
  rw [bits, bitsLoop_eq, toNat_eq]


end

end BaseUint

end DripCore
