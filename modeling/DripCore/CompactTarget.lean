import DripCore.MantissaTruncation
import Mathlib.Data.BitVec
import Mathlib.Data.Nat.Bitwise
import Mathlib.Tactic.NormNum
import Mathlib.Tactic.Positivity

/-!
# The compact encoding of 256-bit targets

`arith_uint256` is a 256-bit word with wrapping arithmetic. A compact value has eight exponent bits,
a sign bit and a 23-bit mantissa. The sign bit is never produced for an unsigned target, so a
mantissa that would reach it loses one more byte. Encoding followed by decoding is truncation in
base 256 to a 23-bit mantissa.
-/
namespace DripCore.CompactTarget
open MantissaTruncation Nat

abbrev ArithUint256 := BitVec 256

/-- Position of the highest set bit plus one, or zero. -/
def bits (x : ArithUint256) : ℕ := if x.toNat = 0 then 0 else log2 x.toNat+1

/-- The number of bytes of a value, as the encoder first counts them. -/
def byteCount (x : ArithUint256) : ℕ := (bits x+7) / 8

/-- The decoded word together with the two optional out-parameters. -/
structure Decoded where
  target : ArithUint256
  fNegative : Bool
  fOverflow : Bool
deriving DecidableEq

def setCompact (nCompact : BitVec 32) : Decoded :=
  let nSize := (nCompact >>> 24).toNat
  let word := nCompact &&& 0x007fffff#32
  let nWord := if nSize ≤ 3 then word >>> (8*(3-nSize)) else word
  { target :=
      if nSize ≤ 3 then nWord.setWidth 256 else nWord.setWidth 256 <<< (8*(nSize-3))
    fNegative := nWord != 0#32 && (nCompact &&& 0x00800000#32) != 0#32
    fOverflow := nWord != 0#32 && (decide (34 < nSize) ||
      (decide (0xff#32 < nWord) && decide (33 < nSize)) ||
      (decide (0xffff#32 < nWord) && decide (32 < nSize))) }

/-- The mantissa before the sign bit is inspected, and its byte count. -/
def rawMantissa (x : ArithUint256) (nSize : ℕ) : BitVec 32 :=
  if nSize ≤ 3 then (x.setWidth 64 <<< (8*(3-nSize))).setWidth 32
  else ((x >>> (8*(nSize-3))).setWidth 64).setWidth 32

def getCompact (x : ArithUint256) (fNegative : Bool) : BitVec 32 :=
  let nSize := byteCount x
  let nCompact := rawMantissa x nSize
  -- A mantissa that reaches the sign bit gives up its last byte.
  let carry := (nCompact &&& 0x00800000#32) != 0#32
  let nCompact := if carry then nCompact >>> 8 else nCompact
  let nSize := if carry then nSize+1 else nSize
  let nCompact := nCompact ||| BitVec.ofNat 32 nSize <<< 24
  nCompact ||| (if fNegative && (nCompact &&& 0x007fffff#32) != 0#32 then 0x00800000#32 else 0#32)

/-- Encoding a target and reading it back. -/
def roundCompact (x : ArithUint256) : ArithUint256 := (setCompact (getCompact x false)).target

theorem mask_toNat (c : BitVec 32) : (c &&& 0x007fffff#32).toNat = c.toNat % 2^23 := by
  exact and_two_pow_sub_one_eq_mod c.toNat 23

theorem signBit_eq (c : BitVec 32) : ((c &&& 0x00800000#32) != 0#32) = c.toNat.testBit 23 := by
  have h : (c &&& 0x00800000#32).toNat = (c.toNat.testBit 23).toNat*2^23 := by
    exact and_two_pow c.toNat 23
  cases hb : c.toNat.testBit 23
  · have hz : c &&& 0x00800000#32 = 0#32 := BitVec.eq_of_toNat_eq (by simpa [hb] using h)
    simp [hz]
  · have hz : c &&& 0x00800000#32 ≠ 0#32 := by
      intro hz
      rw [hz,hb] at h
      simp at h
    simpa using hz

theorem testBit_eq_of_lt {m : ℕ} (h : m < 2^24) : m.testBit 23 = decide (2^23 ≤ m) := by
  rw [testBit_eq_decide_div_mod_eq]
  congr 1
  apply propext
  omega

theorem two_pow_eight_mul (k : ℕ) : 2^(8*k) = 256^k := by
  rw [pow_mul]
  norm_num

variable {s : ℕ} {x : ArithUint256}

theorem pow_mul_pow (h : s ≤ 3) : 256^s*256^(3-s) = 2^24 := by
  rw [← pow_add,Nat.add_sub_cancel' h]
  norm_num

theorem pow_eq_mul_pow (h : ¬ s ≤ 3) : 256^s = 2^24*256^(s-3) := by
  conv_lhs => rw [show s = 3+(s-3) by omega,pow_add]
  norm_num

/-- The decoded target as a number, before any bound on the exponent. -/
theorem target_toNat (c : BitVec 32) : (setCompact c).target.toNat =
      if c.toNat / 2^24 ≤ 3 then c.toNat % 2^23 / 256^(3-c.toNat / 2^24)
      else c.toNat % 2^23*256^(c.toNat / 2^24-3) % 2^256 := by
  have hs : (c >>> 24).toNat = c.toNat / 2^24 := by
    rw [BitVec.toNat_ushiftRight,shiftRight_eq_div_pow]
  simp only [setCompact,hs]
  split_ifs with h
  · rw [BitVec.toNat_setWidth,BitVec.toNat_ushiftRight,mask_toNat,shiftRight_eq_div_pow,
      two_pow_eight_mul]
    refine mod_eq_of_lt (lt_of_le_of_lt (div_le_self _ _) ?_)
    exact (mod_lt _ (by positivity)).trans (by norm_num)
  · rw [BitVec.toNat_shiftLeft,BitVec.toNat_setWidth,mask_toNat,shiftLeft_eq,two_pow_eight_mul]
    congr 2
    exact mod_eq_of_lt ((mod_lt _ (by positivity)).trans (by norm_num))

theorem toNat_lt_pow (x : ArithUint256) : x.toNat < 256^byteCount x := by
  unfold byteCount bits
  split_ifs with h
  · rw [h]
    norm_num
  · rw [← two_pow_eight_mul]
    refine Nat.lt_log2_self.trans_le (Nat.pow_le_pow_right (by norm_num) ?_)
    omega

theorem pow_le_toNat {k : ℕ} (hk : byteCount x = k+1) : 256^k ≤ x.toNat := by
  unfold byteCount bits at hk
  split_ifs at hk with h
  rw [← two_pow_eight_mul]
  refine le_trans (Nat.pow_le_pow_right (by norm_num) ?_) (Nat.log2_self_le h)
  omega

theorem byteCount_le (x : ArithUint256) : byteCount x ≤ 32 := by
  by_contra hlt
  obtain ⟨k,hk⟩ : ∃ k, byteCount x = k+1 := ⟨byteCount x-1,by omega⟩
  have h := pow_le_toNat hk
  have hp : 256^32 ≤ 256^k := Nat.pow_le_pow_right (by norm_num) (by omega)
  omega

theorem rawMantissa_toNat (x : ArithUint256) : (rawMantissa x (byteCount x)).toNat =
        (if byteCount x ≤ 3 then x.toNat*256^(3-byteCount x)
         else x.toNat / 256^(byteCount x-3)) ∧
      (rawMantissa x (byteCount x)).toNat < 2^24 := by
  have hx := toNat_lt_pow x
  unfold rawMantissa
  split_ifs with h
  · have hp := pow_mul_pow h
    have hl : x.toNat*256^(3-byteCount x) < 2^24 :=
      hp ▸ (Nat.mul_lt_mul_right (Nat.pow_pos (by norm_num))).mpr hx
    have hle : x.toNat < 2^24 :=
      lt_of_le_of_lt (Nat.le_mul_of_pos_right _ (Nat.pow_pos (by norm_num))) hl
    have he : ((x.setWidth 64 <<< (8*(3-byteCount x))).setWidth 32).toNat =
      x.toNat*256^(3-byteCount x) := by
      rw [BitVec.toNat_setWidth,BitVec.toNat_shiftLeft,BitVec.toNat_setWidth,
        shiftLeft_eq,two_pow_eight_mul,mod_eq_of_lt (hle.trans (by norm_num)),
        mod_eq_of_lt (hl.trans (by norm_num)),mod_eq_of_lt (hl.trans (by norm_num))]
    exact ⟨he,he ▸ hl⟩
  · have hp := pow_eq_mul_pow h
    have hl : x.toNat / 256^(byteCount x-3) < 2^24 :=
      (Nat.div_lt_iff_lt_mul (Nat.pow_pos (by norm_num))).mpr (hp ▸ hx)
    have he : (((x >>> (8*(byteCount x-3))).setWidth 64).setWidth 32).toNat =
      x.toNat / 256^(byteCount x-3) := by
      rw [BitVec.toNat_setWidth,BitVec.toNat_setWidth,BitVec.toNat_ushiftRight,
        shiftRight_eq_div_pow,two_pow_eight_mul,mod_eq_of_lt (hl.trans (by norm_num)),
        mod_eq_of_lt (hl.trans (by norm_num))]
    exact ⟨he,he ▸ hl⟩

/-- The exponent byte of a value: the least byte count that leaves the sign bit clear. -/
structure IsCompactSize (x s : ℕ) : Prop where
  upper : 2*x < 256^s
  lower : ∀ k, s = k+1 → 256^k ≤ 2*x

def mantissa (x s : ℕ) : ℕ := if s ≤ 3 then x*256^(3-s) else x / 256^(s-3)

theorem IsCompactSize.unique {x t : ℕ} (hs : IsCompactSize x s) (ht : IsCompactSize x t) :
    s = t := by
  rcases lt_trichotomy s t with h | h | h
  · obtain ⟨k,rfl⟩ : ∃ k, t = k+1 := ⟨t-1,by omega⟩
    have hp : 256^s ≤ 256^k := Nat.pow_le_pow_right (by norm_num) (by omega)
    have := hs.upper
    have := ht.lower k rfl
    omega
  · exact h
  · obtain ⟨k,rfl⟩ : ∃ k, s = k+1 := ⟨s-1,by omega⟩
    have hp : 256^t ≤ 256^k := Nat.pow_le_pow_right (by norm_num) (by omega)
    have := ht.upper
    have := hs.lower k rfl
    omega

theorem mantissa_lt {x : ℕ} (hs : IsCompactSize x s) : mantissa x s < 2^23 := by
  have hx := hs.upper
  unfold mantissa
  split_ifs with h
  · have hp := pow_mul_pow h
    have hl : 2*x*256^(3-s) < 2^24 := hp ▸ (Nat.mul_lt_mul_right (Nat.pow_pos (by norm_num))).mpr hx
    rw [mul_assoc] at hl
    omega
  · refine (Nat.div_lt_iff_lt_mul (Nat.pow_pos (by norm_num))).mpr ?_
    rw [pow_eq_mul_pow h] at hx
    omega

theorem pack_toNat {c : BitVec 32} (hc : c.toNat < 2^24) {n : ℕ} (hn : n < 256) :
    (c ||| BitVec.ofNat 32 n <<< 24).toNat = n*2^24+c.toNat := by
  have hs : (BitVec.ofNat 32 n <<< 24).toNat = 2^24*n := by
    rw [BitVec.toNat_shiftLeft,BitVec.toNat_ofNat]
    omega
  rw [BitVec.toNat_or,hs,Nat.or_comm,← Nat.two_pow_add_eq_or_of_lt hc]
  ring

theorem isSize_byteCount (h : (rawMantissa x (byteCount x)).toNat < 2^23) :
    IsCompactSize x.toNat (byteCount x) ∧
      mantissa x.toNat (byteCount x) = (rawMantissa x (byteCount x)).toNat := by
  have hr := (rawMantissa_toNat x).1
  refine ⟨⟨?_,?_⟩,hr.symm⟩
  · rw [hr] at h
    split_ifs at h with hs
    · refine (Nat.mul_lt_mul_right (Nat.pow_pos (n := 3-byteCount x) (a := 256)
        (by norm_num))).mp ?_
      rw [pow_mul_pow hs,mul_assoc]
      omega
    · have hl := (Nat.div_lt_iff_lt_mul (Nat.pow_pos (by norm_num))).mp h
      rw [pow_eq_mul_pow hs]
      omega
  · intro k hk
    have := pow_le_toNat hk
    omega

theorem isSize_succ_byteCount (h : 2^23 ≤ (rawMantissa x (byteCount x)).toNat) :
    IsCompactSize x.toNat (byteCount x+1) ∧
      mantissa x.toNat (byteCount x+1) = (rawMantissa x (byteCount x)).toNat / 256 := by
  have hr := (rawMantissa_toNat x).1
  have hx := toNat_lt_pow x
  refine ⟨⟨?_,?_⟩,?_⟩
  · rw [pow_succ]
    omega
  · intro k hk
    obtain rfl : byteCount x = k := by omega
    rw [hr] at h
    split_ifs at h with hs
    · refine (Nat.mul_le_mul_right_iff (Nat.pow_pos (n := 3-byteCount x) (a := 256)
        (by norm_num))).mp ?_
      rw [pow_mul_pow hs,mul_assoc]
      omega
    · have hl := (Nat.le_div_iff_mul_le (Nat.pow_pos (by norm_num))).mp h
      rw [pow_eq_mul_pow hs]
      omega
  · rw [hr]
    unfold mantissa
    rcases lt_trichotomy (byteCount x) 3 with hs | hs | hs
    · rw [if_pos (by omega),if_pos (by omega),
        show 3-byteCount x = 3-(byteCount x+1)+1 by omega,pow_succ,← mul_assoc,
        Nat.mul_div_cancel _ (by norm_num)]
    · rw [hs]
      norm_num
    · rw [if_neg (by omega),if_neg (by omega),Nat.div_div_eq_div_mul,← pow_succ,
        show byteCount x+1-3 = byteCount x-3+1 by omega]

/-- The encoder's adjusted byte count is the compact size, and its word is the mantissa. The word
stays below the sign bit and the byte count below 256, as asserted. -/
theorem compact_spec (x : ArithUint256) : ∃ s ≤ 33, IsCompactSize x.toNat s ∧
      (getCompact x false).toNat = s*2^24+mantissa x.toNat s := by
  obtain ⟨ha,hl⟩ := rawMantissa_toNat x
  have he := byteCount_le x
  have hd : getCompact x false =
      (if 2^23 ≤ (rawMantissa x (byteCount x)).toNat then rawMantissa x (byteCount x) >>> 8
        else rawMantissa x (byteCount x)) |||
      BitVec.ofNat 32 (if 2^23 ≤ (rawMantissa x (byteCount x)).toNat then byteCount x+1
        else byteCount x) <<< 24 := by
    simp only [getCompact,signBit_eq,testBit_eq_of_lt hl,decide_eq_true_eq,
      Bool.false_and,Bool.false_eq_true,if_false,BitVec.or_zero]
  rw [hd]
  split_ifs with h
  · obtain ⟨hs,hm⟩ := isSize_succ_byteCount h
    refine ⟨byteCount x+1,by omega,hs,?_⟩
    have hr : (rawMantissa x (byteCount x) >>> 8).toNat =
      (rawMantissa x (byteCount x)).toNat / 256 := by
      rw [BitVec.toNat_ushiftRight,shiftRight_eq_div_pow]
    rw [pack_toNat (by omega) (by omega),hm,hr]
  · obtain ⟨hs,hm⟩ := isSize_byteCount (Nat.lt_of_not_le h)
    exact ⟨byteCount x,by omega,hs,by rw [pack_toNat hl (by omega),hm]⟩

theorem exponent_of_isSize {x : ℕ} (hs : IsCompactSize x s) : exponent 256 (2^23) x = s-3 := by
  have hx := hs.upper
  refine exponent_eq (by norm_num) (by norm_num) ?_ ?_
  · by_cases h : s ≤ 3
    · have hp : 256^s ≤ 256^3 := Nat.pow_le_pow_right (by norm_num) h
      rw [Nat.sub_eq_zero_of_le h]
      omega
    · have hp := pow_eq_mul_pow h
      omega
  · intro j hj
    have hl := hs.lower (j+3) (by omega)
    rw [pow_add] at hl
    omega

theorem decode_mantissa {x : ℕ} (hs : IsCompactSize x s) :
    (if s ≤ 3 then mantissa x s / 256^(3-s) else mantissa x s*256^(s-3)) =
      truncate 256 (2^23) x := by
  unfold mantissa truncate
  rw [exponent_of_isSize hs]
  split_ifs with h
  · rw [Nat.sub_eq_zero_of_le h]
    simp
  · rfl

/-- Encoding and decoding a target truncates it; no wrap-around occurs. -/
theorem round_toNat (x : ArithUint256) : (roundCompact x).toNat = truncate 256 (2^23) x.toNat := by
  obtain ⟨s,hs33,hs,hc⟩ := compact_spec x
  have hm := mantissa_lt hs
  have hdi : (getCompact x false).toNat / 2^24 = s := by omega
  have ho : (getCompact x false).toNat % 2^23 = mantissa x.toNat s := by omega
  have hd := decode_mantissa hs
  unfold roundCompact
  rw [target_toNat,hdi,ho]
  split_ifs at hd ⊢ with h
  · exact hd
  · rw [hd]
    exact mod_eq_of_lt ((truncate_le _).trans_lt x.isLt)

theorem round_le (x : ArithUint256) : (roundCompact x).toNat ≤ x.toNat := by
  rw [round_toNat]
  exact truncate_le _

theorem round_mono {y : ArithUint256} (h : x.toNat ≤ y.toNat) :
    (roundCompact x).toNat ≤ (roundCompact y).toNat := by
  rw [round_toNat,round_toNat]
  exact truncate_mono (by norm_num) (by norm_num) (by norm_num) h

/-- Every decoded target, wrapped or not, is a value the encoder keeps exactly. -/
theorem round_target (c : BitVec 32) :
    roundCompact (setCompact c).target = (setCompact c).target := by
  apply BitVec.eq_of_toNat_eq
  rw [round_toNat,target_toNat]
  have hw : c.toNat % 2^23 < 2^23 := mod_lt _ (by norm_num)
  split_ifs with h
  · exact truncate_of_lt ((div_le_self _ _).trans_lt hw)
  · -- Reduction modulo `256 ^ 32` only removes leading mantissa digits.
    obtain ⟨j,hj⟩ : ∃ j, c.toNat / 2^24-3 = j := ⟨_,rfl⟩
    rw [hj,show 2^256 = 256^32 by norm_num]
    by_cases hl : j < 32
    · have hp : 256^32 = 256^(32-j)*256^j := by
        rw [← pow_add,Nat.sub_add_cancel hl.le]
      rw [hp,mul_mod_mul_right]
      exact truncate_mantissa (by norm_num) (by norm_num) ((mod_le _ _).trans_lt hw) j
    · have hd : 256^32 ∣ c.toNat % 2^23*256^j := Dvd.dvd.mul_left (pow_dvd_pow 256 (by omega)) _
      rw [mod_eq_zero_of_dvd hd]
      exact truncate_of_lt (by norm_num)

theorem isSize_truncate {x : ℕ} (hs : IsCompactSize x s) :
    IsCompactSize (truncate 256 (2^23) x) s ∧ mantissa (truncate 256 (2^23) x) s =
      mantissa x s := by
  have he := exponent_of_isSize hs
  by_cases h : s ≤ 3
  · have hx : truncate 256 (2^23) x = x := by
      rw [truncate,he,Nat.sub_eq_zero_of_le h]
      simp
    rw [hx]
    exact ⟨hs,rfl⟩
  · refine ⟨⟨?_,?_⟩,?_⟩
    · have := truncate_le (B := 256) (M := 2^23) x
      have := hs.upper
      omega
    · intro k hk
      have hl := mul_pow_le_truncate (B := 256) (M := 2^23) (x := x) (k := k-3)
        (by norm_num) (by norm_num) (by omega)
      have hp : 256^k = 2^24*256^(k-3) := by
        conv_lhs => rw [show k = 3+(k-3) by omega,pow_add]
        norm_num
      omega
    · unfold mantissa
      rw [if_neg h,if_neg h,truncate,he,Nat.mul_div_cancel _ (Nat.pow_pos (by norm_num))]

theorem compact_round (x : ArithUint256) :
    getCompact (roundCompact x) false = getCompact x false := by
  obtain ⟨s,-,hs,hc⟩ := compact_spec x
  obtain ⟨t,-,ht,hd⟩ := compact_spec (roundCompact x)
  rw [round_toNat] at ht hd
  obtain ⟨hs',hm⟩ := isSize_truncate hs
  obtain rfl := ht.unique hs'
  exact BitVec.eq_of_toNat_eq (by rw [hc,hd,hm])

/-- An encoding the code itself would write for an unsigned target. -/
structure Canonical (c : BitVec 32) : Prop where
  stable : getCompact (setCompact c).target false = c
  signClear : c.toNat.testBit 23 = false
  nonnegative : (setCompact c).fNegative = false
  inRange : (setCompact c).fOverflow = false

instance (c : BitVec 32) : Decidable (Canonical c) :=
  decidable_of_iff (getCompact (setCompact c).target false = c ∧ c.toNat.testBit 23 = false ∧
    (setCompact c).fNegative = false ∧ (setCompact c).fOverflow = false)
    ⟨fun h => ⟨h.1,h.2.1,h.2.2.1,h.2.2.2⟩,fun h => ⟨h.1,h.2,h.3,h.4⟩⟩

theorem mantissa_lt_of_size_eq (hs : s = 33) : mantissa x.toNat s < 2^16 := by
  subst hs
  have hx := x.isLt
  refine (div_lt_iff_lt_mul (by norm_num)).mpr ?_
  exact hx

theorem canonical_compact (x : ArithUint256) : Canonical (getCompact x false) := by
  obtain ⟨s,hs33,hs,hc⟩ := compact_spec x
  have hm := mantissa_lt hs
  have hb : (getCompact x false).toNat.testBit 23 = false := by
    rw [testBit_eq_decide_div_mod_eq]
    simp only [decide_eq_false_iff_not]
    omega
  refine ⟨compact_round x,hb,?_,?_⟩
  · simp only [setCompact,signBit_eq,hb,Bool.and_false]
  · have hsi : (getCompact x false >>> 24).toNat = s := by
      rw [BitVec.toNat_ushiftRight]
      omega
    simp only [setCompact,hsi]
    by_cases h : s = 33
    · -- At 33 bytes the word has only two significant bytes.
      have h16 := mantissa_lt_of_size_eq (x := x) h
      have hw : ¬ 0xffff#32 < getCompact x false &&& 0x007fffff#32 := by
        rw [BitVec.lt_def,mask_toNat]
        simp only [BitVec.toNat_ofNat]
        omega
      simp [h,hw]
    · simp [show ¬ 34 < s by omega,show ¬ 33 < s by omega,show ¬ 32 < s by omega]

/-- The encoding of zero, or a mantissa that no lower byte count leaves room for. -/
def IsNormal (c : BitVec 32) : Prop := c = 0#32 ∨ c.toNat.testBit 23 = false ∧
    2^15 ≤ c.toNat % 2^23 ∧
    256^(3-c.toNat / 2^24) ∣ c.toNat % 2^23

instance (c : BitVec 32) : Decidable (IsNormal c) := inferInstanceAs (Decidable (_ ∨ _))

/-- The number of highest bytes that the encoding keeps. -/
def keptBytes (x : ArithUint256) : ℕ := if 256^byteCount x ≤ 2*x.toNat then 2 else 3

theorem exponent_eq_keptBytes (x : ArithUint256) :
    exponent 256 (2^23) x.toNat = byteCount x-keptBytes x := by
  have hx := toNat_lt_pow x
  unfold keptBytes
  split_ifs with h
  · refine (exponent_of_isSize (s := byteCount x+1) ⟨?_,?_⟩).trans (by omega)
    · rw [pow_succ]
      omega
    · intro k hk
      rwa [← succ.inj hk]
  · refine exponent_of_isSize ⟨not_le.mp h,fun k hk => ?_⟩
    have := pow_le_toNat hk
    omega

theorem toNat_eq_add (c : BitVec 32) (h : c.toNat.testBit 23 = false) :
    c.toNat = c.toNat / 2^24*2^24+c.toNat % 2^23 := by
  rw [testBit_eq_decide_div_mod_eq,decide_eq_false_iff_not] at h
  omega

variable {s : ℕ} {c : BitVec 32}

theorem pow_mul_pow_succ (h : s+1 ≤ 3) : 256^s*256^(3-(s+1)) = 2^16 := by
  rw [← pow_add,show s+(3-(s+1)) = 2 by omega]
  norm_num

theorem pow_eq_mul_pow_succ (h : ¬ s+1 ≤ 3) : 256^s = 2^16*256^(s+1-3) := by
  conv_lhs => rw [show s = 2+(s+1-3) by omega,pow_add]
  norm_num

theorem isNormal_compact (x : ArithUint256) : IsNormal (getCompact x false) := by
  obtain ⟨s,-,hs,hc⟩ := compact_spec x
  have hm := mantissa_lt hs
  cases s with
  | zero =>
    have hz : x.toNat = 0 := by
      have := hs.upper
      omega
    refine .inl (BitVec.eq_of_toNat_eq ?_)
    rw [hc,hz]
    rfl
  | succ s =>
    have hl := hs.lower s rfl
    have ho : (getCompact x false).toNat % 2^23 = mantissa x.toNat (s+1) := by omega
    have hd : (getCompact x false).toNat / 2^24 = s+1 := by omega
    refine .inr ⟨(canonical_compact x).signClear,?_,?_⟩
    · rw [ho,mantissa]
      split_ifs with h
      · have hsc := mul_le_mul_right (256^(3-(s+1))) hl
        rw [pow_mul_pow_succ h,mul_assoc] at hsc
        omega
      · refine (Nat.le_div_iff_mul_le (Nat.pow_pos (by norm_num))).mpr ?_
        rw [pow_eq_mul_pow_succ h] at hl
        omega
    · rw [ho,hd,mantissa]
      split_ifs with h
      · exact Dvd.intro_left _ rfl
      · rw [Nat.sub_eq_zero_of_le (by omega)]
        exact one_dvd _

/-- A mantissa above its least value has the compact size of the value it stands for. -/
theorem isSize_of_mantissa {x w : ℕ} (hl : 2^15 ≤ w) (hw : w < 2^23)
    (hx : if s ≤ 3 then w = x*256^(3-s) else x = w*256^(s-3)) :
    IsCompactSize x s ∧ mantissa x s = w := by
  split_ifs at hx with h
  · have hp := pow_pos (n := 3-s) (show 0 < 256 by norm_num)
    refine ⟨⟨?_,?_⟩,by rw [mantissa,if_pos h,hx]⟩
    · refine Nat.lt_of_mul_lt_mul_right (a := 256^(3-s)) ?_
      rw [pow_mul_pow h,mul_assoc]
      omega
    · rintro k rfl
      refine le_of_mul_le_mul_right ?_ hp
      rw [pow_mul_pow_succ h,mul_assoc]
      omega
  · have hp := pow_pos (n := s-3) (show 0 < 256 by norm_num)
    refine ⟨⟨?_,?_⟩,by rw [mantissa,if_neg h,hx,Nat.mul_div_cancel _ hp]⟩
    · rw [hx,pow_eq_mul_pow h,← mul_assoc]
      exact (Nat.mul_lt_mul_right hp).mpr (by omega)
    · rintro k rfl
      rw [hx,pow_eq_mul_pow_succ h,← mul_assoc]
      exact mul_le_mul_right _ (by omega)

theorem target_toNat_of_lt (hwo : 2^15 ≤ c.toNat % 2^23)
    (ho : (setCompact c).fOverflow = false) (h : ¬ c.toNat / 2^24 ≤ 3) :
    (setCompact c).target.toNat = c.toNat % 2^23*256^(c.toNat / 2^24-3) := by
  have hw : c.toNat % 2^23 < 2^23 := mod_lt _ (by norm_num)
  rw [target_toNat,if_neg h]
  apply mod_eq_of_lt
  have hs : (c >>> 24).toNat = c.toNat / 2^24 := by
    rw [BitVec.toNat_ushiftRight,shiftRight_eq_div_pow]
  simp only [setCompact,hs,if_neg h] at ho
  have hb : 0xff#32 < c &&& 0x007fffff#32 := by
    rw [BitVec.lt_def,mask_toNat,BitVec.toNat_ofNat]
    omega
  have hn : c &&& 0x007fffff#32 ≠ 0#32 := fun hz => by
    rw [hz] at hb
    exact absurd hb (by decide)
  simp only [bne_iff_ne.mpr hn,hb,decide_true,Bool.true_and,Bool.or_eq_false_iff,
    Bool.and_eq_false_iff,decide_eq_false_iff_not] at ho
  by_cases hm : c.toNat / 2^24 ≤ 32
  · have hp : 256^(c.toNat / 2^24-3) ≤ 256^29 := Nat.pow_le_pow_right (by norm_num) (by omega)
    calc c.toNat % 2^23*256^(c.toNat / 2^24-3) ≤ 2^23*256^29 := Nat.mul_le_mul hw.le hp
      _ < 2^256 := by norm_num
  · have hw16 : c.toNat % 2^23 < 2^16 := by
      have hwo := ho.2.resolve_right (by omega)
      rw [BitVec.lt_def,mask_toNat,BitVec.toNat_ofNat] at hwo
      omega
    rw [show c.toNat / 2^24-3 = 30 by omega]
    omega

theorem compact_target (h : IsNormal c) (ho : (setCompact c).fOverflow = false) :
    getCompact (setCompact c).target false = c := by
  rcases h with rfl | ⟨hsig,hwo,hd⟩
  · rfl
  have hc := toNat_eq_add c hsig
  obtain ⟨t,-,ht,hg⟩ := compact_spec (setCompact c).target
  have ha := target_toNat c
  obtain ⟨s,hs⟩ : ∃ s, c.toNat / 2^24 = s := ⟨_,rfl⟩
  obtain ⟨w,hw⟩ : ∃ w, c.toNat % 2^23 = w := ⟨_,rfl⟩
  have hw23 : w < 2^23 := hw ▸ mod_lt _ (by norm_num)
  rw [hs,hw] at ha hc hd
  rw [hw] at hwo
  have hsi : IsCompactSize (setCompact c).target.toNat s ∧ mantissa (setCompact c).target.toNat s =
    w := by
    refine isSize_of_mantissa hwo hw23 ?_
    split_ifs at ha ⊢ with h
    · rw [ha,Nat.div_mul_cancel hd]
    · rw [target_toNat_of_lt (hw ▸ hwo) ho (hs ▸ h),hs,hw]
  obtain rfl := ht.unique hsi.1
  exact BitVec.eq_of_toNat_eq (by rw [hg,hsi.2,hc])

/-- Rounding by the compact encoding of words, and the encodings that are kept. -/
theorem compact_words : (∀ x : ArithUint256, (setCompact (getCompact x false)).fNegative = false ∧
      (setCompact (getCompact x false)).fOverflow = false ∧
      (roundCompact x).toNat ≤ x.toNat ∧
      (roundCompact x).toNat =
        x.toNat / 256 ^ (byteCount x - keptBytes x) * 256 ^ (byteCount x - keptBytes x) ∧
      getCompact (roundCompact x) false = getCompact x false) ∧
    (∀ x₁ x₂ : ArithUint256, x₁ ≤ x₂ → roundCompact x₁ ≤ roundCompact x₂) ∧
    ∀ c : BitVec 32, (setCompact c).fNegative = false → (setCompact c).fOverflow = false →
      (getCompact (setCompact c).target false = c ↔ IsNormal c) ∧
      (setCompact (getCompact (setCompact c).target false)).target = (setCompact c).target := by
  refine ⟨fun x => ?_,fun x₁ x₂ h => round_mono h,fun c _ ho => ⟨⟨fun h => ?_,fun h => ?_⟩,?_⟩⟩
  · have hc := canonical_compact x
    refine ⟨hc.nonnegative,hc.inRange,round_le x,?_,compact_round x⟩
    rw [round_toNat,truncate,exponent_eq_keptBytes]
  · rw [← h]
    exact isNormal_compact _
  · exact compact_target h ho
  · exact round_target c

end DripCore.CompactTarget
