import DripCore.BlockIndex

/-!
# The work behind a header

`base_uint` divides by shifting the divisor up to the dividend and subtracting it on the way back.
With this division `GetBlockProof` is the quotient of `2 ^ 256` by the number of hashes that meet
the target, although `2 ^ 256` does not fit the word.
-/
namespace DripCore
open BitVec CompactTarget

inductive UintError where
  | divisionByZero
deriving DecidableEq

/-- The loop of `operator/=`, with one more than the shift. -/
def divideLoop : ℕ → ArithUint256 → ArithUint256 → ArithUint256 → ArithUint256
  | 0, _, _, quotient => quotient
  | shift+1, num, div, quotient =>
    if div ≤ num then divideLoop shift (num-div) (div >>> 1) (quotient ||| twoPow 256 shift)
    else divideLoop shift num (div >>> 1) quotient

def divide (num div : ArithUint256) : Except UintError ArithUint256 :=
  if bits div = 0 then .error .divisionByZero
  else if bits num < bits div then .ok 0#256
  else .ok (divideLoop (bits num-bits div+1) num (div <<< (bits num-bits div)) 0#256)

/-- `GetBlockProof` with the division of `base_uint`. -/
def blockProof (nBits : BitVec 32) : Except UintError ArithUint256 := do
  let decoded := setCompact nBits
  if decoded.fNegative || decoded.fOverflow || decoded.target == 0#256 then return 0#256
  let quotient ← divide (~~~decoded.target) (decoded.target+1#256)
  return quotient+1#256

theorem toNat_lt_two_pow (x : ArithUint256) : x.toNat < 2^bits x := by
  unfold bits
  split_ifs with h
  · omega
  · exact Nat.lt_log2_self

theorem two_pow_le_of_bits {x : ArithUint256} (h : bits x ≠ 0) : 2^bits x ≤ 2*x.toNat := by
  unfold bits at h ⊢
  split_ifs at h ⊢ with hz
  · exact absurd rfl h
  · rw [pow_succ,Nat.mul_comm]
    exact Nat.mul_le_mul_left 2 (Nat.log2_self_le hz)

theorem bits_le (x : ArithUint256) : bits x ≤ 256 := by
  cases h : bits x with
  | zero => exact Nat.zero_le _
  | succ k =>
    have hl := two_pow_le_of_bits (show bits x ≠ 0 by omega)
    have hx := x.isLt
    rw [h,pow_succ] at hl
    exact (Nat.pow_lt_pow_iff_right (show 1 < 2 by norm_num)).mp (show 2^k < 2^256 by omega)

/-- The quotient so far is a multiple of the bits that are still to be found. -/
theorem toNat_divideLoop {d n : ℕ} {num div q : ArithUint256} (hd : 0 < d)
    (hdiv : ∀ k, n = k+1 → div.toNat = d*2^k) (hu : num.toNat < d*2^n)
    (hq : 2^n ∣ q.toNat) (hn : n ≤ 256) :
    (divideLoop n num div q).toNat = q.toNat+num.toNat / d := by
  induction n generalizing num div q with
  | zero =>
    rw [pow_zero,Nat.mul_one] at hu
    rw [divideLoop,Nat.div_eq_of_lt hu,Nat.add_zero]
  | succ n ih =>
    have hdi := hdiv n rfl
    have hh : ∀ k, n = k+1 → (div >>> 1).toNat = d*2^k := by
      rintro k rfl
      rw [toNat_ushiftRight,Nat.shiftRight_eq_div_pow,hdi,pow_succ,← mul_assoc,
        pow_one,Nat.mul_div_cancel _ (by norm_num)]
    have hv : 2^n ∣ q.toNat := (pow_dvd_pow 2 (Nat.le_succ n)).trans hq
    rw [divideLoop]
    split_ifs with hl
    · rw [le_def,hdi] at hl
      have hs : (num-div).toNat = num.toNat-d*2^n := by
        rw [toNat_sub_of_le (by rwa [le_def,hdi]),hdi]
      have hb : (q ||| twoPow 256 n).toNat = q.toNat+2^n := by
        obtain ⟨c,hc⟩ := hq
        rw [toNat_or,toNat_twoPow,hc,
          Nat.mod_eq_of_lt (Nat.pow_lt_pow_right (by norm_num) (by omega)),
          Nat.two_pow_add_eq_or_of_lt (Nat.pow_lt_pow_right (by norm_num) (Nat.lt_succ_self n))]
      rw [pow_succ,← mul_assoc] at hu
      rw [ih hh (by rw [hs]; omega) (hb ▸ Nat.dvd_add hv dvd_rfl) (by omega),hs,hb,Nat.add_assoc]
      congr 1
      have hp : num.toNat = num.toNat-d*2^n+d*2^n := (Nat.sub_add_cancel hl).symm
      rw [hp,Nat.add_mul_div_left _ _ hd,Nat.add_sub_cancel,Nat.add_comm]
    · rw [le_def,hdi,not_le] at hl
      exact ih hh hl hv (by omega)

theorem divide_eq (num div : ArithUint256) :
    divide num div = if div = 0#256 then .error .divisionByZero else .ok (num / div) := by
  have hz : bits div = 0 ↔ div = 0#256 := by
    constructor
    · intro h
      have ht := toNat_lt_two_pow div
      rw [h] at ht
      exact eq_of_toNat_eq (by simpa using ht)
    · rintro rfl
      rfl
  rw [divide]
  by_cases h : div = 0#256
  · rw [if_pos (hz.mpr h),if_pos h]
  rw [if_neg (mt hz.mp h),if_neg h]
  have hb : bits div ≠ 0 := mt hz.mp h
  have hn := toNat_lt_two_pow num
  have hd := toNat_lt_two_pow div
  have hl := two_pow_le_of_bits hb
  have hp : 0 < div.toNat := by
    have := Nat.two_pow_pos (bits div)
    omega
  split_ifs with ht
  · congr 1
    refine eq_of_toNat_eq ?_
    have ho : 2^(bits num+1) ≤ 2^bits div := Nat.pow_le_pow_right (by norm_num) ht
    rw [pow_succ] at ho
    rw [toNat_udiv,Nat.div_eq_of_lt (by omega)]
    rfl
  · obtain ⟨shift,hs⟩ : ∃ shift, bits num-bits div = shift := ⟨_,rfl⟩
    have ho : 2^bits num = 2^bits div*2^shift := by
      rw [← pow_add,← hs,Nat.add_sub_cancel' (not_lt.mp ht)]
    have hw : 2^bits num ≤ 2^256 := Nat.pow_le_pow_right (by norm_num) (bits_le num)
    have ha : (div <<< shift).toNat = div.toNat*2^shift := by
      rw [BitVec.toNat_shiftLeft,Nat.shiftLeft_eq,Nat.mod_eq_of_lt]
      exact ((Nat.mul_lt_mul_right (Nat.two_pow_pos shift)).mpr hd).trans_le (ho ▸ hw)
    have he : shift+1 ≤ 256 := by
      have := bits_le num
      omega
    congr 1
    refine eq_of_toNat_eq ?_
    rw [hs,toNat_divideLoop hp (fun k hk => by rw [ha,Nat.succ.inj hk]) ?_ (dvd_zero _) he,
      toNat_udiv]
    · exact Nat.zero_add _
    · rw [pow_succ,← mul_assoc]
      have := Nat.mul_le_mul_right (2^shift) hl
      rw [← ho] at this
      linarith

/-- A decoded target is never the greatest word. -/
theorem toNat_target_add_one (nBits : BitVec 32) : (setCompact nBits).target.toNat+1 < 2^256 := by
  rw [target_toNat]
  have hw : nBits.toNat % 2^23 < 2^23 := Nat.mod_lt _ (by norm_num)
  split_ifs with h
  · have := Nat.div_le_self (nBits.toNat % 2^23) (256^(3-nBits.toNat / 2^24))
    omega
  · obtain ⟨k,hk⟩ := Nat.exists_eq_add_of_le (show 1 ≤ nBits.toNat / 2^24-3 by omega)
    rw [hk,pow_add,pow_one,mul_left_comm,
      show (2 : ℕ)^256 = 256*256^31 by norm_num,Nat.mul_mod_mul_left]
    have := Nat.mod_lt (nBits.toNat % 2^23*256^k) (show 0 < 256^31 by norm_num)
    omega

/-- The proof is the quotient that cannot be written down in the word. -/
theorem toNat_blockProof (nBits : BitVec 32) : (getBlockProof nBits).toNat =
      if (setCompact nBits).fNegative || (setCompact nBits).fOverflow ||
        (setCompact nBits).target == 0#256 then 0
      else 2^256 / ((setCompact nBits).target.toNat+1) := by
  have hm := toNat_target_add_one nBits
  rw [getBlockProof]
  split_ifs with h
  · rfl
  · have hp : 0 < (setCompact nBits).target.toNat := by
      refine Nat.pos_of_ne_zero fun hz => h ?_
      rw [eq_of_toNat_eq (show _ = (0#256).toNat from hz),beq_self_eq_true,Bool.or_true]
    obtain ⟨t,ht⟩ : ∃ t, (setCompact nBits).target.toNat = t := ⟨_,rfl⟩
    rw [ht] at hp hm ⊢
    have hq : (2^256-1-t) / (t+1)+1 = 2^256 / (t+1) := by
      rw [← Nat.add_div_right _ (Nat.succ_pos t)]
      congr 1
      omega
    have hh : 2^256 / (t+1) ≤ 2^255 := Nat.div_le_of_le_mul (by omega)
    rw [toNat_add,toNat_udiv,toNat_not,toNat_add,ht,toNat_ofNat,
      Nat.mod_eq_of_lt (show 1 < 2^256 by norm_num),Nat.mod_eq_of_lt hm,hq,
      Nat.mod_eq_of_lt (by omega)]

theorem blockProof_eq (nBits : BitVec 32) : blockProof nBits = .ok (getBlockProof nBits) := by
  have hm := toNat_target_add_one nBits
  have hn : (setCompact nBits).target+1#256 ≠ 0#256 := by
    intro h
    have hz := congrArg BitVec.toNat h
    rw [toNat_add,toNat_ofNat,Nat.mod_eq_of_lt (show 1 < 2^256 by norm_num),
      Nat.mod_eq_of_lt hm] at hz
    exact Nat.succ_ne_zero _ hz
  rw [blockProof,getBlockProof]
  split_ifs with h
  · rfl
  · rw [divide_eq,if_neg hn]
    rfl

/-- A larger target never has more work. -/
theorem getBlockProof_anti {nBits nBits' : BitVec 32} (hn : ¬(setCompact nBits).fNegative)
    (ho : ¬(setCompact nBits).fOverflow) (hz : (setCompact nBits).target ≠ 0#256)
    (hl : (setCompact nBits).target ≤ (setCompact nBits').target) :
    getBlockProof nBits' ≤ getBlockProof nBits := by
  have hp : ¬((setCompact nBits).fNegative || (setCompact nBits).fOverflow ||
      (setCompact nBits).target == 0#256) := by simp [hn, ho, hz]
  rw [le_def, toNat_blockProof, toNat_blockProof nBits, if_neg hp]
  split_ifs
  · exact Nat.zero_le _
  · exact Nat.div_le_div_left (Nat.succ_le_succ hl) (Nat.succ_pos _)

end DripCore
