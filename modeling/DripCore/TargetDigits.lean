import DripCore.BaseUint
import DripCore.BlockProof

/-!
# Targets and work in 32-bit digits

`arith_uint256` is `base_uint` with eight digits. Its compact encoding, its division and the proof
of work of a header are given here over the digits, as the source computes them, with the two
assertions of `GetCompact` and the error of a division by zero.

Each of them refines the computation on 256-bit words that the rest of the development uses: the
same flags, the same encoding and the word that the digits stand for. The assertions never fail, and
the division that `GetBlockProof` makes is never one by zero.
-/
namespace DripCore.BaseUint

/-- The decoded digits together with the two optional out-parameters. -/
structure Decoded where
  target : BaseUint 8
  fNegative : Bool
  fOverflow : Bool
deriving DecidableEq

/-- `arith_uint256::SetCompact`. -/
def setCompact (nCompact : BitVec 32) : Decoded :=
  let nSize := (nCompact >>> 24).toNat
  let word := nCompact &&& 0x007fffff#32
  let nWord := if nSize ≤ 3 then word >>> (8 * (3 - nSize)) else word
  { target :=
      if nSize ≤ 3 then ofUint64 (nWord.setWidth 64)
      else (ofUint64 (nWord.setWidth 64)).shiftLeft (8 * (nSize - 3))
    fNegative := nWord != 0#32 && (nCompact &&& 0x00800000#32) != 0#32
    fOverflow := nWord != 0#32 && (decide (34 < nSize) ||
      (decide (0xff#32 < nWord) && decide (33 < nSize)) ||
      (decide (0xffff#32 < nWord) && decide (32 < nSize))) }

/-- `arith_uint256::GetCompact`. It fails if one of its assertions does. -/
def getCompact (a : BaseUint 8) (fNegative : Bool) : Option (BitVec 32) :=
  let nSize := (a.bits + 7) / 8
  let nCompact :=
    if nSize ≤ 3 then (a.getLow64 <<< (8 * (3 - nSize))).setWidth 32
    else (a.shiftRight (8 * (nSize - 3))).getLow64.setWidth 32
  let carry := (nCompact &&& 0x00800000#32) != 0#32
  let nCompact := if carry then nCompact >>> 8 else nCompact
  let nSize := if carry then nSize + 1 else nSize
  if nCompact &&& ~~~0x007fffff#32 ≠ 0#32 then none
  else if ¬nSize < 256 then none
  else
    let nCompact := nCompact ||| BitVec.ofNat 32 nSize <<< 24
    some (nCompact ||| (if fNegative && (nCompact &&& 0x007fffff#32) != 0#32 then 0x00800000#32
      else 0#32))

/-- The loop of `operator/=`, with one more than the shift. -/
def divideLoop : ℕ → BaseUint 8 → BaseUint 8 → BaseUint 8 → BaseUint 8
  | 0, _, _, quotient => quotient
  | shift + 1, num, div, quotient =>
    if 0 ≤ num.compareTo div then
      divideLoop shift (num.sub div) (div.shiftRight 1)
        (quotient.orLimb (shift / 32) (1#32 <<< (shift % 32)))
    else divideLoop shift num (div.shiftRight 1) quotient

/-- `operator/=`. -/
def divide (num div : BaseUint 8) : Except UintError (BaseUint 8) :=
  if div.bits = 0 then .error .divisionByZero
  else if num.bits < div.bits then .ok zero
  else .ok (divideLoop (num.bits - div.bits + 1) num (div.shiftLeft (num.bits - div.bits)) zero)

/-- `GetBlockProof`. -/
def getBlockProof (nBits : BitVec 32) : Except UintError (BaseUint 8) := do
  let decoded := setCompact nBits
  if decoded.fNegative || decoded.fOverflow || decoded.target.equalTo 0#64 then return ofUint64 0#64
  let quotient ← divide decoded.target.not (decoded.target.add (ofUint64 1#64))
  return quotient.add (ofUint64 1#64)

/-- The 256-bit word of eight digits. -/
def word (a : BaseUint 8) : CompactTarget.ArithUint256 := a.toWord

section
variable (a b : BaseUint 8)

theorem word_injective : Function.Injective word := toWord_injective

@[simp]
theorem toNat_word : a.word.toNat = a.toNat := rfl

@[simp]
theorem word_shiftLeft (n : ℕ) : (a.shiftLeft n).word = a.word <<< n := toWord_shiftLeft a n

@[simp]
theorem word_shiftRight (n : ℕ) : (a.shiftRight n).word = a.word >>> n := toWord_shiftRight a n

@[simp]
theorem word_not : a.not.word = ~~~a.word := toWord_not a

@[simp]
theorem word_add : (a.add b).word = a.word + b.word := toWord_add a b

@[simp]
theorem word_sub : (a.sub b).word = a.word - b.word := toWord_sub a b

@[simp]
theorem word_zero : (zero : BaseUint 8).word = 0#256 := toWord_zero

@[simp]
theorem word_ofUint64 (x : BitVec 64) : (ofUint64 x : BaseUint 8).word = x.setWidth 256 :=
    toWord_ofUint64 x

@[simp]
theorem word_orLimb (i : ℕ) :
    (a.orLimb (i / 32) (1#32 <<< (i % 32))).word = a.word ||| BitVec.twoPow 256 i :=
      toWord_orLimb a i

theorem compareTo_word : 0 ≤ a.compareTo b ↔ b.word ≤ a.word := compareTo_nonneg a b

theorem equalTo_word : a.equalTo 0#64 = (a.word == 0#256) := by
  rw [Bool.eq_iff_iff, beq_iff_eq]
  exact equalTo_zero a

theorem getLow64_word : a.getLow64 = a.word.setWidth 64 := getLow64_eq a

theorem bits_word : a.bits = CompactTarget.bits a.word := bits_eq a

end

theorem setWidth_extend (x : BitVec 32) : (x.setWidth 64).setWidth 256 = x.setWidth 256 := by
  refine BitVec.eq_of_toNat_eq ?_
  rw [BitVec.toNat_setWidth, BitVec.toNat_setWidth, BitVec.toNat_setWidth,
    Nat.mod_eq_of_lt (x.isLt.trans (by norm_num))]

theorem word_target (c : BitVec 32) :
    (setCompact c).target.word = (CompactTarget.setCompact c).target := by
  simp only [setCompact, CompactTarget.setCompact]
  split_ifs
  · rw [word_ofUint64, setWidth_extend]
  · rw [word_shiftLeft, word_ofUint64, setWidth_extend]

theorem fNegative_eq (c : BitVec 32) :
    (setCompact c).fNegative = (CompactTarget.setCompact c).fNegative := rfl

theorem fOverflow_eq (c : BitVec 32) :
    (setCompact c).fOverflow = (CompactTarget.setCompact c).fOverflow := rfl

theorem and_not_mask {c : BitVec 32} (h : c.toNat < 2 ^ 23) : c &&& ~~~0x007fffff#32 = 0#32 := by
  have hc : c &&& 0x007fffff#32 = c :=
    BitVec.eq_of_toNat_eq (by rw [CompactTarget.mask_toNat, Nat.mod_eq_of_lt h])
  rw [← hc, BitVec.and_assoc]
  exact BitVec.and_zero

/-- The mantissa leaves the sign bit free after the carry. -/
theorem mantissa_lt {c : BitVec 32} (h : c.toNat < 2 ^ 24) :
    (if (c &&& 0x00800000#32) != 0#32 then c >>> 8 else c).toNat < 2 ^ 23 := by
  rw [CompactTarget.signBit_eq, CompactTarget.testBit_eq_of_lt h]
  by_cases hs : 2 ^ 23 ≤ c.toNat
  · rw [if_pos (decide_eq_true hs), BitVec.toNat_ushiftRight, Nat.shiftRight_eq_div_pow]
    omega
  · rw [if_neg (by simpa using hs)]
    omega

/-- The assertions hold, and the encoding is that of the word. -/
theorem getCompact_word (a : BaseUint 8) (fNegative : Bool) :
    a.getCompact fNegative = some (CompactTarget.getCompact a.word fNegative) := by
  have hn := CompactTarget.byteCount_le a.word
  have hm := and_not_mask (mantissa_lt (CompactTarget.rawMantissa_toNat a.word).2)
  have hs (carry : Bool) : (if carry then CompactTarget.byteCount a.word + 1
      else CompactTarget.byteCount a.word) < 256 := by
    split_ifs <;> omega
  have hb : (a.bits + 7) / 8 = CompactTarget.byteCount a.word := by
    rw [bits_word, CompactTarget.byteCount]
  have hr (n : ℕ) : (if n ≤ 3 then (a.getLow64 <<< (8 * (3 - n))).setWidth 32
      else (a.shiftRight (8 * (n - 3))).getLow64.setWidth 32) =
        CompactTarget.rawMantissa a.word n := by
    rw [getLow64_word, getLow64_word, word_shiftRight, CompactTarget.rawMantissa]
  simp only [getCompact, hb, hr]
  rw [if_neg (not_not.mpr hm), if_neg (not_not.mpr (hs _)), CompactTarget.getCompact]

theorem word_divideLoop (n : ℕ) (num div q : BaseUint 8) :
    (divideLoop n num div q).word = DripCore.divideLoop n num.word div.word q.word := by
  induction n generalizing num div q with
  | zero => rfl
  | succ n ih =>
    rw [divideLoop, DripCore.divideLoop]
    simp only [compareTo_word]
    split_ifs
    · rw [ih, word_sub, word_shiftRight, word_orLimb]
    · rw [ih, word_shiftRight]

theorem map_word_divide (num div : BaseUint 8) :
    (divide num div).map word = DripCore.divide num.word div.word := by
  rw [divide, DripCore.divide, bits_word, bits_word]
  split_ifs
  · rfl
  · exact congrArg Except.ok word_zero
  · rw [Except.map, word_divideLoop, word_shiftLeft, word_zero]

/-- The proof of work is computed without an error, and is that of the word. -/
theorem getBlockProof_word (nBits : BitVec 32) :
    ∃ work, getBlockProof nBits = .ok work ∧ work.word = DripCore.getBlockProof nBits := by
  have hb := blockProof_eq nBits
  rw [blockProof] at hb
  simp only [getBlockProof, fNegative_eq, fOverflow_eq, equalTo_word, word_target]
  split_ifs at hb ⊢ with h
  · exact ⟨_, rfl, Except.ok.inj hb⟩
  · have hd := map_word_divide (setCompact nBits).target.not
      ((setCompact nBits).target.add (ofUint64 1#64))
    rw [word_not, word_add, word_ofUint64, word_target,
      show (1#64).setWidth 256 = 1#256 from rfl] at hd
    rw [← hd] at hb
    cases hq : divide (setCompact nBits).target.not ((setCompact nBits).target.add (ofUint64 1#64))
      with
    | error e =>
      rw [hq] at hb
      cases hb
    | ok q =>
      rw [hq] at hb
      refine ⟨_, rfl, ?_⟩
      rw [← Except.ok.inj hb, word_add, word_ofUint64]
      rfl

/-- The number of bytes of a value, as the encoder first counts them. -/
def byteCount (x : BaseUint 8) : ℕ := (x.bits + 7) / 8

/-- The number of highest bytes that the encoding keeps. -/
def keptBytes (x : BaseUint 8) : ℕ := if 256 ^ byteCount x ≤ 2 * x.toNat then 2 else 3

/-- Rounding by the compact encoding, and the encodings that are kept. -/
theorem compact_encoding :
    (∀ x : BaseUint 8, ∃ c, x.getCompact false = some c ∧ (setCompact c).fNegative = false ∧
      (setCompact c).fOverflow = false ∧ (setCompact c).target.toNat ≤ x.toNat ∧
      (setCompact c).target.toNat =
        x.toNat / 256 ^ (byteCount x - keptBytes x) * 256 ^ (byteCount x - keptBytes x) ∧
      (setCompact c).target.getCompact false = some c) ∧
    (∀ (x₁ x₂ : BaseUint 8) (c₁ c₂ : BitVec 32), x₁.toNat ≤ x₂.toNat →
      x₁.getCompact false = some c₁ →
      x₂.getCompact false = some c₂ → (setCompact c₁).target.toNat ≤ (setCompact c₂).target.toNat) ∧
    ∀ c : BitVec 32, (setCompact c).fNegative = false → (setCompact c).fOverflow = false →
      ((setCompact c).target.getCompact false = some c ↔ CompactTarget.IsNormal c) ∧
      ∃ c', (setCompact c).target.getCompact false = some c' ∧
        (setCompact c').target = (setCompact c).target := by
  obtain ⟨hr, hm, hc⟩ := CompactTarget.compact_words
  refine ⟨fun x => ?_, fun x₁ x₂ c₁ c₂ hl h₁ h₂ => ?_, fun c hn ho => ?_⟩
  · obtain ⟨hn, ho, hle, hv, hg⟩ := hr x.word
    refine ⟨_, getCompact_word x false, hn, ho, ?_, ?_, ?_⟩
    · rw [← toNat_word, word_target]
      exact hle
    · rw [← toNat_word, word_target, byteCount, keptBytes, byteCount, bits_word]
      exact hv
    · rw [getCompact_word, word_target]
      exact congrArg some hg
  · rw [getCompact_word, Option.some.injEq] at h₁ h₂
    rw [← toNat_word, ← toNat_word, word_target, word_target, ← h₁, ← h₂]
    exact hm x₁.word x₂.word hl
  · obtain ⟨hi, ht⟩ := hc c hn ho
    refine ⟨?_, _, getCompact_word _ false, word_injective ?_⟩
    · rw [getCompact_word, word_target, Option.some.injEq]
      exact hi
    · rw [word_target, word_target]
      exact ht

theorem compact_encoding_genesis :
    (setCompact 0x1d00ffff#32).target.getCompact false = some 0x1d00ffff#32 ∧
      ¬(setCompact 0x1e0000ff#32).target.getCompact false = some 0x1e0000ff#32 :=
  ⟨(compact_encoding.2.2 0x1d00ffff#32 (by decide) (by decide)).1.mpr (by decide +kernel), fun h =>
    absurd ((compact_encoding.2.2 0x1e0000ff#32 (by decide) (by decide)).1.mp h)
      (by decide +kernel)⟩

/-- The work of a header, for every difficulty. -/
theorem blockProof_spec :
    (∀ nBits : BitVec 32, ∃ work, getBlockProof nBits = .ok work ∧ work.toNat =
      if (setCompact nBits).fNegative || (setCompact nBits).fOverflow ||
        (setCompact nBits).target.equalTo 0#64 then 0
      else 2 ^ 256 / ((setCompact nBits).target.toNat + 1)) ∧
    ∀ nBits nBits' : BitVec 32, ¬(setCompact nBits).fNegative → ¬(setCompact nBits).fOverflow →
      (setCompact nBits).target.toNat ≠ 0 →
      (setCompact nBits).target.toNat ≤ (setCompact nBits').target.toNat →
      ∃ work work', getBlockProof nBits = .ok work ∧ getBlockProof nBits' = .ok work' ∧
        work'.toNat ≤ work.toNat := by
  refine ⟨fun nBits => ?_, fun nBits nBits' hn ho hz hl => ?_⟩
  · obtain ⟨work, hw, he⟩ := getBlockProof_word nBits
    refine ⟨work, hw, ?_⟩
    rw [← toNat_word, he, toNat_blockProof, fNegative_eq, fOverflow_eq, equalTo_word, word_target,
      ← toNat_word, word_target]
  · obtain ⟨work, hw, he⟩ := getBlockProof_word nBits
    obtain ⟨work', hw', he'⟩ := getBlockProof_word nBits'
    rw [← toNat_word, word_target] at hz hl
    rw [← toNat_word, word_target] at hl
    refine ⟨work, work', hw, hw', ?_⟩
    rw [← toNat_word, ← toNat_word, he, he']
    exact getBlockProof_anti hn ho (fun h => hz (congrArg BitVec.toNat h)) hl

theorem blockProof_spec_one :
    ∃ work work', getBlockProof 0x03000001#32 = .ok work ∧ getBlockProof 0x1d00ffff#32 = .ok work' ∧
      work'.toNat ≤ work.toNat :=
  blockProof_spec.2 _ _ (by decide) (by decide) (by decide) (by decide)

end DripCore.BaseUint
