import DripCore.Serialization
import DripCore.StreamReader

/-!
# Sizes and numbers of variable length

`CompactSize` stores a size in one, three, five or nine bytes and is read only in the shortest form.
`VARINT` stores digits of seven bits, the highest first, with one taken off every digit but the
last, so that no number has two forms.
-/
namespace DripCore
open ExceptRules List Nat PrefixCode StreamReader

inductive ReadError where
  | endOfData | nonCanonicalCompactSize | compactSizeTooLarge | varIntTooLarge
  | differentialValueOverflow | superfluousWitness | unknownOptionalData
deriving DecidableEq

abbrev ByteReader := Reader ReadError (BitVec 8)

def maxSize : ℕ := 0x02000000

def readLongSize (k least : ℕ) : ByteReader ℕ := do
  let nSizeRet ← readLE .endOfData k
  if nSizeRet < least then throw .nonCanonicalCompactSize else return nSizeRet

def readSizeAfter (chSize : ℕ) : ByteReader ℕ :=
  if chSize < 253 then pure chSize
  else if chSize = 253 then readLongSize 2 253
  else if chSize = 254 then readLongSize 4 0x10000
  else readLongSize 8 0x100000000

def readCompactSize (range_check : Bool) : ByteReader ℕ := do
  let chSize ← readLE .endOfData 1
  let nSizeRet ← readSizeAfter chSize
  if range_check && decide (maxSize < nSizeRet) then throw .compactSizeTooLarge else return nSizeRet

variable {k l n d v max bits : ℕ} {rest s : List (BitVec 8)} {α : Type}

theorem reads_readLongSize (hl : l ≤ n) (hn : n < 256^k) (rest : List (BitVec 8)) :
    (readLongSize k l).run (leBytes k n++rest) = .ok (n,rest) := by
  rw [readLongSize,run_bind (reads_readLE _ k n hn rest),if_neg (not_lt.mpr hl)]
  rfl

theorem readLongSize_eq_ok (h : (readLongSize k l).run s = .ok (n,rest)) : s = leBytes k n++rest ∧
    l ≤ n ∧ n < 256^k := by
  obtain ⟨m,s',hr,hc⟩ := run_bind_eq_ok.mp h
  split_ifs at hc with hl
  · exact absurd hc (by simp)
  · obtain ⟨rfl,rfl⟩ := run_pure_eq_ok.mp hc
    exact ⟨exact_readLE _ k _ _ _ hr,not_lt.mp hl,readLE_lt hr⟩

theorem run_readSizeAfter (hn : n < 2^64) : ∃ cs tail,
    cs < 256 ∧ writeCompactSize n = leBytes 1 cs++tail ∧
    ∀ rest, (readSizeAfter cs).run (tail++rest) = .ok (n,rest) := by
  unfold writeCompactSize
  split_ifs with h1 h2 h3
  · refine ⟨n,[],by omega,by rw [append_nil],fun rest => ?_⟩
    rw [readSizeAfter,if_pos h1]
    rfl
  · exact ⟨253,_,by decide,rfl,reads_readLongSize (by omega) (by omega)⟩
  · exact ⟨254,_,by decide,rfl,reads_readLongSize (by omega) (by omega)⟩
  · exact ⟨255,_,by decide,rfl,reads_readLongSize (by omega) (by omega)⟩

theorem readSizeAfter_eq_ok {cs : ℕ} (hc : cs < 256) (h : (readSizeAfter cs).run s = .ok (n,rest)) :
    leBytes 1 cs++s = writeCompactSize n++rest := by
  unfold readSizeAfter at h
  split_ifs at h with h1 h2 h3
  · obtain ⟨rfl,rfl⟩ := run_pure_eq_ok.mp h
    rw [writeCompactSize,if_pos h1]
  · obtain ⟨rfl,hl,ht⟩ := readLongSize_eq_ok h
    rw [writeCompactSize,if_neg (by omega),if_pos (by omega),h2]
    rfl
  · obtain ⟨rfl,hl,ht⟩ := readLongSize_eq_ok h
    rw [writeCompactSize,if_neg (by omega),if_neg (by omega),if_pos (by omega),h3]
    rfl
  · obtain ⟨rfl,hl,ht⟩ := readLongSize_eq_ok h
    rw [writeCompactSize,if_neg (by omega),if_neg (by omega),if_neg (by omega),
      show cs = 255 by omega]
    rfl

theorem run_readSize (rc : Bool) (hn : n < 2^64) (rest : List (BitVec 8)) :
    (readCompactSize rc).run (writeCompactSize n++rest) =
      if rc && decide (maxSize < n) then .error .compactSizeTooLarge else .ok (n,rest) := by
  obtain ⟨cs,tail,hc,hw,hr⟩ := run_readSizeAfter hn
  rw [readCompactSize,hw,append_assoc,run_bind (reads_readLE _ 1 cs hc _),run_bind (hr rest)]
  split_ifs <;> rfl

theorem reads_readSize : Reads (readCompactSize true) writeCompactSize fun n => n ≤ maxSize := by
  intro n hn rest
  have hl : n < 2^64 := lt_of_le_of_lt hn (by decide)
  rw [run_readSize true hl,if_neg (by simpa using hn)]

theorem exact_readSize (rc : Bool) : Exact (readCompactSize rc) writeCompactSize := by
  intro s n rest h
  obtain ⟨cs,s1,hf,h⟩ := run_bind_eq_ok.mp h
  obtain ⟨nsr,s2,hs,h⟩ := run_bind_eq_ok.mp h
  split_ifs at h
  · exact absurd h (by simp)
  · obtain ⟨rfl,rfl⟩ := run_pure_eq_ok.mp h
    rw [exact_readLE _ 1 _ _ _ hf,readSizeAfter_eq_ok (readLE_lt hf) hs]

def readVector {α : Type} (formatter : ByteReader α) : ByteReader (List α) :=
  readCounted (readCompactSize true) formatter

def writeVector {α : Type} (formatter : α → List (BitVec 8)) (v : List α) : List (BitVec 8) :=
  writeCompactSize v.length++v.flatMap formatter

variable {r : ByteReader α} {w : α → List (BitVec 8)}

theorem reads_readVector {P : α → Prop} (h : Reads r w P) :
    Reads (readVector r) (writeVector w) fun v => v.length ≤ maxSize ∧ ∀ a ∈ v, P a :=
  reads_readSize.counted h

theorem exact_readVector (h : Exact r w) : Exact (readVector r) (writeVector w) :=
    (exact_readSize true).counted h

def readByteVector : ByteReader (List (BitVec 8)) := do
  let nSize ← readCompactSize true
  readBytes .endOfData nSize

theorem reads_readBytes :
    Reads readByteVector (fun v => writeCompactSize v.length++v) fun v => v.length ≤ maxSize := by
  intro v hv rest
  rw [readByteVector,append_assoc,run_bind (reads_readSize _ hv _)]
  exact run_readBytes _ v rest

theorem exact_readBytes : Exact readByteVector fun v => writeCompactSize v.length++v := by
  intro s v rest h
  obtain ⟨ns,s',hs,hb⟩ := run_bind_eq_ok.mp h
  obtain ⟨rfl,rfl⟩ := run_readBytes_eq_ok.mp hb
  rw [exact_readSize _ _ _ _ hs,append_assoc]

/-- The loop of `WriteVarInt` over the digits, the lowest first, in a buffer with some room. -/
def writeVarIntLoop : ℕ → ℕ → BitVec 8 → List (BitVec 8) → List (BitVec 8)
  | 0, _, _, tmp => tmp
  | room+1, n, more, tmp =>
    if n ≤ 0x7f then (BitVec.ofNat 8 (n &&& 0x7f) ||| more)::tmp
    else writeVarIntLoop room ((n >>> 7)-1) 0x80#8 ((BitVec.ofNat 8 (n &&& 0x7f) ||| more)::tmp)

def writeVarInt (bits n : ℕ) : List (BitVec 8) := writeVarIntLoop ((bits+6) / 7) n 0#8 []

def readVarIntLoop (max : ℕ) : ℕ → List (BitVec 8) → Except ReadError (ℕ × List (BitVec 8))
  | _, [] => .error .endOfData
  | n, chData::s =>
    if max >>> 7 < n then .error .varIntTooLarge
    else
      let n := (n <<< 7) ||| (chData &&& 0x7f#8).toNat
      if chData &&& 0x80#8 ≠ 0#8 then
        if n = max then .error .varIntTooLarge else readVarIntLoop max (n+1) s
      else .ok (n,s)

def readVarInt (bits : ℕ) : ByteReader ℕ := readVarIntLoop (2^bits-1) 0

/-- The same loop, undefined where it leaves its buffer. -/
def storeVarInt : ℕ → ℕ → BitVec 8 → List (BitVec 8) → Option (List (BitVec 8))
  | 0, _, _, _ => none
  | room+1, n, more, tmp =>
    if n ≤ 0x7f then some ((BitVec.ofNat 8 (n &&& 0x7f) ||| more)::tmp)
    else storeVarInt room ((n >>> 7)-1) 0x80#8 ((BitVec.ofNat 8 (n &&& 0x7f) ||| more)::tmp)

/-- The loop of `ReadVarInt` in integers that wrap around after their maximum. -/
def readVarIntWrapping (max : ℕ) : ℕ → List (BitVec 8) → Except ReadError (ℕ × List (BitVec 8))
  | _, [] => .error .endOfData
  | n, chData::s =>
    if max >>> 7 < n then .error .varIntTooLarge
    else
      let n := ((n <<< 7) % (max+1)) ||| (chData &&& 0x7f#8).toNat
      if chData &&& 0x80#8 ≠ 0#8 then
        if n = max then .error .varIntTooLarge else readVarIntWrapping max ((n+1) % (max+1)) s
      else .ok (n,s)

def getSizeOfVarInt (n : ℕ) : ℕ :=
  if n ≤ 0x7f then 1 else getSizeOfVarInt ((n >>> 7)-1)+1
termination_by n
decreasing_by
  rw [Nat.shiftRight_eq_div_pow]
  omega

/-- The greatest value of an integer type of some bytes. -/
def varIntMax (size : ℕ) (signed : Bool) : ℕ := 2^(if signed then size*8-1 else size*8)-1

/-- The bytes of a number, the last of them with a mark. -/
def varIntDigits (n : ℕ) (more : BitVec 8) : List (BitVec 8) :=
  if n ≤ 0x7f then [BitVec.ofNat 8 n ||| more]
  else varIntDigits (n / 128-1) 0x80#8++[BitVec.ofNat 8 (n % 128) ||| more]
termination_by n

/-- The bytes that were read when a number was reached and more are to come. -/
def digitsBefore (n : ℕ) : List (BitVec 8) := if n = 0 then [] else varIntDigits (n-1) 0x80#8

/-- The number that bytes encode after a number so far, and what follows. -/
def varIntNumber : ℕ → List (BitVec 8) → Option (ℕ × List (BitVec 8))
  | _, [] => none
  | n, chData::s =>
    if chData &&& 0x80#8 ≠ 0#8 then varIntNumber (n*128+(chData &&& 0x7f#8).toNat+1) s
    else some (n*128+(chData &&& 0x7f#8).toNat,s)

/-- A digit with and without the bit that says there are more. -/
theorem digit_bits (h : d < 128) : ((BitVec.ofNat 8 d ||| 0x80#8) &&& 0x7f#8).toNat = d ∧
      (BitVec.ofNat 8 d ||| 0x80#8) &&& 0x80#8 ≠ 0#8 ∧
      ((BitVec.ofNat 8 d ||| 0#8) &&& 0x7f#8).toNat = d ∧
      (BitVec.ofNat 8 d ||| 0#8) &&& 0x80#8 = 0#8 := by
  have ha : ∀ d : Fin 128, ((BitVec.ofNat 8 d ||| 0x80#8) &&& 0x7f#8).toNat = d ∧
      (BitVec.ofNat 8 d ||| 0x80#8) &&& 0x80#8 ≠ 0#8 ∧
      ((BitVec.ofNat 8 d ||| 0#8) &&& 0x7f#8).toNat = d ∧
      (BitVec.ofNat 8 d ||| 0#8) &&& 0x80#8 = 0#8 := by decide +kernel
  exact ha ⟨d,h⟩

theorem byte_digit : ∀ cd : BitVec 8, (cd &&& 0x7f#8).toNat < 128 ∧
    BitVec.ofNat 8 (cd &&& 0x7f#8).toNat ||| (if cd &&& 0x80#8 ≠ 0#8 then 0x80#8 else 0#8) =
      cd := by
  decide +kernel

theorem and_digit (n : ℕ) : n &&& 0x7f = n % 128 := and_two_pow_sub_one_eq_mod n 7

theorem shift_or_digit (n : ℕ) (h : d < 128) : (n <<< 7) ||| d = n*128+d := by
  rw [← shiftLeft_add_eq_or_of_lt (show d < 2^7 from h),shiftLeft_eq]

theorem writeLoop_of_le (h : n ≤ 0x7f) (ro : ℕ) (m : BitVec 8) (tmp : List (BitVec 8)) :
    writeVarIntLoop (ro+1) n m tmp = (BitVec.ofNat 8 n ||| m)::tmp := by
  rw [writeVarIntLoop,if_pos h,and_digit,mod_eq_of_lt (by omega)]

/-- The writer stays in a buffer of `room + 1` digits for all numbers that have so many. -/
theorem storeVarInt_eq {ro : ℕ} (h : n < 128^(ro+1)) (m : BitVec 8) (tmp : List (BitVec 8)) :
    storeVarInt (ro+1) n m tmp = some (varIntDigits n m++tmp) ∧
      writeVarIntLoop (ro+1) n m tmp = varIntDigits n m++tmp := by
  induction ro generalizing n m tmp with
  | zero =>
    have hs : n ≤ 0x7f := by omega
    rw [varIntDigits,if_pos hs,writeLoop_of_le hs,storeVarInt,if_pos hs, and_digit,
      mod_eq_of_lt (by omega)]
    exact ⟨rfl,rfl⟩
  | succ ro ih =>
    rw [varIntDigits,storeVarInt,writeVarIntLoop,and_digit,shiftRight_eq_div_pow]
    split_ifs with hs
    · rw [mod_eq_of_lt (by omega)]
      exact ⟨rfl,rfl⟩
    · rw [pow_succ] at h
      rw [append_assoc]
      exact ih (by omega) _ _

theorem length_varIntDigits (n : ℕ) (m : BitVec 8) :
    (varIntDigits n m).length = getSizeOfVarInt n := by
  induction n, m using varIntDigits.induct with
  | case1 n m h => rw [varIntDigits,if_pos h,getSizeOfVarInt,if_pos h,length_singleton]
  | case2 n m h ih =>
    rw [varIntDigits,if_neg h,getSizeOfVarInt,if_neg h,shiftRight_eq_div_pow, length_append,ih,
      length_singleton]

theorem varIntDigits_append (n : ℕ) (hd : d < 128) (m : BitVec 8) :
    varIntDigits (n*128+d) m = digitsBefore n++[BitVec.ofNat 8 d ||| m] := by
  rw [varIntDigits,digitsBefore]
  rcases Nat.eq_zero_or_pos n with rfl | hn
  · rw [zero_mul,zero_add,if_pos (by omega),if_pos rfl,nil_append]
  · rw [if_neg (by omega),if_neg hn.ne',show (n*128+d) / 128-1 = n-1 by omega,
      show (n*128+d) % 128 = d by omega]

theorem varInt_varIntDigits (n : ℕ) (s : List (BitVec 8)) :
    varIntNumber 0 (varIntDigits n 0x80#8++s) = varIntNumber (n+1) s ∧
      varIntNumber 0 (varIntDigits n 0#8++s) = some (n,s) := by
  induction n using Nat.strong_induction_on generalizing s with
  | _ n ih =>
    have hb (s : List (BitVec 8)) :
      varIntNumber 0 (digitsBefore (n / 128)++s) = varIntNumber (n / 128) s := by
      rw [digitsBefore]
      split_ifs with hz
      · rw [hz,nil_append]
      · rw [(ih (n / 128-1) (by omega) s).1,Nat.sub_add_cancel (by omega)]
    have hd := mod_lt n (show 0 < 128 by decide)
    obtain ⟨ho,hm,ho',hl⟩ := digit_bits hd
    rw [← div_add_mod' n 128,varIntDigits_append _ hd,varIntDigits_append _ hd, append_assoc,
      append_assoc,hb,hb]
    constructor
    · rw [singleton_append,varIntNumber,if_pos hm,ho]
    · rw [singleton_append,varIntNumber,if_neg (not_not.mpr hl),ho']

section
variable (h : varIntNumber n s = some (v,rest))
include h

/-- No other bytes encode a number. -/
theorem eq_of_varInt : digitsBefore n++s = varIntDigits v 0#8++rest := by
  induction s generalizing n with
  | nil => exact absurd h (by simp [varIntNumber])
  | cons cd s ih =>
    obtain ⟨hd,hb⟩ := byte_digit cd
    rw [varIntNumber] at h
    split_ifs at h hb with hm
    · have hdi := ih h
      rw [digitsBefore,if_neg (Nat.succ_ne_zero _),Nat.add_sub_cancel,varIntDigits_append n hd,
        hb] at hdi
      rwa [append_assoc] at hdi
    · obtain ⟨rfl,rfl⟩ := Prod.mk.inj (Option.some.inj h)
      rw [varIntDigits_append n hd,hb,append_assoc,singleton_append]

theorem le_of_varInt : n*128 ≤ v := by
  induction s generalizing n with
  | nil => exact absurd h (by simp [varIntNumber])
  | cons cd s ih =>
    rw [varIntNumber] at h
    split_ifs at h
    · have hl := ih h
      omega
    · obtain ⟨rfl,-⟩ := Prod.mk.inj (Option.some.inj h)
      omega

/-- The reader returns the encoded number if it is in range, and fails otherwise. -/
theorem readLoop_of_varInt (hv : v ≤ max ∨ max % 128 = 127) :
    readVarIntLoop max n s = if v ≤ max then .ok (v,rest) else .error .varIntTooLarge := by
  induction s generalizing n with
  | nil => exact absurd h (by simp [varIntNumber])
  | cons cd s ih =>
    have he := le_of_varInt h
    have hd := (byte_digit cd).1
    rw [readVarIntLoop,shiftRight_eq_div_pow,shift_or_digit n hd]
    by_cases hl : max / 2^7 < n
    · rw [if_pos hl,if_neg (by omega)]
    rw [varIntNumber] at h
    rw [if_neg hl]
    by_cases hm : cd &&& 0x80#8 ≠ 0#8
    · rw [if_pos hm] at h ⊢
      have hg := le_of_varInt h
      by_cases ha : n*128+(cd &&& 0x7f#8).toNat = max
      · rw [if_pos ha,if_neg (by omega)]
      · rw [if_neg ha]
        exact ih h
    · rw [if_neg hm] at h ⊢
      obtain ⟨rfl,rfl⟩ := Prod.mk.inj (Option.some.inj h)
      rw [if_pos (by omega)]

end

theorem varInt_of_readLoop (h : readVarIntLoop max n s = .ok (v,rest)) :
    varIntNumber n s = some (v,rest) := by
  induction s generalizing n with
  | nil => exact absurd h (by simp [readVarIntLoop])
  | cons cd s ih =>
    rw [readVarIntLoop,shift_or_digit n (byte_digit cd).1] at h
    rw [varIntNumber]
    dsimp only at h
    split_ifs at h ⊢
    · exact ih h
    · rw [Except.ok.inj h]

theorem readWrapping_eq (hb : 7 ≤ bits) (s : List (BitVec 8)) :
    readVarIntWrapping (2^bits-1) n s = readVarIntLoop (2^bits-1) n s := by
  obtain ⟨k,rfl⟩ := Nat.exists_eq_add_of_le hb
  have ho : 2^(7+k) = 128*2^k := pow_add 2 7 k
  have hp := Nat.two_pow_pos k
  induction s generalizing n with
  | nil => rfl
  | cons cd s ih =>
    have hd := (byte_digit cd).1
    rw [readVarIntWrapping,readVarIntLoop,Nat.shiftRight_eq_div_pow]
    by_cases hl : (2^(7+k)-1) / 2^7 < n
    · rw [if_pos hl,if_pos hl]
    · have hs : (n <<< 7) % (2^(7+k)-1+1) = n <<< 7 :=
        Nat.mod_eq_of_lt (by rw [Nat.shiftLeft_eq]; omega)
      rw [if_neg hl,hs,shift_or_digit n hd]
      dsimp only
      split_ifs with hm ha
      · rfl
      · rw [Nat.mod_eq_of_lt (by omega),ih]
      · rfl

theorem reads_readVarInt (hb : 0 < bits) : Reads (readVarInt bits) (writeVarInt bits) fun n =>
    n < 2^bits := by
  intro n hn rest
  obtain ⟨ro,hr⟩ := exists_eq_succ_of_ne_zero (show (bits+6) / 7 ≠ 0 by omega)
  have ht : n < 128^(ro+1) := by
    refine hn.trans_le ?_
    rw [show (128 : ℕ) = 2^7 by rfl,← pow_mul]
    exact Nat.pow_le_pow_right (by decide) (by omega)
  rw [writeVarInt,hr,(storeVarInt_eq ht _ _).2,append_nil]
  have hl : n ≤ 2^bits-1 := by omega
  refine (readLoop_of_varInt (varInt_varIntDigits n rest).2 (.inl hl)).trans ?_
  exact if_pos hl

/-- `VARINT` is a bijective prefix code for the values of every integer type. -/
theorem varInt_prefixCode {size : ℕ} (hsize : 0 < size) (signed : Bool) :
    (∀ n ≤ varIntMax size signed, ∃ bytes, storeVarInt ((size * 8 + 6) / 7) n 0#8 [] = some bytes ∧
      bytes.length = getSizeOfVarInt n ∧
      ∀ rest, readVarIntWrapping (varIntMax size signed) 0 (bytes ++ rest) = .ok (n, rest)) ∧
    (∀ s n rest, readVarIntWrapping (varIntMax size signed) 0 s = .ok (n, rest) →
      n ≤ varIntMax size signed ∧
      ∃ bytes, storeVarInt ((size * 8 + 6) / 7) n 0#8 [] = some bytes ∧ s = bytes ++ rest) ∧
    ∀ s n rest, varIntNumber 0 s = some (n, rest) → varIntMax size signed < n →
      readVarIntWrapping (varIntMax size signed) 0 s = .error .varIntTooLarge := by
  obtain ⟨bits,hb,he,hm⟩ : ∃ bits, 7 ≤ bits ∧ bits ≤ size*8 ∧ varIntMax size signed = 2^bits-1 := by
    refine ⟨if signed then size*8-1 else size*8,?_,?_,rfl⟩
    · split_ifs <;> omega
    · split_ifs <;> omega
  have hs {n : ℕ} (hn : n ≤ 2^bits-1) :
      storeVarInt ((size*8+6) / 7) n 0#8 [] = some (varIntDigits n 0#8) := by
    obtain ⟨ro,hr⟩ := exists_eq_succ_of_ne_zero (show (size*8+6) / 7 ≠ 0 by omega)
    have ho : 2^bits ≤ 128^(ro+1) := by
      rw [show (128 : ℕ) = 2^7 by rfl,← pow_mul]
      exact Nat.pow_le_pow_right (by decide) (by omega)
    have hp := Nat.two_pow_pos bits
    rw [hr,(storeVarInt_eq (by omega) _ _).1,append_nil]
  have hl : (2^bits-1) % 128 = 127 := by
    obtain ⟨k,rfl⟩ := Nat.exists_eq_add_of_le hb
    have ho : 2^(7+k) = 128*2^k := pow_add 2 7 k
    have hp := Nat.two_pow_pos k
    omega
  rw [hm]
  refine ⟨fun n hn => ⟨_,hs hn,length_varIntDigits n 0#8,fun rest => ?_⟩,?_,?_⟩
  · rw [readWrapping_eq hb,readLoop_of_varInt (varInt_varIntDigits n rest).2 (.inl hn),if_pos hn]
  · intro s n rest h
    rw [readWrapping_eq hb] at h
    have hu := varInt_of_readLoop h
    have hn : n ≤ 2^bits-1 := by
      by_contra hg
      rw [readLoop_of_varInt hu (.inr hl),if_neg hg] at h
      exact absurd h (by simp)
    exact ⟨hn,_,hs hn,eq_of_varInt hu⟩
  · intro s n rest h hg
    rw [readWrapping_eq hb,readLoop_of_varInt h (.inr hl),
      if_neg (not_le.mpr hg)]

theorem varInt_prefixCode_byte :
    readVarIntWrapping (varIntMax 1 false) 0 [0x81#8, 0x00#8] = .error .varIntTooLarge :=
  (varInt_prefixCode one_pos false).2.2 _ 256 [] (by decide) (by decide)

end DripCore
