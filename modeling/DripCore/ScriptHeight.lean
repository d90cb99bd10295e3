import DripCore.Serialization

/-!
# Heights in scripts

The pushes of positive heights form a prefix code: the first byte is an opcode for a small number or
the number of bytes that follow, and those are the bytes of the height.
-/
namespace DripCore
open List PrefixCode

/-- The loop of `CScriptNum::serialize` over a 64-bit magnitude. -/
def magnitudeBytes : ℕ → ℕ → List (BitVec 8)
  | 0, _ => []
  | k+1, absvalue =>
    if absvalue = 0 then [] else BitVec.ofNat 8 absvalue::magnitudeBytes k (absvalue / 256)

def scriptNumSerialize (value : ℤ) : List (BitVec 8) :=
  if value = 0 then []
  else
    let result := magnitudeBytes 8 value.natAbs
    let back := result.getLastD 0
    if back.msb then result++[if value < 0 then 0x80#8 else 0#8]
    else if value < 0 then result.dropLast++[back ||| 0x80#8]
    else result

def appendDataSize (size : ℕ) : CScript :=
  if size < 0x4c then leBytes 1 size
  else if size ≤ 0xff then 0x4c#8::leBytes 1 size
  else if size ≤ 0xffff then 0x4d#8::leBytes 2 size
  else 0x4e#8::leBytes 4 size

def pushInt64 (script : CScript) (n : ℤ) : CScript :=
  if n = -1 ∨ 1 ≤ n ∧ n ≤ 16 then script++[BitVec.ofInt 8 (n+0x50)]
  else if n = 0 then script++[0x00#8]
  else script++appendDataSize (scriptNumSerialize n).length++scriptNumSerialize n

theorem length_magnitude_le (k n : ℕ) : (magnitudeBytes k n).length ≤ k := by
  induction k generalizing n with
  | zero => exact le_rfl
  | succ k ih =>
    rw [magnitudeBytes]
    split_ifs
    · exact Nat.zero_le _
    · exact Nat.succ_le_succ (ih _)

variable {n : ℕ}

theorem leValue_magnitude {k : ℕ} (h : n < 256^k) : leValue (magnitudeBytes k n) = n := by
  induction k generalizing n with
  | zero =>
    rw [magnitudeBytes,leValue]
    omega
  | succ k ih =>
    rw [magnitudeBytes]
    split_ifs with hn
    · rw [hn,leValue]
    · rw [leValue,ih (Nat.div_lt_of_lt_mul (by omega)),BitVec.toNat_ofNat]
      omega

theorem leValue_append_zero (l : List (BitVec 8)) : leValue (l++[0#8]) = leValue l := by
  induction l with
  | nil => rfl
  | cons b l ih => rw [cons_append,leValue,leValue,ih]

/-- The bytes of a positive number determine it, and there are few of them. -/
theorem scriptNum_spec (h1 : 1 ≤ n) (h : n < 2^64) :
    leValue (scriptNumSerialize n) = n ∧ 1 ≤ (scriptNumSerialize n).length ∧
      (scriptNumSerialize n).length ≤ 9 := by
  have hv : leValue (magnitudeBytes 8 n) = n := leValue_magnitude (by omega)
  have hl := length_magnitude_le 8 n
  have he : magnitudeBytes 8 n ≠ [] := by
    intro hn
    rw [hn,leValue] at hv
    omega
  have hp := length_pos_iff.mpr he
  rw [scriptNumSerialize,if_neg (by omega),Int.natAbs_natCast]
  dsimp only
  rw [if_neg (show ¬ (n : ℤ) < 0 by omega),if_neg (show ¬ (n : ℤ) < 0 by omega)]
  split_ifs
  · refine ⟨(leValue_append_zero _).trans hv,?_,?_⟩
    all_goals
      rw [length_append,length_singleton]
      omega
  · exact ⟨hv,hp,hl.trans (by decide)⟩

/-- What a coinbase of a block at a height starts with. -/
def heightScript (nHeight : ℕ) : CScript := pushInt64 [] nHeight

theorem heightScript_small (h1 : 1 ≤ n) (h : n ≤ 16) :
    heightScript n = [BitVec.ofNat 8 (n+0x50)] := by
  rw [heightScript,pushInt64,if_pos (.inr ⟨by omega,by omega⟩)]
  congr 1

theorem heightScript_large (h1 : 16 < n) (h : n < 2^64) : heightScript n =
      BitVec.ofNat 8 (scriptNumSerialize n).length::scriptNumSerialize n := by
  obtain ⟨-,-,hl⟩ := scriptNum_spec (by omega) h
  rw [heightScript,pushInt64,if_neg (by omega),if_neg (by omega),appendDataSize,if_pos (by omega)]
  rfl

def heightScriptWidth (first : BitVec 8) : ℕ := if first.toNat ≤ 9 then first.toNat else 0

def heightScriptValue : CScript → ℕ
  | [] => 0
  | [first] => first.toNat-0x50
  | _::rest => leValue rest

theorem heightScript_head (h1 : 1 ≤ n) (h : n < 2^64) :
    ∃ first rest, heightScript n = first::rest ∧ rest.length = heightScriptWidth first := by
  by_cases hs : n ≤ 16
  · refine ⟨_,[],heightScript_small h1 hs,?_⟩
    rw [heightScriptWidth,BitVec.toNat_ofNat,if_neg (by omega)]
    rfl
  · obtain ⟨-,-,hl⟩ := scriptNum_spec h1 h
    refine ⟨_,_,heightScript_large (by omega) h,?_⟩
    rw [heightScriptWidth,BitVec.toNat_ofNat,Nat.mod_eq_of_lt (by omega),if_pos hl]

theorem value_heightScript (h1 : 1 ≤ n) (h : n < 2^64) :
    heightScriptValue (heightScript n) = n := by
  by_cases hs : n ≤ 16
  · rw [heightScript_small h1 hs,heightScriptValue,BitVec.toNat_ofNat]
    omega
  · obtain ⟨hv,hp,-⟩ := scriptNum_spec h1 h
    rw [heightScript_large (by omega) h]
    cases hb : scriptNumSerialize n with
    | nil => simp [hb] at hp
    | cons b rest => rw [heightScriptValue,← hb,hv]; simp

theorem readable_heightScript : Readable (fun n => 1 ≤ n ∧ n < 2^64) heightScript :=
  readable_of_head (fun _ hn => heightScript_head hn.1 hn.2) fun m n hm hn h => by
    rw [← value_heightScript hm.1 hm.2,h,value_heightScript hn.1 hn.2]

end DripCore
