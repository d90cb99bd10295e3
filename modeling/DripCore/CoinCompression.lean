import DripCore.Amount
import DripCore.Deserialization
import DripCore.Script
import DripCore.UpdateCoins

/-!
# Coins in the database and in undo files

Amounts are stored with their trailing zeros counted, scripts of six common forms by what
distinguishes them, other scripts after their length. Of the curve library only one fact is assumed.

Every storable coin comes back from its record, with whatever follows the record left unread. The
forms of scripts overlap nowhere, so no script is read as another one.
-/
namespace DripCore
open ExceptRules List Nat PrefixCode StreamReader

/-- The loop of `CompressAmount` that takes trailing zeros off. -/
def stripZeros : ℕ → ℕ → ℕ → ℕ × ℕ
  | 0, n, e => (n,e)
  | k+1, n, e => if n % 10 = 0 then stripZeros k (n / 10) (e+1) else (n,e)

def compressAmount (n : ℕ) : ℕ :=
  if n = 0 then 0
  else
    let (n,e) := stripZeros 9 n 0
    if e < 9 then
      let d := n % 10
      (1+(n / 10*9+d-1)*10+e) % 2^64
    else (1+(n-1)*10+9) % 2^64

/-- The loop of `DecompressAmount` that puts zeros back. -/
def appendZeros : ℕ → ℕ → ℕ
  | 0, n => n
  | e+1, n => appendZeros e (n*10 % 2^64)

def decompressAmount (x : ℕ) : ℕ :=
  if x = 0 then 0
  else
    let x := x-1
    let e := x % 10
    let x := x / 10
    let n := if e < 9 then x / 9*10+(x % 9+1) else x+1
    appendZeros e n

variable {e k m n : ℕ}

theorem stripZeros_spec {e' : ℕ} (hn : 0 < n) (h : stripZeros k n e = (m,e')) :
    0 < m ∧ e ≤ e' ∧ e' ≤ e+k ∧ m*10^(e'-e) = n ∧ (e' < e+k → m % 10 ≠ 0) := by
  induction k generalizing n e with
  | zero =>
    obtain ⟨rfl,rfl⟩ := Prod.mk.inj h
    exact ⟨hn,le_rfl,le_rfl,by simp,fun hl => absurd hl (by omega)⟩
  | succ k ih =>
    rw [stripZeros] at h
    split_ifs at h with hz
    · obtain ⟨hm,hle,hle',hu,hlast⟩ := ih (by omega) h
      refine ⟨hm,by omega,by omega,?_,fun hl => hlast (by omega)⟩
      rw [show e'-e = e'-(e+1)+1 by omega,pow_succ,← mul_assoc]
      omega
    · obtain ⟨rfl,rfl⟩ := Prod.mk.inj h
      exact ⟨hn,le_rfl,by omega,by simp,fun _ => hz⟩

theorem appendZeros_eq (h : n*10^e < 2^64) : appendZeros e n = n*10^e := by
  induction e generalizing n with
  | zero => simp [appendZeros]
  | succ e ih =>
    rw [pow_succ'] at h ⊢
    rw [← mul_assoc] at h ⊢
    have hl : n*10 ≤ n*10*10^e := Nat.le_mul_of_pos_right _ (Nat.pos_of_ne_zero (by positivity))
    rw [appendZeros,mod_eq_of_lt (by omega),ih h]

/-- The code of an amount with the digits `m` before `e` zeros, without a bound on its size. -/
def packAmount (m e : ℕ) : ℕ :=
  if e < 9 then 1+(m / 10*9+m % 10-1)*10+e else 1+(m-1)*10+9

/-- The number that `CompressAmount` calculates, had its integers no bound. -/
def compressedAmount (n : ℕ) : ℕ :=
  if n = 0 then 0 else packAmount (stripZeros 9 n 0).1 (stripZeros 9 n 0).2

/-- The digits that the predecessor of a code stands for. -/
def codedDigits (x : ℕ) : ℕ := if x % 10 < 9 then x / 10 / 9*10+(x / 10 % 9+1) else x / 10+1

/-- The number that `DecompressAmount` calculates, had its integers no bound. -/
def decodedAmount (x : ℕ) : ℕ := if x = 0 then 0 else codedDigits (x-1)*10^((x-1) % 10)

theorem compress_eq (n : ℕ) : compressAmount n = compressedAmount n % 2^64 := by
  rw [compressAmount,compressedAmount]
  split_ifs
  · rfl
  · dsimp only
    rw [packAmount]
    split_ifs <;> rfl

theorem decompress_succ (x : ℕ) : decompressAmount (x+1) = appendZeros (x % 10)
    (codedDigits x) := by
  rw [decompressAmount,if_neg (Nat.succ_ne_zero x),Nat.add_sub_cancel,codedDigits]

theorem stripZeros_mul (a : ℕ) (he : e ≤ k) (hlast : e < k → m % 10 ≠ 0) :
    stripZeros k (m*10^e) a = (m,a+e) := by
  induction e generalizing k a with
  | zero =>
    cases k with
    | zero => simp [stripZeros]
    | succ k => rw [pow_zero,mul_one,stripZeros,if_neg (hlast (succ_pos k)),add_zero]
  | succ e ih =>
    obtain ⟨k,rfl⟩ : ∃ j, k = j+1 := ⟨k-1,by omega⟩
    rw [pow_succ,← mul_assoc,stripZeros,if_pos (mul_mod_left _ _),
      Nat.mul_div_cancel _ (by decide),ih (a+1) (by omega) (fun h => hlast (by omega)),add_assoc,
      add_comm 1 e]

section
variable {m e : ℕ} (hm : 0 < m) (he : e ≤ 9) (hlast : e < 9 → m % 10 ≠ 0)
include hm he hlast

theorem compressed_mul : compressedAmount (m*10^e) = packAmount m e := by
  rw [compressedAmount,if_neg (by positivity),stripZeros_mul 0 he hlast,zero_add]

theorem packAmount_spec : packAmount m e ≤ 10*m ∧ ∃ x, packAmount m e = x+1 ∧ x % 10 = e ∧
    codedDigits x = m := by
  have hp : 0 < packAmount m e := by
    unfold packAmount
    split_ifs <;> omega
  have he' : (packAmount m e-1) % 10 = e := by
    unfold packAmount
    split_ifs <;> omega
  refine ⟨?_,packAmount m e-1,(Nat.sub_add_cancel hp).symm,he',?_⟩
  · unfold packAmount
    split_ifs with hf
    · have hd := hlast hf
      omega
    · omega
  · rw [codedDigits,he',packAmount]
    split_ifs with hf
    · have hd := hlast hf
      omega
    · omega

end

theorem packAmount_codedDigits (x : ℕ) : 0 < codedDigits x ∧ (x % 10 < 9 → codedDigits x % 10 ≠ 0) ∧
      packAmount (codedDigits x) (x % 10) = x+1 := by
  unfold codedDigits packAmount
  split_ifs <;> refine ⟨?_,?_,?_⟩ <;> omega

/-- An amount comes back from its compressed form, which fits 64 bits. -/
theorem decompress_coded (h : n ≤ maxMoney.toNat) :
    compressedAmount n < 2^64 ∧ decompressAmount (compressedAmount n) = n := by
  have ha : maxMoney.toNat = 2100000000000000 := by decide
  rcases Nat.eq_zero_or_pos n with rfl | hn
  · decide
  obtain ⟨⟨m,e⟩,hs⟩ : ∃ p, stripZeros 9 n 0 = p := ⟨_,rfl⟩
  obtain ⟨hm,-,he,hu,hlast⟩ := stripZeros_spec hn hs
  rw [Nat.sub_zero] at hu
  have hl : m ≤ n := hu ▸ Nat.le_mul_of_pos_right m (Nat.pos_of_ne_zero (by positivity))
  obtain ⟨hb,x,hx,he',hd⟩ := packAmount_spec hm he hlast
  rw [← hu,compressed_mul hm he hlast]
  refine ⟨by omega,?_⟩
  rw [hx,decompress_succ,he',hd,appendZeros_eq (by omega)]

theorem decompress_compress (h : n ≤ maxMoney.toNat) :
    compressAmount n < 2^64 ∧ decompressAmount (compressAmount n) = n := by
  have hs := decompress_coded h
  rwa [compress_eq,mod_eq_of_lt hs.1]

/-- Amounts and the codes of amounts are in bijection. -/
theorem amount_codes_bijective :
    (∀ n ≤ maxMoney.toNat, compressedAmount n < 2 ^ 64 ∧ compressAmount n = compressedAmount n ∧
      decompressAmount (compressAmount n) = n) ∧
    ∀ x < 2 ^ 64, decodedAmount x ≤ maxMoney.toNat → compressAmount (decompressAmount x) = x := by
  have hma : maxMoney.toNat = 2100000000000000 := by decide
  constructor
  · intro n h
    obtain ⟨hl,hb⟩ := decompress_coded h
    have hq : compressAmount n = compressedAmount n := by rw [compress_eq,mod_eq_of_lt hl]
    exact ⟨hl,hq,hq ▸ hb⟩
  · intro x hx hle
    cases x with
    | zero => rfl
    | succ x =>
      obtain ⟨hp,hlast,ha⟩ := packAmount_codedDigits x
      rw [decodedAmount,if_neg (Nat.succ_ne_zero x),Nat.add_sub_cancel] at hle
      rw [decompress_succ,appendZeros_eq (by omega),compress_eq,
        compressed_mul hp (by omega) hlast,ha,mod_eq_of_lt hx]

theorem amount_codes_bijective_max :
    decompressAmount (compressAmount 2100000000000000) = 2100000000000000 ∧
      compressAmount (decompressAmount 21000000) = 21000000 :=
  ⟨(amount_codes_bijective.1 _ (by decide)).2.2,amount_codes_bijective.2 _ (by decide) (by decide)⟩

/-- What the source uses of the curve library. -/
structure Secp256k1 where
  /-- `CPubKey::IsFullyValid`. -/
  isFullyValid : List (BitVec 8) → Bool
  /-- `CPubKey::Decompress`. -/
  decompress : List (BitVec 8) → Option (List (BitVec 8))
  decompress_compressed : ∀ x y : List (BitVec 8), x.length = 32 → y.length = 32 →
    isFullyValid (0x04#8::(x++y)) = true →
    decompress ((0x02#8 ||| (y.getD 31 0 &&& 0x01#8))::x) = some (0x04#8::(x++y))

section
variable (ecc : Secp256k1)

def isToKeyID (script : CScript) : Option (List (BitVec 8)) :=
  if script.length = 25 ∧ script[0]? = some opDup ∧ script[1]? = some opHash160 ∧
      script[2]? = some 20#8 ∧ script[23]? = some opEqualVerify ∧ script[24]? = some opCheckSig then
    some ((script.drop 3).take 20)
  else none

def isToScriptID (script : CScript) : Option (List (BitVec 8)) :=
  if script.length = 23 ∧ script[0]? = some opHash160 ∧ script[1]? = some 20#8 ∧
      script[22]? = some opEqual then
    some ((script.drop 2).take 20)
  else none

def isToPubKey (script : CScript) : Option (List (BitVec 8)) :=
  if script.length = 35 ∧ script[0]? = some 33#8 ∧ script[34]? = some opCheckSig ∧
      (script[1]? = some 0x02#8 ∨ script[1]? = some 0x03#8) then
    some ((script.drop 1).take 33)
  else if script.length = 67 ∧ script[0]? = some 65#8 ∧ script[66]? = some opCheckSig ∧
      script[1]? = some 0x04#8 then
    if ecc.isFullyValid ((script.drop 1).take 65) then some ((script.drop 1).take 65) else none
  else none

def compressScript (script : CScript) : Option (List (BitVec 8)) :=
  match isToKeyID script with
  | some keyID => some (0x00#8::keyID)
  | none =>
    match isToScriptID script with
    | some scriptID => some (0x01#8::scriptID)
    | none =>
      match isToPubKey ecc script with
      | some pubkey =>
        let first := pubkey.getD 0 0
        let x := (pubkey.drop 1).take 32
        if first = 0x02#8 ∨ first = 0x03#8 then some (first::x)
        else if first = 0x04#8 then some ((0x04#8 ||| (pubkey.getD 64 0 &&& 0x01#8))::x)
        else none
      | none => none

def getSpecialScriptSize (nSize : ℕ) : ℕ :=
  if nSize = 0 ∨ nSize = 1 then 20
  else if nSize = 2 ∨ nSize = 3 ∨ nSize = 4 ∨ nSize = 5 then 32
  else 0

def decompressScript (nSize : ℕ) (data : List (BitVec 8)) : Option CScript :=
  match nSize with
  | 0 => some ([opDup,opHash160,20#8]++data.take 20++[opEqualVerify,opCheckSig])
  | 1 => some ([opHash160,20#8]++data.take 20++[opEqual])
  | 2 => some ([33#8,0x02#8]++data.take 32++[opCheckSig])
  | 3 => some ([33#8,0x03#8]++data.take 32++[opCheckSig])
  | 4 => (ecc.decompress (0x02#8::data.take 32)).map fun pubkey => [65#8]++pubkey++[opCheckSig]
  | 5 => (ecc.decompress (0x03#8::data.take 32)).map fun pubkey => [65#8]++pubkey++[opCheckSig]
  | _ => none

def nSpecialScripts : ℕ := 6

def serScript (script : CScript) : List (BitVec 8) :=
  match compressScript ecc script with
  | some compr => compr
  | none => writeVarInt 32 (script.length+nSpecialScripts)++script

/-- `ScriptCompression::Unser` over a script that may have contents: a key that cannot be
decompressed leaves it, an overlong script appends to it. -/
def unserScript (script : CScript) : ByteReader CScript := do
  let nSize ← readVarInt 32
  if nSize < nSpecialScripts then
    let vch ← readBytes .endOfData (getSpecialScriptSize nSize)
    return (decompressScript ecc nSize vch).getD script
  else
    let nSize := nSize-nSpecialScripts
    if maxScriptSize < nSize then
      let _ ← readBytes .endOfData nSize
      return script++[opReturn]
    else readBytes .endOfData nSize

variable {ecc}

theorem exists_middle {α : Type} {l : List α} (a b : List α) (n : ℕ)
    (hl : l.length = a.length+n+b.length)
    (ha : (List.range a.length).map (fun i => l[i]?) = a.map some)
    (hb : (List.range b.length).map (fun i => l[a.length+n+i]?) = b.map some) :
    ∃ m, m.length = n ∧ l = a++m++b := by
  have ht {f : ℕ → Option α} {e : List α} (h : (range e.length).map f = e.map some) {i : ℕ}
      (hi : i < e.length) : f i = e[i]? := by
    have hn := congrArg (fun o : List (Option α) => o[i]?) h
    simpa [hi] using hn
  have hf : l.take a.length = a := by
    refine ext_getElem? fun i => ?_
    rcases lt_or_ge i a.length with hi | hi
    · rw [getElem?_take_of_lt hi,ht ha hi]
    · rw [getElem?_eq_none hi,getElem?_eq_none (by rw [length_take]; omega)]
  have hlast : (l.drop a.length).drop n = b := by
    refine ext_getElem? fun i => ?_
    rw [drop_drop,getElem?_drop]
    rcases lt_or_ge i b.length with hi | hi
    · exact ht hb hi
    · rw [getElem?_eq_none hi,getElem?_eq_none (by omega)]
  refine ⟨(l.drop a.length).take n,?_,?_⟩
  · rw [length_take,length_drop]
    omega
  · nth_rewrite 1 [← take_append_drop a.length l,← take_append_drop n (l.drop a.length)]
    rw [hf,hlast,append_assoc]

variable {sc : List (BitVec 8)}

theorem isToKeyID_eq_some {ke : List (BitVec 8)} (h : isToKeyID sc = some ke) :
    sc = [opDup,opHash160,20#8]++ke++[opEqualVerify,opCheckSig] ∧ ke.length = 20 := by
  unfold isToKeyID at h
  split_ifs at h with hf
  obtain ⟨hl,h0,h1,h2,h23,h24⟩ := hf
  obtain ⟨m,hm,rfl⟩ := exists_middle [opDup,opHash160,20#8] [opEqualVerify,opCheckSig] 20 hl
    (by simp [range_succ,h0,h1,h2]) (by simp [range_succ,h23,h24])
  obtain rfl : m = ke := by simpa [← hm] using h
  exact ⟨rfl,hm⟩

theorem isToScriptID_eq_some {s : List (BitVec 8)} (h : isToScriptID sc = some s) :
    sc = [opHash160,20#8]++s++[opEqual] ∧ s.length = 20 := by
  unfold isToScriptID at h
  split_ifs at h with hf
  obtain ⟨hl,h0,h1,h22⟩ := hf
  obtain ⟨m,hm,rfl⟩ := exists_middle [opHash160,20#8] [opEqual] 20 hl (by simp [range_succ,h0,h1])
    (by simp [h22])
  obtain rfl : m = s := by simpa [← hm] using h
  exact ⟨rfl,hm⟩

/-- A public key is recognised compressed, or uncompressed if it is valid. -/
theorem isToPubKey_eq_some {p : List (BitVec 8)} (h : isToPubKey ecc sc = some p) :
    (∃ first x, (first = 0x02#8 ∨ first = 0x03#8) ∧ x.length = 32 ∧ p = first::x ∧
      sc = [33#8,first]++x++[opCheckSig]) ∨
      ∃ x y, x.length = 32 ∧ y.length = 32 ∧ p = 0x04#8::(x++y) ∧
        ecc.isFullyValid p = true ∧ sc = [65#8,0x04#8]++(x++y)++[opCheckSig] := by
  unfold isToPubKey at h
  split_ifs at h with hs ho hv
  · obtain ⟨hl,h0,h34,hc⟩ := hs
    obtain ⟨first,hf,h1⟩ : ∃ first, (first = 0x02#8 ∨ first = 0x03#8) ∧ sc[1]? = some first := by
      rcases hc with h1 | h1
      · exact ⟨_,.inl rfl,h1⟩
      · exact ⟨_,.inr rfl,h1⟩
    obtain ⟨x,hx,rfl⟩ := exists_middle [33#8,first] [opCheckSig] 32 hl (by simp [range_succ,h0,h1])
      (by simp [h34])
    left
    refine ⟨first,x,hf,hx,?_,rfl⟩
    simpa [← hx,eq_comm] using h
  · obtain ⟨hl,h0,h66,h1⟩ := ho
    obtain ⟨xy,hy,rfl⟩ := exists_middle [65#8,0x04#8] [opCheckSig] 64 hl
      (by simp [range_succ,h0,h1]) (by simp [h66])
    have hk : p = 0x04#8::xy := by simpa [← hy,eq_comm] using h
    right
    refine ⟨xy.take 32,xy.drop 32,?_,?_,?_,?_,?_⟩
    · rw [length_take]
      omega
    · rw [length_drop]
      omega
    · rw [take_append_drop,hk]
    · rw [Option.some.injEq] at h
      exact h ▸ hv
    · rw [take_append_drop]

theorem and_one_cases (b : BitVec 8) : b &&& 0x01#8 = 0x00#8 ∨ b &&& 0x01#8 = 0x01#8 := by
  revert b
  decide +kernel

/-- A compressed script names its form in its first byte. -/
theorem compressScript_eq_some {c : List (BitVec 8)} (h : compressScript ecc sc = some c) :
    ∃ ns data, ns < nSpecialScripts ∧ c = BitVec.ofNat 8 ns::data ∧
      data.length = getSpecialScriptSize ns ∧ decompressScript ecc ns data = some sc := by
  unfold compressScript at h
  cases hk : isToKeyID sc with
  | some ke =>
    obtain ⟨rfl,hl⟩ := isToKeyID_eq_some hk
    rw [hk] at h
    exact ⟨0,ke,by decide,(Option.some.inj h).symm,hl,by
      simp [decompressScript,← hl]⟩
  | none =>
    rw [hk] at h
    cases hs : isToScriptID sc with
    | some s =>
      obtain ⟨rfl,hl⟩ := isToScriptID_eq_some hs
      rw [hs] at h
      exact ⟨1,s,by decide,(Option.some.inj h).symm,hl,by
        simp [decompressScript,← hl]⟩
    | none =>
      rw [hs] at h
      cases hp : isToPubKey ecc sc with
      | none => rw [hp] at h; exact absurd h (by simp)
      | some p =>
        rw [hp] at h
        rcases isToPubKey_eq_some hp with
          ⟨first,x,hf,hx,rfl,rfl⟩ | ⟨x,y,hx,hy,rfl,hv,rfl⟩
        · have hc : first::x = c := by simpa [hf,← hx] using h
          rcases hf with rfl | rfl
          · exact ⟨2,x,by decide,hc.symm,hx,by simp [decompressScript,← hx]⟩
          · exact ⟨3,x,by decide,hc.symm,hx,by simp [decompressScript,← hx]⟩
        · have hlast : (x++y)[63]? = y[31]? := by
            rw [getElem?_append_right (by omega),hx]
          have hc : (0x04#8 ||| (y.getD 31 0 &&& 0x01#8))::x = c := by
            simpa [hlast,← hx] using h
          have hke := ecc.decompress_compressed x y hx hy hv
          rcases and_one_cases (y.getD 31 0) with hb | hb
          · rw [hb] at hc hke
            exact ⟨4,x,by decide,hc.symm,hx,by simp_all [decompressScript,← hx]⟩
          · rw [hb] at hc hke
            exact ⟨5,x,by decide,hc.symm,hx,by simp_all [decompressScript,← hx]⟩

theorem singleton_eq_write {n : ℕ} (h : n ≤ 0x7f) : [BitVec.ofNat 8 n] = writeVarInt 32 n := by
  rw [writeVarInt,writeLoop_of_le h,BitVec.or_zero]

theorem reads_unserScript (ecc : Secp256k1) (old : CScript) :
    Reads (unserScript ecc old) (serScript ecc) fun sc => sc.length ≤ maxScriptSize := by
  intro sc hs rest
  have ha : maxScriptSize = 10000 := rfl
  have hp : nSpecialScripts = 6 := rfl
  unfold serScript
  cases hc : compressScript ecc sc with
  | some c =>
    obtain ⟨ns,data,hsi,rfl,hl,hs⟩ := compressScript_eq_some hc
    rw [← singleton_append,singleton_eq_write (by omega),append_assoc,unserScript,
      run_bind (reads_readVarInt (by decide) ns (by omega) _),if_pos hsi,← hl,
      run_bind (run_readBytes _ data rest),hs]
    rfl
  | none =>
    rw [append_assoc,unserScript,
      run_bind (reads_readVarInt (by decide) (sc.length+nSpecialScripts) (by omega) _),
      Nat.add_sub_cancel,if_neg (not_lt.mpr hs)]
    exact run_readBytes _ sc rest

end

section
variable (ecc : Secp256k1)

/-- `AmountCompression`. The amount is taken as an unsigned number. -/
def serAmount (nValue : CAmount) : List (BitVec 8) :=
  writeVarInt 64 (compressAmount (BitVec.ofInt 64 nValue).toNat)

def unserAmount : ByteReader CAmount := do
  let v ← readVarInt 64
  return (BitVec.ofNat 64 (decompressAmount v)).toInt

/-- `TxOutCompression`. -/
def serTxOut (out : CTxOut) : List (BitVec 8) :=
    serAmount out.nValue++serScript ecc out.scriptPubKey

def unserTxOut (old : CTxOut) : ByteReader CTxOut := do
  let nValue ← unserAmount
  let scriptPubKey ← unserScript ecc old.scriptPubKey
  return ⟨nValue,scriptPubKey⟩

/-- The height and whether the coin is a coinbase's, in one number. -/
def Coin.code (coin : Coin) : ℕ := (coin.nHeight*2+coin.fCoinBase.toNat) % 2^32

/-- `Coin::Serialize`, which asserts that the coin is not spent. -/
def Coin.serialize (coin : Coin) : Option (List (BitVec 8)) :=
  if coin.isSpent then none else some (writeVarInt 32 coin.code++serTxOut ecc coin.out)

def Coin.unserialize (old : Coin) : ByteReader Coin := do
  let code ← readVarInt 32
  let out ← unserTxOut ecc old.out
  return ⟨out,code % 2 == 1,code / 2⟩

def serTxInUndo (txout : Coin) : List (BitVec 8) :=
  writeVarInt 32 txout.code++(if 0 < txout.nHeight then [0#8] else [])++serTxOut ecc txout.out

def unserTxInUndo (old : Coin) : ByteReader Coin := do
  let nCode ← readVarInt 32
  if 0 < nCode / 2 then
    let _nVersionDummy ← readVarInt 32
    let out ← unserTxOut ecc old.out
    return ⟨out,nCode % 2 == 1,nCode / 2⟩
  else
    let out ← unserTxOut ecc old.out
    return ⟨out,nCode % 2 == 1,nCode / 2⟩

def serTxUndo (txundo : CTxUndo) : List (BitVec 8) := writeVector (serTxInUndo ecc) txundo.vprevout

def unserTxUndo : ByteReader CTxUndo := do
  let vprevout ← readVector (unserTxInUndo ecc .empty)
  return ⟨vprevout⟩

def serBlockUndo (blockundo : CBlockUndo) : List (BitVec 8) :=
  writeVector (serTxUndo ecc) blockundo.vtxundo

def unserBlockUndo : ByteReader CBlockUndo := do
  let vtxundo ← readVector (unserTxUndo ecc)
  return ⟨vtxundo⟩

end

/-- Coins as they are in the database and in undo files. -/
structure Coin.Storable (coin : Coin) : Prop where
  height : coin.nHeight < 2^31
  value : moneyRange coin.out.nValue = true
  script : coin.out.scriptPubKey.length ≤ maxScriptSize

variable (ecc : Secp256k1)

theorem reads_unserAmount : Reads unserAmount serAmount fun nValue => moneyRange nValue = true := by
  intro nValue hr rest
  obtain ⟨hp,hl⟩ := moneyRange_iff.mp hr
  have ht : (BitVec.ofInt 64 nValue).toNat = nValue.toNat := by
    rw [BitVec.toNat_ofInt,Int.emod_eq_of_lt hp (lt_of_le_of_lt hl (by decide))]
  obtain ⟨hlt,hb⟩ := decompress_compress (Int.toNat_le_toNat hl)
  rw [serAmount,unserAmount,ht,run_bind (reads_readVarInt (by decide) _ hlt rest),hb]
  have hv : (BitVec.ofNat 64 nValue.toNat).toInt = nValue := by
    rw [BitVec.toInt_ofNat',Int.toNat_of_nonneg hp]
    exact Int.bmod_eq_of_le (le_trans (by decide) hp) (lt_of_le_of_lt hl (by decide))
  rw [hv]
  rfl

theorem reads_unserTxOut (old : CTxOut) : Reads (unserTxOut ecc old) (serTxOut ecc)
    fun out => moneyRange out.nValue = true ∧ out.scriptPubKey.length ≤ maxScriptSize := by
  intro out ho rest
  rw [serTxOut,unserTxOut,append_assoc,run_bind (reads_unserAmount _ ho.1 _),
    run_bind (reads_unserScript ecc old.scriptPubKey _ ho.2 rest)]
  rfl

variable {coin : Coin}

theorem Coin.Storable.code_spec (h : coin.Storable) :
    coin.code < 2^32 ∧ coin.code / 2 = coin.nHeight ∧ (coin.code % 2 == 1) = coin.fCoinBase := by
  have hh := h.height
  cases ho : coin.fCoinBase with
  | false =>
    have hc : coin.code = coin.nHeight*2 := by
      rw [code,ho,Bool.toNat_false]
      omega
    rw [beq_eq_false_iff_ne]
    omega
  | true =>
    have hc : coin.code = coin.nHeight*2+1 := by
      rw [code,ho,Bool.toNat_true]
      omega
    rw [beq_iff_eq]
    omega

theorem run_unserialize (h : coin.Storable) (old : Coin) (rest : List (BitVec 8)) :
    (Coin.unserialize ecc old).run (writeVarInt 32 coin.code++serTxOut ecc coin.out++rest) =
      .ok (coin,rest) := by
  obtain ⟨hc,hh,ho⟩ := h.code_spec
  rw [Coin.unserialize,append_assoc,run_bind (reads_readVarInt (by decide) _ hc _),
    run_bind (reads_unserTxOut ecc old.out _ ⟨h.value,h.script⟩ rest),hh,ho]
  rfl

theorem reads_unserTxInUndo (old : Coin) : Reads (unserTxInUndo ecc old)
    (serTxInUndo ecc) Coin.Storable := by
  intro coin h rest
  obtain ⟨hc,hh,hco⟩ := h.code_spec
  have ho := reads_unserTxOut ecc old.out _ ⟨h.value,h.script⟩ rest
  rw [serTxInUndo,unserTxInUndo,append_assoc,append_assoc,
    run_bind (reads_readVarInt (by decide) _ hc _),hh,hco]
  split_ifs with hp
  · have hd : [0#8] = writeVarInt 32 0 := singleton_eq_write (by decide)
    rw [hd,run_bind (reads_readVarInt (by decide) 0 (by decide) _),run_bind ho]
    rfl
  · rw [nil_append,run_bind ho]
    rfl

theorem reads_unserTxUndo : Reads (unserTxUndo ecc) (serTxUndo ecc)
    fun t => t.vprevout.length ≤ maxSize ∧ ∀ coin ∈ t.vprevout, coin.Storable := by
  intro t h rest
  rw [unserTxUndo,serTxUndo,run_bind (reads_readVector (reads_unserTxInUndo ecc .empty) _ h rest)]
  rfl

theorem reads_unserBlockUndo : Reads (unserBlockUndo ecc) (serBlockUndo ecc) fun b =>
    b.vtxundo.length ≤ maxSize ∧ ∀ txundo ∈ b.vtxundo,
      txundo.vprevout.length ≤ maxSize ∧ ∀ coin ∈ txundo.vprevout, coin.Storable := by
  intro b h rest
  rw [unserBlockUndo,serBlockUndo,run_bind (reads_readVector (reads_unserTxUndo ecc) _ h rest)]
  rfl

/-- Coins, undo records and the undo data of a block come back from what is stored. -/
theorem coin_records_round_trip :
    (∀ (coin old : Coin) (rest : List (BitVec 8)), coin.Storable → ∃ bytes,
        coin.serialize ecc = some bytes ∧
          (Coin.unserialize ecc old).run (bytes ++ rest) = .ok (coin, rest)) ∧
      (∀ (coin old : Coin) (rest : List (BitVec 8)), coin.Storable →
        (unserTxInUndo ecc old).run (serTxInUndo ecc coin ++ rest) = .ok (coin, rest)) ∧
      ∀ (blockundo : CBlockUndo) (rest : List (BitVec 8)), blockundo.vtxundo.length ≤ maxSize →
        (∀ txundo ∈ blockundo.vtxundo, txundo.vprevout.length ≤ maxSize) →
        (∀ txundo ∈ blockundo.vtxundo, ∀ coin ∈ txundo.vprevout, coin.Storable) →
        (unserBlockUndo ecc).run (serBlockUndo ecc blockundo ++ rest) = .ok (blockundo, rest) := by
  refine ⟨fun coin old rest h => ?_,fun coin old rest h => ?_,fun blockundo rest hle hl h => ?_⟩
  · have hu : ¬ coin.isSpent = true := by
      rw [isSpent_of_range h.value]
      exact Bool.false_ne_true
    exact ⟨_,if_neg hu,run_unserialize ecc h old rest⟩
  · exact reads_unserTxInUndo ecc old coin h rest
  · exact reads_unserBlockUndo ecc blockundo ⟨hle,fun txundo hme =>
      ⟨hl txundo hme,h txundo hme⟩⟩ rest

/-- A curve with a single key. -/
def oneKey : Secp256k1 where
  isFullyValid key := decide (key = 0x04#8::(replicate 32 1#8++replicate 32 2#8))
  decompress key :=
    if key = 0x02#8::replicate 32 1#8 then some (0x04#8::(replicate 32 1#8++replicate 32 2#8))
    else none
  decompress_compressed x y hx hy h := by
    obtain ⟨rfl,rfl⟩ := append_inj (cons.inj (of_decide_eq_true h)).2 (by rw [hx,length_replicate])
    rfl

/-- A coin of its uncompressed key, with 65 bytes in the script and 32 in the record. -/
def oneKeyCoin : Coin :=
  ⟨⟨5000000000,65#8::0x04#8::(replicate 32 1#8++replicate 32 2#8)++[opCheckSig]⟩,true,7⟩

theorem coin_records_round_trip_uncompressed : ∃ bytes, oneKeyCoin.serialize oneKey = some bytes ∧
    compressScript oneKey oneKeyCoin.out.scriptPubKey = some (0x04#8::replicate 32 1#8) ∧
      (Coin.unserialize oneKey .empty).run (bytes ++ []) = .ok (oneKeyCoin, []) := by
  obtain ⟨bytes,hs,hu⟩ := (coin_records_round_trip oneKey).1 oneKeyCoin .empty []
    ⟨by decide,by decide,by decide⟩
  exact ⟨bytes,hs,by decide,hu⟩

def noKeys : Secp256k1 where
  isFullyValid _ := false
  decompress _ := none
  decompress_compressed _ _ _ _ h := absurd h Bool.false_ne_true

/-- Undo data with more transactions than a vector may have is written but not read. -/
theorem blockUndo_too_long :
    (unserBlockUndo noKeys).run (serBlockUndo noKeys ⟨List.replicate (maxSize + 1) ⟨[]⟩⟩) =
      .error .compactSizeTooLarge := by
  have hl : (replicate (maxSize+1) (⟨[]⟩ : CTxUndo)).length = maxSize+1 := length_replicate
  have hs := run_readSize true (show maxSize+1 < 2^64 by decide)
  rw [unserBlockUndo,serBlockUndo,readVector,readCounted,writeVector,hl,StateT.run_bind,
    StateT.run_bind,hs,if_pos (by decide)]
  rfl

end DripCore
