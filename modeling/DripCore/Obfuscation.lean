import Mathlib.Data.BitVec
import Mathlib.Data.List.GetD
import Mathlib.Tactic.NormNum

/-!
# Obfuscation of files

`Obfuscation` works on words of eight bytes, with a rotation of the key for each offset. A target is
its bytes and the address of the first one. A failed assertion is the result `none`.

Both orders of bytes in a word are covered. Byte by byte the result is an exclusive or with the key,
repeated from the offset, so it does not depend on how a file is cut into pieces.
-/
namespace DripCore.Obfuscation
open List

abbrev Bytes := List (BitVec 8)

/-- `std::endian::native`. -/
inductive Endian where
  | little
  | big

/-- The lowest bit of the byte at a place of a word in memory. -/
def Endian.bit : Endian → ℕ → ℕ
  | little, i => 8*i
  | big, i => 8*(7-i)

section
variable (e : Endian)

def byteAt (w : BitVec 64) (i : ℕ) : BitVec 8 := w.extractLsb' (e.bit i) 8

/-- What `memcpy` makes of bytes, from a place of a word on. -/
def toWord : ℕ → Bytes → BitVec 64
  | _, [] => 0
  | i, b::bytes => b.setWidth 64 <<< e.bit i ||| toWord (i+1) bytes

def toKey (key_bytes : Fin 8 → BitVec 8) : BitVec 64 := toWord e 0 (ofFn key_bytes)

def rotations (key : BitVec 64) (i : ℕ) : BitVec 64 :=
  match e with
  | .little => key.rotateRight (8*i)
  | .big => key.rotateLeft (8*i)

def xorWord (target : Bytes) (key : BitVec 64) : Option Bytes :=
  if 8 < target.length then none
  else some ((range target.length).map (byteAt e (toWord e 0 target ^^^ key)))

/-- The inner loop: the words of a block one by one. -/
def xorWords (key : BitVec 64) : ℕ → Bytes → Option Bytes
  | 0, target => some target
  | n+1, target => do
    let first ← xorWord e (target.take 8) key
    return first++(← xorWords key n (target.drop 8))

/-- A loop over blocks of a size, with what is left of the target. -/
def blockLoop (size : ℕ) (body : Bytes → Option Bytes) : ℕ → Bytes → Option (Bytes × Bytes)
  | 0, _ => none
  | n+1, target =>
    if size ≤ target.length then do
      let first ← body (target.take size)
      let (done,rest) ← blockLoop size body n (target.drop size)
      return (first++done,rest)
    else some ([],target)

/-- The words from an alignment boundary on. -/
def xorAligned (rot_key : BitVec 64) (target : Bytes) : Option Bytes := do
  let (blocks,target) ← blockLoop 64 (xorWords e rot_key 8) (target.length+1) target
  let (words,target) ← blockLoop 8 (xorWord e · rot_key) (target.length+1) target
  return blocks++words++(← xorWord e target rot_key)

/-- The call operator. -/
def obfuscate (key : BitVec 64) (address : ℕ) (target : Bytes) (key_offset : ℕ) : Option Bytes :=
  if rotations e key 0 = 0 then some target
  else
    let rot_key := rotations e key (key_offset%8)
    if 8 < target.length then
      if address%8 ≠ 0 then do
        let alignment := 8-address%8
        let first ← xorWord e (target.take alignment) rot_key
        return first++(← xorAligned e (rotations e key ((key_offset+alignment)%8))
          (target.drop alignment))
      else xorAligned e rot_key target
    else xorWord e target rot_key

/-- Pieces of a file, each at an address of its own, with their offsets in the file. -/
def obfuscatePieces (key : BitVec 64) : ℕ → List (ℕ × Bytes) → Option Bytes
  | _, [] => some []
  | offset, (address,piece)::pieces => do
    let first ← obfuscate e key address piece offset
    return first++(← obfuscatePieces key (offset+piece.length) pieces)

end

/-- Each byte with the byte of the key at its offset. -/
def xorFrom (K : ℕ → BitVec 8) (offset : ℕ) (bytes : Bytes) : Bytes :=
  bytes.mapIdx fun i b => b ^^^ K (offset+i)

variable {e : Endian} {i j : ℕ}

theorem extract_shift (b : BitVec 8) (hj : j < 8) :
    (b.setWidth 64 <<< (8*i)).extractLsb' (8*j) 8 = if i = j then b else 0 := by
  refine BitVec.eq_of_getLsbD_eq fun k hk => ?_
  rw [BitVec.getLsbD_extractLsb',BitVec.getLsbD_shiftLeft,BitVec.getLsbD_setWidth]
  split_ifs with h
  · subst h
    simp [hk,show 8*i+k < 64 by omega,show k < 64 by omega]
  · rcases lt_or_gt_of_ne h with h | h
    · simp [BitVec.getLsbD_of_ge b (8*j+k-8*i) (by omega)]
    · simp [show 8*j+k < 8*i by omega]

theorem byteAt_shift (b : BitVec 8) (hi : i < 8) (hj : j < 8) :
    byteAt e (b.setWidth 64 <<< e.bit i) j = if i = j then b else 0 := by
  cases e with
  | little => exact extract_shift b hj
  | big =>
    have h : 7-i = 7-j ↔ i = j := by omega
    refine (extract_shift b (by omega)).trans ?_
    simp only [h]

theorem byteAt_xor (v w : BitVec 64) : byteAt e (v ^^^ w) j = byteAt e v j ^^^ byteAt e w j :=
    BitVec.extractLsb'_xor

theorem byteAt_or (v w : BitVec 64) : byteAt e (v ||| w) j = byteAt e v j ||| byteAt e w j :=
    BitVec.extractLsb'_or

theorem byteAt_rotations (key : BitVec 64) (hi : i < 8) (hj : j < 8) :
    byteAt e (rotations e key i) j = byteAt e key ((i+j)%8) := by
  refine BitVec.eq_of_getLsbD_eq fun k hk => ?_
  cases e with
  | little =>
    simp only [byteAt,rotations,Endian.bit,BitVec.getLsbD_extractLsb',BitVec.getLsbD_rotateRight,
      Bool.cond_decide]
    split_ifs with h
    · congr 2
      omega
    · simp only [show 8*j+k < 64 by omega,decide_true,Bool.true_and]
      congr 2
      omega
  | big =>
    simp only [byteAt,rotations,Endian.bit,BitVec.getLsbD_extractLsb',BitVec.getLsbD_rotateLeft,
      Bool.cond_decide]
    split_ifs with h
    · congr 2
      omega
    · simp only [show 8*(7-j)+k < 64 by omega,decide_true,Bool.true_and]
      congr 2
      omega

theorem byteAt_toWord {bytes : Bytes} (hi : i+bytes.length ≤ 8) (hj : j < 8) :
    byteAt e (toWord e i bytes) j = if i ≤ j then bytes.getD (j-i) 0 else 0 := by
  induction bytes generalizing i with
  | nil => simp [toWord,byteAt]
  | cons b bytes ih =>
    rw [length_cons] at hi
    rw [toWord,byteAt_or,byteAt_shift b (by omega) hj,ih (by omega)]
    rcases lt_trichotomy i j with h | rfl | h
    · obtain ⟨m,rfl⟩ := Nat.exists_eq_add_of_lt h
      simp [show i+m+1-i = m+1 by omega,show i+m+1-(i+1) = m by omega,show i ≤ i+m+1 by omega,h.ne]
    · simp
    · simp [h.ne',h.not_ge,show ¬ i+1 ≤ j by omega]

theorem byteAt_toKey (key_bytes : Fin 8 → BitVec 8) (hi : i < 8) :
    byteAt e (toKey e key_bytes) i = key_bytes (Fin.ofNat 8 i) := by
  rw [toKey,byteAt_toWord (by simp) hi,if_pos (Nat.zero_le i),Nat.sub_zero,
    getD_eq_getElem _ _ (length_ofFn.symm ▸ hi),List.getElem_ofFn]
  exact congrArg key_bytes (Fin.ext (Nat.mod_eq_of_lt hi).symm)

section
variable {K : ℕ → BitVec 8} {o n : ℕ} {key : BitVec 64} {t : Bytes}

theorem length_xorFrom : (xorFrom K o t).length = t.length := length_mapIdx

theorem xorFrom_append (f back : Bytes) :
    xorFrom K o (f++back) = xorFrom K o f++xorFrom K (o+f.length) back := by
  rw [xorFrom,mapIdx_append]
  simp only [xorFrom,Nat.add_assoc,Nat.add_comm f.length]

theorem xorFrom_xorFrom : xorFrom K o (xorFrom K o t) = t := by
  refine ext_getElem (by simp [xorFrom]) fun i _ _ => ?_
  simp only [xorFrom,getElem_mapIdx,BitVec.xor_assoc,BitVec.xor_self,BitVec.xor_zero]

variable (hk : ∀ i < 8, byteAt e key i = K (o+i))
include hk

theorem xorWord_eq (hl : t.length ≤ 8) : xorWord e t key = some (xorFrom K o t) := by
  rw [xorWord,if_neg hl.not_gt]
  congr 1
  refine ext_getElem (by simp [xorFrom]) fun i hi _ => ?_
  rw [length_map,length_range] at hi
  rw [getElem_map,getElem_range,byteAt_xor,byteAt_toWord (by omega) (by omega),hk i (by omega)]
  simp [xorFrom,hi]

variable (hp : ∀ i, K (i+8) = K i)
include hp

omit hk in
theorem xorFrom_add (n : ℕ) : xorFrom K (o+8*n) t = xorFrom K o t := by
  have h (i : ℕ) : K (o+8*n+i) = K (o+i) := by
    induction n with
    | zero => rfl
    | succ n ih => exact (congrArg K (by omega)).trans ((hp _).trans ih)
  simp only [xorFrom,h]

omit hk in
/-- A block of whole words does not change the offset in the key. -/
theorem xorFrom_take (hl : 8*n ≤ t.length) :
    xorFrom K o (t.take (8*n))++xorFrom K o (t.drop (8*n)) =
      xorFrom K o t := by
  conv_rhs => rw [← take_append_drop (8*n) t,xorFrom_append,length_take_of_le hl,xorFrom_add hp]

theorem xorWords_eq (hl : t.length = 8*n) : xorWords e key n t = some (xorFrom K o t) := by
  induction n generalizing t with
  | zero =>
    rw [length_eq_zero_iff.mp hl]
    rfl
  | succ n ih =>
    rw [xorWords,xorWord_eq hk (length_take_le 8 t),ih (by rw [length_drop]; omega),
      ← xorFrom_take hp (show 8*1 ≤ t.length by omega)]
    rfl

omit hk in
theorem blockLoop_eq {m : ℕ} {b : Bytes → Option Bytes} (hm : 0 < m)
    (hb : ∀ block : Bytes, block.length = 8*m → b block = some (xorFrom K o block))
    (hn : t.length < n) : ∃ done rest, blockLoop (8*m) b n t = some (done,rest) ∧
      rest.length < 8*m ∧ done++xorFrom K o rest = xorFrom K o t := by
  induction n generalizing t with
  | zero => cases hn
  | succ n ih =>
    unfold blockLoop
    split_ifs with hl
    · obtain ⟨done,rest,hq,hr,he⟩ := ih (show (t.drop (8*m)).length < n by
        rw [length_drop]
        omega)
      rw [hb _ (length_take_of_le hl),hq]
      refine ⟨_,rest,rfl,hr,?_⟩
      rw [append_assoc,he,xorFrom_take hp hl]
    · exact ⟨[],t,rfl,not_le.mp hl,rfl⟩

theorem xorAligned_eq : xorAligned e key t = some (xorFrom K o t) := by
  obtain ⟨blocks,rest,hq,-,he⟩ := blockLoop_eq hp (show 0 < 8 by decide)
    (fun _ => xorWords_eq hk hp) t.length.lt_succ_self
  obtain ⟨w,last,hq',hl,he'⟩ :=
    blockLoop_eq hp one_pos (fun _ h => xorWord_eq hk h.le) rest.length.lt_succ_self
  change blockLoop 8 _ (rest.length+1) rest = _ at hq'
  rw [xorAligned,hq,Option.bind_eq_bind,Option.bind_some]
  dsimp only
  rw [hq',Option.bind_eq_bind,Option.bind_some]
  dsimp only
  rw [xorWord_eq hk hl.le,← he,← he',← append_assoc]
  rfl

end

section
variable (key_bytes : Fin 8 → BitVec 8)

def keyStream (i : ℕ) : BitVec 8 := key_bytes (Fin.ofNat 8 i)

theorem byteAt_rotations_toKey (offset : ℕ) (hi : i < 8) :
    byteAt e (rotations e (toKey e key_bytes) (offset%8)) i = keyStream key_bytes (offset+i) := by
  rw [byteAt_rotations _ (Nat.mod_lt _ (by decide)) hi,
    byteAt_toKey key_bytes (Nat.mod_lt _ (by decide))]
  congr 1
  simp [Fin.ofNat]

theorem obfuscate_eq (a offset : ℕ) (target : Bytes) :
    obfuscate e (toKey e key_bytes) a target offset =
      some (xorFrom (keyStream key_bytes) offset target) := by
  have hp (i : ℕ) : keyStream key_bytes (i+8) = keyStream key_bytes i := by
    simp [keyStream,Fin.ofNat]
  have hk (offset i : ℕ) (hi : i < 8) := byteAt_rotations_toKey (e := e) key_bytes offset hi
  unfold obfuscate
  split_ifs with hz hl ha
  · have h0 (i : ℕ) : keyStream key_bytes i = 0 := by
      have h := hk 0 (i%8) (Nat.mod_lt _ (by decide))
      rw [Nat.zero_mod,hz,Nat.zero_add] at h
      have hm : keyStream key_bytes (i%8) = keyStream key_bytes i := by simp [keyStream,Fin.ofNat]
      rw [← hm,← h]
      simp [byteAt]
    refine congrArg some (ext_getElem length_xorFrom.symm fun i _ _ => ?_)
    simp [xorFrom,h0]
  · have hal : (target.take (8-a%8)).length = 8-a%8 := length_take_of_le (by omega)
    dsimp only
    rw [xorWord_eq (hk offset) (hal.le.trans (Nat.sub_le _ _)),xorAligned_eq (hk _) hp]
    conv_rhs => rw [← take_append_drop (8-a%8) target,xorFrom_append,hal]
    rfl
  · exact xorAligned_eq (hk offset) hp
  · exact xorWord_eq (hk offset) (not_lt.mp hl)

end

/-- On either endianness and at any address, byte `i` meets the byte of the key at its offset. Twice
is the identity, and the pieces of a file come out as the whole. -/
theorem obfuscation_position_exact (e : Endian) (key_bytes : Fin 8 → BitVec 8) :
    (∀ a target ko, obfuscate e (toKey e key_bytes) a target ko =
      some (target.mapIdx fun i b => b ^^^ key_bytes (Fin.ofNat 8 (ko+i)))) ∧
    (∀ a a' target ko, (obfuscate e (toKey e key_bytes) a target ko).bind
        (obfuscate e (toKey e key_bytes) a' · ko) = some target) ∧
    ∀ a offset p, obfuscatePieces e (toKey e key_bytes) offset p =
      obfuscate e (toKey e key_bytes) a (p.flatMap Prod.snd) offset := by
  refine ⟨fun a target offset => obfuscate_eq key_bytes a offset target,?_,?_⟩
  · intro a a' target offset
    rw [obfuscate_eq,Option.bind_some,obfuscate_eq,xorFrom_xorFrom]
  · intro a offset p
    rw [obfuscate_eq]
    induction p generalizing offset with
    | nil => rfl
    | cons pi p ih =>
      rw [obfuscatePieces,obfuscate_eq,ih,flatMap_cons,xorFrom_append]
      rfl

end DripCore.Obfuscation
