import DripCore.SignatureChecks

/-!
# Strict DER signatures

What `IsValidSignatureEncoding` accepts is the encoding of two integers and a hash type. Every byte
that it looks at is there, since the checks on lengths come first.

The encoding is defined on its own, from two minimal integers, and is injective. The checks accept
exactly its values, so no signature has a second strict form.
-/
namespace DripCore
open List

/-- A byte of a signature, if it is in bounds. -/
def readByte (sig : Valtype) (i : ℕ) : Option ℕ := sig[i]?.map BitVec.toNat

/-- The check for a superfluous null byte before an element, which looks at the next byte last. -/
def readNullByte (sig : Valtype) (len i : ℕ) : Option Bool :=
  if len ≤ 1 then some false
  else do
    let first ← readByte sig i
    if first ≠ 0 then some false
    else do
      let second ← readByte sig (i+1)
      some (decide (second < 0x80))

/-- `IsValidSignatureEncoding` with its reads: nothing is returned after one out of bounds. -/
def readSignatureEncoding (sig : Valtype) : Option Bool :=
  if sig.length < 9 ∨ 73 < sig.length then some false
  else do
    let byte0 ← readByte sig 0
    if byte0 ≠ 0x30 then some false else do
    let byte1 ← readByte sig 1
    if byte1 ≠ sig.length-3 then some false else do
    let lenR ← readByte sig 3
    if sig.length ≤ 5+lenR then some false else do
    let lenS ← readByte sig (5+lenR)
    if lenR+lenS+7 ≠ sig.length then some false else do
    let byte2 ← readByte sig 2
    if byte2 ≠ 0x02 then some false else do
    if lenR = 0 then some false else do
    let byte4 ← readByte sig 4
    if 0x80 ≤ byte4 then some false else do
    let nullR ← readNullByte sig lenR 4
    if nullR then some false else do
    let typeS ← readByte sig (lenR+4)
    if typeS ≠ 0x02 then some false else do
    if lenS = 0 then some false else do
    let firstS ← readByte sig (lenR+6)
    if 0x80 ≤ firstS then some false else do
    let nullS ← readNullByte sig lenS (lenR+6)
    if nullS then some false else some true

/-- The bytes of an integer that is not negative, with no null byte in front that is not needed. -/
structure MinimalInteger (r : Valtype) : Prop where
  nonempty : r ≠ []
  nonneg : (r.getD 0 0).toNat < 0x80
  minimal : 1 < r.length → (r.getD 0 0).toNat = 0 → 0x80 ≤ (r.getD 1 0).toNat

def derSignature (r s : Valtype) (hashtype : BitVec 8) : Valtype :=
  0x30#8::BitVec.ofNat 8 (r.length+s.length+4)::0x02#8::BitVec.ofNat 8 r.length ::
    (r++0x02#8::BitVec.ofNat 8 s.length::(s++[hashtype]))

section
variable {sig : Valtype} {c : Prop} [Decidable c] {x : Option Bool} {b : Bool}

theorem readByte_eq {i : ℕ} (h : i < sig.length) : readByte sig i = some (sig.getD i 0).toNat := by
  rw [readByte,getElem?_eq_getElem h,Option.map_some,getD_eq_getElem?_getD,getElem?_eq_getElem h,
    Option.getD_some]

theorem ite_false_eq_some (h : ¬c → x = some b) :
    (if c then some false else x) = some (if c then false else b) := by
  split_ifs with hc
  · rfl
  · exact h hc

theorem ite_false_eq_true : (if c then false else b) = true ↔ ¬c ∧ b = true := by
  by_cases h : c <;> simp [h]

theorem bind_false_eq_some {y : Option Bool} (hy : y = some (decide c)) (h : ¬c → x = some b) :
    (y >>= fun null => if null then some false else x) = some (if c then false else b) := by
  rw [hy,← ite_false_eq_some h]
  simp

theorem readNullByte_eq {len i : ℕ} (h : 1 < len → i+1 < sig.length) : readNullByte sig len i =
    some (decide (1 < len ∧ (sig.getD i 0).toNat = 0 ∧ (sig.getD (i+1) 0).toNat < 0x80)) := by
  rw [readNullByte]
  split_ifs with hl
  · simp [hl]
  · have hi := h (by omega)
    simp only [readByte_eq (Nat.lt_of_succ_lt hi),readByte_eq hi,Option.bind_eq_bind,
      Option.bind_some]
    split_ifs with hz
    · rw [decide_eq_false fun hn => hz hn.2.1]
    · refine congrArg some (decide_eq_decide.mpr ⟨fun hs => ?_,fun hn => hn.2.2⟩)
      exact ⟨not_le.mp hl,not_not.mp hz,hs⟩

theorem readSignature_eq (sig : Valtype) :
    readSignatureEncoding sig = some (isValidSignatureEncoding sig) := by
  unfold readSignatureEncoding isValidSignatureEncoding
  refine ite_false_eq_some fun he => ?_
  have hb {i : ℕ} (hi : i < 9) : readByte sig i = some (sig.getD i 0).toNat :=
    readByte_eq (by omega)
  rw [hb (by decide : 0 < 9)]
  refine ite_false_eq_some fun _ => ?_
  rw [hb (by decide : 1 < 9)]
  refine ite_false_eq_some fun _ => ?_
  rw [hb (by decide : 3 < 9)]
  refine ite_false_eq_some fun hl => ?_
  rw [readByte_eq (not_le.mp hl)]
  refine ite_false_eq_some fun hle => ?_
  rw [hb (by decide : 2 < 9)]
  refine ite_false_eq_some fun _ => ?_
  refine ite_false_eq_some fun _ => ?_
  rw [hb (by decide : 4 < 9)]
  refine ite_false_eq_some fun _ => ?_
  refine bind_false_eq_some (readNullByte_eq (by omega)) fun _ => ?_
  rw [readByte_eq (by omega)]
  refine ite_false_eq_some fun _ => ?_
  refine ite_false_eq_some fun _ => ?_
  rw [readByte_eq (by omega)]
  refine ite_false_eq_some fun _ => ?_
  exact bind_false_eq_some (readNullByte_eq (by omega)) fun _ => rfl

end

section
variable {r s : Valtype} {b0 b1 b2 b3 b c hashtype : BitVec 8}

/-- The bytes of a signature by its elements. -/
theorem getD_elements (b0 b1 b2 b3 b c hashtype : BitVec 8) (r s : Valtype) :
    let sig := b0::b1::b2::b3::(r++b::c::(s++[hashtype]))
    (∀ i < r.length, sig.getD (4+i) 0 = r.getD i 0) ∧ sig.getD (r.length+4) 0 = b ∧
      sig.getD (5+r.length) 0 = c ∧ ∀ i < s.length, sig.getD (r.length+6+i) 0 = s.getD i 0 := by
  refine ⟨fun i hi => ?_,?_,?_,fun i hi => ?_⟩
  · rw [Nat.add_comm]
    simp [getD_eq_getElem?_getD,getElem?_append_left hi]
  · simp [getD_eq_getElem?_getD]
  · rw [Nat.add_comm]
    simp [getD_eq_getElem?_getD]
  · rw [show r.length+6+i = r.length+(i+2)+4 by omega]
    simp [getD_eq_getElem?_getD,getElem?_append_right,getElem?_append_left hi]

theorem minimal_iff {sig r : Valtype} {i : ℕ} (h : ∀ j < r.length, sig.getD (i+j) 0 = r.getD j 0) :
    MinimalInteger r ↔ ¬r.length = 0 ∧ ¬0x80 ≤ (sig.getD i 0).toNat ∧
      ¬(1 < r.length ∧ (sig.getD i 0).toNat = 0 ∧ (sig.getD (i+1) 0).toNat < 0x80) := by
  by_cases hz : r.length = 0
  · exact iff_of_false (fun hr => hr.nonempty (length_eq_zero_iff.mp hz)) fun hr => hr.1 hz
  · rw [show sig.getD i 0 = r.getD 0 0 from h 0 (Nat.pos_of_ne_zero hz)]
    refine ⟨fun hr => ⟨hz,not_le.mpr hr.nonneg,fun hn => ?_⟩,
      fun hr => ⟨fun hni => hz (length_eq_zero_iff.mpr hni),not_le.mp hr.2.1,fun hl hn => ?_⟩⟩
    · rw [h 1 hn.1] at hn
      exact absurd (hr.minimal hn.1 hn.2.1) (not_le.mpr hn.2.2)
    · rw [← h 1 hl]
      exact not_lt.mp fun ht => hr.2.2 ⟨hl,hn,ht⟩

theorem exists_elements {sig : Valtype} (he : 9 ≤ sig.length)
    (hl : (sig.getD 3 0).toNat+(sig.getD (5+(sig.getD 3 0).toNat) 0).toNat+7 = sig.length) :
    ∃ b0 b1 b2 b3 r b c s hashtype, sig = b0::b1::b2::b3::(r++b::c::(s++[hashtype])) ∧
      b3.toNat = r.length ∧ c.toNat = s.length := by
  -- four bytes come before R, two between R and S, and the hash type after S
  obtain ⟨b0,b1,b2,b3,t,rfl⟩ : ∃ b0 b1 b2 b3 t, sig = b0::b1::b2::b3::t := by
    match sig, he with
    | b0::b1::b2::b3::t, _ => exact ⟨b0,b1,b2,b3,t,rfl⟩
  rw [show (b0::b1::b2::b3::t).getD 3 0 = b3 from rfl] at hl
  simp only [length_cons] at hl
  obtain ⟨r,t,rfl,hr⟩ : ∃ r t', t = r++t' ∧ r.length = b3.toNat :=
    ⟨_,_,(take_append_drop b3.toNat t).symm,length_take_of_le (by omega)⟩
  rw [length_append] at hl
  obtain ⟨b,c,t,rfl⟩ : ∃ b c t', t = b::c::t' := by
    match t, hl with
    | b::c::t, _ => exact ⟨b,c,t,rfl⟩
    | [], h => simp at h; omega
    | [b], h => simp at h; omega
  obtain ⟨s,hashtype,rfl⟩ : ∃ s hashtype, t = s++[hashtype] := by
    have hn : t ≠ [] := by
      rintro rfl
      simp at hl
      omega
    exact ⟨_,_,(dropLast_append_getLast hn).symm⟩
  have hc := (getD_elements b0 b1 b2 b3 b c hashtype r s).2.2.1
  rw [hr] at hc
  rw [hc] at hl
  simp only [length_cons,length_append,length_nil] at hl
  exact ⟨b0,b1,b2,b3,r,b,c,s,hashtype,rfl,hr.symm,by omega⟩

theorem validSignature_elements (hr : b3.toNat = r.length) (hs : c.toNat = s.length) :
    isValidSignatureEncoding (b0::b1::b2::b3::(r++b::c::(s++[hashtype]))) = true ↔
      MinimalInteger r ∧ MinimalInteger s ∧ r.length+s.length ≤ 66 ∧ b0.toNat = 0x30 ∧
        b1.toNat = r.length+s.length+4 ∧ b2.toNat = 0x02 ∧ b.toNat = 0x02 := by
  obtain ⟨hR,hb,hc,hS⟩ := getD_elements b0 b1 b2 b3 b c hashtype r s
  rw [minimal_iff hR,minimal_iff hS]
  unfold isValidSignatureEncoding
  dsimp only
  -- none of the thirteen checks of the source fails
  iterate 13 rw [ite_false_eq_true]
  rw [show (b0::b1::b2::b3::(r++b::c::(s++[hashtype]))).getD 3 0 = b3 from rfl,hr,hc,hs,hb]
  simp only [length_cons,length_append,length_nil]
  constructor
  · rintro ⟨hsi,h0,h1,-,-,h2,hR0,hR1,hR2,hb,hS0,hS1,hS2,-⟩
    rw [not_not] at h0 h1 h2 hb
    exact ⟨⟨hR0,hR1,hR2⟩,⟨hS0,hS1,hS2⟩,by omega,h0,h1.trans (by omega),h2,hb⟩
  · rintro ⟨⟨hR0,hR1,hR2⟩,⟨hS0,hS1,hS2⟩,hsi,h0,h1,h2,hb⟩
    exact ⟨by omega,not_not.mpr h0,not_not.mpr (h1.trans
      (by omega)),by omega,by omega,not_not.mpr h2,
      hR0,hR1,hR2,not_not.mpr hb,hS0,hS1,hS2,trivial⟩

end

theorem length_derSignature (r s : Valtype) (hashtype : BitVec 8) :
    (derSignature r s hashtype).length = r.length+s.length+7 := by
  simp [derSignature]
  omega

theorem derSignature_inj {r s r' s' : Valtype} {hashtype hashtype' : BitVec 8}
    (he : (derSignature r s hashtype).length ≤ 73)
    (h : derSignature r s hashtype = derSignature r' s' hashtype') :
    r = r' ∧ s = s' ∧ hashtype = hashtype' := by
  have hl := congrArg length h
  rw [length_derSignature,length_derSignature] at hl
  rw [length_derSignature] at he
  simp only [derSignature,cons.injEq] at h
  have hr := congrArg BitVec.toNat h.2.2.2.1
  rw [BitVec.toNat_ofNat,BitVec.toNat_ofNat,Nat.mod_eq_of_lt (by omega),
    Nat.mod_eq_of_lt (by omega)] at hr
  obtain ⟨rfl,ht⟩ := append_inj h.2.2.2.2 hr
  obtain ⟨rfl,ha⟩ := append_inj' (cons.inj (cons.inj ht).2).2 rfl
  exact ⟨rfl,rfl,(cons.inj ha).1⟩

/-- Strict signatures are the encodings of their elements, which they determine. -/
theorem isValidSignatureEncoding_iff (sig : Valtype) :
    readSignatureEncoding sig = some (isValidSignatureEncoding sig) ∧
    (isValidSignatureEncoding sig = true ↔ ∃ r s hashtype, MinimalInteger r ∧ MinimalInteger s ∧
      9 ≤ sig.length ∧ sig.length ≤ 73 ∧ sig = derSignature r s hashtype) ∧
    ∀ r s hashtype r' s' hashtype', sig.length ≤ 73 → sig = derSignature r s hashtype →
      sig = derSignature r' s' hashtype' → r = r' ∧ s = s' ∧ hashtype = hashtype' := by
  refine ⟨readSignature_eq sig,⟨fun h => ?_,?_⟩,?_⟩
  · obtain ⟨hsi,hl⟩ : ¬(sig.length < 9 ∨ 73 < sig.length) ∧ (sig.getD 3 0).toNat +
        (sig.getD (5+(sig.getD 3 0).toNat) 0).toNat+7 = sig.length := by
      unfold isValidSignatureEncoding at h
      dsimp only at h
      iterate 5 rw [ite_false_eq_true] at h
      exact ⟨h.1,not_not.mp h.2.2.2.2.1⟩
    obtain ⟨b0,b1,b2,b3,r,b,c,s,hashtype,rfl,hr,hs⟩ := exists_elements (by omega) hl
    obtain ⟨hR,hS,-,h0,h1,h2,hb⟩ := (validSignature_elements hr hs).mp h
    refine ⟨r,s,hashtype,hR,hS,by omega,by omega,?_⟩
    have hy {x : BitVec 8} {n : ℕ} (h : x.toNat = n) : x = BitVec.ofNat 8 n := by
      rw [← h,BitVec.ofNat_toNat,BitVec.setWidth_eq]
    rw [hy h0,hy h1,hy h2,hy hr,hy hb,hy hs]
    rfl
  · rintro ⟨r,s,hashtype,hR,hS,-,hl,rfl⟩
    rw [length_derSignature] at hl
    have hy {n : ℕ} (h : n < 256) : (BitVec.ofNat 8 n).toNat = n := Nat.mod_eq_of_lt h
    exact (validSignature_elements (hy (by omega)) (hy (by omega))).mpr
      ⟨hR,hS,by omega,rfl,hy (by omega),rfl,rfl⟩
  · rintro r s hashtype r' s' hashtype' hl rfl h
    exact derSignature_inj hl h

end DripCore
