import DripCore.ExceptRules
import Mathlib.Data.BitVec
import Mathlib.Data.List.GetD
import Mathlib.Data.Nat.Size
import Mathlib.Tactic.NormNum

/-!
# Maps from addresses to AS numbers

A map is a program of variable-length instructions in a vector of bits. `Interpret` runs it on the
bits of an address, and `SanityCheckASMap` reads all of it once. Positions are the bits that are
left. Where an accepted map has an instruction, it returns on every address with as many bits left
as the check.
-/
namespace DripCore.Asmap
open List Nat

open ExceptRules

def invalid : ℕ := 0xFFFFFFFF

/-- The loop of `DecodeBits` over the mantissa, with the number of its bits that are left. -/
def decodeMantissa : ℕ → ℕ → List Bool → ℕ × List Bool
  | 0, val, bitpos => (val,bitpos)
  | _+1, _, [] => (invalid,[])
  | left+1, val, bit::bitpos => decodeMantissa left ((val+bit.toNat <<< left) % 2^32) bitpos

/-- `DecodeBits` over the sizes that are left. The last size has no exponent bit. -/
def decodeBits : List ℕ → ℕ → List Bool → ℕ × List Bool
  | [], _, bitpos => (invalid,bitpos)
  | [size], val, bitpos => decodeMantissa size val bitpos
  | _::_::_, _, [] => (invalid,[])
  | size::next::sizes, val, bit::bitpos =>
    if bit then decodeBits (next::sizes) ((val+1 <<< size) % 2^32) bitpos
    else decodeMantissa size val bitpos

inductive Instruction where
  | returnAsn
  | jump
  | matchBits
  | default
deriving DecidableEq

def Instruction.ofValue : ℕ → Option Instruction
  | 0 => some .returnAsn
  | 1 => some .jump
  | 2 => some .matchBits
  | 3 => some .default
  | _ => none

def decodeType (bitpos : List Bool) : Option Instruction × List Bool :=
  let read := decodeBits [0,0,1] 0 bitpos
  (Instruction.ofValue read.1,read.2)

def decodeASN (bitpos : List Bool) : ℕ × List Bool :=
    decodeBits [15,16,17,18,19,20,21,22,23,24] 1 bitpos

def decodeMatch (bitpos : List Bool) : ℕ × List Bool := decodeBits [1,2,3,4,5,6,7,8] 2 bitpos

def decodeJump (bitpos : List Bool) : ℕ × List Bool :=
  decodeBits [5,6,7,8,9,10,11,12,13,14,15,16,17,18,19,20,21,22,23,24,25,26,27,28,29,30] 17 bitpos

/-- How running a map can fail: the last assertion, a read outside the address, or no end. -/
inductive Failure where
  | assertion
  | outOfBounds
  | outOfFuel
deriving DecidableEq

/-- `ip[ip.size() - bits]`. -/
def inputBit (ip : List Bool) (bits : BitVec 8) : Except Failure Bool :=
  if ip.length < bits.toNat then .error .outOfBounds
  else
    match ip[ip.length-bits.toNat]? with
    | none => .error .outOfBounds
    | some b => .ok b

/-- The loop over the bits of a match: the rest of the address, unless a bit differs. -/
def matchLoop (ip : List Bool) (m : ℕ) : ℕ → BitVec 8 → Except Failure (Option (BitVec 8))
  | 0, bits => .ok (some bits)
  | left+1, bits => do
      let b ← inputBit ip bits
      if b ≠ m.testBit left then .ok none else matchLoop ip m left (bits-1)

/-- What one instruction leads to: a result, or the next instruction. -/
inductive Outcome where
  | result (asn : ℕ)
  | next (pos : List Bool) (bits : BitVec 8) (default_asn : ℕ)

/-- A `break` ends in the assertion. -/
def breakOut {α : Type} : Except Failure α := .error .assertion

def interpretJump (ip : List Bool) (pos : List Bool) (bits : BitVec 8) (default_asn : ℕ) :
    Except Failure Outcome :=
  let read := decodeJump pos
  if read.1 = invalid then breakOut
  else if bits = 0 then breakOut
  else if read.2.length ≤ read.1 then breakOut
  else do
    let b ← inputBit ip bits
    .ok (.next (if b then read.2.drop read.1 else read.2) (bits-1) default_asn)

/-- A bit that differs ends the run with the default. -/
def matchOutcome (pos : List Bool) (default_asn : ℕ) : Option (BitVec 8) → Outcome
  | none => .result default_asn
  | some bits => .next pos bits default_asn

def interpretMatch (ip : List Bool) (pos : List Bool) (bits : BitVec 8) (default_asn : ℕ) :
    Except Failure Outcome :=
  let read := decodeMatch pos
  if read.1 = invalid then breakOut
  else
    let matchlen := read.1.size-1
    if bits.toNat < matchlen then breakOut
    else do
      let left ← matchLoop ip read.1 matchlen bits
      .ok (matchOutcome read.2 default_asn left)

def interpretInstruction (ip : List Bool) (pos : List Bool) (bits : BitVec 8) (default_asn : ℕ) :
    Except Failure Outcome :=
  let type := decodeType pos
  match type.1 with
  | some .returnAsn =>
    let asn := (decodeASN type.2).1
    if asn = invalid then breakOut else .ok (.result asn)
  | some .jump => interpretJump ip type.2 bits default_asn
  | some .matchBits => interpretMatch ip type.2 bits default_asn
  | some .default =>
    let read := decodeASN type.2
    if read.1 = invalid then breakOut else .ok (.next read.2 bits read.1)
  | none => breakOut

def interpretLoop (ip : List Bool) : ℕ → List Bool → BitVec 8 → ℕ → Except Failure ℕ
  | _, [], _, _ => .error .assertion
  | 0, _::_, _, _ => .error .outOfFuel
  | fuel+1, bit::pos, bits, default_asn => do
      match ← interpretInstruction ip (bit::pos) bits default_asn with
      | .result asn => .ok asn
      | .next pos bits default_asn => interpretLoop ip fuel pos bits default_asn

/-- `Interpret`. Every instruction takes a bit of the map or more. -/
def interpret (asmap : List Bool) (ip : List Bool) : Except Failure ℕ :=
  interpretLoop ip asmap.length asmap (BitVec.ofNat 8 ip.length) 0

/-- The variables of `SanityCheckASMap`. The last jump comes first. -/
structure CheckState where
  pos : List Bool
  bits : ℤ
  jumps : List (ℕ × ℤ)
  prevopcode : Instruction
  had_incomplete_match : Bool
deriving DecidableEq

/-- `pos - begin` in 32 bits, for a map of some size. -/
def offset (size : ℕ) (pos : List Bool) : ℕ := (size-pos.length) % 2^32

/-- What the check does at an instruction: `error` carries the result that it returns. -/
def checkReturn (size : ℕ) (s : CheckState) (pos : List Bool) : Except Bool CheckState := do
  failIf (decide (s.prevopcode = .default)) false
  let read := decodeASN pos
  failIf (decide (read.1 = invalid)) false
  match s.jumps with
  | [] => .error (decide (read.2.length ≤ 7) && read.2.all fun bit => !bit)
  | (target,bits)::jumps => do
      failIf (decide (offset size read.2 ≠ target)) false
      .ok { s with pos := read.2, bits := bits, jumps := jumps, prevopcode := .jump }

/-- Whether an offset does not lie before the next jump target. -/
def reachesJump (jumps : List (ℕ × ℤ)) (offset : ℕ) : Bool :=
  match jumps with
  | [] => false
  | (target,_)::_ => decide (target ≤ offset)

def checkJump (size : ℕ) (s : CheckState) (pos : List Bool) : Except Bool CheckState := do
  let read := decodeJump pos
  failIf (decide (read.1 = invalid)) false
  failIf (decide (read.2.length < read.1)) false
  failIf (decide (s.bits = 0)) false
  let jump_offset := (size-read.2.length+read.1) % 2^32
  failIf (reachesJump s.jumps jump_offset) false
  .ok { s with pos := read.2, bits := s.bits-1, jumps := (jump_offset,s.bits-1)::s.jumps,
               prevopcode := .jump }

def checkMatch (s : CheckState) (pos : List Bool) : Except Bool CheckState := do
  let read := decodeMatch pos
  failIf (decide (read.1 = invalid)) false
  let matchlen := read.1.size-1
  let had_incomplete_match := decide (s.prevopcode = .matchBits) && s.had_incomplete_match
  failIf (decide (matchlen < 8) && had_incomplete_match) false
  failIf (decide (s.bits < matchlen)) false
  .ok { s with pos := read.2, bits := s.bits-matchlen, prevopcode := .matchBits,
               had_incomplete_match := decide (matchlen < 8) }

def checkDefault (s : CheckState) (pos : List Bool) : Except Bool CheckState := do
  failIf (decide (s.prevopcode = .default)) false
  let read := decodeASN pos
  failIf (decide (read.1 = invalid)) false
  .ok { s with pos := read.2, prevopcode := .default }

def checkInstruction (size : ℕ) (s : CheckState) : Except Bool CheckState := do
  failIf (reachesJump s.jumps (offset size s.pos)) false
  let type := decodeType s.pos
  match type.1 with
  | some .returnAsn => checkReturn size s type.2
  | some .jump => checkJump size s type.2
  | some .matchBits => checkMatch s type.2
  | some .default => checkDefault s type.2
  | none => .error false

def sanityLoop (size : ℕ) : ℕ → CheckState → Bool
  | 0, _ => false
  | fuel+1, s =>
    if s.pos.isEmpty then false
    else
      match checkInstruction size s with
      | .error result => result
      | .ok s => sanityLoop size fuel s

/-- `SanityCheckASMap`. Every instruction takes a bit of the map or more. -/
def sanityCheckASMap (asmap : List Bool) (bits : ℤ) : Bool :=
  sanityLoop asmap.length (asmap.length+1) ⟨asmap,bits,[],.jump,false⟩

theorem decodeMantissa_suffix (left val : ℕ) (b : List Bool) :
    (decodeMantissa left val b).2 <:+ b := by
  induction left generalizing val b with
  | zero => exact suffix_rfl
  | succ left ih =>
    cases b with
    | nil => exact suffix_rfl
    | cons bit b => exact (ih _ b).trans (suffix_cons bit b)

theorem decodeBits_suffix (si : List ℕ) (val : ℕ) (b : List Bool) :
    (decodeBits si val b).2 <:+ b := by
  induction si generalizing val b with
  | nil => exact suffix_rfl
  | cons size si ih =>
    match si, b with
    | [], b => exact decodeMantissa_suffix size val b
    | _::_, [] => exact suffix_rfl
    | next::si, bit::b =>
      rw [decodeBits]
      split_ifs
      · exact (ih _ b).trans (suffix_cons bit b)
      · exact (decodeMantissa_suffix size val b).trans (suffix_cons bit b)

theorem decodeBits_suffix_tail (size next : ℕ) (si : List ℕ) (val : ℕ) (bit : Bool)
    (b : List Bool) : (decodeBits (size::next::si) val (bit::b)).2 <:+ b := by
  rw [decodeBits]
  split_ifs
  · exact decodeBits_suffix _ _ _
  · exact decodeMantissa_suffix _ _ _

theorem decodeType_suffix (bit : Bool) (pos : List Bool) : (decodeType (bit::pos)).2 <:+ pos :=
  decodeBits_suffix_tail 0 0 [1] 0 bit pos

/-- What a check goes on with lies at or after a position. -/
def GoesOnFrom (pos : List Bool) (r : Except Bool CheckState) : Prop := ∀ s, r = .ok s →
    s.pos <:+ pos

theorem GoesOnFrom.failIf {pos : List Bool} {b : Bool} {f : Unit → Except Bool CheckState}
    (h : GoesOnFrom pos (f ())) : GoesOnFrom pos (failIf b false >>= f) := by
  cases b with
  | false => exact h
  | true => exact fun s hs => nomatch hs

theorem GoesOnFrom.ok {pos : List Bool} {s : CheckState} (h : s.pos <:+ pos) :
    GoesOnFrom pos (.ok s) :=
  fun _ hs => Except.ok.inj hs ▸ h

section
variable (size : ℕ) (s : CheckState) (pos : List Bool)
include size s pos

theorem return_goesOn : GoesOnFrom pos (checkReturn size s pos) := by
  refine .failIf (.failIf ?_)
  cases s.jumps with
  | nil => exact fun s hs => nomatch hs
  | cons j jumps => exact .failIf (.ok (decodeBits_suffix _ _ _))

theorem jump_goesOn : GoesOnFrom pos (checkJump size s pos) :=
  .failIf (.failIf (.failIf (.failIf (.ok (decodeBits_suffix _ _ _)))))

end

theorem match_goesOn (s : CheckState) (pos : List Bool) : GoesOnFrom pos (checkMatch s pos) :=
  .failIf (.failIf (.failIf (.ok (decodeBits_suffix _ _ _))))

theorem default_goesOn (s : CheckState) (pos : List Bool) : GoesOnFrom pos (checkDefault s pos) :=
  .failIf (.failIf (.ok (decodeBits_suffix _ _ _)))

theorem instruction_goesOn (size : ℕ) (s : CheckState) :
    GoesOnFrom (decodeType s.pos).2 (checkInstruction size s) := by
  refine .failIf ?_
  dsimp only
  split
  · exact return_goesOn size s _
  · exact jump_goesOn size s _
  · exact match_goesOn s _
  · exact default_goesOn s _
  · exact fun s hs => nomatch hs

/-- The check ends before the bits of the map do. -/
theorem sanityLoop_of_length_lt {size fuel fuel' : ℕ} {s : CheckState} (h : s.pos.length < fuel)
    (h' : s.pos.length < fuel') : sanityLoop size fuel s = sanityLoop size fuel' s := by
  induction fuel generalizing fuel' s with
  | zero => exact absurd h (not_lt_zero _)
  | succ fuel ih =>
    cases fuel' with
    | zero => exact absurd h' (not_lt_zero _)
    | succ fuel' =>
      rw [sanityLoop,sanityLoop]
      cases hpo : s.pos with
      | nil => rfl
      | cons bit pos =>
        have hp := instruction_goesOn size s
        rw [hpo] at hp h h'
        cases hc : checkInstruction size s with
        | error result => rfl
        | ok s' =>
          have hu := (hp s' hc).trans (decodeType_suffix bit pos)
          have hl := hu.length_le
          rw [length_cons] at h h'
          exact ih (by omega) (by omega)

/-- From a position with so many bits of the address left, a map returns. -/
def Returns (pos : List Bool) (k : ℕ) : Prop :=
  ∀ (ip : List Bool) (bits : BitVec 8) (default_asn fuel : ℕ), bits.toNat = k → k ≤ ip.length →
    pos.length ≤ fuel → ∃ asn, interpretLoop ip fuel pos bits default_asn = .ok asn

/-- An instruction is fine if it returns, or leads on to a position from which the map returns. -/
def Outcome.Fine (pos : List Bool) : Outcome → ℕ → Prop
  | .result _, _ => True
  | .next pos' bits _, length =>
    pos'.length < pos.length ∧ bits.toNat ≤ length ∧ Returns pos' bits.toNat

theorem Returns.of_instruction {pos : List Bool} {k : ℕ} (hpo : pos ≠ [])
    (h : ∀ (ip : List Bool) (bits : BitVec 8) (da : ℕ), bits.toNat = k → k ≤ ip.length →
      ∃ o, interpretInstruction ip pos bits da = .ok o ∧ o.Fine pos ip.length) : Returns pos k := by
  intro ip bits da fuel hb hk hf
  cases pos with
  | nil => exact absurd rfl hpo
  | cons bit pos =>
    cases fuel with
    | zero => exact absurd hf (by simp)
    | succ fuel =>
      obtain ⟨o,hu,hfi⟩ := h ip bits da hb hk
      rw [interpretLoop,hu]
      cases o with
      | result asn => exact ⟨asn,rfl⟩
      | next pos' bits' asn =>
        obtain ⟨hh,hl,hr⟩ := hfi
        exact hr ip bits' asn fuel rfl hl (by omega)

theorem Returns.ne_nil {pos : List Bool} {k : ℕ} (h : Returns pos k) (hk : k < 256) : pos ≠ [] := by
  rintro rfl
  obtain ⟨asn,ha⟩ := h (replicate k false) (BitVec.ofNat 8 k) 0 0
    (by rw [BitVec.toNat_ofNat]; omega) length_replicate.ge (by simp)
  exact nomatch ha

theorem toNat_pred {bits : BitVec 8} (h : bits ≠ 0) : (bits-1).toNat = bits.toNat-1 := by
  bv_omega

theorem inputBit_ok {ip : List Bool} {bits : BitVec 8} (h : bits ≠ 0)
    (he : bits.toNat ≤ ip.length) :
    ∃ b, inputBit ip bits = .ok b := by
  have hpo : 0 < bits.toNat := by
    bv_omega
  have hl : ip.length-bits.toNat < ip.length := by omega
  refine ⟨ip[ip.length-bits.toNat],?_⟩
  rw [inputBit,if_neg (by omega),getElem?_eq_getElem hl]

/-- A match of no more bits than are left takes them, unless one differs. -/
theorem matchLoop_ok (ip : List Bool) (m left : ℕ) (bits : BitVec 8) (h : left ≤ bits.toNat)
    (he : bits.toNat ≤ ip.length) :
    ∃ r, matchLoop ip m left bits = .ok r ∧ ∀ bits', r = some bits' →
      bits'.toNat = bits.toNat-left := by
  induction left generalizing bits with
  | zero =>
    refine ⟨some bits,rfl,fun bits' hbi => ?_⟩
    rw [← Option.some.inj hbi,Nat.sub_zero]
  | succ left ih =>
    have hn : bits ≠ 0 := by
      rintro rfl
      exact absurd h (by simp)
    obtain ⟨b,hb⟩ := inputBit_ok hn he
    have hp := toNat_pred hn
    rw [matchLoop,hb,ok_bind]
    split_ifs
    · exact ⟨none,rfl,fun bits' hbi => nomatch hbi⟩
    · obtain ⟨r,hr,hl⟩ := ih (bits-1) (by omega) (by omega)
      refine ⟨r,hr,fun bits' hbi => ?_⟩
      rw [hl bits' hbi]
      omega

section

/-- The check is in the map, and numbers of bits are not negative. -/
structure CheckState.Valid (asmap : List Bool) (s : CheckState) : Prop where
  pos_suffix : s.pos <:+ asmap
  bits_range : 0 ≤ s.bits ∧ s.bits < 256
  jumps_range : ∀ j ∈ s.jumps, 0 ≤ j.2 ∧ j.2 < 256

/-- From here, and from every target that is ahead, the map returns. -/
def CheckState.Safe (asmap : List Bool) (s : CheckState) : Prop :=
  Returns s.pos s.bits.toNat ∧ ∀ j ∈ s.jumps, Returns (asmap.drop j.1) j.2.toNat

/-- The check goes on to accept: it returns so, or what it goes on with is safe. -/
def Continues (asmap : List Bool) : Except Bool CheckState → Prop
  | .error result => result = true
  | .ok s => s.Valid asmap → s.Safe asmap

variable {a : List Bool} {s : CheckState}

theorem Continues.failIf {b : Bool} {f : Unit → Except Bool CheckState}
    (h : Continues a (failIf b false >>= f)) : b = false ∧ Continues a (f ()) := by
  cases b with
  | false => exact ⟨rfl,h⟩
  | true => exact absurd h Bool.false_ne_true

theorem drop_offset {pos : List Bool} (h : pos <:+ a) (hsi : a.length < 2^31) :
    a.drop (offset a.length pos) = pos := by
  rw [offset,mod_eq_of_lt (by omega)]
  exact (suffix_iff_eq_drop.mp h).symm

theorem CheckState.Valid.after_type (h : s.Valid a) (hpo : s.pos ≠ []) :
    (decodeType s.pos).2 <:+ a ∧ (decodeType s.pos).2.length < s.pos.length := by
  have hu := h.pos_suffix
  cases hs : s.pos with
  | nil => exact absurd hs hpo
  | cons bit pos =>
    rw [hs] at hu
    have ht := decodeType_suffix bit pos
    refine ⟨(ht.trans (suffix_cons bit pos)).trans hu,?_⟩
    exact lt_succ_of_le ht.length_le

section
variable (hs : s.Valid a) (hpo : s.pos ≠ [])
include hs hpo

theorem checkReturn_safe (hsi : a.length < 2^31) (ht : (decodeType s.pos).1 = some .returnAsn)
    (h : Continues a (checkReturn a.length s (decodeType s.pos).2)) : s.Safe a := by
  obtain ⟨-,h⟩ := h.failIf
  obtain ⟨ha,h⟩ := h.failIf
  have hre : Returns s.pos s.bits.toNat := by
    refine .of_instruction hpo fun ip bits da _ _ =>
      ⟨.result (decodeASN (decodeType s.pos).2).1,?_,trivial⟩
    rw [interpretInstruction,ht]
    exact if_neg (of_decide_eq_false ha)
  refine ⟨hre,?_⟩
  cases hu : s.jumps with
  | nil => exact fun j hj => absurd hj not_mem_nil
  | cons j jumps =>
    rw [hu] at h
    obtain ⟨hta,h⟩ := Continues.failIf h
    have he : (decodeASN (decodeType s.pos).2).2 <:+ a :=
      (decodeBits_suffix _ _ _).trans (hs.after_type hpo).1
    have hr := hs.jumps_range
    rw [hu] at hr
    have hsa := h ⟨he,hr j mem_cons_self,fun i hi => hr i (mem_cons_of_mem j hi)⟩
    refine forall_mem_cons.mpr ⟨?_,hsa.2⟩
    have ho : offset a.length (decodeASN (decodeType s.pos).2).2 = j.1 :=
      not_not.mp (of_decide_eq_false hta)
    rw [← ho,drop_offset he hsi]
    exact hsa.1

theorem checkJump_safe (hsi : a.length < 2^31) (hy : (decodeType s.pos).1 = some .jump)
    (h : Continues a (checkJump a.length s (decodeType s.pos).2)) : s.Safe a := by
  obtain ⟨hju,h⟩ := h.failIf
  obtain ⟨hr,h⟩ := h.failIf
  obtain ⟨hbi,h⟩ := h.failIf
  obtain ⟨-,h⟩ := h.failIf
  set read := decodeJump (decodeType s.pos).2 with hre
  obtain ⟨ha,hh⟩ := hs.after_type hpo
  have hu : read.2 <:+ (decodeType s.pos).2 := decodeBits_suffix _ _ _
  have hl := hu.length_le
  have hm := (hu.trans ha).length_le
  have hn := of_decide_eq_false hbi
  have hle : read.1 ≤ read.2.length := not_lt.mp (of_decide_eq_false hr)
  have hr0 := hs.bits_range
  have hr' : 0 ≤ s.bits-1 ∧ s.bits-1 < 256 := by omega
  have hsa := h ⟨hu.trans ha,hr',forall_mem_cons.mpr ⟨hr',hs.jumps_range⟩⟩
  obtain ⟨ht,hj⟩ := forall_mem_cons.mp hsa.2
  have ho : (a.length-read.2.length+read.1) % 2^32 = a.length-(read.2.drop read.1).length := by
    rw [length_drop]
    omega
  have hdro : a.drop (a.length-(read.2.drop read.1).length) = read.2.drop read.1 :=
    (suffix_iff_eq_drop.mp (((drop_suffix _ _).trans hu).trans ha)).symm
  rw [ho,hdro] at ht
  have hbo : (s.bits-1).toNat < 256 := by omega
  have hin : read.1 < read.2.length := by
    by_contra he
    exact ht.ne_nil hbo (drop_eq_nil_iff.mpr (not_lt.mp he))
  refine ⟨.of_instruction hpo fun ip bits da hbi' hk => ?_,hj⟩
  have hz : bits ≠ 0 := by
    rintro rfl
    have hc : s.bits.toNat = 0 := hbi'.symm
    omega
  have hp : (bits-1).toNat = (s.bits-1).toNat := by
    rw [toNat_pred hz]
    omega
  obtain ⟨b,hb⟩ := inputBit_ok hz (hbi'.le.trans hk)
  refine ⟨.next (if b then read.2.drop read.1 else read.2) (bits-1) da,?_,?_,?_,?_⟩
  · rw [interpretInstruction,hy]
    rw [interpretJump,if_neg (of_decide_eq_false hju),if_neg hz,if_neg (not_le.mpr hin),hb,ok_bind]
  · have hd : (read.2.drop read.1).length ≤ read.2.length := by
      rw [length_drop]
      omega
    split_ifs <;> omega
  · rw [hp]
    omega
  · rw [hp]
    split_ifs
    · exact ht
    · exact hsa.1

theorem checkMatch_safe (ht : (decodeType s.pos).1 = some .matchBits)
    (h : Continues a (checkMatch s (decodeType s.pos).2)) : s.Safe a := by
  obtain ⟨hm,h⟩ := h.failIf
  obtain ⟨-,h⟩ := h.failIf
  obtain ⟨hb,h⟩ := h.failIf
  set read := decodeMatch (decodeType s.pos).2 with hre
  obtain ⟨ha,hh⟩ := hs.after_type hpo
  have hu : read.2 <:+ (decodeType s.pos).2 := decodeBits_suffix _ _ _
  have hle := hu.length_le
  have he : ((read.1.size-1 : ℕ) : ℤ) ≤ s.bits := not_lt.mp (of_decide_eq_false hb)
  have hra := hs.bits_range
  have hra' : 0 ≤ s.bits-((read.1.size-1 : ℕ) : ℤ) ∧ s.bits-((read.1.size-1 : ℕ) : ℤ) < 256 := by
    omega
  have hsa := h ⟨hu.trans ha,hra',hs.jumps_range⟩
  refine ⟨.of_instruction hpo fun ip bits da hb' hk => ?_,hsa.2⟩
  obtain ⟨r,hr,hl⟩ := matchLoop_ok ip read.1 (read.1.size-1) bits (by omega) (hb'.le.trans hk)
  have hru : interpretInstruction ip s.pos bits da = .ok (matchOutcome read.2 da r) := by
    rw [interpretInstruction,ht]
    dsimp only
    rw [interpretMatch,← hre]
    rw [if_neg (of_decide_eq_false hm),if_neg (by omega),hr,ok_bind]
  cases r with
  | none => exact ⟨_,hru,trivial⟩
  | some bits' =>
    have hb'' := hl bits' rfl
    refine ⟨_,hru,by omega,by omega,?_⟩
    have hsam : bits'.toNat = (s.bits-((read.1.size-1 : ℕ) : ℤ)).toNat := by omega
    rw [hsam]
    exact hsa.1

theorem checkDefault_safe (ht : (decodeType s.pos).1 = some .default)
    (h : Continues a (checkDefault s (decodeType s.pos).2)) : s.Safe a := by
  obtain ⟨-,h⟩ := h.failIf
  obtain ⟨ha,h⟩ := h.failIf
  obtain ⟨hf,hh⟩ := hs.after_type hpo
  have hu : (decodeASN (decodeType s.pos).2).2 <:+ (decodeType s.pos).2 := decodeBits_suffix _ _ _
  have hl := hu.length_le
  have hsa := h ⟨hu.trans hf,hs.bits_range,hs.jumps_range⟩
  refine ⟨.of_instruction hpo fun ip bits da hb hk => ?_,hsa.2⟩
  refine ⟨.next (decodeASN (decodeType s.pos).2).2 bits (decodeASN (decodeType s.pos).2).1,?_,
    by omega,
    hb.le.trans hk,?_⟩
  · rw [interpretInstruction,ht]
    exact if_neg (of_decide_eq_false ha)
  · rw [hb]
    exact hsa.1

/-- One instruction of the check, read against the run of the same instruction. -/
theorem checkInstruction_safe (hsi : a.length < 2^31)
    (h : Continues a (checkInstruction a.length s)) : s.Safe a := by
  obtain ⟨-,h⟩ := h.failIf
  dsimp only at h
  cases ht : (decodeType s.pos).1 with
  | none =>
    rw [ht] at h
    exact absurd h Bool.false_ne_true
  | some o =>
    rw [ht] at h
    cases o with
    | returnAsn => exact checkReturn_safe hs hpo hsi ht h
    | jump => exact checkJump_safe hs hpo hsi ht h
    | matchBits => exact checkMatch_safe hs hpo ht h
    | default => exact checkDefault_safe hs hpo ht h

end

theorem sanityLoop_safe (hsi : a.length < 2^31) (fuel : ℕ) (s : CheckState) (hs : s.Valid a)
    (h : sanityLoop a.length fuel s = true) : s.Safe a := by
  induction fuel generalizing s with
  | zero => exact absurd h Bool.false_ne_true
  | succ fuel ih =>
    rw [sanityLoop] at h
    split_ifs at h with he
    have hpo : s.pos ≠ [] := fun hn => he (by rw [hn]; rfl)
    refine checkInstruction_safe hs hpo hsi ?_
    cases hc : checkInstruction a.length s with
    | error result =>
      rw [hc] at h
      exact h
    | ok s' =>
      rw [hc] at h
      exact fun hs' => ih s' hs' h

end

/-- A map that passes the check for addresses of some size returns on each of them. -/
theorem interpret_returns (asmap : List Bool) (n : ℕ) (hsize : asmap.length < 2 ^ 31) (hn : n ≤ 255)
    (hcheck : sanityCheckASMap asmap n = true) (ip : List Bool) (hip : ip.length = n) :
    ∃ asn, interpret asmap ip = .ok asn := by
  have hb : 0 ≤ (n : ℤ) ∧ (n : ℤ) < 256 := by omega
  have hv : CheckState.Valid asmap ⟨asmap,n,[],.jump,false⟩ :=
    ⟨suffix_rfl,hb,fun j hj => absurd hj not_mem_nil⟩
  have ha := (sanityLoop_safe hsize _ _ hv hcheck).1
  refine ha ip (BitVec.ofNat 8 ip.length) 0 asmap.length ?_ ?_ le_rfl
  · rw [BitVec.toNat_ofNat,Int.toNat_natCast]
    omega
  · rw [Int.toNat_natCast,hip]

/-- A jump over the first bit to one of two numbers, and zeros up to a whole byte. -/
def exampleMap : List Bool := [true,false]++[false,false,false,false,false,false] ++
    (false::false::List.replicate 15 false) ++
    (false::false::List.replicate 14 false++[true])++List.replicate 6 false

theorem interpret_returns_example : ∃ asn, interpret exampleMap [true] = .ok asn :=
  interpret_returns exampleMap 1 (by decide) (by decide) (by decide) [true] rfl

example : interpret exampleMap [true] = .ok 2 := by decide

end DripCore.Asmap
