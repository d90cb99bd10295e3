import DripCore.Interpreter
import Mathlib.Tactic.IntervalCases
import Mathlib.Tactic.Linarith
import Mathlib.Tactic.Ring

/-!
# Building scripts

Scripts are built by appending opcodes, integers and byte strings. What one item appends is read
by one `GetScriptOp`, whatever follows it, so the operations of a script are its items in order.
-/
namespace DripCore
open CScript List Nat PrefixCode

/-- What the operators `<<` of `CScript` take. -/
inductive ScriptItem where
  | op (opcode : BitVec 8)
  | integer (b : ℤ)
  | bytes (b : List (BitVec 8))
deriving DecidableEq

open ScriptItem

/-- The operators `<<` of `CScript`. The size of a byte string is cut to 32 bits. -/
def CScript.append (script : CScript) : ScriptItem → CScript
  | .op opcode => script++[opcode]
  | .integer b => pushInt64 script b
  | .bytes b => script++appendDataSize (b.length % 2^32)++b

def buildScript (items : List ScriptItem) : CScript := items.foldl append []

/-- `GetOp` until the end of the script. It fails where `GetOp` fails. -/
def getOps : ℕ → CScript → Option (List (BitVec 8 × List (BitVec 8)))
  | _, [] => some []
  | 0, _::_ => none
  | fuel+1, opcode::pc => do
      let (opcode,data,pc) ← getScriptOp (opcode::pc)
      let ops ← getOps fuel pc
      return (opcode,data)::ops

/-- All operations of a script: each takes a byte or more. -/
def CScript.operations (script : CScript) : Option (List (BitVec 8 × List (BitVec 8))) :=
  getOps script.length script

/-- An opcode that is not a push, a 64-bit integer or any bytes. -/
def ScriptItem.Valid : ScriptItem → Prop
  | .op opcode => opPushData4 < opcode
  | .integer b => -2^63 ≤ b ∧ b < 2^63
  | .bytes _ => True

instance : (item : ScriptItem) → Decidable item.Valid
  | .op opcode => inferInstanceAs (Decidable (opPushData4 < opcode))
  | .integer b => inferInstanceAs (Decidable (-2^63 ≤ b ∧ b < 2^63))
  | .bytes _ => .isTrue trivial

def smallIntOpcode (n : ℤ) : BitVec 8 :=
  if n = -1 then op1Negate else if n = 0 then op0 else op1+BitVec.ofInt 8 (n-1)

/-- Opcodes and small numbers are themselves, other numbers and byte strings are pushed. -/
def ScriptItem.Yields : ScriptItem → BitVec 8 × List (BitVec 8) → Prop
  | .op opcode, read => read = (opcode,[])
  | .integer b, read =>
    if -1 ≤ b ∧ b ≤ 16 then read = (smallIntOpcode b,[])
    else read.1 ≤ opPushData4 ∧ read.2 = scriptNumSerialize b ∧ setVch read.2 = b
  | .bytes b, read => read.1 ≤ opPushData4 ∧ read.2 = b

section

theorem leValue_append (l l' : List (BitVec 8)) :
    leValue (l++l') = leValue l+256^l.length*leValue l' := by
  induction l with
  | nil => rw [nil_append,leValue,length_nil,pow_zero,zero_add,one_mul]
  | cons b l ih =>
    rw [cons_append,leValue,leValue,ih,length_cons]
    ring

theorem leValue_singleton (b : BitVec 8) : leValue [b] = b.toNat := by
  rw [leValue,leValue,Nat.add_zero]

theorem and_sign_eq_zero_iff (b : BitVec 8) : b &&& 0x80#8 = 0#8 ↔ b.msb = false := by
  revert b
  decide

variable {b back : BitVec 8} {n : ℤ}

theorem toNat_or_sign (h : b.msb = false) : (b ||| 0x80#8).toNat = b.toNat+0x80 := by
  revert b
  decide

theorem toNat_lt_of_msb (h : b.msb = false) : b.toNat < 0x80 := by
  revert b
  decide

theorem setVch_negative {low : List (BitVec 8)} (h : back.msb = false) :
    setVch (low++[back ||| 0x80#8]) = -(leValue (low++[back]) : ℤ) := by
  have hs : ¬((back ||| 0x80#8) &&& 0x80#8 = 0#8) := by
    revert back
    decide
  have hb := toNat_lt_of_msb h
  have hl := leValue_lt low
  rw [setVch,getLastD_concat,if_pos hs,leValue_append,leValue_append,leValue_singleton,
    leValue_singleton,toNat_or_sign h,length_append,length_singleton,Nat.add_sub_cancel,
    Nat.mul_add,← Nat.add_assoc,Nat.mul_comm 0x80,Nat.add_mod_right,Nat.mod_eq_of_lt]
  nlinarith

theorem setVch_nonnegative {vch : List (BitVec 8)} (h : (vch.getLastD 0).msb = false) :
    setVch vch = leValue vch := by
  rw [setVch,if_neg (not_not.mpr ((and_sign_eq_zero_iff _).mpr h))]

/-- `set_vch` reads what `serialize` writes. -/
theorem setVch_scriptNum {n : ℤ} (h : n.natAbs < 2^64) : setVch (scriptNumSerialize n) = n := by
  rw [scriptNumSerialize]
  by_cases hz : n = 0
  · rw [if_pos hz,hz]
    rfl
  rw [if_neg hz]
  have hv : leValue (magnitudeBytes 8 n.natAbs) = n.natAbs := leValue_magnitude (by omega)
  have he : magnitudeBytes 8 n.natAbs ≠ [] := by
    intro hni
    rw [hni,leValue] at hv
    omega
  set result := magnitudeBytes 8 n.natAbs with hr
  have hl : result.dropLast++[result.getLastD 0] = result := by
    rw [getLastD_eq_getLast?,getLast?_eq_some_getLast he,Option.getD_some]
    exact dropLast_append_getLast he
  dsimp only
  by_cases hm : (result.getLastD 0).msb = true
  · rw [if_pos hm]
    by_cases hn : n < 0
    · have hy : (0x80#8 : BitVec 8) = 0#8 ||| 0x80#8 := rfl
      rw [if_pos hn,hy,setVch_negative rfl,leValue_append_zero,hv]
      omega
    · rw [if_neg hn,setVch_nonnegative (by rw [getLastD_concat]; rfl),leValue_append_zero,hv]
      omega
  · rw [if_neg hm]
    have hb : (result.getLastD 0).msb = false := Bool.eq_false_iff.mpr hm
    by_cases hn : n < 0
    · rw [if_pos hn,setVch_negative hb,hl,hv]
      omega
    · rw [if_neg hn,setVch_nonnegative hb,hv]
      omega

theorem length_scriptNum_le (n : ℤ) : (scriptNumSerialize n).length ≤ 9 := by
  have hl := length_magnitude_le 8 n.natAbs
  rw [scriptNumSerialize]
  dsimp only
  split_ifs
  all_goals
    first
    | omega
    | rw [length_append,length_singleton]; omega
    | rw [length_append,length_dropLast,length_singleton]; omega
    | exact zero_le _

end

section

/-- A push is read back whatever follows it. -/
theorem scriptOp_push (b rest : List (BitVec 8)) (h : b.length < 2^32) :
    ∃ o ≤ opPushData4, getScriptOp (appendDataSize b.length++b++rest) = some (o,b,rest) := by
  have hr : ∀ (o : BitVec 8) (k : ℕ), o ≤ opPushData4 → ¬o < opPushData1 →
      pushSizeWidth o = k → b.length < 256^k →
      getScriptOp ((o::leBytes k b.length)++b++rest) = some (o,b,rest) := by
    intro o k ho hp hw hl
    rw [cons_append,cons_append,append_assoc,getScriptOp,if_pos ho]
    dsimp only
    rw [hw,if_neg hp,take_left' (length_leBytes k _),leValue_leBytes hl,if_neg]
    · simp
    · simp
  rw [appendDataSize]
  split_ifs with h1 h2 h3
  · have hb : leBytes 1 b.length = [BitVec.ofNat 8 b.length] := rfl
    have ht : (BitVec.ofNat 8 b.length).toNat = b.length := by
      rw [BitVec.toNat_ofNat]
      omega
    have hs : BitVec.ofNat 8 b.length < opPushData1 := by
      rw [BitVec.lt_def,ht]
      exact h1
    have ho : BitVec.ofNat 8 b.length ≤ opPushData4 := by
      rw [BitVec.le_def,ht]
      exact h1.le.trans (by decide)
    have hw : pushSizeWidth (BitVec.ofNat 8 b.length) = 0 := by
      have hn : ∀ op : BitVec 8, opPushData1 ≤ op → BitVec.ofNat 8 b.length ≠ op := by
        intro op hle he
        rw [he] at hs
        exact BitVec.not_le.mpr hs hle
      rw [pushSizeWidth,if_neg (hn _ (by decide)),if_neg (hn _ (by decide)),
        if_neg (hn _ (by decide))]
    refine ⟨BitVec.ofNat 8 b.length,ho,?_⟩
    rw [hb,singleton_append,cons_append,getScriptOp,if_pos ho]
    dsimp only
    rw [hw,if_pos hs,ht,if_neg]
    · simp
    · simp
  · exact ⟨opPushData1,by decide,hr opPushData1 1 (by decide) (by decide) rfl (by omega)⟩
  · exact ⟨opPushData2,by decide,hr opPushData2 2 (by decide) (by decide) rfl (by omega)⟩
  · exact ⟨opPushData4,by decide,hr opPushData4 4 (by decide) (by decide) rfl (by omega)⟩

theorem scriptOp_opcode {o : BitVec 8} (h : opPushData4 < o) (rest : CScript) :
    getScriptOp (o::rest) = some (o,[],rest) := by
  rw [getScriptOp,if_neg (BitVec.not_le.mpr h)]

def ScriptItem.encoding (item : ScriptItem) : CScript := append [] item

theorem append_eq (script : CScript) (i : ScriptItem) : script.append i = script++i.encoding := by
  cases i with
  | op o => rfl
  | integer b =>
    simp only [encoding,append,pushInt64]
    split_ifs <;> simp
  | bytes b => simp [encoding,append]

theorem foldl_append_eq (items : List ScriptItem) (script : CScript) :
    items.foldl append script = script++items.flatMap encoding := by
  induction items generalizing script with
  | nil => rw [foldl_nil,flatMap_nil,append_nil]
  | cons i items ih => rw [foldl_cons,ih,append_eq,flatMap_cons,append_assoc]

variable {b : ℤ}

theorem encoding_of_large (h : ¬(-1 ≤ b ∧ b ≤ 16)) :
    (integer b).encoding = appendDataSize (scriptNumSerialize b).length++scriptNumSerialize b := by
  rw [encoding,append,pushInt64,if_neg (by omega),if_neg (by omega),nil_append]

theorem scriptOp_smallInt (h : -1 ≤ b ∧ b ≤ 16) (rest : CScript) :
    getScriptOp ((integer b).encoding++rest) = some (smallIntOpcode b,[],rest) := by
  obtain ⟨hl,hh⟩ := h
  interval_cases b <;> rfl

theorem scriptOp_encoding {i : ScriptItem} (hv : i.Valid) (rest : CScript)
    (hl : i.encoding.length < 2^31) :
    ∃ o data, i.Yields (o,data) ∧ getScriptOp (i.encoding++rest) = some (o,data,rest) := by
  cases i with
  | op o => exact ⟨o,[],rfl,scriptOp_opcode hv rest⟩
  | integer b =>
    by_cases hs : -1 ≤ b ∧ b ≤ 16
    · refine ⟨smallIntOpcode b,[],?_,scriptOp_smallInt hs rest⟩
      rw [ScriptItem.Yields,if_pos hs]
    · have hn := length_scriptNum_le b
      obtain ⟨o,ho,he⟩ := scriptOp_push (scriptNumSerialize b) rest (by omega)
      refine ⟨o,scriptNumSerialize b,?_,?_⟩
      · have ha : b.natAbs < 2^64 := by
          have hr : -2^63 ≤ b ∧ b < 2^63 := hv
          omega
        rw [ScriptItem.Yields,if_neg hs]
        exact ⟨ho,rfl,setVch_scriptNum ha⟩
      · rw [encoding_of_large hs]
        exact he
  | bytes b =>
    have hb : (bytes b).encoding = appendDataSize (b.length % 2^32)++b := by
      rw [encoding,append,nil_append]
    have ht : b.length < 2^31 := by
      rw [hb,length_append] at hl
      omega
    obtain ⟨o,ho,he⟩ := scriptOp_push b rest (by omega)
    refine ⟨o,b,⟨ho,rfl⟩,?_⟩
    rw [hb,mod_eq_of_lt (by omega)]
    exact he

theorem getOps_flatMap (items : List ScriptItem) (fuel : ℕ) (hv : ∀ it ∈ items, it.Valid)
    (hl : (items.flatMap encoding).length < 2^31)
    (hu : (items.flatMap encoding).length ≤ fuel) :
    ∃ ops, getOps fuel (items.flatMap encoding) = some ops ∧
      List.Forall₂ ScriptItem.Yields items ops := by
  induction items generalizing fuel with
  | nil => exact ⟨[],by rw [flatMap_nil,getOps],.nil⟩
  | cons it items ih =>
    rw [flatMap_cons] at hl hu ⊢
    rw [length_append] at hl hu
    obtain ⟨o,data,hy,hr⟩ := scriptOp_encoding (hv it mem_cons_self) (items.flatMap encoding)
      (by omega)
    have hh := length_scriptOp hr
    rw [length_append] at hh
    cases fuel with
    | zero => omega
    | succ fuel =>
      obtain ⟨ops,ho,hf⟩ := ih fuel (fun i hi => hv i (mem_cons_of_mem it hi)) (by omega) (by omega)
      refine ⟨(o,data)::ops,?_,.cons hy hf⟩
      cases hs : it.encoding++items.flatMap encoding with
      | nil =>
        rw [hs] at hr
        exact nomatch hr
      | cons first pc =>
        rw [hs] at hr
        rw [getOps,hr,Option.bind_eq_bind,Option.bind_some]
        dsimp only
        rw [ho]
        rfl

end

/-- A script that is built from items has one operation for each item, in their order. -/
theorem buildScript_operations (items : List ScriptItem) (hvalid : ∀ item ∈ items, item.Valid)
    (hlen : (buildScript items).length < 2 ^ 31) :
    ∃ ops, (buildScript items).operations = some ops ∧
      List.Forall₂ ScriptItem.Yields items ops := by
  have hb : buildScript items = items.flatMap encoding := by
    rw [buildScript,foldl_append_eq,nil_append]
  rw [hb] at hlen ⊢
  exact getOps_flatMap items _ hvalid hlen le_rfl

def exampleItems : List ScriptItem :=
  [.op opEqual,.integer (-1),.integer 16,.integer (-1000),.bytes [1#8,2#8,3#8],.bytes []]

theorem buildScript_operations_example : ∃ ops, (buildScript exampleItems).operations = some ops ∧
      List.Forall₂ ScriptItem.Yields exampleItems ops :=
  buildScript_operations exampleItems (by decide) (by decide)

end DripCore
