import DripCore.PrefixCode
import DripCore.Transaction

/-!
# Scripts as sequences of operations

`GetScriptOp` takes an opcode with the data it pushes off the front of a script, and `GetSigOpCount`
counts the signature operations before the first failure. A few forms are recognised by their bytes.
-/
namespace DripCore
open PrefixCode

def op0 : BitVec 8 := 0x00#8
def opPushData1 : BitVec 8 := 0x4c#8
def opPushData2 : BitVec 8 := 0x4d#8
def opPushData4 : BitVec 8 := 0x4e#8
def op1 : BitVec 8 := 0x51#8
def op16 : BitVec 8 := 0x60#8
def opDup : BitVec 8 := 0x76#8
def opEqual : BitVec 8 := 0x87#8
def opEqualVerify : BitVec 8 := 0x88#8
def opHash160 : BitVec 8 := 0xa9#8
def opCheckSig : BitVec 8 := 0xac#8
def opCheckSigVerify : BitVec 8 := 0xad#8
def opCheckMultiSig : BitVec 8 := 0xae#8
def opCheckMultiSigVerify : BitVec 8 := 0xaf#8
def opInvalidOpcode : BitVec 8 := 0xff#8

def pushSizeWidth (opcode : BitVec 8) : ℕ :=
  if opcode = opPushData1 then 1
  else if opcode = opPushData2 then 2
  else if opcode = opPushData4 then 4
  else 0

/-- The next opcode, its data, and what follows. -/
def getScriptOp : CScript → Option (BitVec 8 × List (BitVec 8) × CScript)
  | [] => none
  | opcode::pc =>
    if opcode ≤ opPushData4 then
      let k := pushSizeWidth opcode
      if pc.length < k then none
      else
        let nSize := if opcode < opPushData1 then opcode.toNat else leValue (pc.take k)
        let pc := pc.drop k
        if pc.length < nSize then none else some (opcode,pc.take nSize,pc.drop nSize)
    else some (opcode,[],pc)

theorem length_scriptOp {script pc : CScript} {o : BitVec 8} {data : List (BitVec 8)}
    (h : getScriptOp script = some (o,data,pc)) : pc.length < script.length := by
  cases script with
  | nil => exact absurd h (by simp [getScriptOp])
  | cons first rest =>
    rw [getScriptOp] at h
    dsimp only at h
    split_ifs at h
    all_goals
      rw [Option.some.injEq,Prod.mk.injEq,Prod.mk.injEq] at h
      rw [← h.2.2]
      simp only [List.length_drop,List.length_cons]
      omega

def maxPubkeysPerMultisig : ℕ := 20

def decodeOpN (opcode : BitVec 8) : ℕ :=
  if opcode = op0 then 0 else opcode.toNat-(op1.toNat-1)

/-- The loop of `GetSigOpCount`; every operation takes a byte, so the length is enough fuel. -/
def sigOpCountLoop (fAccurate : Bool) : ℕ → CScript → BitVec 8 → ℕ → ℕ
  | 0, _, _, n => n
  | fuel+1, pc, lastOpcode, n =>
    match getScriptOp pc with
    | none => n
    | some (opcode,_,pc) =>
      let n :=
        if opcode = opCheckSig ∨ opcode = opCheckSigVerify then n+1
        else if opcode = opCheckMultiSig ∨ opcode = opCheckMultiSigVerify then
          if fAccurate ∧ op1 ≤ lastOpcode ∧ lastOpcode ≤ op16 then n+decodeOpN lastOpcode
          else n+maxPubkeysPerMultisig
        else n
      sigOpCountLoop fAccurate fuel pc opcode n

def CScript.getSigOpCount (fAccurate : Bool) (script : CScript) : ℕ :=
  sigOpCountLoop fAccurate script.length script opInvalidOpcode 0

theorem sigOpCountLoop_of_length_le {fa : Bool} {fuel fuel' : ℕ} {pc : CScript}
    {lo : BitVec 8} {n : ℕ} (h : pc.length ≤ fuel) (h' : pc.length ≤ fuel') :
    sigOpCountLoop fa fuel pc lo n = sigOpCountLoop fa fuel' pc lo n := by
  induction fuel generalizing fuel' pc lo n with
  | zero =>
    obtain rfl := List.length_eq_zero_iff.mp (Nat.le_zero.mp h)
    cases fuel' <;> rfl
  | succ fuel ih =>
    cases fuel' with
    | zero =>
      obtain rfl := List.length_eq_zero_iff.mp (Nat.le_zero.mp h')
      rfl
    | succ fuel' =>
      rw [sigOpCountLoop,sigOpCountLoop]
      cases ho : getScriptOp pc with
      | none => rfl
      | some op =>
        have hl := length_scriptOp ho
        exact ih (by omega) (by omega)

def getLegacySigOpCount (tx : CTransaction) : ℕ :=
  (tx.vin.map fun txin => CScript.getSigOpCount false txin.scriptSig).sum +
    (tx.vout.map fun txout => CScript.getSigOpCount false txout.scriptPubKey).sum

def isPushOnlyLoop : ℕ → CScript → Bool
  | 0, _ => true
  | fuel+1, pc =>
    match pc, getScriptOp pc with
    | [], _ => true
    | _, none => false
    | _, some (opcode,_,pc) => decide (opcode ≤ op16) && isPushOnlyLoop fuel pc

def CScript.isPushOnly (script : CScript) : Bool := isPushOnlyLoop script.length script

def CScript.isPayToScriptHash (script : CScript) : Bool :=
  script.length == 23 && script.getD 0 0 == opHash160 && script.getD 1 0 == 0x14#8 &&
    script.getD 22 0 == opEqual

def CScript.isWitnessProgram (script : CScript) : Option (ℕ × List (BitVec 8)) :=
  if script.length < 4 ∨ 42 < script.length then none
  else if script.getD 0 0 ≠ op0 ∧ (script.getD 0 0 < op1 ∨ op16 < script.getD 0 0) then none
  else if (script.getD 1 0).toNat+2 = script.length then
    some (decodeOpN (script.getD 0 0),script.drop 2)
  else none

def isPayToAnchor (version : ℕ) (program : List (BitVec 8)) : Bool :=
  version == 1 && program == [0x4e#8,0x73#8]

def isOpSuccess (opcode : BitVec 8) : Bool :=
  let opcode := opcode.toNat
  opcode == 80 || opcode == 98 || (126 ≤ opcode && opcode ≤ 129) ||
    (131 ≤ opcode && opcode ≤ 134) ||
    (137 ≤ opcode && opcode ≤ 138) || (141 ≤ opcode && opcode ≤ 142) ||
    (149 ≤ opcode && opcode ≤ 153) || (187 ≤ opcode && opcode ≤ 254)

/-- Whether no shorter push gives the same data. -/
def checkMinimalPush (data : List (BitVec 8)) (opcode : BitVec 8) : Bool :=
  if data.length = 0 then opcode == op0
  else if data.length = 1 ∧ 1#8 ≤ data.getD 0 0 ∧ data.getD 0 0 ≤ 16#8 then false
  else if data.length = 1 ∧ data.getD 0 0 = 0x81#8 then false
  else if data.length ≤ 75 then opcode.toNat == data.length
  else if data.length ≤ 255 then opcode == opPushData1
  else if data.length ≤ 65535 then opcode == opPushData2
  else true

end DripCore
