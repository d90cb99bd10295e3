import DripCore.SignatureChecks

/-!
# The script interpreter

`EvalScript` over a stack whose top comes first. Opcodes that differ in one operation are kept
together. Exceptions are the error that the handler around the loop sets.

The loop has fuel, and the length of the script is enough of it, since every round takes at least
one byte. The checks of sizes and counts stand before the switch on the opcode, as in the source.
-/
namespace DripCore
open ExceptRules PrefixCode

def castToBool : Valtype → Bool
  | [] => false
  | [byte] => byte != 0#8 && byte != 0x80#8
  | byte::vch => byte != 0#8 || castToBool vch

def vchBool (b : Bool) : Valtype := if b then [1#8] else []

/-- `CScriptNum::set_vch`. The sign is the highest bit of the last byte. -/
def setVch (vch : Valtype) : ℤ :=
  if vch.getLastD 0 &&& 0x80#8 ≠ 0#8 then
    -((leValue vch % (0x80*256^(vch.length-1)) : ℕ) : ℤ)
  else leValue vch

/-- A last byte that only carries a sign, and is not needed for it. -/
def hasSpareByte (vch : Valtype) : Bool :=
  decide (0 < vch.length) && vch.getLastD 0 &&& 0x7f#8 == 0#8 &&
    (decide (vch.length ≤ 1) || vch.getD (vch.length-2) 0 &&& 0x80#8 == 0#8)

def scriptNum (fRequireMinimal : Bool) (nMaxNumSize : ℕ) (vch : Valtype) : ScriptResult ℤ := do
  failIf (decide (nMaxNumSize < vch.length)) (.error .unknownError)
  failIf (fRequireMinimal && hasSpareByte vch) (.error .unknownError)
  return setVch vch

def nDefaultMaxNumSize : ℕ := 4

def getInt (n : ℤ) : ℤ := if 2^31-1 < n then 2^31-1 else if n < -2^31 then -2^31 else n

example : setVch [0xff#8,0x80#8] = -255 := by decide

/-- The size of the stack of conditions and the position of the first that is false. -/
structure ConditionStack where
  m_stack_size : ℕ
  m_first_false_pos : Option ℕ

namespace ConditionStack

def init : ConditionStack := ⟨0,none⟩

def empty (vfExec : ConditionStack) : Bool := vfExec.m_stack_size == 0

def allTrue (vfExec : ConditionStack) : Bool := vfExec.m_first_false_pos.isNone

def pushBack (vfExec : ConditionStack) (f : Bool) : ConditionStack where
  m_stack_size := vfExec.m_stack_size+1
  m_first_false_pos :=
    if vfExec.allTrue && !f then some vfExec.m_stack_size else vfExec.m_first_false_pos

def popBack (vfExec : ConditionStack) : ConditionStack where
  m_stack_size := vfExec.m_stack_size-1
  m_first_false_pos :=
    if vfExec.m_first_false_pos = some (vfExec.m_stack_size-1) then none
    else vfExec.m_first_false_pos

def toggleTop (vfExec : ConditionStack) : ConditionStack where
  m_stack_size := vfExec.m_stack_size
  m_first_false_pos :=
    match vfExec.m_first_false_pos with
    | none => some (vfExec.m_stack_size-1)
    | some pos => if pos = vfExec.m_stack_size-1 then none else some pos

end ConditionStack

inductive StackOp where
  | drop2 | dup2 | dup3 | over2 | rot2 | swap2 | ifDup | depth | drop | dup | nip | over | rot
  | swap | tuck | size
deriving DecidableEq

inductive UnaryOp where
  | add1 | sub1 | negate | abs | not | notEqual0
deriving DecidableEq

inductive BinaryOp where
  | add | sub | boolAnd | boolOr | numEqual | numEqualVerify | numNotEqual | lessThan | greaterThan
  | lessThanOrEqual | greaterThanOrEqual | min | max
deriving DecidableEq

inductive HashOp where
  | ripemd160 | sha1 | sha256 | hash160 | hash256
deriving DecidableEq

inductive Opcode where
  | number (n : ℤ)
  | nop | checkLockTimeVerify | checkSequenceVerify | upgradableNop
  | conditional (negated : Bool) | otherwise | endIf | verify | returnOp
  | toAltStack | fromAltStack | stack (op : StackOp) | pick | roll
  | equal (verify : Bool) | unary (op : UnaryOp) | binary (op : BinaryOp) | within
  | hash (op : HashOp) | codeSeparator | checkSig (verify : Bool) | checkSigAdd
  | checkMultiSig (verify : Bool)
  | invalid
deriving DecidableEq

def opcodeTable : List (ℕ × Opcode) := [
  (0x61,.nop),(0x63,.conditional false),(0x64,.conditional true),(0x67,.otherwise),
  (0x68,.endIf),(0x69,.verify),(0x6a,.returnOp),(0x6b,.toAltStack),(0x6c,.fromAltStack),
  (0x6d,.stack .drop2),(0x6e,.stack .dup2),(0x6f,.stack .dup3),(0x70,.stack .over2),
  (0x71,.stack .rot2),(0x72,.stack .swap2),(0x73,.stack .ifDup),(0x74,.stack .depth),
  (0x75,.stack .drop),(0x76,.stack .dup),(0x77,.stack .nip),(0x78,.stack .over),
  (0x79,.pick),(0x7a,.roll),(0x7b,.stack .rot),(0x7c,.stack .swap),(0x7d,.stack .tuck),
  (0x82,.stack .size),(0x87,.equal false),(0x88,.equal true),(0x8b,.unary .add1),
  (0x8c,.unary .sub1),(0x8f,.unary .negate),(0x90,.unary .abs),(0x91,.unary .not),
  (0x92,.unary .notEqual0),(0x93,.binary .add),(0x94,.binary .sub),(0x9a,.binary .boolAnd),
  (0x9b,.binary .boolOr),(0x9c,.binary .numEqual),(0x9d,.binary .numEqualVerify),
  (0x9e,.binary .numNotEqual),(0x9f,.binary .lessThan),(0xa0,.binary .greaterThan),
  (0xa1,.binary .lessThanOrEqual),(0xa2,.binary .greaterThanOrEqual),(0xa3,.binary .min),
  (0xa4,.binary .max),(0xa5,.within),(0xa6,.hash .ripemd160),(0xa7,.hash .sha1),
  (0xa8,.hash .sha256),(0xa9,.hash .hash160),(0xaa,.hash .hash256),(0xab,.codeSeparator),
  (0xac,.checkSig false),(0xad,.checkSig true),(0xae,.checkMultiSig false),
  (0xaf,.checkMultiSig true),(0xb0,.upgradableNop),(0xb1,.checkLockTimeVerify),
  (0xb2,.checkSequenceVerify),(0xb3,.upgradableNop),(0xb4,.upgradableNop),
  (0xb5,.upgradableNop),(0xb6,.upgradableNop),(0xb7,.upgradableNop),(0xb8,.upgradableNop),
  (0xb9,.upgradableNop),(0xba,.checkSigAdd)]

def op1Negate : BitVec 8 := 0x4f#8
def opIf : BitVec 8 := 0x63#8
def opEndIf : BitVec 8 := 0x68#8
def opCodeSeparator : BitVec 8 := 0xab#8

/-- The case that an opcode is of; opcodes without a case are invalid. -/
def Opcode.ofByte (opcode : BitVec 8) : Opcode :=
  if opcode = op1Negate ∨ op1 ≤ opcode ∧ opcode ≤ op16 then
    .number ((opcode.toNat : ℤ)-(op1.toNat-1))
  else (opcodeTable.lookup opcode.toNat).getD .invalid

/-- `OP_CAT` to `OP_RIGHT`, the bitwise operations and the arithmetic ones that were taken away. -/
def isDisabledOpcode (opcode : BitVec 8) : Bool :=
  opcode ∈ [0x7e#8,0x7f#8,0x80#8,0x81#8,0x83#8,0x84#8,0x85#8,0x86#8,0x8d#8,0x8e#8,0x95#8,
    0x96#8,0x97#8,0x98#8,0x99#8]

example : Opcode.ofByte 0x60#8 = .number 16 := by decide

section
variable (fRequireMinimal : Bool)

def invalidStack {α : Type} : ScriptResult α := throw (.error .invalidStackOperation)

def evalStackOp : StackOp → List Valtype → ScriptResult (List Valtype)
  | .drop2, _::_::s => return s
  | .dup2, x2::x1::s => return x2::x1::x2::x1::s
  | .dup3, x3::x2::x1::s => return x3::x2::x1::x3::x2::x1::s
  | .over2, x4::x3::x2::x1::s => return x2::x1::x4::x3::x2::x1::s
  | .rot2, x6::x5::x4::x3::x2::x1::s => return x2::x1::x6::x5::x4::x3::s
  | .swap2, x4::x3::x2::x1::s => return x2::x1::x4::x3::s
  | .ifDup, x::s => return if castToBool x then x::x::s else x::s
  | .depth, s => return scriptNumSerialize s.length::s
  | .drop, _::s => return s
  | .dup, x::s => return x::x::s
  | .nip, x2::_::s => return x2::s
  | .over, x2::x1::s => return x1::x2::x1::s
  | .rot, x3::x2::x1::s => return x1::x3::x2::s
  | .swap, x2::x1::s => return x1::x2::s
  | .tuck, x2::x1::s => return x2::x1::x2::s
  | .size, x::s => return scriptNumSerialize x.length::x::s
  | _, _ => invalidStack

/-- `OP_PICK`, and `OP_ROLL` which also takes the element away. -/
def evalPick (roll : Bool) : List Valtype → ScriptResult (List Valtype)
  | vch::x::s => do
      let n := getInt (← scriptNum fRequireMinimal nDefaultMaxNumSize vch)
      let stack := x::s
      if n < 0 ∨ (stack.length : ℤ) ≤ n then invalidStack
      else
        let rest := if roll then stack.eraseIdx n.toNat else stack
        return stack.getD n.toNat []::rest
  | _ => invalidStack

def UnaryOp.apply : UnaryOp → ℤ → ℤ
  | .add1, bn => bn+1
  | .sub1, bn => bn-1
  | .negate, bn => -bn
  | .abs, bn => if bn < 0 then -bn else bn
  | .not, bn => if bn = 0 then 1 else 0
  | .notEqual0, bn => if bn ≠ 0 then 1 else 0

def evalUnary (op : UnaryOp) : List Valtype → ScriptResult (List Valtype)
  | x::s => do
      let bn ← scriptNum fRequireMinimal nDefaultMaxNumSize x
      return scriptNumSerialize (op.apply bn)::s
  | _ => invalidStack

def BinaryOp.apply : BinaryOp → ℤ → ℤ → ℤ
  | .add, bn1, bn2 => bn1+bn2
  | .sub, bn1, bn2 => bn1-bn2
  | .boolAnd, bn1, bn2 => if bn1 ≠ 0 ∧ bn2 ≠ 0 then 1 else 0
  | .boolOr, bn1, bn2 => if bn1 ≠ 0 ∨ bn2 ≠ 0 then 1 else 0
  | .numEqual, bn1, bn2 => if bn1 = bn2 then 1 else 0
  | .numEqualVerify, bn1, bn2 => if bn1 = bn2 then 1 else 0
  | .numNotEqual, bn1, bn2 => if bn1 ≠ bn2 then 1 else 0
  | .lessThan, bn1, bn2 => if bn1 < bn2 then 1 else 0
  | .greaterThan, bn1, bn2 => if bn2 < bn1 then 1 else 0
  | .lessThanOrEqual, bn1, bn2 => if bn1 ≤ bn2 then 1 else 0
  | .greaterThanOrEqual, bn1, bn2 => if bn2 ≤ bn1 then 1 else 0
  | .min, bn1, bn2 => if bn1 < bn2 then bn1 else bn2
  | .max, bn1, bn2 => if bn2 < bn1 then bn1 else bn2

/-- An operation that leaves a truth value, which its verifying form takes away again. -/
def verifyTop (verify : Bool) (serror : ScriptError) (top : Valtype) (s : List Valtype) :
    ScriptResult (List Valtype) :=
  if verify then do
    failIf (!castToBool top) (.error serror)
    return s
  else return top::s

def evalBinary (op : BinaryOp) : List Valtype → ScriptResult (List Valtype)
  | x2::x1::s => do
      let bn1 ← scriptNum fRequireMinimal nDefaultMaxNumSize x1
      let bn2 ← scriptNum fRequireMinimal nDefaultMaxNumSize x2
      verifyTop (decide (op = .numEqualVerify)) .numEqualVerify
        (scriptNumSerialize (op.apply bn1 bn2)) s
  | _ => invalidStack

def evalWithin : List Valtype → ScriptResult (List Valtype)
  | x3::x2::x1::s => do
      let bn1 ← scriptNum fRequireMinimal nDefaultMaxNumSize x1
      let bn2 ← scriptNum fRequireMinimal nDefaultMaxNumSize x2
      let bn3 ← scriptNum fRequireMinimal nDefaultMaxNumSize x3
      return vchBool (decide (bn2 ≤ bn1) && decide (bn1 < bn3))::s
  | _ => invalidStack

def evalEqual (verify : Bool) : List Valtype → ScriptResult (List Valtype)
  | x2::x1::s => verifyTop verify .equalVerify (vchBool (x1 == x2)) s
  | _ => invalidStack

def HashOp.apply (crypto : ScriptCrypto) : HashOp → Valtype → Valtype
  | .ripemd160, vch => crypto.ripemd160 vch
  | .sha1, vch => crypto.sha1 vch
  | .sha256, vch => crypto.sha256 vch
  | .hash160, vch => crypto.ripemd160 (crypto.sha256 vch)
  | .hash256, vch => crypto.sha256 (crypto.sha256 vch)

def evalHash (crypto : ScriptCrypto) (op : HashOp) : List Valtype → ScriptResult (List Valtype)
  | x::s => return op.apply crypto x::s
  | _ => invalidStack

end

variable (crypto : ScriptCrypto) (checker : SignatureChecker) (flags : ScriptVerifyFlags)
  (sigversion : SigVersion)

/-- The operand of a lock time operation, which is on top of the stack. -/
def lockTimeOperand : List Valtype → ScriptResult ℤ
  | vch::_ => do
      let n ← scriptNum (flags .minimalData) 5 vch
      failIf (decide (n < 0)) (.error .negativeLocktime)
      return n
  | [] => invalidStack

def evalCheckLockTimeVerify (stack : List Valtype) : ScriptResult Unit :=
  checkIf (flags .checkLockTimeVerify) do
    let nLockTime ← lockTimeOperand flags stack
    failIf (!checker.checkLockTime nLockTime) (.error .unsatisfiedLocktime)

/-- An operand with the flag that disables the lock is not compared. -/
def evalCheckSequenceVerify (stack : List Valtype) : ScriptResult Unit :=
  checkIf (flags .checkSequenceVerify) do
    let nSequence ← lockTimeOperand flags stack
    failIf (!nSequence.toNat.testBit 31 && !checker.checkSequence nSequence)
      (.error .unsatisfiedLocktime)

/-- The argument must be empty or one in tapscript, and in witness scripts by policy. -/
def checkMinimalIf (vch : Valtype) : ScriptResult Unit := do
  let minimal := decide (vch = [] ∨ vch = [1#8])
  failIf (decide (sigversion = .tapscript) && !minimal) (.error .tapscriptMinimalIf)
  failIf (decide (sigversion = .witnessV0) && flags .minimalIf && !minimal) (.error .minimalIf)

structure EvalState where
  stack : List Valtype
  altstack : List Valtype
  vfExec : ConditionStack
  nOpCount : ℕ
  pbegincodehash : CScript
  execdata : ScriptExecutionData

/-- A condition is evaluated only where the script is executed. -/
def evalConditional (negated : Bool) (st : EvalState) : ScriptResult EvalState :=
  if st.vfExec.allTrue then
    match st.stack with
    | [] => throw (.error .unbalancedConditional)
    | vch::stack => do
        checkMinimalIf flags sigversion vch
        let fValue := if negated then !castToBool vch else castToBool vch
        return { st with
          stack := stack
          vfExec := st.vfExec.pushBack fValue }
  else return { st with vfExec := st.vfExec.pushBack false }

def evalChecksigOp (verify : Bool) (st : EvalState) : ScriptResult EvalState :=
  match st.stack with
  | vchPubKey::vchSig::s => do
      let (fSuccess,execdata) ←
        evalChecksig crypto checker flags vchSig vchPubKey st.pbegincodehash st.execdata sigversion
      let stack ← verifyTop verify .checkSigVerify (vchBool fSuccess) s
      return { st with
        stack := stack
        execdata := execdata }
  | _ => invalidStack

def evalChecksigAdd (st : EvalState) : ScriptResult EvalState :=
  if sigversion = .base ∨ sigversion = .witnessV0 then throw (.error .badOpcode)
  else
    match st.stack with
    | pubkey::num::sig::s => do
        let num ← scriptNum (flags .minimalData) nDefaultMaxNumSize num
        let (success,execdata) ←
          evalChecksig crypto checker flags sig pubkey st.pbegincodehash st.execdata sigversion
        return { st with
          stack := scriptNumSerialize (num+if success then 1 else 0)::s
          execdata := execdata }
    | _ => invalidStack

/-- The signatures of `CHECKMULTISIG` are dropped from the script code one after the other. -/
def dropSignatures : List Valtype → CScript → ScriptResult CScript
  | [], scriptCode => return scriptCode
  | vchSig::sigs, scriptCode => do
      let scriptCode ← dropSignature flags sigversion vchSig scriptCode
      dropSignatures sigs scriptCode

/-- The loop over keys and signatures, which ends when the signatures outnumber the keys. -/
def multisigLoop (scriptCode : CScript) : List Valtype → List Valtype → ScriptResult Bool
  | _, [] => return true
  | [], _::_ => return false
  | vchPubKey::keys, vchSig::sigs => do
      checkSignatureEncoding crypto flags vchSig
      checkPubKeyEncoding flags vchPubKey sigversion
      let fOk := checker.checkECDSASignature vchSig vchPubKey scriptCode sigversion
      let sigs := if fOk then sigs else vchSig::sigs
      if keys.length < sigs.length then return false
      else multisigLoop scriptCode keys sigs

/-- The arguments are taken off the stack; after a failure all signatures have to be empty. -/
def cleanUpLoop (fSuccess : Bool) : ℕ → ℕ → List Valtype → ScriptResult (List Valtype)
  | 0, _, stack => return stack
  | _+1, _, [] => throw (.error .unknownError)
  | i+1, ikey2, top::stack => do
      failIf (!fSuccess && flags .nullFail && decide (ikey2 = 0) && decide (top.length ≠ 0))
        (.error .sigNullFail)
      cleanUpLoop fSuccess i (ikey2-1) stack

def maxOpsPerScript : ℕ := 201

def multisigKeysCount (st : EvalState) : ScriptResult (ℕ × ℕ) :=
  match st.stack with
  | [] => invalidStack
  | top::_ => do
      let nKeysCount := getInt (← scriptNum (flags .minimalData) nDefaultMaxNumSize top)
      failIf (decide (nKeysCount < 0 ∨ maxPubkeysPerMultisig < nKeysCount)) (.error .pubkeyCount)
      let nOpCount := st.nOpCount+nKeysCount.toNat
      failIf (decide (maxOpsPerScript < nOpCount)) (.error .opCount)
      return (nKeysCount.toNat,nOpCount)

def multisigSigsCount (nKeysCount : ℕ) (stack : List Valtype) : ScriptResult ℕ :=
  match stack[nKeysCount+1]? with
  | none => invalidStack
  | some vch => do
      let nSigsCount := getInt (← scriptNum (flags .minimalData) nDefaultMaxNumSize vch)
      failIf (decide (nSigsCount < 0 ∨ nKeysCount < nSigsCount)) (.error .sigCount)
      return nSigsCount.toNat

/-- The element that is consumed for no reason has to be empty by policy. -/
def popDummy : List Valtype → ScriptResult (List Valtype)
  | [] => invalidStack
  | dummy::stack => do
      failIf (flags .nullDummy && decide (dummy.length ≠ 0)) (.error .sigNullDummy)
      return stack

def evalCheckMultisig (verify : Bool) (st : EvalState) : ScriptResult EvalState :=
  if sigversion = .tapscript then throw (.error .tapscriptCheckMultiSig)
  else do
    let (nKeysCount,nOpCount) ← multisigKeysCount flags st
    let nSigsCount ← multisigSigsCount flags nKeysCount st.stack
    failIf (decide (st.stack.length < nKeysCount+nSigsCount+3)) (.error .invalidStackOperation)
    let keys := (st.stack.drop 1).take nKeysCount
    let sigs := (st.stack.drop (nKeysCount+2)).take nSigsCount
    let scriptCode ← dropSignatures flags sigversion sigs st.pbegincodehash
    let fSuccess ← multisigLoop crypto checker flags sigversion scriptCode keys sigs
    let stack ← cleanUpLoop flags fSuccess (nKeysCount+nSigsCount+2) (nKeysCount+2) st.stack
    let stack ← popDummy flags stack
    let stack ← verifyTop verify .checkMultiSigVerify (vchBool fSuccess) stack
    return { st with
      stack := stack
      nOpCount := nOpCount }

def onStack (st : EvalState) (f : List Valtype → ScriptResult (List Valtype)) :
    ScriptResult EvalState := do
  let stack ← f st.stack
  return { st with stack := stack }

/-- The switch over opcodes, with the rest of the script and the position of the opcode. -/
def evalOpcode (pc : CScript) (opcode_pos : ℕ) (st : EvalState) : Opcode → ScriptResult EvalState
  | .number n => return { st with stack := scriptNumSerialize n::st.stack }
  | .nop => return st
  | .checkLockTimeVerify => do
      evalCheckLockTimeVerify checker flags st.stack
      return st
  | .checkSequenceVerify => do
      evalCheckSequenceVerify checker flags st.stack
      return st
  | .upgradableNop => do
      failIf (flags .discourageUpgradableNops) (.error .discourageUpgradableNops)
      return st
  | .conditional negated => evalConditional flags sigversion negated st
  | .otherwise => do
      failIf st.vfExec.empty (.error .unbalancedConditional)
      return { st with vfExec := st.vfExec.toggleTop }
  | .endIf => do
      failIf st.vfExec.empty (.error .unbalancedConditional)
      return { st with vfExec := st.vfExec.popBack }
  | .verify =>
    match st.stack with
    | top::stack => do
        failIf (!castToBool top) (.error .verify)
        return { st with stack := stack }
    | [] => invalidStack
  | .returnOp => throw (.error .opReturn)
  | .toAltStack =>
    match st.stack with
    | top::stack => return { st with
        stack := stack
        altstack := top::st.altstack }
    | [] => invalidStack
  | .fromAltStack =>
    match st.altstack with
    | top::altstack => return { st with
        stack := top::st.stack
        altstack := altstack }
    | [] => throw (.error .invalidAltstackOperation)
  | .stack op => onStack st (evalStackOp op)
  | .pick => onStack st (evalPick (flags .minimalData) false)
  | .roll => onStack st (evalPick (flags .minimalData) true)
  | .equal verify => onStack st (evalEqual verify)
  | .unary op => onStack st (evalUnary (flags .minimalData) op)
  | .binary op => onStack st (evalBinary (flags .minimalData) op)
  | .within => onStack st (evalWithin (flags .minimalData))
  | .hash op => onStack st (evalHash crypto op)
  | .codeSeparator => return { st with
      pbegincodehash := pc
      execdata := { st.execdata with m_codeseparator_pos := some opcode_pos } }
  | .checkSig verify => evalChecksigOp crypto checker flags sigversion verify st
  | .checkSigAdd => evalChecksigAdd crypto checker flags sigversion st
  | .checkMultiSig verify => evalCheckMultisig crypto checker flags sigversion verify st
  | .invalid => throw (.error .badOpcode)

def maxScriptElementSize : ℕ := 520

def maxStackSize : ℕ := 1000

/-- Scripts before tapscript have limits of their own. -/
def SigVersion.preTapscript (sigversion : SigVersion) : Bool :=
  decide (sigversion = .base ∨ sigversion = .witnessV0)

/-- Data is pushed, and other opcodes are evaluated where the script is executed or they may change
that. -/
def dispatch (opcode : BitVec 8) (vchPushValue : Valtype) (pc : CScript) (opcode_pos : ℕ)
    (st : EvalState) : ScriptResult EvalState :=
  if st.vfExec.allTrue ∧ opcode ≤ opPushData4 then do
    failIf (flags .minimalData && !checkMinimalPush vchPushValue opcode) (.error .minimalData)
    return { st with stack := vchPushValue::st.stack }
  else if st.vfExec.allTrue ∨ opIf ≤ opcode ∧ opcode ≤ opEndIf then
    evalOpcode crypto checker flags sigversion pc opcode_pos st (.ofByte opcode)
  else return st

def evalStep (opcode : BitVec 8) (vchPushValue : Valtype) (pc : CScript) (opcode_pos : ℕ)
    (st : EvalState) : ScriptResult EvalState := do
  failIf (decide (maxScriptElementSize < vchPushValue.length)) (.error .pushSize)
  let counted := sigversion.preTapscript && decide (op16 < opcode)
  let nOpCount := if counted then st.nOpCount+1 else st.nOpCount
  failIf (counted && decide (maxOpsPerScript < nOpCount)) (.error .opCount)
  failIf (isDisabledOpcode opcode) (.error .disabledOpcode)
  failIf (opcode == opCodeSeparator && decide (sigversion = .base) && flags .constScriptCode)
    (.error .opCodeSeparator)
  let st ← dispatch crypto checker flags sigversion opcode vchPushValue pc opcode_pos
    { st with nOpCount := nOpCount }
  failIf (decide (maxStackSize < st.stack.length+st.altstack.length)) (.error .stackSize)
  return st

/-- The loop of `EvalScript`; every opcode takes a byte, so the length is enough fuel. -/
def evalLoop : ℕ → CScript → ℕ → EvalState → ScriptResult EvalState
  | 0, _, _, st => return st
  | fuel+1, pc, opcode_pos, st =>
    if pc = [] then return st
    else
      match getScriptOp pc with
      | none => throw (.error .badOpcode)
      | some (opcode,vchPushValue,pc) => do
          let st ← evalStep crypto checker flags sigversion opcode vchPushValue pc opcode_pos st
          evalLoop fuel pc (opcode_pos+1) st

theorem evalLoop_of_length_le {fuel fuel' : ℕ} {pc : CScript} {o : ℕ} {st : EvalState}
    (h : pc.length ≤ fuel) (h' : pc.length ≤ fuel') :
    evalLoop crypto checker flags sigversion fuel pc o st =
      evalLoop crypto checker flags sigversion fuel' pc o st := by
  induction fuel generalizing fuel' pc o st with
  | zero =>
    obtain rfl := List.length_eq_zero_iff.mp (Nat.le_zero.mp h)
    cases fuel' <;> rfl
  | succ fuel ih =>
    cases fuel' with
    | zero =>
      obtain rfl := List.length_eq_zero_iff.mp (Nat.le_zero.mp h')
      rfl
    | succ fuel' =>
      rw [evalLoop,evalLoop]
      cases ho : getScriptOp pc with
      | none => rfl
      | some op =>
        have hl := length_scriptOp ho
        have hh (st : EvalState) : evalLoop crypto checker flags sigversion fuel op.2.2 (o+1) st =
              evalLoop crypto checker flags sigversion fuel' op.2.2 (o+1) st :=
          ih (Nat.le_of_lt_succ (hl.trans_le h)) (Nat.le_of_lt_succ (hl.trans_le h'))
        simp only [hh]

def evalScript (stack : List Valtype) (script : CScript) (execdata : ScriptExecutionData) :
    ScriptResult (List Valtype) :=
  if sigversion = .taproot then throw .assertion
  else do
    failIf (sigversion.preTapscript && decide (maxScriptSize < script.length)) (.error .scriptSize)
    let st ← evalLoop crypto checker flags sigversion script.length script 0
      { stack := stack
        altstack := []
        vfExec := .init
        nOpCount := 0
        pbegincodehash := script
        execdata := { execdata with m_codeseparator_pos := some 0xffffffff } }
    failIf (!st.vfExec.empty) (.error .unbalancedConditional)
    return st.stack

end DripCore
