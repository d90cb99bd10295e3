import DripCore.ExceptRules
import DripCore.Script
import DripCore.ScriptHeight

/-!
# Signatures in scripts

Verification flags and script errors, what the interpreter asks of a signature checker and of
cryptography, the encodings it insists on, and `EvalChecksig`. A failed assertion is told apart
from a script error.
-/
namespace DripCore
open ExceptRules PrefixCode

abbrev Valtype := List (BitVec 8)

inductive ScriptVerifyFlag where
  | p2sh | strictEnc | derSig | lowS | nullDummy | sigPushOnly | minimalData
  | discourageUpgradableNops | cleanStack | checkLockTimeVerify | checkSequenceVerify | witness
  | discourageUpgradableWitnessProgram | minimalIf | nullFail | witnessPubkeyType | constScriptCode
  | taproot | discourageUpgradableTaprootVersion | discourageOpSuccess
  | discourageUpgradablePubkeyType
deriving DecidableEq

abbrev ScriptVerifyFlags := ScriptVerifyFlag → Bool

inductive ScriptError where
  | unknownError | evalFalse | opReturn
  | scriptSize | pushSize | opCount | stackSize | sigCount | pubkeyCount
  | verify | equalVerify | checkMultiSigVerify | checkSigVerify | numEqualVerify
  | badOpcode | disabledOpcode | invalidStackOperation | invalidAltstackOperation
  | unbalancedConditional | negativeLocktime | unsatisfiedLocktime
  | sigHashtype | sigDer | minimalData | sigPushOnly | sigHighS | sigNullDummy | pubkeyType
  | cleanStack | minimalIf | sigNullFail
  | discourageUpgradableNops | discourageUpgradableWitnessProgram
  | discourageUpgradableTaprootVersion | discourageOpSuccess | discourageUpgradablePubkeyType
  | witnessProgramWrongLength | witnessProgramWitnessEmpty | witnessProgramMismatch
  | witnessMalleated | witnessMalleatedP2SH | witnessUnexpected | witnessPubkeyType
  | schnorrSigSize | schnorrSigHashtype | schnorrSig | taprootWrongControlSize
  | tapscriptValidationWeight | tapscriptCheckMultiSig | tapscriptMinimalIf | tapscriptEmptyPubkey
  | opCodeSeparator | sigFindAndDelete
deriving DecidableEq

inductive ScriptFailure where
  | error (serror : ScriptError)
  | assertion
deriving DecidableEq

abbrev ScriptResult := Except ScriptFailure

inductive SigVersion where
  | base | witnessV0 | taproot | tapscript
deriving DecidableEq

/-- Members with a flag that tells whether they are initialised are optional. -/
structure ScriptExecutionData where
  m_tapleaf_hash : Option Valtype
  m_codeseparator_pos : Option ℕ
  m_annex_hash : Option (Option Valtype)
  m_validation_weight_left : Option ℤ
  m_output_hash : Option Valtype

def ScriptExecutionData.init : ScriptExecutionData := ⟨none,none,none,none,none⟩

/-- `BaseSignatureChecker`. Checking a Schnorr signature may change the execution data. -/
structure SignatureChecker where
  checkECDSASignature : Valtype → Valtype → CScript → SigVersion → Bool
  checkSchnorrSignature : Valtype → Valtype → SigVersion → ScriptExecutionData →
    Except ScriptError ScriptExecutionData
  checkLockTime : ℤ → Bool
  checkSequence : ℤ → Bool

/-- The hash functions and what is asked of the curve library. -/
structure ScriptCrypto where
  ripemd160 : Valtype → Valtype
  sha1 : Valtype → Valtype
  sha256 : Valtype → Valtype
  taggedHash : String → Valtype → Valtype
  checkLowS : Valtype → Bool
  checkTapTweak : Valtype → Valtype → Valtype → Bool → Bool

def isCompressedOrUncompressedPubKey (vchPubKey : Valtype) : Bool :=
  if vchPubKey.length < 33 then false
  else if vchPubKey.getD 0 0 = 0x04#8 then vchPubKey.length == 65
  else if vchPubKey.getD 0 0 = 0x02#8 ∨ vchPubKey.getD 0 0 = 0x03#8 then vchPubKey.length == 33
  else false

def isCompressedPubKey (vchPubKey : Valtype) : Bool :=
  if vchPubKey.length ≠ 33 then false
  else vchPubKey.getD 0 0 == 0x02#8 || vchPubKey.getD 0 0 == 0x03#8

/-- `0x30 [total-length] 0x02 [R-length] [R] 0x02 [S-length] [S] [sighash]`. -/
def isValidSignatureEncoding (sig : Valtype) : Bool :=
  let byte (i : ℕ) : ℕ := (sig.getD i 0).toNat
  let lenR := byte 3
  let lenS := byte (5+lenR)
  if sig.length < 9 ∨ 73 < sig.length then false
  else if byte 0 ≠ 0x30 then false
  else if byte 1 ≠ sig.length-3 then false
  else if sig.length ≤ 5+lenR then false
  else if lenR+lenS+7 ≠ sig.length then false
  else if byte 2 ≠ 0x02 then false
  else if lenR = 0 then false
  else if 0x80 ≤ byte 4 then false
  else if 1 < lenR ∧ byte 4 = 0 ∧ byte 5 < 0x80 then false
  else if byte (lenR+4) ≠ 0x02 then false
  else if lenS = 0 then false
  else if 0x80 ≤ byte (lenR+6) then false
  else if 1 < lenS ∧ byte (lenR+6) = 0 ∧ byte (lenR+7) < 0x80 then false
  else true

/-- The last byte without `SIGHASH_ANYONECANPAY` is `ALL`, `NONE` or `SINGLE`. -/
def isDefinedHashtypeSignature (vchSig : Valtype) : Bool :=
  match vchSig.getLast? with
  | none => false
  | some last =>
    let nHashType := (last &&& 0x7f#8).toNat
    decide (1 ≤ nHashType ∧ nHashType ≤ 3)

section
variable (crypto : ScriptCrypto) (flags : ScriptVerifyFlags)

def isLowDERSignature (vchSig : Valtype) : ScriptResult Unit := do
  failIf (!isValidSignatureEncoding vchSig) (.error .sigDer)
  failIf (!crypto.checkLowS vchSig.dropLast) (.error .sigHighS)

def checkSignatureEncoding (vchSig : Valtype) : ScriptResult Unit :=
  if vchSig.length = 0 then return ()
  else do
    failIf ((flags .derSig || flags .lowS || flags .strictEnc) && !isValidSignatureEncoding vchSig)
      (.error .sigDer)
    checkIf (flags .lowS) (isLowDERSignature crypto vchSig)
    failIf (flags .strictEnc && !isDefinedHashtypeSignature vchSig) (.error .sigHashtype)

def checkPubKeyEncoding (vchPubKey : Valtype) (sigversion : SigVersion) : ScriptResult Unit := do
  failIf (flags .strictEnc && !isCompressedOrUncompressedPubKey vchPubKey) (.error .pubkeyType)
  failIf (flags .witnessPubkeyType && decide (sigversion = .witnessV0) &&
    !isCompressedPubKey vchPubKey)
    (.error .witnessPubkeyType)

end

def pushData (data : Valtype) : CScript := appendDataSize data.length++data

/-- The inner loop of `FindAndDelete`: copies of a script off the front, and how many. -/
def stripCopies (b : CScript) : ℕ → CScript → ℕ → CScript × ℕ
  | 0, pc, nFound => (pc,nFound)
  | fuel+1, pc, nFound =>
    if b.length ≤ pc.length ∧ pc.take b.length = b then stripCopies b fuel (pc.drop b.length)
      (nFound+1)
    else (pc,nFound)

/-- The outer loop: `result` is what was kept, and `pc2` where it has not been copied from yet. -/
def findAndDeleteLoop (b : CScript) : ℕ → CScript → CScript → ℕ → CScript × ℕ
  | 0, pc, result, nFound => (result++pc,nFound)
  | fuel+1, pc, result, nFound =>
    let (pc2,nFound) := stripCopies b pc.length pc nFound
    match getScriptOp pc2 with
    | none => (result++pc2,nFound)
    | some (_,_,pc) =>
      findAndDeleteLoop b fuel pc (result++pc2.take (pc2.length-pc.length)) nFound

/-- The script without the copies of another, and how many there were. -/
def findAndDelete (script b : CScript) : CScript × ℕ :=
  if b = [] then (script,0)
  else
    let (result,nFound) := findAndDeleteLoop b (script.length+1) script [] 0
    if 0 < nFound then (result,nFound) else (script,nFound)

def validationWeightPerSigopPassed : ℤ := 50

variable (crypto : ScriptCrypto) (checker : SignatureChecker) (flags : ScriptVerifyFlags)

/-- A signature is dropped from the script code of a pre-segwit script. -/
def dropSignature (sigversion : SigVersion) (vchSig : Valtype) (scriptCode : CScript) :
    ScriptResult CScript :=
  if sigversion = .base then do
    let (scriptCode,found) := findAndDelete scriptCode (pushData vchSig)
    failIf (decide (0 < found) && flags .constScriptCode) (.error .sigFindAndDelete)
    return scriptCode
  else return scriptCode

def evalChecksigPreTapscript (vchSig vchPubKey : Valtype) (pbegincodehash : CScript)
    (sigversion : SigVersion) : ScriptResult Bool := do
  let scriptCode ← dropSignature flags sigversion vchSig pbegincodehash
  checkSignatureEncoding crypto flags vchSig
  checkPubKeyEncoding flags vchPubKey sigversion
  let fSuccess := checker.checkECDSASignature vchSig vchPubKey scriptCode sigversion
  failIf (!fSuccess && flags .nullFail && decide (vchSig.length ≠ 0)) (.error .sigNullFail)
  return fSuccess

/-- The validation weight after a signature that is not empty. -/
def payValidationWeight (execdata : ScriptExecutionData) : ScriptResult ScriptExecutionData :=
  match execdata.m_validation_weight_left with
  | none => throw .assertion
  | some weight => do
      let weight := weight-validationWeightPerSigopPassed
      failIf (decide (weight < 0)) (.error .tapscriptValidationWeight)
      return { execdata with m_validation_weight_left := some weight }

def evalChecksigTapscript (sig pubkey : Valtype) (execdata : ScriptExecutionData)
    (sigversion : SigVersion) : ScriptResult (Bool × ScriptExecutionData) := do
  let success := decide (sig ≠ [])
  let execdata ← applyIf success payValidationWeight execdata
  failIf (decide (pubkey.length = 0)) (.error .tapscriptEmptyPubkey)
  if pubkey.length = 32 then do
    if success then do
      let execdata ← (checker.checkSchnorrSignature sig pubkey sigversion execdata).mapError .error
      return (success,execdata)
    else return (success,execdata)
  else do
    failIf (flags .discourageUpgradablePubkeyType) (.error .discourageUpgradablePubkeyType)
    return (success,execdata)

def evalChecksig (sig pubkey : Valtype) (pbegincodehash : CScript) (execdata : ScriptExecutionData)
    (sigversion : SigVersion) : ScriptResult (Bool × ScriptExecutionData) :=
  match sigversion with
  | .base | .witnessV0 => do
      let success ← evalChecksigPreTapscript crypto checker flags sig pubkey pbegincodehash
        sigversion
      return (success,execdata)
  | .tapscript => evalChecksigTapscript checker flags sig pubkey execdata sigversion
  | .taproot => throw .assertion

end DripCore
