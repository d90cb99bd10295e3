import DripCore.Interpreter
import DripCore.TransactionFormat

/-!
# Verifying the spend of an output

`VerifyScript` with its witness programs: scripts behind a hash, and taproot with its keys and its
tree of scripts.

Hashing, signatures and the tweaking of keys are functions of a record, so whatever is proved about
acceptance holds for any of them. Each error of the source is a constructor, raised in the order in
which the source makes its checks.
-/
namespace DripCore
open ExceptRules ScriptExecutionData

def witnessV0ScriptHashSize : ℕ := 32
def witnessV0KeyHashSize : ℕ := 20
def witnessV1TaprootSize : ℕ := 32
def taprootControlBaseSize : ℕ := 33
def taprootControlNodeSize : ℕ := 32
def taprootControlMaxNodeCount : ℕ := 128
def taprootControlMaxSize : ℕ :=
    taprootControlBaseSize+taprootControlNodeSize*taprootControlMaxNodeCount
def taprootLeafMask : BitVec 8 := 0xfe#8
def taprootLeafTapscript : BitVec 8 := 0xc0#8
def annexTag : BitVec 8 := 0x50#8
def validationWeightOffset : ℤ := 50

variable (crypto : ScriptCrypto)

def computeTapleafHash (leaf_version : BitVec 8) (script : Valtype) : Valtype :=
  crypto.taggedHash "TapLeaf" (leaf_version::(writeCompactSize script.length++script))

def computeTapbranchHash (a b : Valtype) : Valtype :=
  crypto.taggedHash "TapBranch" (if a < b then a++b else b++a)

/-- Its assertions are what the caller has checked of the size of the control block. -/
def computeTaprootMerkleRoot (control tapleaf_hash : Valtype) : Valtype :=
  let path_len := (control.length-taprootControlBaseSize) / taprootControlNodeSize
  (List.range path_len).foldl (fun k i =>
      let node := (control.drop (taprootControlBaseSize+taprootControlNodeSize*i)).take
        taprootControlNodeSize
      computeTapbranchHash crypto k node)
    tapleaf_hash

def verifyTaprootCommitment (control program tapleaf_hash : Valtype) : Bool :=
  let p := (control.drop 1).take (taprootControlBaseSize-1)
  let merkle_root := computeTaprootMerkleRoot crypto control tapleaf_hash
  crypto.checkTapTweak program p merkle_root (control.getD 0 0 &&& 1#8 != 0#8)

variable (checker : SignatureChecker) (flags : ScriptVerifyFlags)

/-- The loop that looks for an opcode which makes a tapscript succeed. -/
def opSuccessLoop : ℕ → CScript → ScriptResult Bool
  | 0, _ => return false
  | fuel+1, pc =>
    if pc = [] then return false
    else
      match getScriptOp pc with
      | none => throw (.error .badOpcode)
      | some (opcode,_,pc) => if isOpSuccess opcode then return true else opSuccessLoop fuel pc

/-- Such opcodes override everything, the limits on the stack too. -/
def findOpSuccess (sigversion : SigVersion) (exec_script : CScript) : ScriptResult Bool :=
  if sigversion = .tapscript then opSuccessLoop exec_script.length exec_script else return false

/-- Evaluation within the limits of witness scripts, after which only a true value may be left. -/
def runWitnessScript (stack : List Valtype) (exec_script : CScript) (sigversion : SigVersion)
    (execdata : ScriptExecutionData) : ScriptResult Unit := do
  failIf (decide (sigversion = .tapscript) && decide (maxStackSize < stack.length))
    (.error .stackSize)
  failIf (stack.any fun elem => decide (maxScriptElementSize < elem.length)) (.error .pushSize)
  let stack ← evalScript crypto checker flags sigversion stack exec_script execdata
  match stack with
  | [top] => failIf (!castToBool top) (.error .evalFalse)
  | _ => throw (.error .cleanStack)

def executeWitnessScript (stack : List Valtype) (exec_script : CScript) (sigversion : SigVersion)
    (execdata : ScriptExecutionData) : ScriptResult Unit := do
  let found ← findOpSuccess sigversion exec_script
  if found then failIf (flags .discourageOpSuccess) (.error .discourageOpSuccess)
  else runWitnessScript crypto checker flags stack exec_script sigversion execdata

def keyHashScript (program : Valtype) : CScript :=
  [opDup,opHash160]++pushData program++[opEqualVerify,opCheckSig]

/-- Version 0: the hash of a script, or of a public key. -/
def verifyWitnessV0 (stack : List Valtype) (program : Valtype) : ScriptResult Unit :=
  if program.length = witnessV0ScriptHashSize then
    match stack with
    | [] => throw (.error .witnessProgramWitnessEmpty)
    | exec_script::stack => do
        failIf (crypto.sha256 exec_script != program) (.error .witnessProgramMismatch)
        executeWitnessScript crypto checker flags stack exec_script .witnessV0 .init
  else if program.length = witnessV0KeyHashSize then do
    failIf (decide (stack.length ≠ 2)) (.error .witnessProgramMismatch)
    executeWitnessScript crypto checker flags stack (keyHashScript program) .witnessV0 .init
  else throw (.error .witnessProgramWrongLength)

/-- The annex is taken off, if there is one; its hash goes with the execution data. -/
def takeAnnex : List Valtype → List Valtype × ScriptExecutionData
  | annex::next::stack =>
    if annex.head? = some annexTag then
      (next::stack,{ init with
        m_annex_hash := some (some (crypto.sha256 (writeCompactSize annex.length++annex))) })
    else (annex::next::stack,{ init with m_annex_hash := some none })
  | stack => (stack,{ init with m_annex_hash := some none })

/-- The spend by a script of the tree, whose leaf the control block proves. -/
def verifyScriptPath (witness : List Valtype) (control script : Valtype) (stack : List Valtype)
    (program : Valtype) (execdata : ScriptExecutionData) : ScriptResult Unit := do
  failIf (decide (control.length < taprootControlBaseSize ∨ taprootControlMaxSize < control.length ∨
      (control.length-taprootControlBaseSize) % taprootControlNodeSize ≠ 0))
    (.error .taprootWrongControlSize)
  let leaf_version := control.getD 0 0 &&& taprootLeafMask
  let tapleaf_hash := computeTapleafHash crypto leaf_version script
  failIf (!verifyTaprootCommitment crypto control program tapleaf_hash)
    (.error .witnessProgramMismatch)
  if leaf_version = taprootLeafTapscript then
    executeWitnessScript crypto checker flags stack script .tapscript { execdata with
      m_tapleaf_hash := some tapleaf_hash
      m_validation_weight_left := some ((writeStack witness).length+validationWeightOffset) }
  else
    failIf (flags .discourageUpgradableTaprootVersion) (.error .discourageUpgradableTaprootVersion)

/-- Version 1: a key, or a script of the tree that the key commits to. -/
def verifyTaproot (witness : List Valtype) (program : Valtype) : ScriptResult Unit :=
  if witness = [] then throw (.error .witnessProgramWitnessEmpty)
  else
    match takeAnnex crypto witness.reverse with
    | ([sig],execdata) => do
        let _ ← (checker.checkSchnorrSignature sig program .taproot execdata).mapError .error
        return ()
    | (control::script::stack,execdata) =>
      verifyScriptPath crypto checker flags witness control script stack program execdata
    | ([],_) => throw .assertion

/-- The witness is given from the bottom of its stack to the top. -/
def verifyWitnessProgram (witness : List Valtype) (witversion : ℕ) (program : Valtype)
    (is_p2sh : Bool) : ScriptResult Unit :=
  if witversion = 0 then verifyWitnessV0 crypto checker flags witness.reverse program
  else if witversion = 1 ∧ program.length = witnessV1TaprootSize ∧ is_p2sh = false then
    checkIf (flags .taproot) (verifyTaproot crypto checker flags witness program)
  else if is_p2sh = false ∧ isPayToAnchor witversion program then return ()
  else failIf (flags .discourageUpgradableWitnessProgram)
    (.error .discourageUpgradableWitnessProgram)

def requireTrue : List Valtype → ScriptResult Unit
  | [] => throw (.error .evalFalse)
  | top::_ => failIf (!castToBool top) (.error .evalFalse)

/-- A witness program is verified with the witness; only the bottom of the stack is kept. -/
def verifyEmbeddedProgram (script : CScript) (malleated : Bool) (serror : ScriptError)
    (is_p2sh : Bool) (witness : List Valtype) (stack : List Valtype) (hadWitness : Bool) :
    ScriptResult (List Valtype × Bool) :=
  if flags .witness then
    match script.isWitnessProgram with
    | none => return (stack,hadWitness)
    | some (witnessversion,witnessprogram) => do
        failIf malleated (.error serror)
        verifyWitnessProgram crypto checker flags witness witnessversion witnessprogram is_p2sh
        return ([stack.getLastD []],true)
  else return (stack,hadWitness)

/-- The redeem script on top of the stack that the input left. -/
def verifyRedeemScript (scriptSig : CScript) (witness stackCopy : List Valtype)
    (hadWitness : Bool) :
    ScriptResult (List Valtype × Bool) := do
  failIf (!scriptSig.isPushOnly) (.error .sigPushOnly)
  match stackCopy with
  | [] => throw .assertion
  | pubKey2::stack => do
      let stack ← evalScript crypto checker flags .base stack pubKey2 .init
      requireTrue stack
      verifyEmbeddedProgram crypto checker flags pubKey2 (scriptSig != pushData pubKey2)
        .witnessMalleatedP2SH true witness stack hadWitness

/-- What is left on the stack, and whether there was a witness program, after a script behind a
hash. -/
def verifyPayToScriptHash (scriptSig scriptPubKey : CScript)
    (witness stackCopy stack : List Valtype)
    (hadWitness : Bool) : ScriptResult (List Valtype × Bool) :=
  if flags .p2sh ∧ scriptPubKey.isPayToScriptHash then
    verifyRedeemScript crypto checker flags scriptSig witness stackCopy hadWitness
  else return (stack,hadWitness)

/-- The checks at the end, on the combination of flags too. -/
def checkFinalStack (witness stack : List Valtype) (hadWitness : Bool) : ScriptResult Unit := do
  failIf (flags .cleanStack && !flags .p2sh) .assertion
  failIf (flags .cleanStack && !flags .witness) .assertion
  failIf (flags .cleanStack && decide (stack.length ≠ 1)) (.error .cleanStack)
  failIf (flags .witness && !flags .p2sh) .assertion
  failIf (flags .witness && !hadWitness && decide (witness ≠ [])) (.error .witnessUnexpected)

def verifyScript (scriptSig scriptPubKey : CScript) (witness : List Valtype) : ScriptResult Unit :=
    do
  failIf (flags .sigPushOnly && !scriptSig.isPushOnly) (.error .sigPushOnly)
  let stack ← evalScript crypto checker flags .base [] scriptSig .init
  let stackCopy := if flags .p2sh then stack else []
  let stack ← evalScript crypto checker flags .base stack scriptPubKey .init
  requireTrue stack
  let (stack,hadWitness) ←
    verifyEmbeddedProgram crypto checker flags scriptPubKey (decide (scriptSig.length ≠ 0))
      .witnessMalleated false witness stack false
  let (stack,hadWitness) ←
    verifyPayToScriptHash crypto checker flags scriptSig scriptPubKey witness stackCopy stack
      hadWitness
  checkFinalStack flags witness stack hadWitness

end DripCore
