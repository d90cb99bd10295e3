import DripCore.HeadersSync
import DripCore.HeightInCoinbase
import DripCore.MerkleTree
import DripCore.Script
import DripCore.TimeLocks
import DripCore.TransactionFormat

/-!
# Checks of a block body

`CheckBlock` and `ContextualCheckBlock` with the merkle root, the witness commitment, the signature
operations and the weight, for any hash function. Nothing before the witness commitment reads a
witness.

Removing the witnesses of a block changes none of the checks before the commitment, with their
messages. This is what tells a block with other witnesses from an invalid one.
-/
namespace DripCore
open CBlockIndex CTransaction CompactTarget ExceptRules List MerkleTree PrefixCode

section
variable (sha256d : List (BitVec 8) → BitVec 256)

def WireHeader.serialize (header : WireHeader) : List (BitVec 8) :=
  leBytes 4 (BitVec.ofInt 32 header.nVersion).toNat++leBytes 32 header.hashPrevBlock.toNat ++
    leBytes 32 header.hashMerkleRoot.toNat++leBytes 4 header.nTime.toNat ++
    leBytes 4 header.nBits.toNat++leBytes 4 header.nNonce.toNat

/-- A block with the hashes that its transactions have cached. -/
structure HashedBlock where
  header : WireHeader
  vtx : List CTransaction
  hash_eq : ∀ tx ∈ vtx, tx.hash = sha256d tx.serialize

def pairBytes (p : BitVec 256 × BitVec 256) : List (BitVec 8) :=
  leBytes 32 p.1.toNat++leBytes 32 p.2.toNat

/-- `SHA256D64` on one pair of hashes. -/
def sha256d64 (p : BitVec 256 × BitVec 256) : BitVec 256 := sha256d (pairBytes p)

/-- The root and whether equal hashes were hashed together. -/
def computeMerkleRoot (hashes : List (BitVec 256)) : BitVec 256 × Bool :=
  rootLoop (sha256d64 sha256d) 0 hashes.length hashes false

def blockMerkleRoot (vtx : List CTransaction) : BitVec 256 × Bool :=
  computeMerkleRoot sha256d (vtx.map hash)

def CTransaction.getWitnessHash (tx : CTransaction) : BitVec 256 :=
  if tx.toMutable.hasWitness then sha256d (serializeTransaction true tx.toMutable) else tx.hash

/-- The leaves of the witness tree, a zero in place of the coinbase. -/
def witnessLeaves : List CTransaction → List (BitVec 256)
  | [] => []
  | _::vtx => 0::vtx.map fun tx => tx.getWitnessHash sha256d

def blockWitnessMerkleRoot (vtx : List CTransaction) : BitVec 256 :=
  (computeMerkleRoot sha256d (witnessLeaves sha256d vtx)).1

def minimumWitnessCommitment : ℕ := 38

def isWitnessCommitment (scriptPubKey : CScript) : Bool :=
  decide (minimumWitnessCommitment ≤ scriptPubKey.length) &&
    scriptPubKey.take 6 == [opReturn,0x24#8,0xaa#8,0x21#8,0xa9#8,0xed#8]

/-- The loop of `GetWitnessCommitmentIndex`, which keeps the last output that fits. -/
def commitmentIndexLoop : List CTxOut → ℕ → Option ℕ → Option ℕ
  | [], _, commitpos => commitpos
  | txout::vout, o, commitpos =>
    commitmentIndexLoop vout (o+1)
      (if isWitnessCommitment txout.scriptPubKey then some o else commitpos)

def getWitnessCommitmentIndex (vtx : List CTransaction) : Option ℕ :=
  match vtx with
  | [] => none
  | coinbase::_ => commitmentIndexLoop coinbase.vout 0 none

def committedHash (vtx : List CTransaction) (commitpos : ℕ) : List (BitVec 8) :=
  match vtx.head?.bind fun coinbase => coinbase.vout[commitpos]? with
  | none => []
  | some txout => (txout.scriptPubKey.drop 6).take 32

def checkWitnessMalleation (expect_witness_commitment : Bool) (vtx : List CTransaction) :
    Except BlockFailure Unit :=
  match if expect_witness_commitment then getWitnessCommitmentIndex vtx else none with
  | some commitpos =>
    match vtx.head?.bind fun coinbase => coinbase.vin.head? with
    | none => .error .assertion
    | some txin =>
      match txin.scriptWitness with
      | [reserved] =>
        if reserved.length ≠ 32 then
          invalidBlock .mutated "bad-witness-nonce-size"
            "CheckWitnessMalleation : invalid witness reserved value size"
        else
          let hash_witness := sha256d
            (leBytes 32 (blockWitnessMerkleRoot sha256d vtx).toNat++reserved)
          if leBytes 32 hash_witness.toNat ≠ committedHash vtx commitpos then
            invalidBlock .mutated "bad-witness-merkle-match"
              "CheckWitnessMalleation : witness merkle commitment mismatch"
          else .ok ()
      | _ =>
        invalidBlock .mutated "bad-witness-nonce-size"
          "CheckWitnessMalleation : invalid witness reserved value size"
  | none =>
    if vtx.any fun tx => tx.toMutable.hasWitness then
      invalidBlock .mutated "unexpected-witness"
        "CheckWitnessMalleation : unexpected witness data found"
    else .ok ()

def deriveTarget (nBits : BitVec 32) (pow_limit : ArithUint256) : Option ArithUint256 :=
  let bnTarget := setCompact nBits
  if bnTarget.fNegative ∨ bnTarget.target = 0 ∨ bnTarget.fOverflow ∨ pow_limit < bnTarget.target
    then none
  else some bnTarget.target

def checkProofOfWork (hash : BitVec 256) (nBits : BitVec 32) (params : Params) : Bool :=
  match deriveTarget nBits params.powLimit with
  | none => false
  | some bnTarget => decide (hash ≤ bnTarget)

def checkBlockHeader (params : Params) (header : WireHeader) :
    Option (Invalid BlockValidationResult) :=
  if checkProofOfWork (sha256d header.serialize) header.nBits params then none
  else some ⟨.invalidHeader,"high-hash","proof of work failed"⟩

def checkMerkleRoot (header : WireHeader) (vtx : List CTransaction) :
    Option (Invalid BlockValidationResult) :=
  let (merkle_root,mutated) := blockMerkleRoot sha256d vtx
  if header.hashMerkleRoot ≠ merkle_root then
    some ⟨.mutated,"bad-txnmrklroot","hashMerkleRoot mismatch"⟩
  else if mutated then some ⟨.mutated,"bad-txns-duplicate","duplicate transaction"⟩
  else none

/-- The checks of `CheckBlock` for a header; those of `ConnectBlock` are left as they are. -/
def bodyChecks (checks : BlockChecks) (params : Params) (header : WireHeader) : BlockChecks :=
  { checks with
    checkHeader := fun block =>
      (checkBlockHeader sha256d params header).orElse fun _ =>
        checkMerkleRoot sha256d header block.vtx
    legacySigOpCount := getLegacySigOpCount }

def totalSize (vtx : List CTransaction) : ℕ := 80+(writeCompactSize vtx.length).length +
    (vtx.map fun tx => (serializeTransaction true tx.toMutable).length).sum

def getBlockWeight (block : CBlock) :
    ℕ := block.serializeSize*(witnessScaleFactor-1)+totalSize block.vtx

structure PrevBlock where
  index : CBlockIndex
  branch : BlockBranch
  height_eq : branch.nHeight = index.nHeight

/-- The verdict of a check that ends in no other way. -/
def verdict : Except BlockFailure Unit → Option (Invalid BlockValidationResult)
  | .error (.invalid reason) => some reason
  | _ => none

/-- The checks of `ContextualCheckBlock` for a header on a previous block. -/
def contextChecks (params : Params) (header : WireHeader) (prev : PrevBlock) : ContextChecks where
  isFinalTx tx := isFinalTx tx (prev.index.nHeight+1)
    (if deploymentActiveAfter (some prev.index) params .csv then prev.index.getMedianTimePast
      else header.getBlockTime)
  checkWitnessMalleation block := verdict (checkWitnessMalleation sha256d
    (deploymentActiveAfter (some prev.index) params .segwit) block.vtx)
  blockWeight := getBlockWeight

/-- What `AcceptBlock` checks of a block, given what `ConnectBlock` would check besides. -/
def acceptBlockChecks (checks : BlockChecks) (params : Params) (prev : PrevBlock)
    (block : HashedBlock sha256d) : Except BlockFailure Unit := do
  let body : CBlock := ⟨sha256d block.header.serialize,block.vtx⟩
  checkBlock (bodyChecks sha256d checks params block.header) body
  contextualCheckBlock params (contextChecks sha256d params block.header prev) body
    (some prev.branch)

end

def CTransaction.clearWitness (tx : CTransaction) : CTransaction :=
  { tx with
    vin := tx.vin.map CTxIn.clearWitness
    vin_size := by rw [List.length_map]; exact tx.vin_size
    scriptSig_size := by
      intro i hi
      obtain ⟨j,hj,rfl⟩ := List.mem_map.mp hi
      exact tx.scriptSig_size j hj }

namespace CTransaction
variable (tx : CTransaction)

theorem serialize_cleared : tx.clearWitness.serialize = tx.serialize := by
  have hv := writeVector_cleared tx.vin
  rw [writeVector] at hv
  change leBytes 4 tx.version.toNat++(writeCompactSize (tx.vin.map CTxIn.clearWitness).length ++
    (tx.vin.map CTxIn.clearWitness).flatMap CTxIn.serialize)++_ = _
  rw [hv]
  rfl

theorem isCoinBase_cleared : tx.clearWitness.isCoinBase = tx.isCoinBase := by
  apply isCoinBase_of_prevouts
  change (tx.vin.map CTxIn.clearWitness).map CTxIn.prevout = _
  rw [map_map]
  rfl

theorem isFinalTx_cleared (nbh nbt : ℤ) :
    isFinalTx tx.clearWitness nbh nbt = isFinalTx tx nbh nbt := by
  change (if tx.nLockTime = 0 then true else if _ then true
    else (tx.vin.map CTxIn.clearWitness).all fun t => t.nSequence == CTxIn.sequenceFinal) = _
  rw [all_map]
  rfl

theorem sigOpCount_cleared : getLegacySigOpCount tx.clearWitness = getLegacySigOpCount tx := by
  change ((tx.vin.map CTxIn.clearWitness).map fun t =>
    CScript.getSigOpCount false t.scriptSig).sum+_ = _
  rw [map_map]
  rfl

theorem duplicateInputs_cleared (vin : List CTxIn) (vio : List COutPoint) :
    checkDuplicateInputs (vin.map CTxIn.clearWitness) vio = checkDuplicateInputs vin vio := by
  induction vin generalizing vio with
  | nil => rfl
  | cons t vin ih =>
    rw [map_cons,checkDuplicateInputs,ih]
    rfl

theorem checkPrevouts_cleared : checkPrevouts tx.clearWitness = checkPrevouts tx := by
  rw [checkPrevouts,isCoinBase_cleared]
  change (if tx.isCoinBase = true then if ((tx.vin.map CTxIn.clearWitness).head?.any _) = true
    then _
    else _ else if ((tx.vin.map CTxIn.clearWitness).any _) = true then _ else _) = _
  rw [head?_map,Option.any_map,any_map]
  rfl

theorem checkTx_cleared : checkTransaction tx.clearWitness = checkTransaction tx := by
  rw [checkTransaction,checkTransaction,checkPrevouts_cleared,serializeSize,serializeSize,
    serialize_cleared]
  change (if (tx.vin.map CTxIn.clearWitness).isEmpty = true then _ else if tx.vout.isEmpty = true
    then _
    else if _ then _ else do
      let _ ← checkOutputs tx.vout 0
      checkDuplicateInputs (tx.vin.map CTxIn.clearWitness) []
      checkPrevouts tx) = _
  rw [isEmpty_map,duplicateInputs_cleared]

theorem eq_of_toMutable {tx tx' : CTransaction} (h : tx.toMutable = tx'.toMutable)
    (hh : tx.hash = tx'.hash) : tx = tx' := by
  cases tx
  cases tx'
  simp_all [toMutable]

end CTransaction

theorem checkTxs_cleared (vtx : List CTransaction) :
    checkTransactions (vtx.map clearWitness) = checkTransactions vtx := by
  induction vtx with
  | nil => rfl
  | cons tx vtx ih =>
    rw [map_cons,checkTransactions,tx.checkTx_cleared,ih]
    rfl

theorem checkBlock_cleared (sha256d : List (BitVec 8) → BitVec 256) (c : BlockChecks)
    (p : Params) (header : WireHeader) (hash : BitVec 256) (vtx : List CTransaction) :
    checkBlock (bodyChecks sha256d c p header) ⟨hash,vtx.map clearWitness⟩ =
      checkBlock (bodyChecks sha256d c p header) ⟨hash,vtx⟩ := by
  have hh : (vtx.map CTransaction.clearWitness).map CTransaction.hash =
    vtx.map CTransaction.hash := by
    rw [map_map]
    rfl
  have hs : CBlock.serializeSize ⟨hash,vtx.map clearWitness⟩ = CBlock.serializeSize ⟨hash,vtx⟩ := by
    have he : serializeSize ∘ clearWitness =
        serializeSize :=
      funext fun tx => congrArg length tx.serialize_cleared
    simp only [CBlock.serializeSize,length_map,map_map,he]
  have hc : isCoinBase ∘ clearWitness = isCoinBase :=
    funext isCoinBase_cleared
  have hsi : getLegacySigOpCount ∘ clearWitness = getLegacySigOpCount :=
    funext sigOpCount_cleared
  simp only [checkBlock,bodyChecks,checkMerkleRoot,blockMerkleRoot,hs,isEmpty_map,
    length_map,head?_map,Option.any_map,isCoinBase_cleared,
    ← map_tail,any_map,hc,checkTxs_cleared,map_map,hsi]
  rfl

/-- The part of `ContextualCheckBlock` before witnesses are looked at. -/
def checkBeforeWitness (params : Params) (checks : ContextChecks) (vtx : List CTransaction)
    (hash : BitVec 256) (nHeight : ℕ) : Except BlockFailure Unit :=
  if vtx.any fun tx => !checks.isFinalTx tx then
    invalidBlock .consensus "bad-txns-nonfinal" "non-final transaction"
  else checkHeightInCoinbase params ⟨hash,vtx⟩ nHeight

theorem beforeWitness_cleared (sha256d : List (BitVec 8) → BitVec 256) (p : Params)
    (header : WireHeader) (prev : PrevBlock) (vtx : List CTransaction) (hash : BitVec 256)
    (nHeight : ℕ) :
    checkBeforeWitness p (contextChecks sha256d p header prev) (vtx.map clearWitness) hash nHeight =
      checkBeforeWitness p (contextChecks sha256d p header prev) vtx hash nHeight := by
  have hf (tx : CTransaction) : (contextChecks sha256d p header prev).isFinalTx tx.clearWitness =
        (contextChecks sha256d p header prev).isFinalTx tx :=
    tx.isFinalTx_cleared _ _
  have hh : checkHeightInCoinbase p ⟨hash,vtx.map clearWitness⟩ nHeight =
      checkHeightInCoinbase p ⟨hash,vtx⟩ nHeight := by
    unfold checkHeightInCoinbase
    cases vtx with
    | nil => rfl
    | cons tx vtx =>
      cases hv : tx.vin with
      | nil => simp [clearWitness,hv]
      | cons t vin => simp [clearWitness,CTxIn.clearWitness,hv]
  rw [checkBeforeWitness,checkBeforeWitness,hh,any_map]
  simp only [Function.comp_def,hf]

theorem contextual_eq (p : Params) (c : ContextChecks) (block : CBlock) (pprev : BlockBranch) :
    contextualCheckBlock p c block (some pprev) =
      (checkBeforeWitness p c block.vtx block.hash (pprev.nHeight+1) >>= fun _ =>
        match c.checkWitnessMalleation block with
        | some r => .error (.invalid r)
        | none =>
          if maxBlockWeight < c.blockWeight block then
            invalidBlock .consensus "bad-blk-weight" "ContextualCheckBlock : weight limit failed"
          else .ok ()) := by
  unfold contextualCheckBlock checkBeforeWitness
  cases block.vtx.any fun tx => !c.isFinalTx tx with
  | false => rfl
  | true => rfl

end DripCore
