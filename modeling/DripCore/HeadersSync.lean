import DripCore.TimewarpRule

/-!
# Download of headers in two phases

`HeadersSyncState`: in the first phase only work and one commitment bit for every period of headers
are kept; when the work suffices, the headers are downloaded again, compared with the commitments
and held back in a buffer. The hash of a header and the salted bit of a hash are arbitrary
functions. A failed step is an error that says which message is logged and carries the members as
the step leaves them.
-/
namespace DripCore
open CompactTarget

structure WireHeader extends CBlockHeader where
  hashPrevBlock : BitVec 256
  hashMerkleRoot : BitVec 256
  nNonce : BitVec 32
deriving DecidableEq

def WireHeader.null : WireHeader := ⟨⟨0,0,0⟩,0,0,0⟩

structure CompressedHeader extends CBlockHeader where
  hashMerkleRoot : BitVec 256
  nNonce : BitVec 32
deriving DecidableEq

def CompressedHeader.ofHeader (header : WireHeader) : CompressedHeader :=
  ⟨header.toCBlockHeader,header.hashMerkleRoot,header.nNonce⟩

def CompressedHeader.getFullHeader (header : CompressedHeader) (hash_prev_block : BitVec 256) :
    WireHeader :=
  ⟨header.toCBlockHeader,hash_prev_block,header.hashMerkleRoot,header.nNonce⟩

/-- The entry of the block index that the headers of the peer extend. -/
structure ChainStart where
  index : CBlockIndex
  header : WireHeader
  nChainWork : ArithUint256
  header_eq : header.toCBlockHeader = index.header

namespace HeadersSync

/-- The members that the constructor fixes, and the two hash functions. -/
structure Config where
  getHash : WireHeader → BitVec 256
  hasher : BitVec 256 → Bool
  consensusParams : Params
  commitmentPeriod : ℕ
  redownloadBufferSize : ℕ
  commitOffset : ℕ
  chainStart : ChainStart
  minimumRequiredWork : ArithUint256
  maxCommitments : ℕ

inductive State where
  | presync | redownload | final
deriving DecidableEq

inductive Abort where
  | wrongState | nonContinuous | invalidTransition | uintError | maxCommitments
  | commitmentOverrun | commitmentMismatch
deriving DecidableEq

structure HeadersSyncState where
  currentChainWork : ArithUint256
  headerCommitments : List Bool
  lastHeaderReceived : WireHeader
  currentHeight : ℤ
  redownloadedHeaders : List CompressedHeader
  redownloadBufferLastHeight : ℤ
  redownloadBufferLastHash : BitVec 256
  redownloadBufferFirstPrevHash : BitVec 256
  redownloadChainWork : ArithUint256
  processAllRemainingHeaders : Bool
  downloadState : State
deriving DecidableEq

structure ProcessingResult where
  powValidatedHeaders : List WireHeader
  success : Bool
  requestMore : Bool
deriving DecidableEq

abbrev Step := Except (Abort × HeadersSyncState) HeadersSyncState

namespace Config

def chainStartHash (cfg : Config) : BitVec 256 := cfg.getHash cfg.chainStart.header

/-- Heights are compared with the offset as unsigned 64-bit numbers. -/
def isCommitmentHeight (cfg : Config) (height : ℤ) : Bool :=
  (height % 2^64).toNat % cfg.commitmentPeriod == cfg.commitOffset

def start (cfg : Config) : HeadersSyncState where
  currentChainWork := cfg.chainStart.nChainWork
  headerCommitments := []
  lastHeaderReceived := cfg.chainStart.header
  currentHeight := cfg.chainStart.index.nHeight
  redownloadedHeaders := []
  redownloadBufferLastHeight := 0
  redownloadBufferLastHash := 0
  redownloadBufferFirstPrevHash := 0
  redownloadChainWork := 0
  processAllRemainingHeaders := false
  downloadState := .presync

end Config

/-- The bound on the number of commitments: six blocks for every second since the median time past
of the start, in unsigned 64-bit arithmetic. -/
def maxCommitmentsAt (chain_start : CBlockIndex) (commitment_period : ℕ) (now : ℤ) : ℕ :=
  let max_seconds_since_start := now-chain_start.getMedianTimePast+maxFutureBlockTime
  ((6*max_seconds_since_start) % 2^64).toNat / commitment_period

def toInt (height : ℤ) : ℤ := (BitVec.ofInt 32 height).toInt

def finalize (st : HeadersSyncState) : HeadersSyncState :=
  { st with
    headerCommitments := []
    lastHeaderReceived := .null
    redownloadedHeaders := []
    redownloadBufferLastHash := 0
    redownloadBufferFirstPrevHash := 0
    processAllRemainingHeaders := false
    currentHeight := 0
    downloadState := .final }

def checkTransition (cfg : Config) (height : ℤ) (old_nbits new_nbits : BitVec 32)
    (st : HeadersSyncState) : Step :=
  match permittedDifficultyTransition cfg.consensusParams height old_nbits new_nbits with
  | some true => .ok st
  | some false => .error (.invalidTransition,st)
  | none => .error (.uintError,st)

/-- Storing the commitment to a header whose height asks for one. -/
def storeCommitment (cfg : Config) (current : WireHeader) (next_height : ℤ)
    (st : HeadersSyncState) :
    Step :=
  if cfg.isCommitmentHeight next_height then
    let st := { st with
      headerCommitments := st.headerCommitments++[cfg.hasher (cfg.getHash current)] }
    if cfg.maxCommitments < st.headerCommitments.length then .error (.maxCommitments,st) else .ok st
  else .ok st

def validateAndProcessSingleHeader (cfg : Config) (st : HeadersSyncState) (current : WireHeader) :
    Step :=
  if st.downloadState ≠ .presync then .error (.wrongState,st)
  else do
    let next_height := toInt (st.currentHeight+1)
    let st ← checkTransition cfg next_height st.lastHeaderReceived.nBits current.nBits st
    let st ← storeCommitment cfg current next_height st
    return { st with
      currentChainWork := st.currentChainWork+getBlockProof current.nBits
      lastHeaderReceived := current
      currentHeight := next_height }

def startRedownload (cfg : Config) (st : HeadersSyncState) : HeadersSyncState :=
  { st with
    redownloadedHeaders := []
    redownloadBufferLastHeight := cfg.chainStart.index.nHeight
    redownloadBufferFirstPrevHash := cfg.chainStartHash
    redownloadBufferLastHash := cfg.chainStartHash
    redownloadChainWork := cfg.chainStart.nChainWork
    downloadState := .redownload }

def validateAndStoreHeadersCommitments (cfg : Config) (st : HeadersSyncState) : List WireHeader →
    Step
  | [] => .ok st
  | header::headers =>
    if st.downloadState ≠ .presync then .error (.wrongState,st)
    else if header.hashPrevBlock ≠ cfg.getHash st.lastHeaderReceived then
      .error (.nonContinuous,st)
    else do
      let st ← (header::headers).foldlM (validateAndProcessSingleHeader cfg) st
      return if cfg.minimumRequiredWork ≤ st.currentChainWork then startRedownload cfg st else st

/-- Comparing a header with the commitment to it, until the work suffices. -/
def checkCommitment (cfg : Config) (header : WireHeader) (next_height : ℤ) (st : HeadersSyncState) :
    Step :=
  if !st.processAllRemainingHeaders && cfg.isCommitmentHeight next_height then
    match st.headerCommitments with
    | [] => .error (.commitmentOverrun,st)
    | expected_commitment::commitments =>
      let st := { st with headerCommitments := commitments }
      if cfg.hasher (cfg.getHash header) ≠ expected_commitment then .error (.commitmentMismatch,st)
      else .ok st
  else .ok st

def trackWork (cfg : Config) (header : WireHeader) (st : HeadersSyncState) : HeadersSyncState :=
  let work := st.redownloadChainWork+getBlockProof header.nBits
  { st with
    redownloadChainWork := work
    processAllRemainingHeaders :=
      if cfg.minimumRequiredWork ≤ work then true else st.processAllRemainingHeaders }

def previousNBits (cfg : Config) (st : HeadersSyncState) : BitVec 32 :=
  match st.redownloadedHeaders.getLast? with
  | some header => header.nBits
  | none => cfg.chainStart.header.nBits

def validateAndStoreRedownloadedHeader (cfg : Config) (st : HeadersSyncState)
    (header : WireHeader) :
    Step :=
  if st.downloadState ≠ .redownload then .error (.wrongState,st)
  else if header.hashPrevBlock ≠ st.redownloadBufferLastHash then .error (.nonContinuous,st)
  else do
    let next_height := st.redownloadBufferLastHeight+1
    let st ← checkTransition cfg next_height (previousNBits cfg st) header.nBits st
    let st ← checkCommitment cfg header next_height (trackWork cfg header st)
    return { st with
      redownloadedHeaders := st.redownloadedHeaders++[.ofHeader header]
      redownloadBufferLastHeight := next_height
      redownloadBufferLastHash := cfg.getHash header }

/-- The headers that leave the buffer, those that stay, and the hash before the latter. -/
def popLoop (cfg : Config) (all : Bool) :
    List CompressedHeader → BitVec 256 → List WireHeader × List CompressedHeader × BitVec 256
  | [], prev_hash => ([],[],prev_hash)
  | header::headers, prev_hash =>
    if cfg.redownloadBufferSize < (header::headers).length || all then
      let full := header.getFullHeader prev_hash
      let (ret,rest,prev_hash) := popLoop cfg all headers (cfg.getHash full)
      (full::ret,rest,prev_hash)
    else ([],header::headers,prev_hash)

def popHeadersReadyForAcceptance (cfg : Config) (st : HeadersSyncState) :
    List WireHeader × HeadersSyncState :=
  if st.downloadState ≠ .redownload then ([],st)
  else
    let (ret,rest,prev_hash) := popLoop cfg st.processAllRemainingHeaders st.redownloadedHeaders
      st.redownloadBufferFirstPrevHash
    (ret,{ st with redownloadedHeaders := rest, redownloadBufferFirstPrevHash := prev_hash })

/-- The state is discarded unless more headers are asked for. -/
def conclude (result : ProcessingResult) (st : HeadersSyncState) :
    ProcessingResult × HeadersSyncState :=
  (result,if result.success && result.requestMore then st else finalize st)

def processPresync (cfg : Config) (st : HeadersSyncState) (received_headers : List WireHeader)
    (full_headers_message : Bool) : ProcessingResult × HeadersSyncState :=
  match validateAndStoreHeadersCommitments cfg st received_headers with
  | .error (_,st) => conclude ⟨[],false,false⟩ st
  | .ok st => conclude ⟨[],true,full_headers_message || st.downloadState == .redownload⟩ st

def processRedownload (cfg : Config) (st : HeadersSyncState) (received_headers : List WireHeader)
    (full_headers_message : Bool) : ProcessingResult × HeadersSyncState :=
  match received_headers.foldlM (validateAndStoreRedownloadedHeader cfg) st with
  | .error (_,st) => conclude ⟨[],false,false⟩ st
  | .ok st =>
    let (ret,st) := popHeadersReadyForAcceptance cfg st
    let complete := st.redownloadedHeaders.isEmpty && st.processAllRemainingHeaders
    conclude ⟨ret,true,!complete && full_headers_message⟩ st

def processNextHeaders (cfg : Config) (st : HeadersSyncState) (received_headers : List WireHeader)
    (full_headers_message : Bool) : ProcessingResult × HeadersSyncState :=
  if received_headers.isEmpty then (⟨[],false,false⟩,st)
  else
    match st.downloadState with
    | .final => (⟨[],false,false⟩,st)
    | .presync => processPresync cfg st received_headers full_headers_message
    | .redownload => processRedownload cfg st received_headers full_headers_message

end HeadersSync
end DripCore
