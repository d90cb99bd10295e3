import DripCore.BlockBody
import DripCore.BlockBuilder
import DripCore.ScriptBuilding

/-!
# Block templates

`BlockAssembler::CreateNewBlock` takes chunks from the mempool as long as they fit. The test uses
the size of a chunk, the running sum the weights of its transactions, which are not more.

Chunks come from a builder that is only known by the order in which it delivers them. The loop ends
when the builder has nothing left, at a chunk below the least feerate, or when the template is
nearly full and many chunks in a row did not fit.
-/
namespace DripCore
open BlockEntry ChunkHistory List PrefixCode

def minimumBlockReservedWeight : ℕ := 2000

structure AssemblerOptions where
  use_mempool : Bool
  block_reserved_weight : ℕ
  coinbase_output_max_additional_sigops : ℕ
  coinbase_output_script : CScript
  nBlockMaxWeight : ℕ
  blockMinFeeRate : FeeFrac
  test_block_validity : Bool

def clamp (v lo hi : ℕ) : ℕ := if v < lo then lo else if hi < v then hi else v

def clampOptions (options : AssemblerOptions) : AssemblerOptions :=
  let block_reserved_weight :=
    clamp options.block_reserved_weight minimumBlockReservedWeight maxBlockWeight
  { options with
    block_reserved_weight := block_reserved_weight
    coinbase_output_max_additional_sigops :=
      clamp options.coinbase_output_max_additional_sigops 0 maxBlockSigOpsCost.toNat
    nBlockMaxWeight := clamp options.nBlockMaxWeight block_reserved_weight maxBlockWeight }

/-- The variables of a `BlockAssembler` and the parts of its template that grow. -/
structure BlockAssembler where
  nBlockWeight : ℤ
  nBlockTx : ℕ
  nBlockSigOpsCost : ℤ
  nFees : CAmount
  vtx : List CTransaction
  vTxFees : List CAmount
  vTxSigOpsCost : List ℕ
  m_package_feerates : List FeeFrac

namespace BlockAssembler

def resetBlock (options : AssemblerOptions) : BlockAssembler :=
  ⟨options.block_reserved_weight,0,options.coinbase_output_max_additional_sigops,0,[],[],[],[]⟩

def testChunkBlockLimits (options : AssemblerOptions) (a : BlockAssembler) (chunk_feerate : FeeFrac)
    (chunk_sigops_cost : ℤ) : Bool :=
  if (options.nBlockMaxWeight : ℤ) ≤ a.nBlockWeight+chunk_feerate.size then false
  else if maxBlockSigOpsCost ≤ a.nBlockSigOpsCost+chunk_sigops_cost then false
  else true

def testChunkTransactions (nHeight m_lock_time_cutoff : ℤ) (txs : List BlockEntry) : Bool :=
  txs.all fun e => isFinalTx e.tx nHeight m_lock_time_cutoff

def addToBlock (a : BlockAssembler) (entry : BlockEntry) : BlockAssembler :=
  { a with
    vtx := a.vtx++[entry.tx]
    vTxFees := a.vTxFees++[entry.nFee]
    vTxSigOpsCost := a.vTxSigOpsCost++[entry.sigOpCost]
    nBlockWeight := a.nBlockWeight+entry.nTxWeight
    nBlockTx := a.nBlockTx+1
    nBlockSigOpsCost := a.nBlockSigOpsCost+entry.sigOpCost
    nFees := a.nFees+entry.nFee }

def maxConsecutiveFailures : ℕ := 1000

def blockFullEnoughWeightDelta : ℤ := 4000

def toFeePerVSize (feerate : FeeFrac) : FeeFrac :=
  ⟨feerate.fee,(feerate.size+witnessScaleFactor-1).tdiv witnessScaleFactor⟩

def addChunk (a : BlockAssembler) (c : BlockChunk) : BlockAssembler :=
  let a := c.entries.foldl addToBlock a
  { a with m_package_feerates := a.m_package_feerates++[toFeePerVSize c.feerate] }

/-- The loop of `addChunks`, with the failures since the last success. It is undefined without fuel.
-/
def addChunksLoop (options : AssemblerOptions) (nHeight m_lock_time_cutoff : ℤ)
    (next : ChunkHistory → Option BlockChunk) :
    ℕ → ChunkHistory → ℕ → BlockAssembler → Option BlockAssembler
  | 0, _, _, _ => none
  | fuel+1, h, nConsecutiveFailed, a =>
    match next h with
    | none => some a
    | some c =>
      if c.entries.isEmpty then some a
      else if (toFeePerVSize c.feerate).feeRateCompare options.blockMinFeeRate = .lt then some a
      else
        let chunk_sig_ops : ℕ := (c.entries.map sigOpCost).sum
        if !testChunkBlockLimits options a c.feerate chunk_sig_ops ||
            !testChunkTransactions nHeight m_lock_time_cutoff c.entries then
          if maxConsecutiveFailures < nConsecutiveFailed+1 ∧
              (options.nBlockMaxWeight : ℤ) < a.nBlockWeight+blockFullEnoughWeightDelta then some a
          else addChunksLoop options nHeight m_lock_time_cutoff next fuel (h++[(c,false)])
            (nConsecutiveFailed+1) a
        else addChunksLoop options nHeight m_lock_time_cutoff next fuel (h++[(c,true)]) 0
          (a.addChunk c)

end BlockAssembler

open BlockAssembler

/-- A template: the coinbase, the other transactions, and what is reported of them. -/
structure CBlockTemplate where
  coinbase : CMutableTransaction
  vtx : List CTransaction
  vTxFees : List CAmount
  vTxSigOpsCost : List ℕ
  vchCoinbaseCommitment : List (BitVec 8)
  m_package_feerates : List FeeFrac

section

variable (sha256d : List (BitVec 8) → BitVec 256) (params : Params)

def coinbaseTransaction (options : AssemblerOptions) (nHeight : ℕ) (nFees : CAmount) :
    CMutableTransaction :=
  { vin := [⟨⟨0,0xffffffff#32⟩,(CScript.append [] (.integer nHeight)).append (.op op0),
    0xfffffffe#32,[]⟩]
    vout := [⟨nFees+getBlockSubsidy nHeight params,options.coinbase_output_script⟩]
    version := 2
    nLockTime := BitVec.ofNat 32 (nHeight-1) }

/-- The output that commits to the witnesses of the other transactions. -/
def commitmentOutput (vtx : List CTransaction) : CTxOut :=
  let witnessroot := (computeMerkleRoot sha256d (0::vtx.map fun tx => tx.getWitnessHash sha256d)).1
  let committed := sha256d (leBytes 32 witnessroot.toNat++replicate 32 0#8)
  ⟨0,[opReturn,0x24#8,0xaa#8,0x21#8,0xa9#8,0xed#8]++leBytes 32 committed.toNat⟩

def updateUncommitted (pindexPrev : CBlockIndex) (coinbase : CMutableTransaction) :
    CMutableTransaction :=
  if (commitmentIndexLoop coinbase.vout 0 none).isSome ∧
      deploymentActiveAfter (some pindexPrev) params .segwit ∧ !coinbase.hasWitness then
    { coinbase with vin := coinbase.vin.modifyHead fun txin =>
        { txin with scriptWitness := [replicate 32 0#8] } }
  else coinbase

/-- `GenerateCoinbaseCommitment`: the coinbase with the commitment, and the script of a new one. -/
def generateCoinbaseCommitment (pindexPrev : CBlockIndex) (coinbase : CMutableTransaction)
    (vtx : List CTransaction) : CMutableTransaction × List (BitVec 8) :=
  match commitmentIndexLoop coinbase.vout 0 none with
  | none =>
    let out := commitmentOutput sha256d vtx
    (updateUncommitted params pindexPrev { coinbase with vout := coinbase.vout++[out] },
      out.scriptPubKey)
  | some _ => (updateUncommitted params pindexPrev coinbase,[])

/-- The part of `CreateNewBlock` that selects transactions, if there is a mempool. -/
def selectTransactions (options : AssemblerOptions) (pindexPrev : CBlockIndex) (fuel : ℕ)
    (mempool : Option (ChunkHistory → Option BlockChunk)) : Option BlockAssembler :=
  let a := resetBlock options
  match if options.use_mempool then mempool else none with
  | none => some a
  | some next =>
    addChunksLoop options ((pindexPrev.nHeight+1 : ℕ) : ℤ) pindexPrev.getMedianTimePast next fuel []
      0 a

/-- The rest of it. The verdict of `TestBlockValidity` is a parameter; a text is the exception. -/
def finishTemplate (options : AssemblerOptions) (testBlockValidity : CBlockTemplate → Option String)
    (pindexPrev : CBlockIndex) (a : BlockAssembler) : Except String CBlockTemplate :=
  let coinbaseTx := coinbaseTransaction params options (pindexPrev.nHeight+1) a.nFees
  let committed := generateCoinbaseCommitment sha256d params pindexPrev coinbaseTx a.vtx
  let template : CBlockTemplate :=
    ⟨committed.1,a.vtx,a.vTxFees,a.vTxSigOpsCost,committed.2,a.m_package_feerates⟩
  match if options.test_block_validity then testBlockValidity template else none with
  | none => .ok template
  | some reason => .error ("TestBlockValidity failed: " ++ reason)

/-- `CreateNewBlock` of an assembler with these options on a tip. -/
def createNewBlock (options : AssemblerOptions) (testBlockValidity : CBlockTemplate → Option String)
    (pindexPrev : CBlockIndex) (fuel : ℕ) (mempool : Option (ChunkHistory → Option BlockChunk)) :
    Option (Except String CBlockTemplate) :=
  (selectTransactions (clampOptions options) pindexPrev fuel mempool).map
    (finishTemplate sha256d params (clampOptions options) testBlockValidity pindexPrev)

end

structure BlockAssembler.Adds (a : BlockAssembler) (entries : List BlockEntry)
    (a' : BlockAssembler) :
    Prop where
  vtx : a'.vtx = a.vtx++entries.map fun e => e.tx
  fees : a'.vTxFees = a.vTxFees++entries.map nFee
  sigops : a'.vTxSigOpsCost = a.vTxSigOpsCost++entries.map sigOpCost
  weight : a'.nBlockWeight = a.nBlockWeight+(entries.map nTxWeight).sum
  cost : a'.nBlockSigOpsCost = a.nBlockSigOpsCost+(entries.map sigOpCost).sum
  nFees : a'.nFees = a.nFees+(entries.map nFee).sum

theorem BlockAssembler.Adds.trans {a b c : BlockAssembler} {l l' : List BlockEntry} (h : a.Adds l b)
    (h' : b.Adds l' c) : a.Adds (l++l') c where
  vtx := by rw [h'.vtx,h.vtx,map_append,append_assoc]
  fees := by rw [h'.fees,h.fees,map_append,append_assoc]
  sigops := by rw [h'.sigops,h.sigops,map_append,append_assoc]
  weight := by
    rw [h'.weight,h.weight,map_append,sum_append]
    push_cast
    ring
  cost := by
    rw [h'.cost,h.cost,map_append,sum_append]
    push_cast
    ring
  nFees := by rw [h'.nFees,h.nFees,map_append,sum_append,add_assoc]

theorem BlockAssembler.Adds.refl (a : BlockAssembler) : a.Adds [] a := by
  constructor <;> simp

theorem adds_addToBlock (a : BlockAssembler) (e : BlockEntry) : a.Adds [e] (a.addToBlock e) := by
  constructor <;> simp [addToBlock]

theorem adds_foldl (entries : List BlockEntry) (a : BlockAssembler) :
    a.Adds entries (entries.foldl addToBlock a) := by
  induction entries generalizing a with
  | nil => exact .refl a
  | cons e entries ih => exact (adds_addToBlock a e).trans (ih (a.addToBlock e))

theorem adds_addChunk (a : BlockAssembler) (c : BlockChunk) : a.Adds c.entries (a.addChunk c) :=
  have h := adds_foldl c.entries a
  ⟨h.vtx,h.fees,h.sigops,h.weight,h.cost,h.nFees⟩

section

variable {pool : List BlockEntry} (b : BlockBuilder pool) {options : AssemblerOptions}
  {nHeight m_lock_time_cutoff : ℤ}

/-- An assembler that has taken what was included so far: it is final, and fits. -/
structure Selects (options : AssemblerOptions) (nHeight m_lock_time_cutoff : ℤ) (h : ChunkHistory)
    (a : BlockAssembler) : Prop where
  adds : (resetBlock options).Adds (included h) a
  final : ∀ e ∈ included h, isFinalTx e.tx nHeight m_lock_time_cutoff = true
  fits : included h = [] ∨
    (a.nBlockWeight < options.nBlockMaxWeight ∧ a.nBlockSigOpsCost < maxBlockSigOpsCost)

variable {a : BlockAssembler} {h : ChunkHistory}

theorem Selects.skip (hs : Selects options nHeight m_lock_time_cutoff h a) (c : BlockChunk) :
    Selects options nHeight m_lock_time_cutoff (h++[(c,false)]) a := by
  have ha : included (h++[(c,false)]) = included h := by
    rw [included_append,if_neg Bool.false_ne_true,append_nil]
  exact ⟨ha ▸ hs.adds,ha ▸ hs.final,ha ▸ hs.fits⟩

theorem Selects.include (hs : Selects options nHeight m_lock_time_cutoff h a) {c : BlockChunk}
    (hsi : ((c.entries.map nTxWeight).sum : ℤ) ≤ c.feerate.size)
    (hl : a.testChunkBlockLimits options c.feerate ((c.entries.map sigOpCost).sum : ℕ) = true)
    (hf : testChunkTransactions nHeight m_lock_time_cutoff c.entries = true) :
    Selects options nHeight m_lock_time_cutoff (h++[(c,true)]) (a.addChunk c) := by
  have hn : included (h++[(c,true)]) = included h++c.entries := by
    rw [included_append,if_pos rfl]
  have hc := adds_addChunk a c
  refine ⟨?_,?_,.inr ?_⟩
  · rw [hn]
    exact hs.adds.trans hc
  · rw [hn]
    intro e he
    rcases mem_append.mp he with he | he
    · exact hs.final e he
    · exact all_eq_true.mp hf e he
  · rw [testChunkBlockLimits] at hl
    split_ifs at hl with hw ho
    rw [hc.weight,hc.cost]
    push Not at hw ho
    exact ⟨by linarith,ho⟩

/-- The loop ends with what was included in some history of the builder. -/
theorem addChunksLoop_spec (fuel : ℕ) (h : ChunkHistory) (ncf : ℕ) (a : BlockAssembler)
    (hh : Delivered b.next h) (hne : ∀ d ∈ h, d.1.entries ≠ [])
    (hs : Selects options nHeight m_lock_time_cutoff h a) (hf : pool.length < fuel+h.length) :
    ∃ h' a', addChunksLoop options nHeight m_lock_time_cutoff b.next fuel h ncf a = some a' ∧
      Delivered b.next h' ∧
      Selects options nHeight m_lock_time_cutoff h' a' := by
  induction fuel generalizing h ncf a with
  | zero =>
    have hl := b.length_delivered_le hh
    have ho := length_le_delivered hne
    omega
  | succ fuel ih =>
    have hl : ∀ d : BlockChunk × Bool, pool.length < fuel+(h++[d]).length := by
      intro d
      rw [length_append,length_singleton]
      omega
    rw [addChunksLoop]
    cases hc : b.next h with
    | none => exact ⟨h,a,rfl,hh,hs⟩
    | some c =>
      have hn : ¬c.entries.isEmpty = true → ∀ flag, ∀ d ∈ h++[(c,flag)], d.1.entries ≠ [] := by
        intro he flag d hd
        rcases mem_append.mp hd with hd | hd
        · exact hne d hd
        · rw [mem_singleton.mp hd]
          exact fun hni => he (isEmpty_iff.mpr hni)
      dsimp only
      split_ifs with he hr hk hu
      · exact ⟨h,a,rfl,hh,hs⟩
      · exact ⟨h,a,rfl,hh,hs⟩
      · exact ⟨h,a,rfl,hh,hs⟩
      · exact ih _ _ _ (hh.snoc hc false) (hn he false) (hs.skip c) (hl _)
      · rw [Bool.or_eq_true,Bool.not_eq_true',Bool.not_eq_true',not_or,Bool.not_eq_false,
          Bool.not_eq_false] at hk
        exact ih _ _ _ (hh.snoc hc true) (hn he true) (hs.include (b.size_le hh hc) hk.1 hk.2)
          (hl _)

end

section

variable {sha256d : List (BitVec 8) → BitVec 256} {p : Params}

theorem vout_uncommitted (pp : CBlockIndex) (coinbase : CMutableTransaction) :
    (updateUncommitted p pp coinbase).vout = coinbase.vout := by
  rw [updateUncommitted]
  split_ifs <;> rfl

theorem sum_coinbaseCommitment (pp : CBlockIndex) (coinbase : CMutableTransaction)
    (vtx : List CTransaction) :
    ((generateCoinbaseCommitment sha256d p pp coinbase vtx).1.vout.map CTxOut.nValue).sum =
      (coinbase.vout.map CTxOut.nValue).sum := by
  rw [generateCoinbaseCommitment]
  cases commitmentIndexLoop coinbase.vout 0 none with
  | none =>
    rw [vout_uncommitted,map_append,sum_append]
    exact add_zero _
  | some _ => rw [vout_uncommitted]

end

/-- What a template for a block on a tip keeps to, with the entries of its transactions. -/
structure TemplateLimits (params : Params) (options : AssemblerOptions) (pindexPrev : CBlockIndex)
    (pool : List BlockEntry) (template : CBlockTemplate) (entries : List BlockEntry) : Prop where
  vtx_eq : template.vtx = entries.map fun e => e.tx
  from_mempool : ∀ e ∈ entries, e ∈ pool
  once : (template.vtx.map CTransaction.hash).Nodup
  after_ancestors : ∀ before e after, entries = before++e::after →
    ∀ a, BlockBuilder.Ancestor pool a e → a ∈ before
  final : ∀ tx ∈ template.vtx,
    isFinalTx tx ((pindexPrev.nHeight+1 : ℕ) : ℤ) pindexPrev.getMedianTimePast = true
  weight : entries = [] ∨ ((clampOptions options).block_reserved_weight : ℤ) +
    (entries.map nTxWeight).sum < (clampOptions options).nBlockMaxWeight
  sigops : entries = [] ∨ ((clampOptions options).coinbase_output_max_additional_sigops : ℤ) +
    (entries.map sigOpCost).sum < maxBlockSigOpsCost
  coinbase : (template.coinbase.vout.map CTxOut.nValue).sum =
    getBlockSubsidy (pindexPrev.nHeight+1) params+(entries.map nFee).sum

theorem selectTxs_spec {pool : List BlockEntry} (m : Option (BlockBuilder pool))
    (options : AssemblerOptions) (pp : CBlockIndex) {fuel : ℕ} (hf : pool.length < fuel) :
    ∃ a h, selectTransactions options pp fuel (m.map BlockBuilder.next) = some a ∧
      Selects options ((pp.nHeight+1 : ℕ) : ℤ) pp.getMedianTimePast h a ∧
      (h = [] ∨ ∃ builder : BlockBuilder pool, Delivered builder.next h) := by
  have ht : Selects options ((pp.nHeight+1 : ℕ) : ℤ) pp.getMedianTimePast [] (resetBlock options) :=
    ⟨.refl _,fun e he => absurd he not_mem_nil,.inl rfl⟩
  rw [selectTransactions]
  cases options.use_mempool with
  | false => exact ⟨_,[],rfl,ht,.inl rfl⟩
  | true =>
    cases m with
    | none => exact ⟨_,[],rfl,ht,.inl rfl⟩
    | some builder =>
      obtain ⟨h,a,hl,hh,hs⟩ := addChunksLoop_spec builder fuel [] 0 _ .nil
        (fun d hd => absurd hd not_mem_nil) ht (by simpa using hf)
      exact ⟨a,h,hl,hs,.inr ⟨builder,hh⟩⟩

theorem finishTemplate_ok {sha256d : List (BitVec 8) → BitVec 256} {params : Params}
    {options : AssemblerOptions} {tbv : CBlockTemplate → Option String}
    {pp : CBlockIndex} {a : BlockAssembler} {template : CBlockTemplate}
    (h : finishTemplate sha256d params options tbv pp a = .ok template) :
    template.vtx = a.vtx ∧ (template.coinbase.vout.map CTxOut.nValue).sum =
      a.nFees+getBlockSubsidy (pp.nHeight+1) params := by
  rw [finishTemplate] at h
  split at h
  · rw [← Except.ok.inj h]
    refine ⟨rfl,?_⟩
    rw [sum_coinbaseCommitment]
    exact sum_singleton
  · exact nomatch h

/-- `CreateNewBlock` ends, and a template that it returns keeps to the limits. -/
theorem createNewBlock_limits (sha256d : List (BitVec 8) → BitVec 256) (params : Params)
    (options : AssemblerOptions) (testBlockValidity : CBlockTemplate → Option String)
    (pindexPrev : CBlockIndex) {pool : List BlockEntry}
    (mempool : Option (BlockBuilder pool)) {fuel : ℕ}
    (hfuel : pool.length < fuel) :
    ∃ result, createNewBlock sha256d params options testBlockValidity pindexPrev fuel
        (mempool.map BlockBuilder.next) = some result ∧
      ∀ template, result = .ok template →
        ∃ entries, TemplateLimits params options pindexPrev pool template entries := by
  obtain ⟨a,h,hse,hs,hb⟩ := selectTxs_spec mempool (clampOptions options) pindexPrev hfuel
  refine ⟨_,by rw [createNewBlock,hse]; rfl,fun template hte => ?_⟩
  obtain ⟨hv,ho⟩ := finishTemplate_ok hte
  obtain ⟨hm,hn,ha⟩ : (∀ e ∈ included h, e ∈ pool) ∧ ((included h).map txid).Nodup ∧
      ∀ before e after, included h = before++e::after →
        ∀ p, BlockBuilder.Ancestor pool p e → p ∈ before := by
    rcases hb with rfl | ⟨builder,hh⟩
    · refine ⟨fun e he => absurd he not_mem_nil,nodup_nil,fun before e after hq => ?_⟩
      exact absurd hq.symm (append_ne_nil_of_right_ne_nil _ (cons_ne_nil _ _))
    · have hu := included_sublist h
      exact ⟨fun e he => builder.mem_of_delivered hh e (hu.subset he),
        (builder.delivered_nodup hh).sublist (hu.map _),
        fun before e after hq p hp => builder.included_ancestors hh hp before after hq⟩
  have hv' : template.vtx = (included h).map fun e => e.tx := by
    rw [hv,hs.adds.vtx]
    rfl
  refine ⟨included h,hv',hm,?_,ha,?_,?_,?_,?_⟩
  · rw [hv',map_map]
    exact hn
  · intro tx ht
    rw [hv'] at ht
    obtain ⟨e,he,rfl⟩ := mem_map.mp ht
    exact hs.final e he
  · have hw := hs.adds.weight
    rcases hs.fits with hni | hf
    · exact .inl hni
    · rw [hw] at hf
      exact .inr hf.1
  · have hc := hs.adds.cost
    rcases hs.fits with hni | hf
    · exact .inl hni
    · rw [hc] at hf
      exact .inr hf.2
  · have hfe : a.nFees = 0+((included h).map nFee).sum := hs.adds.nFees
    rw [ho,hfe,zero_add,add_comm]

theorem one_lt_size : 1 < 2^32 := by decide

/-- A transaction that spends an output of another one. -/
def exampleSpend (hash prev : Txid) : CTransaction :=
  { version := 2, vin := [⟨⟨prev,0⟩,[],0,[]⟩], vout := [⟨1000,[]⟩], nLockTime := 0, hash := hash,
    vin_size := one_lt_size, vout_size := one_lt_size,
    scriptSig_size := by
      intro i hi
      rw [mem_singleton.mp hi]
      exact Nat.two_pow_pos 32 }

def exampleEntry (hash prev : Txid) : BlockEntry :=
  ⟨⟨exampleSpend hash prev,0,false,⟨0,0,none⟩⟩,500,400,4⟩

def examplePool : List BlockEntry := [exampleEntry 1 7,exampleEntry 2 1]

def exampleIndex : ChunkIndex examplePool where
  chunks := [⟨⟨examplePool,⟨1000,800⟩⟩,0,true⟩]
  cluster := fun _ => 0
  mem := by
    intro c hc
    rw [mem_singleton.mp hc]
    exact fun e he => he
  nodup := by decide
  size_le := by
    intro c hc
    rw [mem_singleton.mp hc]
    exact le_refl (800 : ℤ)
  cluster_entry := by
    intro c hc
    rw [mem_singleton.mp hc]
    exact fun _ _ => rfl
  cluster_eq := fun _ _ _ _ _ => rfl
  topological := by
    intro front c back hchunks before e after hentries p hp hspends
    obtain ⟨txin,htxin,hprev⟩ := hspends
    cases front with
    | nil =>
      obtain ⟨rfl,-⟩ := cons.inj hchunks
      have hpool : p = exampleEntry 1 7 ∨ p = exampleEntry 2 1 := mem_pair.mp hp
      match before with
      | [] =>
        obtain ⟨rfl,-⟩ := cons.inj hentries
        rw [mem_singleton.mp htxin] at hprev
        rcases hpool with rfl | rfl
        · exact absurd hprev (by decide)
        · exact absurd hprev (by decide)
      | [parent] =>
        obtain ⟨rfl,htail⟩ := cons.inj hentries
        obtain ⟨rfl,-⟩ := cons.inj htail
        rw [mem_singleton.mp htxin] at hprev
        rcases hpool with rfl | rfl
        · exact .inl mem_cons_self
        · exact absurd hprev (by decide)
      | _::_::before =>
        have hlen := congrArg length hentries
        simp [examplePool] at hlen
    | cons f front => simp at hchunks
  end_of_cluster := by
    intro front c back hchunks
    cases front with
    | nil =>
      obtain ⟨-,rfl⟩ := cons.inj hchunks
      exact fun _ d hd => absurd hd not_mem_nil
    | cons f front => simp at hchunks

def exampleOptions : AssemblerOptions := ⟨true,8000,400,[0x51#8],4000000,⟨1,1000⟩,false⟩

/-- The template has the chunk of the pool. -/
theorem createNewBlock_limits_example : ∃ template entries,
    createNewBlock (fun _ => 0) cDripParams exampleOptions (fun _ => none)
      (.genesis ⟨1, 0, 0x1d00ffff#32⟩) 3 (some exampleIndex.builder.next) = some (.ok template) ∧
    template.vtx = (examplePool.map fun e => e.tx) ∧
    TemplateLimits cDripParams exampleOptions (.genesis ⟨1, 0, 0x1d00ffff#32⟩) examplePool template
      entries := by
  obtain ⟨result,hr,hl⟩ := createNewBlock_limits (fun _ => 0) cDripParams exampleOptions
    (fun _ => none) (.genesis ⟨1,0,0x1d00ffff#32⟩) (some exampleIndex.builder)
    (show _ < 3 by decide)
  have hk : ((createNewBlock (fun _ => 0) cDripParams exampleOptions (fun _ => none)
      (.genesis ⟨1,0,0x1d00ffff#32⟩) 3 (some exampleIndex.builder.next)).any fun r =>
        r.toOption.any fun t => decide (t.vtx = examplePool.map fun e => e.tx)) = true := by
    decide +kernel
  rw [Option.map_some] at hr
  rw [hr] at hk
  cases result with
  | error e => exact absurd hk Bool.false_ne_true
  | ok template =>
    obtain ⟨entries,he⟩ := hl template rfl
    exact ⟨template,entries,hr,of_decide_eq_true hk,he⟩

end DripCore
