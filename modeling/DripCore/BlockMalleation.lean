import DripCore.BlockBody

/-!
# Bodies of one header

A header commits to its transactions without witnesses through the merkle root, and the coinbase to
the witnesses. A body that does not fit is rejected as mutated, and all other checks are determined
by the commitments, so all other bodies of a header get one verdict. The hash has to be free of
collisions on the strings that are hashed.
-/
namespace DripCore
open CTransaction ExceptRules List MerkleTree Option PrefixCode

variable (sha256d : List (BitVec 8) → BitVec 256)

def hashedStrings (vtx : List CTransaction) : List (List (BitVec 8)) :=
  vtx.map serialize++vtx.map (fun tx => serializeTransaction true tx.toMutable) ++
    (loopPairs (sha256d64 sha256d) vtx.length (vtx.map hash)).map pairBytes ++
    (loopPairs (sha256d64 sha256d) vtx.length (witnessLeaves sha256d vtx)).map pairBytes ++
    ((vtx.head?.bind fun coinbase => coinbase.vin.head?).bind fun txin =>
      txin.scriptWitness.head?).toList.map
        fun reserved => leBytes 32 (blockWitnessMerkleRoot sha256d vtx).toNat++reserved

/-- No two of some strings have one hash, and none has the hash zero. -/
structure CollisionFree (strings : List (List (BitVec 8))) : Prop where
  inj : ∀ x ∈ strings, ∀ y ∈ strings, sha256d x = sha256d y → x = y
  ne_zero : ∀ x ∈ strings, sha256d x ≠ 0

variable {sha256d}

theorem length_pairBytes (p : BitVec 256 × BitVec 256) : (pairBytes p).length = 64 := by
  rw [pairBytes,length_append,length_leBytes,length_leBytes]

theorem pairBytes_injective : Function.Injective pairBytes := by
  intro p q h
  have hr := (readable_toNat 32).pair (readable_toNat 32) p q []
    [] ⟨trivial,trivial⟩ ⟨trivial,trivial⟩
  exact (hr h).1

theorem CollisionFree.injOn {strings : List (List (BitVec 8))} (h : CollisionFree sha256d strings) :
    Set.InjOn (sha256d64 sha256d) {p | pairBytes p ∈ strings} :=
  fun _ hp _ hq he => pairBytes_injective (h.inj _ hp _ hq he)

/-- The serialisations of some transactions, without and with witnesses, are injective. -/
structure InjectiveSerialization (txs : List CTransaction) : Prop where
  basic : ∀ tx ∈ txs, ∀ tx' ∈ txs, tx.serialize = tx'.serialize →
    tx.clearWitness.toMutable = tx'.clearWitness.toMutable
  extended : ∀ tx ∈ txs, ∀ tx' ∈ txs,
    serializeTransaction true tx.toMutable = serializeTransaction true tx'.toMutable →
      tx.toMutable = tx'.toMutable

variable {vtx vtx' : List CTransaction} {strings : List (List (BitVec 8))}

/-- A body with identifiers that are hashes, and with all that is hashed among some strings. -/
structure Hashed (sha256d : List (BitVec 8) → BitVec 256) (strings : List (List (BitVec 8)))
    (vtx : List CTransaction) : Prop where
  hash : ∀ tx ∈ vtx, tx.hash = sha256d tx.serialize
  basic : ∀ tx ∈ vtx, tx.serialize ∈ strings
  extended : ∀ tx ∈ vtx, serializeTransaction true tx.toMutable ∈ strings
  pairs : ∀ p ∈ loopPairs (sha256d64 sha256d) vtx.length (vtx.map CTransaction.hash),
    pairBytes p ∈ strings
  witnessPairs : ∀ p ∈ loopPairs (sha256d64 sha256d) vtx.length (witnessLeaves sha256d vtx),
    pairBytes p ∈ strings
  commitment : ∀ coinbase txin reserved, vtx.head? = some coinbase →
    coinbase.vin.head? = some txin →
    txin.scriptWitness.head? = some reserved →
    leBytes 32 (blockWitnessMerkleRoot sha256d vtx).toNat++reserved ∈ strings

theorem hashed_of_subset (hh : ∀ tx ∈ vtx, tx.hash = sha256d tx.serialize)
    (hs : hashedStrings sha256d vtx ⊆ strings) : Hashed sha256d strings vtx := by
  simp only [hashedStrings,append_subset] at hs
  obtain ⟨⟨⟨⟨hb,he⟩,ha⟩,hw⟩,ho⟩ := hs
  refine ⟨hh,fun tx hx => hb (mem_map_of_mem hx),fun tx hx => he (mem_map_of_mem hx),
    fun p hp => ha (mem_map_of_mem hp),fun p hp => hw (mem_map_of_mem hp),
    fun coinbase t r hc ht hr => ho ?_⟩
  simp [hc,ht,hr]

theorem hash_notMem_image (hfree : CollisionFree sha256d strings) (hv : Hashed sha256d strings vtx)
    (h64 : ∀ tx ∈ vtx, tx.serialize.length ≠ 64) :
    ∀ x ∈ vtx.map CTransaction.hash, x ∉ sha256d64 sha256d '' {p | pairBytes p ∈ strings} := by
  intro x hx
  obtain ⟨tx,ht,rfl⟩ := mem_map.mp hx
  rw [hv.hash tx ht]
  rintro ⟨p,hp,he⟩
  have hb := hfree.inj _ hp _ (hv.basic tx ht) he
  apply h64 tx ht
  rw [← hb,length_pairBytes]

theorem path_of_computeRoot {P : Set (BitVec 256 × BitVec 256)}
    {leaves : List (BitVec 256)} (hn : leaves ≠ [])
    (hP : ∀ p ∈ loopPairs (sha256d64 sha256d) leaves.length leaves, p ∈ P)
    (hm : (computeMerkleRoot sha256d leaves).2 = false) :
    Relation.ReflTransGen (Step (sha256d64 sha256d) P)
      leaves [(computeMerkleRoot sha256d leaves).1] :=
  (path_of_rootLoop (Nat.le_succ _) hn hP (Prod.ext rfl hm)).2

/-- Roots are binding for leaves that are no hashes of pairs, and a hash without collisions there.
-/
theorem eq_of_computeMerkleRoot {P : Set (BitVec 256 × BitVec 256)}
    (hinj : Set.InjOn (sha256d64 sha256d) P) {leaves leaves' : List (BitVec 256)}
    (hne : leaves ≠ [])
    (hne' : leaves' ≠ []) (hP : ∀ p ∈ loopPairs (sha256d64 sha256d) leaves.length leaves, p ∈ P)
    (hP' : ∀ p ∈ loopPairs (sha256d64 sha256d) leaves'.length leaves', p ∈ P)
    (hleaf : ∀ x ∈ leaves, x ∉ sha256d64 sha256d '' P)
    (hleaf' : ∀ x ∈ leaves', x ∉ sha256d64 sha256d '' P)
    (hmutated : (computeMerkleRoot sha256d leaves).2 = false)
    (hmutated' : (computeMerkleRoot sha256d leaves').2 = false)
    (hroot : (computeMerkleRoot sha256d leaves).1 = (computeMerkleRoot sha256d leaves').1) :
    leaves = leaves' := by
  have hr := path_of_computeRoot hne hP hmutated
  rw [hroot] at hr
  exact eq_of_path_step hinj hr (path_of_computeRoot hne' hP' hmutated') hleaf hleaf'

/-- A hash that keeps the pairs of three small leaves apart. -/
def firstByte (bytes : List (BitVec 8)) : BitVec 256 := 16+(bytes.headD 0).setWidth 256

/-- Three leaves, the last of which is hashed with itself. -/
theorem eq_of_computeMerkleRoot_three : (computeMerkleRoot firstByte [1, 2, 3]).2 = false ∧
    loopPairs (sha256d64 firstByte) 3 [1, 2, 3] = [(1, 2), (3, 3), (17, 19)] ∧
    ([1, 2, 3] : List (BitVec 256)) = [1, 2, 3] := by
  have hl : loopPairs (sha256d64 firstByte) 3 [1,2,3] = [(1,2),(3,3),(17,19)] := by decide +kernel
  have hP : ∀ p ∈ loopPairs (sha256d64 firstByte) 3 [1,2,3],
      p ∈ {p | p ∈ ([(1,2),(3,3),(17,19)] : List (BitVec 256 × BitVec 256))} := by
    rw [hl]
    exact fun _ h => h
  have hinj : Set.InjOn (sha256d64 firstByte)
      {p | p ∈ ([(1,2),(3,3),(17,19)] : List (BitVec 256 × BitVec 256))} := 
    List.inj_on_of_nodup_map (by decide +kernel)
  have hleaf : ∀ x ∈ ([1,2,3] : List (BitVec 256)), x ∉ sha256d64 firstByte ''
      {p | p ∈ ([(1,2),(3,3),(17,19)] : List (BitVec 256 × BitVec 256))} := by
    have h : (([(1,2),(3,3),(17,19)] : List (BitVec 256 × BitVec 256)).all fun p =>
        decide (sha256d64 firstByte p ∉ ([1,2,3] : List (BitVec 256)))) = true := by decide +kernel
    rintro x hx ⟨p,hp,rfl⟩
    exact of_decide_eq_true (all_eq_true.mp h p hp) hx
  exact ⟨by decide +kernel,hl,eq_of_computeMerkleRoot hinj (by decide) (by decide) hP hP hleaf hleaf
    (by decide +kernel) (by decide +kernel) rfl⟩

variable {root : BitVec 256} {tx : CTransaction} {ewc : Bool}

theorem path_of_merkleRoot (hv : Hashed sha256d strings vtx) (hn : vtx ≠ [])
    (hr : blockMerkleRoot sha256d vtx = (root,false)) :
    Relation.ReflTransGen (Step (sha256d64 sha256d) {p | pairBytes p ∈ strings})
      (vtx.map CTransaction.hash) [root] := by
  have hp := hv.pairs
  rw [blockMerkleRoot,computeMerkleRoot,length_map] at hr
  refine (path_of_rootLoop ?_ ?_ hp hr).2
  · rw [length_map]
    exact Nat.le_succ _
  · rwa [ne_eq,map_eq_nil_iff]

section
variable (hfree : CollisionFree sha256d strings)
include hfree

theorem merkleRoot_ne_zero (hv : Hashed sha256d strings vtx) (hn : vtx ≠ [])
    (hr : blockMerkleRoot sha256d vtx = (root,false)) : root ≠ 0 := by
  rcases mem_of_path_step (path_of_merkleRoot hv hn hr) with hl | ha
  · obtain ⟨tx,ht,rfl⟩ := mem_map.mp hl
    rw [hv.hash tx ht]
    exact hfree.ne_zero _ (hv.basic tx ht)
  · obtain ⟨p,hp,rfl⟩ := ha
    exact hfree.ne_zero _ hp

/-- The merkle root determines the transaction identifiers of a body that is not mutated. -/
theorem hash_eq_of_merkleRoot (hv : Hashed sha256d strings vtx) (hv' : Hashed sha256d strings vtx')
    (h64 : ∀ tx ∈ vtx, tx.serialize.length ≠ 64) (h64' : ∀ tx ∈ vtx', tx.serialize.length ≠ 64)
    (hr : blockMerkleRoot sha256d vtx = (root,false))
    (hr' : blockMerkleRoot sha256d vtx' = (root,false)) :
    vtx.map hash = vtx'.map hash := by
  -- The root over no transactions is zero, and over some it is not.
  rcases eq_or_ne vtx [] with rfl | hn
  · rcases eq_or_ne vtx' [] with rfl | hn'
    · rfl
    · have hz : root = 0 := (Prod.mk.inj hr).1.symm
      exact absurd hz (merkleRoot_ne_zero hfree hv' hn' hr')
  · rcases eq_or_ne vtx' [] with rfl | hn'
    · have hz : root = 0 := (Prod.mk.inj hr').1.symm
      exact absurd hz (merkleRoot_ne_zero hfree hv hn hr)
    · exact eq_of_path_step hfree.injOn (path_of_merkleRoot hv hn hr)
        (path_of_merkleRoot hv' hn' hr') (hash_notMem_image hfree hv h64)
        (hash_notMem_image hfree hv' h64')

theorem cleared_eq_of_hash (hs : InjectiveSerialization (vtx++vtx'))
    (hv : Hashed sha256d strings vtx) (hv' : Hashed sha256d strings vtx')
    (h : vtx.map hash = vtx'.map hash) :
    vtx.map clearWitness = vtx'.map clearWitness := by
  refine map_eq_of_map_eq (fun tx ht tx' ht' he => ?_) h
  have hb : tx.serialize = tx'.serialize := by
    rw [hv.hash tx ht,hv'.hash tx' ht'] at he
    exact hfree.inj _ (hv.basic tx ht) _ (hv'.basic tx' ht') he
  exact eq_of_toMutable (hs.basic tx (mem_append_left _ ht) tx' (mem_append_right _ ht') hb) he

end

theorem witnessHash_eq (hh : tx.hash = sha256d tx.serialize) :
    tx.getWitnessHash sha256d = sha256d (serializeTransaction true tx.toMutable) := by
  unfold getWitnessHash
  cases hw : tx.toMutable.hasWitness with
  | true => rfl
  | false =>
    rw [if_neg Bool.false_ne_true,hh,tx.serialize_eq,serializeTx_basic (by rfl),
      serializeTx_basic (by rw [hw]; rfl)]

/-- A body whose witnesses fit the commitment has a coinbase with the reserved value. -/
theorem malleation_eq_ok {c : ℕ} (hn : getWitnessCommitmentIndex vtx = some c)
    (h : checkWitnessMalleation sha256d true vtx = .ok ()) : ∃ coinbase t r,
      vtx.head? = some coinbase ∧ coinbase.vin.head? = some t ∧ t.scriptWitness = [r] ∧
      leBytes 32 (sha256d (leBytes 32 (blockWitnessMerkleRoot sha256d vtx).toNat++r)).toNat =
        committedHash vtx c := by
  unfold checkWitnessMalleation at h
  rw [if_pos rfl,hn] at h
  cases hh : vtx.head?.bind fun coinbase => coinbase.vin.head? with
  | none => simp [hh] at h
  | some t =>
    obtain ⟨coinbase,hc,ht⟩ := bind_eq_some_iff.mp hh
    rw [hh] at h
    dsimp only at h
    split at h
    · rename_i r hs
      split_ifs at h with hl hm
      · simp [invalidBlock] at h
      · simp [invalidBlock] at h
      · exact ⟨coinbase,t,r,hc,ht,hs,not_not.mp hm⟩
    · simp [invalidBlock] at h

theorem CoinbaseFirst.exists_coinbase (h : CoinbaseFirst vtx) :
    ∃ coinbase t, vtx.head? = some coinbase ∧ coinbase.vin = [t] := by
  cases vtx with
  | nil => exact absurd h not_false
  | cons coinbase vtx =>
    have hc := h.1
    unfold isCoinBase at hc
    split at hc
    · rename_i t hv
      exact ⟨coinbase,t,rfl,hv⟩
    · exact absurd hc Bool.false_ne_true

/-- A body with a coinbase passes the check of its witnesses or is rejected as mutated. -/
theorem malleation_cases (ewc : Bool) (hf : CoinbaseFirst vtx) :
    checkWitnessMalleation sha256d ewc vtx = .ok () ∨ ∃ r,
      checkWitnessMalleation sha256d ewc vtx = .error (.invalid r) ∧ r.result = .mutated := by
  obtain ⟨coinbase,t,hh,hv⟩ := hf.exists_coinbase
  unfold checkWitnessMalleation
  split
  · rw [hh,bind_some,hv,head?_cons]
    dsimp only
    split
    · split_ifs
      · exact .inr ⟨_,rfl,rfl⟩
      · exact .inr ⟨_,rfl,rfl⟩
      · exact .inl rfl
    · exact .inr ⟨_,rfl,rfl⟩
  · split_ifs
    · exact .inr ⟨_,rfl,rfl⟩
    · exact .inl rfl

theorem length_leaves (vtx : List CTransaction) :
    (witnessLeaves sha256d vtx).length = vtx.length := by
  cases vtx with
  | nil => rfl
  | cons coinbase vtx => rw [witnessLeaves,length_cons,length_map,length_cons]

/-- The witness root determines the witnesses of all transactions but the coinbase. -/
theorem tail_eq_of_witnessRoot (hfree : CollisionFree sha256d strings)
    (hs : InjectiveSerialization (vtx++vtx'))
    (hv : Hashed sha256d strings vtx) (hv' : Hashed sha256d strings vtx')
    (hl : vtx.length = vtx'.length)
    (hr : blockWitnessMerkleRoot sha256d vtx = blockWitnessMerkleRoot sha256d vtx') :
    vtx.tail = vtx'.tail := by
  have hle : witnessLeaves sha256d vtx = witnessLeaves sha256d vtx' := by
    have hp := hv.witnessPairs
    have hp' := hv'.witnessPairs
    rw [blockWitnessMerkleRoot,blockWitnessMerkleRoot,computeMerkleRoot,computeMerkleRoot,
      length_leaves,length_leaves,← hl] at hr
    rw [← hl] at hp'
    refine eq_of_rootLoop hfree.injOn ?_ ?_ hp hp' hr
    · rw [length_leaves]
      exact Nat.le_succ _
    · rw [length_leaves,length_leaves,hl]
  match vtx, vtx', hl, hle with
  | [], [], _, _ => rfl
  | coinbase::vtx, coinbase'::vtx', _, hle =>
    rw [witnessLeaves,witnessLeaves,cons.injEq] at hle
    have hd : vtx.map id = vtx'.map id := by
      refine map_eq_of_map_eq (fun tx ht tx' ht' he => ?_) hle.2
      have hme := mem_cons_of_mem coinbase ht
      have hme' := mem_cons_of_mem coinbase' ht'
      rw [witnessHash_eq (hv.hash tx hme),witnessHash_eq (hv'.hash tx' hme')] at he
      have hb := hfree.inj _ (hv.extended tx hme) _ (hv'.extended tx' hme') he
      have hm := hs.extended tx (mem_append_left _ hme) tx' (mem_append_right _ hme') hb
      apply eq_of_toMutable hm
      rw [hv.hash tx hme,hv'.hash tx' hme',tx.serialize_eq,tx'.serialize_eq,hm]
    simpa only [List.map_id,List.tail_cons] using hd

theorem index_cleared (vtx : List CTransaction) :
    getWitnessCommitmentIndex (vtx.map clearWitness) = getWitnessCommitmentIndex vtx := by
  cases vtx <;> rfl

theorem committedHash_cleared (vtx : List CTransaction) (c : ℕ) :
    committedHash (vtx.map clearWitness) c = committedHash vtx c := by
  cases vtx <;> rfl

theorem CTransaction.cleared_of_hasWitness (h : tx.toMutable.hasWitness = false) :
    tx.clearWitness = tx := by
  have hv : tx.vin.map CTxIn.clearWitness = tx.vin := map_cleared_of_hasWitness h
  refine eq_of_toMutable ?_ rfl
  exact congrArg (CMutableTransaction.mk · tx.vout tx.version tx.nLockTime) hv

theorem coinbase_eq_of_cleared {tx' : CTransaction} {t t' : CTxIn}
    (h : tx.clearWitness = tx'.clearWitness) (hvi : tx.vin = [t]) (hvi' : tx'.vin = [t'])
    (hw : t.scriptWitness = t'.scriptWitness) : tx = tx' := by
  have hc : t.clearWitness = t'.clearWitness := by
    have hv := congrArg vin h
    change tx.vin.map CTxIn.clearWitness = tx'.vin.map CTxIn.clearWitness at hv
    simpa [hvi,hvi'] using hv
  have ht : t = t' := by
    cases t
    cases t'
    simp_all [CTxIn.clearWitness]
  cases tx
  cases tx'
  simp_all [clearWitness]

/-- Without a commitment there are no witnesses. -/
theorem map_cleared (hn : (if ewc then getWitnessCommitmentIndex vtx else none) = none)
    (h : checkWitnessMalleation sha256d ewc vtx = .ok ()) :
    vtx.map clearWitness = vtx := by
  unfold checkWitnessMalleation at h
  rw [hn] at h
  split_ifs at h with ha
  · simp [invalidBlock] at h
  · have hd : ∀ tx ∈ vtx, tx.clearWitness = id tx := by
      intro tx ht
      refine cleared_of_hasWitness (Bool.eq_false_iff.mpr fun hw => ha ?_)
      exact any_eq_true.mpr ⟨tx,ht,hw⟩
    rw [List.map_congr_left hd,List.map_id]

/-- Bodies that differ at most in witnesses, and both pass the check of these, are equal. -/
theorem vtx_eq_of_malleation (hfree : CollisionFree sha256d strings)
    (he : InjectiveSerialization (vtx++vtx')) (hv : Hashed sha256d strings vtx)
    (hv' : Hashed sha256d strings vtx') (hf : CoinbaseFirst vtx)
    (hf' : CoinbaseFirst vtx')
    (hcl : vtx.map clearWitness = vtx'.map clearWitness)
    (h : checkWitnessMalleation sha256d ewc vtx = .ok ())
    (h' : checkWitnessMalleation sha256d ewc vtx' = .ok ()) : vtx = vtx' := by
  have hin : getWitnessCommitmentIndex vtx = getWitnessCommitmentIndex vtx' := by
    rw [← index_cleared vtx,hcl,index_cleared]
  cases hc : if ewc then getWitnessCommitmentIndex vtx else none with
  | none =>
    have hc' := hc
    rw [hin] at hc'
    rw [← map_cleared hc h,hcl,map_cleared hc' h']
  | some c =>
    obtain ⟨rfl,hso⟩ : ewc = true ∧ getWitnessCommitmentIndex vtx = some c := by simpa using hc
    obtain ⟨coinbase,t,r,hh,ht,hs,ho⟩ := malleation_eq_ok hso h
    obtain ⟨coinbase',t',r',hh',ht',hs',ho'⟩ := malleation_eq_ok (hin ▸ hso) h'
    -- Both commitments are to one hash, so to one root and one reserved value.
    have hb : leBytes 32 (blockWitnessMerkleRoot sha256d vtx).toNat++r =
        leBytes 32 (blockWitnessMerkleRoot sha256d vtx').toNat++r' := by
      have hm := hv.commitment coinbase t r hh ht (by rw [hs,head?_cons])
      have hm' := hv'.commitment coinbase' t' r' hh' ht' (by rw [hs',head?_cons])
      rw [← committedHash_cleared,hcl,committedHash_cleared,← ho'] at ho
      have hn := leBytes_inj (BitVec.isLt _) (BitVec.isLt _) ho
      exact hfree.inj _ hm _ hm' (BitVec.eq_of_toNat_eq hn)
    obtain ⟨hro,hr⟩ := append_inj hb (by rw [length_leBytes,length_leBytes])
    have hl : vtx.length = vtx'.length := by
      rw [← length_map clearWitness,hcl,length_map]
    have ha := tail_eq_of_witnessRoot hfree he hv hv' hl
      (BitVec.eq_of_toNat_eq (leBytes_inj (BitVec.isLt _) (BitVec.isLt _) hro))
    have hco : coinbase = coinbase' := by
      have hcb := congrArg head? hcl
      rw [head?_map,head?_map,hh,hh',map_some,map_some,some.injEq] at hcb
      obtain ⟨cb,i,hcbh,hvi⟩ := hf.exists_coinbase
      obtain ⟨cb',i',hcbh',hvi'⟩ := hf'.exists_coinbase
      obtain rfl : cb = coinbase := some.inj (hcbh.symm.trans hh)
      obtain rfl : cb' = coinbase' := some.inj (hcbh'.symm.trans hh')
      obtain rfl : i = t := by simpa [hvi] using ht
      obtain rfl : i' = t' := by simpa [hvi'] using ht'
      exact coinbase_eq_of_cleared hcb hvi hvi' (by rw [hs,hs',hr])
    rw [← cons_head?_tail hh,← cons_head?_tail hh',hco,ha]

variable {checks : BlockChecks} {params : Params}
  {prev : PrevBlock} {a b : HashedBlock sha256d}

/-- A rejection that says nothing about the header. -/
def RejectedAsMutated (x : Except BlockFailure Unit) : Prop :=
  ∃ reason, x = .error (.invalid reason) ∧ reason.result = .mutated

theorem checkMerkleRoot_cases (sha256d : List (BitVec 8) → BitVec 256) (header : WireHeader)
    (vtx : List CTransaction) :
    (checkMerkleRoot sha256d header vtx = none ∧
      blockMerkleRoot sha256d vtx = (header.hashMerkleRoot,false)) ∨
      ∃ r, checkMerkleRoot sha256d header vtx = some r ∧ r.result = .mutated := by
  unfold checkMerkleRoot
  dsimp only
  split_ifs with hr hm
  · exact .inr ⟨_,rfl,rfl⟩
  · exact .inr ⟨_,rfl,rfl⟩
  · refine .inl ⟨rfl,?_⟩
    rw [not_not] at hr
    rw [hr,← Bool.eq_false_iff.mpr hm]

theorem acceptBlock_of_check {r : Invalid BlockValidationResult}
    (h : (bodyChecks sha256d checks params a.header).checkHeader ⟨sha256d a.header.serialize,
      a.vtx⟩ = some r) :
    acceptBlockChecks sha256d checks params prev a = .error (.invalid r) := by
  rw [acceptBlockChecks,checkBlock,h]
  rfl

/-- A body that is not rejected as mutated, on a header that passes, fits the merkle root. -/
theorem merkleRoot_of_not (hh : checkBlockHeader sha256d params a.header = none)
    (ha : ¬ RejectedAsMutated (acceptBlockChecks sha256d checks params prev a)) :
    blockMerkleRoot sha256d a.vtx = (a.header.hashMerkleRoot,false) := by
  rcases checkMerkleRoot_cases sha256d a.header a.vtx with ⟨-,ho⟩ | ⟨reason,hr,he⟩
  · exact ho
  · refine absurd ⟨reason,acceptBlock_of_check ?_,he⟩ ha
    simp only [bodyChecks,hh,hr,orElse_none]

/-- A body that passes what comes before passes the check of its witnesses, or is mutated. -/
theorem malleation_of_not (hf : CoinbaseFirst a.vtx)
    (hc : checkBlock (bodyChecks sha256d checks params a.header) ⟨sha256d a.header.serialize,
      a.vtx⟩ = .ok ())
    (hb : checkBeforeWitness params (contextChecks sha256d params a.header prev) a.vtx
      (sha256d a.header.serialize) (prev.branch.nHeight+1) = .ok ())
    (ha : ¬ RejectedAsMutated (acceptBlockChecks sha256d checks params prev a)) :
    checkWitnessMalleation sha256d (deploymentActiveAfter (some prev.index) params .segwit) a.vtx =
      .ok () := by
  rcases malleation_cases (deploymentActiveAfter (some prev.index) params .segwit) hf with
    ho | ⟨reason,hr,he⟩
  · exact ho
  · refine absurd ⟨reason,?_,he⟩ ha
    rw [acceptBlockChecks,hc,contextual_eq,hb,contextChecks]
    dsimp only
    rw [hr]
    rfl

/-- Two bodies of one header get the same verdict unless one is rejected as mutated. -/
theorem acceptBlock_eq (hhe : a.header = b.header)
    (hfree : CollisionFree sha256d (hashedStrings sha256d a.vtx++hashedStrings sha256d b.vtx))
    (hse : InjectiveSerialization (a.vtx++b.vtx))
    (h64 : ∀ tx ∈ a.vtx++b.vtx, tx.serialize.length ≠ 64)
    (ha : ¬ RejectedAsMutated (acceptBlockChecks sha256d checks params prev a))
    (hb : ¬ RejectedAsMutated (acceptBlockChecks sha256d checks params prev b)) :
    acceptBlockChecks sha256d checks params prev a = acceptBlockChecks sha256d checks params prev
      b := by
  obtain ⟨header,vtx,hh⟩ := a
  obtain ⟨header',vtx',hh'⟩ := b
  obtain rfl : header = header' := hhe
  cases hp : checkBlockHeader sha256d params header with
  | some r =>
    have hf (w : List CTransaction) : (bodyChecks sha256d checks params header).checkHeader
        ⟨sha256d header.serialize,w⟩ = some r := by
      simp only [bodyChecks,hp,orElse_some]
    rw [acceptBlock_of_check (a := ⟨header,vtx,hh⟩) (hf vtx),
      acceptBlock_of_check (a := ⟨header,vtx',hh'⟩) (hf vtx')]
  | none =>
    have hv := hashed_of_subset hh (subset_append_left _ (hashedStrings sha256d vtx'))
    have hv' := hashed_of_subset hh' (subset_append_right (hashedStrings sha256d vtx) _)
    rw [forall_mem_append] at h64
    have hl := cleared_eq_of_hash hfree hse hv hv' (hash_eq_of_merkleRoot hfree hv hv' h64.1 h64.2
        (merkleRoot_of_not hp ha) (merkleRoot_of_not hp hb))
    have hch := checkBlock_cleared sha256d checks params header (sha256d header.serialize) vtx
    rw [hl,checkBlock_cleared] at hch
    have hbe := beforeWitness_cleared sha256d params header prev vtx
      (sha256d header.serialize) (prev.branch.nHeight+1)
    rw [hl,beforeWitness_cleared] at hbe
    have hs := checkBlock_spec (bodyChecks sha256d checks params header) ⟨sha256d header.serialize,
      vtx⟩
    have hs' := checkBlock_spec (bodyChecks sha256d checks params header) ⟨sha256d header.serialize,
      vtx'⟩
    cases hc : checkBlock (bodyChecks sha256d checks params header)
        ⟨sha256d header.serialize,vtx⟩ with
    | error e =>
      rw [hc] at hch
      rw [acceptBlockChecks,acceptBlockChecks,hc,hch]
      rfl
    | ok u =>
      rw [hc] at hs hch
      rw [hch] at hs'
      cases he : checkBeforeWitness params (contextChecks sha256d params header prev) vtx
          (sha256d header.serialize) (prev.branch.nHeight+1) with
      | error e =>
        rw [he] at hbe
        rw [acceptBlockChecks,acceptBlockChecks,hc,hch,contextual_eq,contextual_eq,he,hbe]
        rfl
      | ok u' =>
        rw [he] at hbe
        have hm := malleation_of_not (a := ⟨header,vtx,hh⟩) hs.1 hc he ha
        have hm' := malleation_of_not (a := ⟨header,vtx',hh'⟩) hs'.1 hch hbe hb
        obtain rfl := vtx_eq_of_malleation hfree hse hv hv' hs.1 hs'.1 hl hm hm'
        rfl

/-- Once a body of a header is rejected for good, no other body of the header is accepted. -/
theorem not_accepted_of_rejected (hheader : a.header = b.header)
    (hfree : CollisionFree sha256d (hashedStrings sha256d a.vtx ++ hashedStrings sha256d b.vtx))
    (hser : InjectiveSerialization (a.vtx ++ b.vtx))
    (h64 : ∀ tx ∈ a.vtx ++ b.vtx, tx.serialize.length ≠ 64) {reason : Invalid BlockValidationResult}
    (hrejected : acceptBlockChecks sha256d checks params prev a = .error (.invalid reason))
    (hreason : reason.result ≠ .mutated) :
    acceptBlockChecks sha256d checks params prev b ≠ .ok () := by
  intro hc
  have ha : ¬ RejectedAsMutated (acceptBlockChecks sha256d checks params prev a) := by
    rintro ⟨reason',he,hr⟩
    rw [hrejected,Except.error.injEq,Failure.invalid.injEq] at he
    rw [he] at hreason
    exact hreason hr
  have hb : ¬ RejectedAsMutated (acceptBlockChecks sha256d checks params prev b) := by
    rintro ⟨reason',he,-⟩
    rw [hc] at he
    exact absurd he (by simp)
  have he := acceptBlock_eq hheader hfree hser h64 ha hb
  rw [hrejected,hc] at he
  exact absurd he (by simp)

theorem CTransaction.sized_cleared (h : tx.toMutable.Sized) : tx.clearWitness.toMutable.Sized where
  vin := by
    change (tx.vin.map CTxIn.clearWitness).length ≤ maxSize
    rw [length_map]
    exact h.vin
  vout := h.vout
  scriptSig := by
    intro t hm
    obtain ⟨t',hm',rfl⟩ := mem_map.mp hm
    exact h.scriptSig t' hm'
  stack := by
    intro t hm
    obtain ⟨t',-,rfl⟩ := mem_map.mp hm
    exact ⟨Nat.zero_le _,fun i ht => absurd ht not_mem_nil⟩
  scriptPubKey := h.scriptPubKey
  value := h.value

theorem CTransaction.hasWitness_cleared (tx : CTransaction) :
    tx.clearWitness.toMutable.hasWitness = false := by
  apply hasWitness_eq_false.mpr
  intro t hm
  obtain ⟨t',-,rfl⟩ := mem_map.mp hm
  rfl

/-- Transactions with inputs have different serialisations, when their vectors can be read back. -/
theorem injective_of_sized {txs : List CTransaction} (hs : ∀ tx ∈ txs, tx.toMutable.Sized)
    (hv : ∀ tx ∈ txs, tx.vin ≠ []) :
    InjectiveSerialization txs where
  basic := by
    intro tx hx tx' hx' he
    have hr (t : CTransaction) (ht : t ∈ txs) : (unserializeTransaction false).run
        (t.serialize++[]) = .ok (t.clearWitness.toMutable,[]) := by
      rw [← t.serialize_cleared,serialize_eq]
      exact (sized_cleared (hs t ht)).run_basic t.hasWitness_cleared (.inl rfl) []
    have hr' := hr tx' hx'
    rw [← he,hr tx hx] at hr'
    exact (Prod.mk.inj (Except.ok.inj hr')).1
  extended := by
    intro tx hx tx' hx' he
    have hr (t : CTransaction) (ht : t ∈ txs) := (hs t ht).run_unserializeTx (.inl (hv t ht)) []
    have hr' := hr tx' hx'
    rw [← he,hr tx hx] at hr'
    exact (Prod.mk.inj (Except.ok.inj hr')).1

/-- A hash for an example: no two short strings collide, and all have the proof of work. -/
def shortHash (bytes : List (BitVec 8)) : BitVec 256 := BitVec.ofNat 256 (1+leValue bytes % 2^208)

def spendingTx (scriptWitness : List (List (BitVec 8))) (hash : BitVec 256) : CTransaction where
  version := 2
  vin := [⟨⟨1,0⟩,[],0,scriptWitness⟩]
  vout := [⟨1,[]⟩]
  nLockTime := 0
  hash := hash
  vin_size := by simp
  vout_size := by decide
  scriptSig_size := by simp

def spendingHash : BitVec 256 := shortHash (spendingTx [] 0).serialize

def spendingBlock (scriptWitness : List (List (BitVec 8))) : HashedBlock shortHash where
  header := ⟨⟨1,0,0x1d00ffff⟩,0,spendingHash,0⟩
  vtx := [spendingTx scriptWitness spendingHash]
  hash_eq := by
    intro tx htx
    rw [List.mem_singleton.mp htx]
    rfl

def genesisPrev : PrevBlock where
  index := .genesis ⟨1,0,0x1d00ffff⟩
  branch := ⟨0,[]⟩
  height_eq := rfl

theorem sized_spendingTx {scriptWitness : List (List (BitVec 8))} (hash : BitVec 256)
    (hs : scriptWitness.length ≤ maxSize ∧ ∀ item ∈ scriptWitness, item.length ≤ maxSize) :
    (spendingTx scriptWitness hash).toMutable.Sized where
  vin := by simp [spendingTx,toMutable,maxSize]
  vout := by simp [spendingTx,toMutable,maxSize]
  scriptSig := by simp [spendingTx,toMutable]
  stack := by simpa [spendingTx,toMutable] using hs
  scriptPubKey := by simp [spendingTx,toMutable]
  value := by simp [spendingTx,toMutable]

/-- A block without coinbase is rejected for good, and is not accepted with a witness put into it.
-/
theorem not_accepted_with_witness :
    acceptBlockChecks shortHash acceptAll cDripParams genesisPrev (spendingBlock []) =
        .error (.invalid ⟨.consensus, "bad-cb-missing", "first tx is not coinbase"⟩) ∧
      acceptBlockChecks shortHash acceptAll cDripParams genesisPrev (spendingBlock [[1#8]]) ≠
        .ok () := by
  have hr : acceptBlockChecks shortHash acceptAll cDripParams genesisPrev (spendingBlock []) =
      .error (.invalid ⟨.consensus,"bad-cb-missing","first tx is not coinbase"⟩) := by
    decide +kernel
  have hs : ∀ tx ∈ (spendingBlock []).vtx++(spendingBlock [[1#8]]).vtx, tx.toMutable.Sized := by
    simp [spendingBlock,sized_spendingTx,maxSize]
  refine ⟨hr,not_accepted_of_rejected (a := spendingBlock []) rfl ⟨?_,?_⟩
    (injective_of_sized hs ?_) ?_ hr (by decide)⟩
  · decide +kernel
  · decide +kernel
  · decide +kernel
  · decide +kernel

end DripCore
