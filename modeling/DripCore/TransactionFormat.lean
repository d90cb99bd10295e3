import DripCore.Deserialization

/-!
# The wire format of transactions

A transaction with witnesses is written in the extended format, where an empty vector of inputs and
a byte of flags come first and the witness stacks after the outputs. So a transaction without inputs
is read back only when it has no outputs either.
-/
namespace DripCore
open CTxIn ExceptRules List PrefixCode StreamReader

structure CMutableTransaction where
  vin : List CTxIn
  vout : List CTxOut
  version : BitVec 32
  nLockTime : BitVec 32
deriving DecidableEq

def hasWitness (vin : List CTxIn) : Bool := vin.any fun txin => !txin.scriptWitness.isEmpty

def CMutableTransaction.hasWitness (tx : CMutableTransaction) : Bool := DripCore.hasWitness tx.vin

def writeStack (stack : List (List (BitVec 8))) : List (BitVec 8) :=
  writeVector (fun item => writeCompactSize item.length++item) stack

def serializeTransaction (allow_witness : Bool) (tx : CMutableTransaction) : List (BitVec 8) :=
  let flags := if allow_witness && tx.hasWitness then 1#8 else 0#8
  leBytes 4 tx.version.toNat++((if flags ≠ 0#8 then writeVector serialize []++[flags] else []) ++
      (writeVector serialize tx.vin++(writeVector CTxOut.serialize tx.vout ++
        ((if flags &&& 1#8 ≠ 0#8 then tx.vin.flatMap fun txin => writeStack txin.scriptWitness
          else [])++leBytes 4 tx.nLockTime.toNat))))

def readUInt (k : ℕ) : ByteReader (BitVec (8*k)) := do
  let n ← readLE .endOfData k
  return BitVec.ofNat (8*k) n

def COutPoint.unserialize : ByteReader COutPoint := do
  let hash ← readUInt 32
  let n ← readUInt 4
  return ⟨hash,n⟩

def CTxIn.unserialize : ByteReader CTxIn := do
  let prevout ← COutPoint.unserialize
  let scriptSig ← readByteVector
  let nSequence ← readUInt 4
  return ⟨prevout,scriptSig,nSequence,[]⟩

def CTxOut.unserialize : ByteReader CTxOut := do
  let nValue ← readUInt 8
  let scriptPubKey ← readByteVector
  return ⟨BitVec.toInt nValue,scriptPubKey⟩

/-- A witness stack for every input, in place of the one it has. -/
def readStacks : List CTxIn → ByteReader (List CTxIn)
  | [] => pure []
  | txin::vin => do
      let stack ← readVector readByteVector
      let vin ← readStacks vin
      return { txin with scriptWitness := stack } :: vin

/-- The flags, the inputs and the outputs, after a first vector of inputs has been read. -/
def readBody (allow_witness : Bool) (vin : List CTxIn) :
    ByteReader (BitVec 8 × List CTxIn × List CTxOut) :=
  if vin.isEmpty && allow_witness then do
    let flags ← readUInt 1
    if flags ≠ 0#8 then do
      let vin ← readVector unserialize
      let vout ← readVector CTxOut.unserialize
      return (flags,vin,vout)
    else return (flags,vin,[])
  else do
    let vout ← readVector CTxOut.unserialize
    return (0#8,vin,vout)

/-- The witness record, and the flags that remain. -/
def readWitness (allow_witness : Bool) (flags : BitVec 8) (vin : List CTxIn) :
    ByteReader (BitVec 8 × List CTxIn) :=
  if flags &&& 1#8 ≠ 0#8 ∧ allow_witness then do
    let vin ← readStacks vin
    if hasWitness vin then return (flags ^^^ 1#8,vin) else throw .superfluousWitness
  else return (flags,vin)

def unserializeTransaction (allow_witness : Bool) : ByteReader CMutableTransaction := do
  let version ← readUInt 4
  let vin ← readVector unserialize
  let (flags,vin,vout) ← readBody allow_witness vin
  let (flags,vin) ← readWitness allow_witness flags vin
  if flags ≠ 0#8 then throw .unknownOptionalData
  else do
    let nLockTime ← readUInt 4
    return { vin, vout, version, nLockTime }

theorem reads_readUInt (k : ℕ) : Reads (readUInt k) (fun b => leBytes k b.toNat) fun _ => True := by
  intro b _ rest
  have hl := b.isLt
  rw [Nat.pow_mul] at hl
  rw [readUInt,run_bind (reads_readLE _ k _ hl rest),BitVec.ofNat_toNat,BitVec.setWidth_eq]
  rfl

theorem exact_readUInt (k : ℕ) : Exact (readUInt k) fun b => leBytes k b.toNat := by
  intro s b rest h
  obtain ⟨n,s',hr,hv⟩ := run_bind_eq_ok.mp h
  obtain ⟨rfl,rfl⟩ := run_pure_eq_ok.mp hv
  have hl : n < 2^(8*k) := by
    rw [Nat.pow_mul]
    exact readLE_lt hr
  have ht : (BitVec.ofNat (8*k) n).toNat = n := by
    rw [BitVec.toNat_ofNat,Nat.mod_eq_of_lt hl]
  simpa only [ht] using exact_readLE _ k _ _ _ hr

theorem reads_outPoint : Reads COutPoint.unserialize COutPoint.serialize fun _ => True := by
  intro o _ rest
  rw [COutPoint.unserialize,COutPoint.serialize,append_assoc,
    run_bind (reads_readUInt 32 o.hash trivial _),run_bind (reads_readUInt 4 o.n trivial _)]
  rfl

theorem exact_outPoint : Exact COutPoint.unserialize COutPoint.serialize := by
  intro s o rest h
  obtain ⟨hash,s1,hh,h⟩ := run_bind_eq_ok.mp h
  obtain ⟨n,s2,hn,h⟩ := run_bind_eq_ok.mp h
  obtain ⟨rfl,rfl⟩ := run_pure_eq_ok.mp h
  rw [exact_readUInt 32 _ _ _ hh,exact_readUInt 4 _ _ _ hn,COutPoint.serialize,append_assoc]

theorem reads_txIn : Reads unserialize serialize fun t => t.scriptSig.length ≤ maxSize ∧
    t.scriptWitness = [] := by
  intro t h rest
  rw [unserialize,serialize,CScript.serialize,append_assoc,append_assoc,
    run_bind (reads_outPoint _ trivial _),run_bind (reads_readBytes _ h.1 _),
    run_bind (reads_readUInt 4 t.nSequence trivial _),← h.2]
  rfl

theorem exact_txIn : Exact unserialize serialize := by
  intro s t rest h
  obtain ⟨prevout,s1,hp,h⟩ := run_bind_eq_ok.mp h
  obtain ⟨scriptSig,s2,hs,h⟩ := run_bind_eq_ok.mp h
  obtain ⟨nSequence,s3,he,h⟩ := run_bind_eq_ok.mp h
  obtain ⟨rfl,rfl⟩ := run_pure_eq_ok.mp h
  rw [exact_outPoint _ _ _ hp,exact_readBytes _ _ _ hs,
    exact_readUInt 4 _ _ _ he]
  simp only [serialize,CScript.serialize,append_assoc]

theorem yields_txIn : Yields unserialize fun t => t.scriptWitness = [] := by
  intro s t rest h
  obtain ⟨prevout,s1,-,h⟩ := run_bind_eq_ok.mp h
  obtain ⟨scriptSig,s2,-,h⟩ := run_bind_eq_ok.mp h
  obtain ⟨nSequence,s3,-,h⟩ := run_bind_eq_ok.mp h
  obtain ⟨rfl,-⟩ := run_pure_eq_ok.mp h
  rfl

theorem reads_txOut : Reads CTxOut.unserialize CTxOut.serialize fun txout =>
    (-2^63 ≤ txout.nValue ∧ txout.nValue < 2^63) ∧ txout.scriptPubKey.length ≤ maxSize := by
  intro txout h rest
  have hv : (BitVec.ofInt 64 txout.nValue).toInt = txout.nValue := by
    rw [BitVec.toInt_ofInt]
    exact Int.bmod_eq_of_le h.1.1 h.1.2
  rw [CTxOut.unserialize,CTxOut.serialize,CScript.serialize,append_assoc,
    run_bind (reads_readUInt 8 (BitVec.ofInt 64 txout.nValue) trivial _),
    run_bind (reads_readBytes _ h.2 _),hv]
  rfl

theorem exact_txOut : Exact CTxOut.unserialize CTxOut.serialize := by
  intro s txout rest h
  obtain ⟨nValue,s1,hv,h⟩ := run_bind_eq_ok.mp h
  obtain ⟨scriptPubKey,s2,hs,h⟩ := run_bind_eq_ok.mp h
  obtain ⟨rfl,rfl⟩ := run_pure_eq_ok.mp h
  rw [exact_readUInt 8 _ _ _ hv,exact_readBytes _ _ _ hs]
  simp only [CTxOut.serialize,CScript.serialize,BitVec.ofInt_toInt,append_assoc]

def CTxIn.clearWitness (txin : CTxIn) : CTxIn := { txin with scriptWitness := [] }

theorem writeVector_cleared (vin : List CTxIn) :
    writeVector serialize (vin.map clearWitness) = writeVector serialize vin := by
  rw [writeVector,length_map,flatMap_map]
  rfl

variable {vin vin' : List CTxIn} {rest s : List (BitVec 8)} {a : Bool}

theorem hasWitness_eq_false : hasWitness vin = false ↔ ∀ txin ∈ vin, txin.scriptWitness = [] := by
  simp [hasWitness]

theorem map_cleared_of_hasWitness (h : hasWitness vin = false) : vin.map clearWitness = vin := by
  have hd : ∀ t ∈ vin, t.clearWitness = id t := by
    intro t hm
    rw [clearWitness,← hasWitness_eq_false.mp h t hm]
    rfl
  rw [map_congr_left hd,map_id]

theorem reads_stack : Reads (readVector readByteVector) writeStack
    fun stack => stack.length ≤ maxSize ∧ ∀ item ∈ stack, item.length ≤ maxSize :=
  reads_readVector reads_readBytes

theorem exact_stack : Exact (readVector readByteVector) writeStack :=
  exact_readVector exact_readBytes

theorem run_readStacks (h : ∀ t ∈ vin, t.scriptWitness.length ≤ maxSize ∧ ∀ item ∈ t.scriptWitness,
    item.length ≤ maxSize)
    (rest : List (BitVec 8)) :
    (readStacks (vin.map clearWitness)).run
        (vin.flatMap (fun t => writeStack t.scriptWitness)++rest) = .ok (vin,rest) := by
  induction vin with
  | nil => rfl
  | cons t vin ih =>
    have hh := reads_stack t.scriptWitness (h t mem_cons_self)
      (vin.flatMap (fun t => writeStack t.scriptWitness)++rest)
    have ht := ih fun t' hm => h t' (mem_cons_of_mem t hm)
    rw [map_cons,readStacks,flatMap_cons,append_assoc,run_bind hh,run_bind ht]
    rfl

theorem readStacks_eq_ok (h : (readStacks vin).run s = .ok (vin',rest)) :
    s = vin'.flatMap (fun t => writeStack t.scriptWitness)++rest ∧
      vin'.map clearWitness = vin.map clearWitness := by
  induction vin generalizing vin' s with
  | nil =>
    obtain ⟨rfl,rfl⟩ := run_pure_eq_ok.mp h
    exact ⟨rfl,rfl⟩
  | cons t vin ih =>
    obtain ⟨stack,s1,hst,h⟩ := run_bind_eq_ok.mp h
    obtain ⟨vin1,s2,ht,h⟩ := run_bind_eq_ok.mp h
    obtain ⟨rfl,rfl⟩ := run_pure_eq_ok.mp h
    obtain ⟨hs,hc⟩ := ih ht
    rw [exact_stack _ _ _ hst,hs,flatMap_cons,append_assoc,map_cons,hc]
    exact ⟨rfl,rfl⟩

variable {tx : CMutableTransaction} {f : BitVec 8}

/-- The two formats. -/
theorem serializeTx_basic (h : (a && tx.hasWitness) = false) :
    serializeTransaction a tx = leBytes 4 tx.version.toNat++(writeVector serialize tx.vin ++
        (writeVector CTxOut.serialize tx.vout++leBytes 4 tx.nLockTime.toNat)) := by
  rw [serializeTransaction,h]
  rfl

theorem serializeTx_extended (h : tx.hasWitness = true) : serializeTransaction true tx =
      leBytes 4 tx.version.toNat++(writeVector serialize []++(leBytes 1 1 ++
        (writeVector serialize tx.vin++(writeVector CTxOut.serialize tx.vout ++
          (tx.vin.flatMap (fun t => writeStack t.scriptWitness) ++
            leBytes 4 tx.nLockTime.toNat))))) := by
  rw [serializeTransaction,h]
  rfl

/-- The lengths of all vectors are in range, and the values in the type of amounts. -/
structure CMutableTransaction.Sized (tx : CMutableTransaction) : Prop where
  vin : tx.vin.length ≤ maxSize
  vout : tx.vout.length ≤ maxSize
  scriptSig : ∀ txin ∈ tx.vin, txin.scriptSig.length ≤ maxSize
  stack : ∀ txin ∈ tx.vin,
    txin.scriptWitness.length ≤ maxSize ∧ ∀ item ∈ txin.scriptWitness, item.length ≤ maxSize
  scriptPubKey : ∀ txout ∈ tx.vout, txout.scriptPubKey.length ≤ maxSize
  value : ∀ txout ∈ tx.vout, -2^63 ≤ txout.nValue ∧ txout.nValue < 2^63

namespace CMutableTransaction.Sized
variable {tx : CMutableTransaction}

theorem run_vin (h : tx.Sized) (rest : List (BitVec 8)) :
    (readVector unserialize).run (writeVector serialize tx.vin++rest) =
      .ok (tx.vin.map clearWitness,rest) := by
  rw [← writeVector_cleared]
  apply reads_readVector reads_txIn
  constructor
  · rw [length_map]
    exact h.vin
  · intro t hm
    obtain ⟨t',hm',rfl⟩ := mem_map.mp hm
    exact ⟨h.scriptSig t' hm',rfl⟩

theorem run_vout (h : tx.Sized) (rest : List (BitVec 8)) :
    (readVector CTxOut.unserialize).run (writeVector CTxOut.serialize tx.vout++rest) =
      .ok (tx.vout,rest) :=
  reads_readVector reads_txOut _ ⟨h.vout,fun txout hm => ⟨h.value txout hm,h.scriptPubKey txout hm⟩⟩
    rest

theorem run_nLockTime (tx : CMutableTransaction) (rest : List (BitVec 8)) :
    (readUInt 4).run (leBytes 4 tx.nLockTime.toNat++rest) = .ok (tx.nLockTime,rest) :=
  reads_readUInt 4 tx.nLockTime trivial rest

variable {a : Bool}

theorem run_readBody_basic (h : tx.Sized) (hs : a = false ∨ tx.vin ≠ [] ∨ tx.vout = [])
    (rest : List (BitVec 8)) :
    (readBody a (tx.vin.map clearWitness)).run (writeVector CTxOut.serialize tx.vout++rest) =
      .ok ((0#8,tx.vin.map clearWitness,tx.vout),rest) := by
  unfold readBody
  split_ifs with hm
  · rw [Bool.and_eq_true,List.isEmpty_iff,List.map_eq_nil_iff] at hm
    obtain ⟨hvi,rfl⟩ := hm
    have hv : tx.vout = [] := by simpa [hvi] using hs
    rw [hv]
    rfl
  · rw [run_bind (h.run_vout rest)]
    rfl

theorem run_basic (h : tx.Sized) (hn : tx.hasWitness = false)
    (hs : a = false ∨ tx.vin ≠ [] ∨ tx.vout = []) (rest : List (BitVec 8)) :
    (unserializeTransaction a).run (serializeTransaction a tx++rest) = .ok (tx,rest) := by
  have hc : tx.vin.map clearWitness = tx.vin := map_cleared_of_hasWitness hn
  have hb := h.run_readBody_basic hs (leBytes 4 tx.nLockTime.toNat++rest)
  have hw (s : List (BitVec 8)) : (readWitness a 0#8 tx.vin).run s = .ok ((0#8,tx.vin),s) := by
    rfl
  rw [serializeTx_basic (by rw [hn,Bool.and_false]),unserializeTransaction]
  simp only [append_assoc]
  rw [run_bind (reads_readUInt 4 tx.version trivial _),run_bind (h.run_vin _),run_bind hb,hc,
    run_bind (hw _)]
  rw [if_neg (by simp),run_bind (run_nLockTime tx rest)]
  rfl

theorem run_extended (h : tx.Sized) (hw : tx.hasWitness = true) (rest : List (BitVec 8)) :
    (unserializeTransaction true).run (serializeTransaction true tx++rest) = .ok (tx,rest) := by
  have hm (s : List (BitVec 8)) : (readVector unserialize).run (writeVector serialize []++s) =
    .ok ([],s) := rfl
  have hb (s : List (BitVec 8)) : (readBody true []).run (leBytes 1 1 ++
      (writeVector serialize tx.vin++(writeVector CTxOut.serialize tx.vout++s))) =
        .ok ((1#8,tx.vin.map clearWitness,tx.vout),s) := by
    have hf (s : List (BitVec 8)) : (readUInt 1).run (leBytes 1 1++s) = .ok (1#8,s) := rfl
    rw [readBody,if_pos (by simp),run_bind (hf _),if_pos (by decide),run_bind (h.run_vin _),
      run_bind (h.run_vout _)]
    rfl
  have hr (s : List (BitVec 8)) : (readWitness true 1#8 (tx.vin.map clearWitness)).run
      (tx.vin.flatMap (fun t => writeStack t.scriptWitness)++s) = .ok ((0#8,tx.vin),s) := by
    rw [readWitness,if_pos (by decide),run_bind (run_readStacks h.stack s)]
    exact congrArg (StateT.run · s) (if_pos hw)
  rw [serializeTx_extended hw,unserializeTransaction]
  simp only [append_assoc]
  rw [run_bind (reads_readUInt 4 tx.version trivial _),run_bind (hm _),run_bind (hb _)]
  rw [run_bind (hr _)]
  rw [if_neg (by simp),run_bind (run_nLockTime tx rest)]
  rfl

theorem run_unserializeTx (h : tx.Sized) (hs : tx.vin ≠ [] ∨ tx.vout = [])
    (rest : List (BitVec 8)) :
    (unserializeTransaction true).run (serializeTransaction true tx++rest) = .ok (tx,rest) := by
  cases hw : tx.hasWitness with
  | false => exact h.run_basic hw (.inr hs) rest
  | true => exact h.run_extended hw rest

end CMutableTransaction.Sized

/-- What the body was read from: the outputs alone, or everything in the extended format. -/
theorem readBody_eq_ok {vout : List CTxOut}
    (h : (readBody a vin).run s = .ok ((f,vin',vout),rest)) :
    (f = 0#8 ∧ vin' = vin ∧ s = writeVector CTxOut.serialize vout++rest) ∨
      (a = true ∧ vin = [] ∧ f ≠ 0#8 ∧ s = leBytes 1 f.toNat ++
        (writeVector serialize vin'++(writeVector CTxOut.serialize vout++rest))) := by
  unfold readBody at h
  split_ifs at h with hm
  · obtain ⟨flags',s1,hf,h⟩ := run_bind_eq_ok.mp h
    have hs := exact_readUInt 1 _ _ _ hf
    split_ifs at h with hz
    · obtain ⟨vin1,s2,hvi,h⟩ := run_bind_eq_ok.mp h
      obtain ⟨vout1,s3,hv,h⟩ := run_bind_eq_ok.mp h
      obtain ⟨he,rfl⟩ := run_pure_eq_ok.mp h
      obtain ⟨rfl,rfl,rfl⟩ := by simpa using he
      rw [Bool.and_eq_true,List.isEmpty_iff] at hm
      rw [hs,exact_readVector exact_txIn _ _ _ hvi,exact_readVector exact_txOut _ _ _ hv]
      exact .inr ⟨hm.2,hm.1,hz,rfl⟩
    · obtain ⟨he,rfl⟩ := run_pure_eq_ok.mp h
      obtain ⟨rfl,rfl,rfl⟩ := by simpa using he
      rw [not_not] at hz
      rw [hz] at hs
      exact .inl ⟨hz,rfl,hs⟩
  · obtain ⟨vout1,s1,hv,h⟩ := run_bind_eq_ok.mp h
    obtain ⟨he,rfl⟩ := run_pure_eq_ok.mp h
    obtain ⟨rfl,rfl,rfl⟩ := by simpa using he
    exact .inl ⟨rfl,rfl,exact_readVector exact_txOut _ _ _ hv⟩

/-- No flag remains after the witness record only if there was none, or the one for witnesses. -/
theorem readWitness_eq_ok (h : (readWitness a f vin).run s = .ok ((0#8,vin'),rest)) :
    (f = 0#8 ∧ vin' = vin ∧ s = rest) ∨ (f = 1#8 ∧ hasWitness vin' = true ∧
        writeVector serialize vin' = writeVector serialize vin ∧
        s = vin'.flatMap (fun t => writeStack t.scriptWitness)++rest) := by
  unfold readWitness at h
  split_ifs at h with hf
  · obtain ⟨vin1,s1,ht,h⟩ := run_bind_eq_ok.mp h
    split_ifs at h with ho
    · obtain ⟨he,rfl⟩ := run_pure_eq_ok.mp h
      obtain ⟨hx,rfl⟩ := Prod.mk.inj he
      obtain ⟨hs,hc⟩ := readStacks_eq_ok ht
      refine .inr ⟨BitVec.xor_eq_zero_iff.mp hx,ho,?_,hs⟩
      rw [← writeVector_cleared,hc,writeVector_cleared]
    · exact absurd h (by simp)
  · obtain ⟨he,rfl⟩ := run_pure_eq_ok.mp h
    obtain ⟨rfl,rfl⟩ := Prod.mk.inj he
    exact .inl ⟨rfl,rfl,rfl⟩

/-- Nothing but the serialisation of a transaction is read as that transaction. -/
theorem exact_unserializeTx (a : Bool) : Exact (unserializeTransaction a)
    (serializeTransaction a) := by
  intro s tx rest h
  obtain ⟨version,s1,hv,h⟩ := run_bind_eq_ok.mp h
  obtain ⟨vin,s2,hvi,h⟩ := run_bind_eq_ok.mp h
  obtain ⟨⟨f,vin1,vout⟩,s3,hb,h⟩ := run_bind_eq_ok.mp h
  obtain ⟨⟨flags1,vin2⟩,s4,hw,h⟩ := run_bind_eq_ok.mp h
  dsimp only at h
  split_ifs at h with hf
  · exact absurd h (by simp)
  rw [not_not] at hf
  subst hf
  obtain ⟨nLockTime,s5,hl,h⟩ := run_bind_eq_ok.mp h
  obtain ⟨rfl,rfl⟩ := run_pure_eq_ok.mp h
  have hs := exact_readUInt 4 _ _ _ hv
  have hs1 := exact_readVector exact_txIn _ _ _ hvi
  have hs4 := exact_readUInt 4 _ _ _ hl
  rcases readBody_eq_ok hb with ⟨rfl,rfl,hs2⟩ | ⟨rfl,rfl,hn,hs2⟩
  · rcases readWitness_eq_ok hw with ⟨-,rfl,rfl⟩ | ⟨hfl,-⟩
    · have ho : hasWitness vin2 = false := hasWitness_eq_false.mpr (yields_txIn.counted _ _ _ _ hvi)
      rw [serializeTx_basic (by rw [CMutableTransaction.hasWitness,ho,Bool.and_false]),hs,hs1,hs2,
        hs4]
      simp only [append_assoc]
    · exact absurd hfl (by decide)
  · rcases readWitness_eq_ok hw with ⟨rfl,-⟩ | ⟨rfl,hso,hr,hs3⟩
    · exact absurd rfl hn
    · have he := serializeTx_extended
        (show (CMutableTransaction.mk vin2 vout version nLockTime).hasWitness = true from hso)
      rw [he,hs,hs1,hs2,hs3,hs4,hr]
      simp only [append_assoc]
      rfl

/-- What is written is read back, with and without witnesses, and nothing else is read. -/
theorem transaction_format_bijective :
    (∀ tx : CMutableTransaction, tx.Sized → (tx.vin ≠ [] ∨ tx.vout = []) → ∀ rest,
        (unserializeTransaction true).run (serializeTransaction true tx ++ rest) = .ok (tx, rest)) ∧
      (∀ s tx rest, (unserializeTransaction true).run s = .ok (tx, rest) →
        s = serializeTransaction true tx ++ rest) ∧
      (∀ tx : CMutableTransaction, tx.Sized → (∀ txin ∈ tx.vin, txin.scriptWitness = []) → ∀ rest,
        (unserializeTransaction false).run (serializeTransaction false tx ++ rest) =
          .ok (tx, rest)) ∧
      ∀ s tx rest, (unserializeTransaction false).run s = .ok (tx, rest) →
        s = serializeTransaction false tx ++ rest := by
  refine ⟨fun tx h hs rest => ?_,exact_unserializeTx true,fun tx h hn rest => ?_,
    exact_unserializeTx false⟩
  · exact h.run_unserializeTx hs rest
  · exact h.run_basic (hasWitness_eq_false.mpr hn) (.inl rfl) rest

/-- One input with a witness of two elements, and one output. -/
def witnessTx : CMutableTransaction :=
  ⟨[⟨⟨5,1⟩,[],0xffffffff#32,[[1#8],[2#8,3#8]]⟩],[⟨7,[0x51#8]⟩],2#32,0#32⟩

theorem transaction_format_bijective_witness : witnessTx.hasWitness = true ∧
    (unserializeTransaction true).run (serializeTransaction true witnessTx ++ []) =
      .ok (witnessTx, []) :=
  ⟨rfl,transaction_format_bijective.1 witnessTx
    ⟨by decide,by decide,by decide,by decide,by decide,by decide⟩ (.inl (by decide)) []⟩

/-- The transaction whose identifier is the hash of its basic serialisation. -/
def CTransaction.toMutable (tx : CTransaction) : CMutableTransaction :=
  ⟨tx.vin,tx.vout,tx.version,tx.nLockTime⟩

theorem CTransaction.serialize_eq (tx : CTransaction) :
    tx.serialize = serializeTransaction false tx.toMutable := by
  rw [serializeTx_basic (Bool.false_and _)]
  rfl

end DripCore
