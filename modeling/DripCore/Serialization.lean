import DripCore.PrefixCode
import DripCore.Transaction

/-!
# Serialised transactions

Transactions without witnesses, as they are hashed for their identifiers and measured
for the size limits. The bytes determine the inputs up to their witnesses.
-/
namespace DripCore
open BitVec CTxIn List PrefixCode

def writeCompactSize (nSize : ℕ) : List (BitVec 8) :=
  if nSize < 253 then leBytes 1 nSize
  else if nSize ≤ 0xffff then 253#8::leBytes 2 nSize
  else if nSize ≤ 0xffffffff then 254#8::leBytes 4 nSize
  else 255#8::leBytes 8 nSize

def COutPoint.serialize (o : COutPoint) : List (BitVec 8) :=
    leBytes 32 o.hash.toNat++leBytes 4 o.n.toNat

def CScript.serialize (script : CScript) : List (BitVec 8) := writeCompactSize script.length++script

def CTxIn.serialize (txin : CTxIn) : List (BitVec 8) :=
  txin.prevout.serialize++CScript.serialize txin.scriptSig++leBytes 4 txin.nSequence.toNat

def CTxOut.serialize (txout : CTxOut) : List (BitVec 8) :=
  leBytes 8 (BitVec.ofInt 64 txout.nValue).toNat++CScript.serialize txout.scriptPubKey

def CTransaction.serialize (tx : CTransaction) : List (BitVec 8) :=
  leBytes 4 tx.version.toNat++(writeCompactSize tx.vin.length++tx.vin.flatMap CTxIn.serialize) ++
    (writeCompactSize tx.vout.length++tx.vout.flatMap CTxOut.serialize++leBytes 4
      tx.nLockTime.toNat)

def CTransaction.serializeSize (tx : CTransaction) : ℕ := tx.serialize.length

def compactSizeWidth (first : BitVec 8) : ℕ :=
  if first = 253#8 then 2 else if first = 254#8 then 4 else if first = 255#8 then 8 else 0

theorem ofNat_ne_marker {n : ℕ} (h : n < 253) :
    BitVec.ofNat 8 n ≠ 253#8 ∧ BitVec.ofNat 8 n ≠ 254#8 ∧ BitVec.ofNat 8 n ≠ 255#8 := by
  refine ⟨?_,?_,?_⟩
  all_goals
    intro he
    have ht := congrArg BitVec.toNat he
    simp only [toNat_ofNat] at ht
    omega

theorem writeSize_head (ns : ℕ) : ∃ first rest,
    writeCompactSize ns = first::rest ∧ rest.length = compactSizeWidth first := by
  unfold writeCompactSize
  split_ifs with h1 h2 h3
  · obtain ⟨h253,h254,h255⟩ := ofNat_ne_marker h1
    exact ⟨_,[],rfl,by rw [compactSizeWidth,if_neg h253,if_neg h254,if_neg h255]; rfl⟩
  all_goals exact ⟨_,_,rfl,length_leBytes _ _⟩

def compactSizeValue : List (BitVec 8) → ℕ
  | [] => 0
  | [first] => first.toNat
  | _::rest => leValue rest

theorem sizeValue_writeSize {ns : ℕ} (h : ns < 2^64) :
    compactSizeValue (writeCompactSize ns) = ns := by
  unfold writeCompactSize
  split_ifs with h1 h2 h3
  · change ns % 256 = ns
    omega
  · exact leValue_leBytes (k := 2) (by omega)
  · exact leValue_leBytes (k := 4) (by omega)
  · exact leValue_leBytes (k := 8) (by omega)

theorem readable_writeSize : Readable (fun n => n < 2^64) writeCompactSize :=
  readable_of_head (fun n _ => writeSize_head n) fun m n hm hn h => by
    rw [← sizeValue_writeSize hm,h,sizeValue_writeSize hn]

theorem readable_toNat (k : ℕ) : Readable (fun _ : BitVec (8*k) => True)
    (fun b => leBytes k b.toNat) := by
  have hb (b : BitVec (8*k)) : b.toNat < 256^k := by
    have hl := b.isLt
    rwa [Nat.pow_mul] at hl
  intro a b s t _ _ he
  obtain ⟨ha,hs⟩ := readable_leBytes k _ _ _ _ (hb a) (hb b) he
  exact ⟨eq_of_toNat_eq ha,hs⟩

theorem readable_outPoint : Readable (fun _ => True) COutPoint.serialize := by
  intro a b s t _ _ he
  obtain ⟨ha,hs⟩ := (readable_toNat 32).pair (readable_toNat 4)
    (a.hash,a.n) (b.hash,b.n) s t ⟨trivial,trivial⟩ ⟨trivial,trivial⟩ he
  exact ⟨by cases a; cases b; simp_all,hs⟩

theorem readable_script : Readable (fun script : CScript => script.length < 2^32)
    CScript.serialize := by
  have hy : Readable (fun _ : BitVec 8 => True) (fun b => [b]) :=
    readable_of_length 1 (fun _ _ => rfl) fun _ _ _ _ h => singleton_inj.mp h
  intro a b s t ha hb he
  refine readable_writeSize.counted hy a b s t ⟨by omega,fun _ _ => trivial⟩
    ⟨by omega,fun _ _ => trivial⟩ ?_
  simpa only [CScript.serialize,flatMap_singleton'] using he

/-- What the bytes of an input determine. -/
def CTxIn.noWitness (txin : CTxIn) : COutPoint × CScript × BitVec 32 :=
  (txin.prevout,txin.scriptSig,txin.nSequence)

def serializeInput (p : COutPoint × CScript × BitVec 32) : List (BitVec 8) :=
  p.1.serialize++(CScript.serialize p.2.1++leBytes 4 p.2.2.toNat)

theorem readable_input : Readable (fun p : COutPoint × CScript × BitVec 32 => p.2.1.length < 2^32)
    serializeInput := by
  intro p q s t hp hq he
  exact readable_outPoint.pair (readable_script.pair (readable_toNat 4)) p q s t
    ⟨trivial,hp,trivial⟩ ⟨trivial,hq,trivial⟩ he

theorem CTransaction.flatMap_serialize (tx : CTransaction) :
    tx.vin.flatMap CTxIn.serialize = (tx.vin.map CTxIn.noWitness).flatMap serializeInput := by
  rw [flatMap_map]
  refine flatMap_congr fun t _ => ?_
  rfl

theorem CTransaction.vin_of_serialize {tx tx' : CTransaction} (h : tx.serialize = tx'.serialize) :
    tx.vin.map CTxIn.noWitness = tx'.vin.map CTxIn.noWitness := by
  have hd (t : CTransaction) : (t.vin.map noWitness).length < 2^64 ∧ ∀ p ∈ t.vin.map noWitness,
    p.2.1.length < 2^32 := by
    refine ⟨?_,fun p hp => ?_⟩
    · have hs := t.vin_size
      rw [length_map]
      omega
    · obtain ⟨txin,ht,rfl⟩ := mem_map.mp hp
      exact t.scriptSig_size txin ht
  have hc := (readable_toNat 4).pair (readable_writeSize.counted readable_input)
  rw [serialize,serialize,flatMap_serialize,flatMap_serialize,← length_map noWitness,
    ← tx'.vin.length_map noWitness] at h
  have he := (hc (tx.version,tx.vin.map noWitness)
    (tx'.version,tx'.vin.map noWitness) _ _ ⟨trivial,hd tx⟩ ⟨trivial,hd tx'⟩ h).1
  rw [Prod.mk.injEq] at he
  exact he.2

end DripCore
