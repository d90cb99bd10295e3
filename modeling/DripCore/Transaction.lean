import Mathlib.Data.BitVec

/-!
# Transactions and coins

The transaction identifier is the field the source caches; nothing depends on how it is computed.
Vectors have fewer than `2 ^ 32` elements, so output indices do not wrap. A coin without value, and
only such a coin, is spent.
-/
namespace DripCore

abbrev Txid := BitVec 256

abbrev CScript := List (BitVec 8)

/-- Amounts are integers; the checks that keep them in 64 bits are explicit. -/
abbrev CAmount := ℤ

structure COutPoint where
  hash : Txid
  n : BitVec 32
deriving DecidableEq, Repr

def COutPoint.isNull (o : COutPoint) : Bool := o.hash == 0 && o.n == 0xffffffff#32

structure CTxIn where
  prevout : COutPoint
  scriptSig : CScript
  nSequence : BitVec 32
  scriptWitness : List (List (BitVec 8))
deriving DecidableEq, Repr

structure CTxOut where
  nValue : CAmount
  scriptPubKey : CScript
deriving DecidableEq, Repr

def CTxOut.null : CTxOut := ⟨-1,[]⟩

def CTxOut.isNull (out : CTxOut) : Bool := out.nValue == -1

def maxScriptSize : ℕ := 10000

def opReturn : BitVec 8 := 0x6a#8

def CScript.isUnspendable (script : CScript) : Bool :=
  script.head? == some opReturn || decide (maxScriptSize < script.length)

structure CTransaction where
  version : BitVec 32
  vin : List CTxIn
  vout : List CTxOut
  nLockTime : BitVec 32
  hash : Txid
  vin_size : vin.length < 2^32
  vout_size : vout.length < 2^32
  scriptSig_size : ∀ i ∈ vin, i.scriptSig.length < 2^32
deriving DecidableEq

def CTransaction.isCoinBase (tx : CTransaction) : Bool :=
  match tx.vin with
  | [i] => i.prevout.isNull
  | _ => false

structure Coin where
  out : CTxOut
  fCoinBase : Bool
  nHeight : ℕ
deriving DecidableEq, Repr

namespace Coin

/-- The empty coin, also what remains after `Clear`. -/
def empty : Coin := ⟨CTxOut.null,false,0⟩

def isSpent (c : Coin) : Bool := c.out.isNull

/-- What a move leaves behind: the scalar members, without the script. -/
def movedFrom (c : Coin) : Coin := { c with out := { c.out with scriptPubKey := [] } }

@[simp] theorem isSpent_empty : empty.isSpent = true := rfl

@[simp] theorem isSpent_movedFrom (c : Coin) : c.movedFrom.isSpent = c.isSpent := rfl

end Coin
end DripCore
