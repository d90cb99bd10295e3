import DripCore.ExceptRules
import DripCore.FinmapTotal
import DripCore.Transaction

/-!
# The coins cache

`CCoinsViewCache` with its map of entries, the doubly linked list through the flagged ones and the
memory counter. A null pointer is `none`; a node is the sentinel or the key of an entry. Following a
key that is not in the map, a null dereference, a counter below zero and a list that does not come
back to its sentinel are errors. The heap memory of a script is part of its entry, because the
counter follows it. Answers of the base view are arguments.
-/
namespace DripCore

inductive CacheError where
  | logicError (what : String)
  | assertion
  | assumption
  | nullPointer
  | danglingPointer
  | usageUnderflow
  | diverged
deriving DecidableEq, Repr

def overwriteMessage : String :=
  "Attempted to overwrite an unspent coin (when possible_overwrite is false)"

def freshMisappliedMessage : String := "FRESH flag misapplied to coin that exists in parent cache"

def notClearedMessage : String := "Not all unspent flagged entries were cleared"

/-- The sentinel, or the entry with a given key. -/
abbrev Node := Option COutPoint

def mallocUsage (alloc : ℕ) : ℕ := if alloc = 0 then 0 else (alloc+31) / 16*16

def directCapacity : ℕ := 36

/-- The heap memory of a script object after another script is copied into it. -/
def copyAllocated (allocated size : ℕ) : ℕ :=
  if (if allocated = 0 then directCapacity else allocated) < size then size else allocated

/-- A coin object: its value, and the heap memory its script owns. -/
structure StoredCoin where
  coin : Coin
  allocated : ℕ
deriving DecidableEq

namespace StoredCoin

def dynamicMemoryUsage (s : StoredCoin) : ℕ := mallocUsage s.allocated

def copyOf (coin : Coin) : StoredCoin := ⟨coin,copyAllocated 0 coin.out.scriptPubKey.length⟩

def cleared : StoredCoin := ⟨Coin.empty,0⟩

def movedFrom (s : StoredCoin) : StoredCoin := ⟨s.coin.movedFrom,0⟩

/-- Assignment from another object, which is moved from when the flag says so. -/
def assign (s other : StoredCoin) (move : Bool) : StoredCoin :=
  if move then other
  else ⟨other.coin,copyAllocated s.allocated other.coin.out.scriptPubKey.length⟩

end StoredCoin

/-- The contents of an entry apart from its links. -/
structure CacheValue extends StoredCoin where
  dirty : Bool
  fresh : Bool
deriving DecidableEq

def CacheValue.flagged (v : CacheValue) : Bool := v.dirty || v.fresh

structure CCoinsCacheEntry extends CacheValue where
  m_prev : Option Node
  m_next : Option Node
deriving DecidableEq

def CCoinsCacheEntry.ofCoin (s : StoredCoin) : CCoinsCacheEntry := ⟨⟨s,false,false⟩,none,none⟩

structure CCoinsViewCache where
  hashBlock : BitVec 256
  cacheCoins : Finmap fun _ : COutPoint => CCoinsCacheEntry
  sentinelPrev : Node
  sentinelNext : Node
  cachedCoinsUsage : ℕ

namespace CCoinsViewCache
open FinmapTotal ExceptRules

/-- A new cache: an empty map and a sentinel that refers to itself. -/
def empty : CCoinsViewCache := ⟨0,∅,none,none,0⟩

def find (c : CCoinsViewCache) (k : COutPoint) : Except CacheError CCoinsCacheEntry :=
  match c.cacheCoins.lookup k with
  | none => .error .danglingPointer
  | some e => .ok e

def put (c : CCoinsViewCache) (k : COutPoint) (e : CCoinsCacheEntry) : CCoinsViewCache :=
  { c with cacheCoins := c.cacheCoins.insert k e }

def follow (p : Option Node) : Except CacheError Node :=
  match p with
  | none => .error .nullPointer
  | some node => .ok node

def setPrev (c : CCoinsViewCache) (node target : Node) : Except CacheError CCoinsViewCache :=
  match node with
  | none => .ok { c with sentinelPrev := target }
  | some k => do
      let e ← c.find k
      return c.put k { e with m_prev := some target }

def setNext (c : CCoinsViewCache) (node target : Node) : Except CacheError CCoinsViewCache :=
  match node with
  | none => .ok { c with sentinelNext := target }
  | some k => do
      let e ← c.find k
      return c.put k { e with m_next := some target }

def linkLast (c : CCoinsViewCache) (k : COutPoint) : Except CacheError CCoinsViewCache := do
  let e ← c.find k
  if e.m_prev.isSome ∨ e.m_next.isSome then throw .assumption
  let last := c.sentinelPrev
  let c := c.put k { e with m_prev := some last, m_next := some none }
  let c ← c.setPrev none (some k)
  c.setNext last (some k)

def addFlags (dirty fresh : Bool) (c : CCoinsViewCache) (k : COutPoint) :
    Except CacheError CCoinsViewCache := do
  let e ← c.find k
  let c ← applyIf (!e.flagged) (·.linkLast k) c
  let e ← c.find k
  if e.m_prev.isNone ∨ e.m_next.isNone then throw .assumption
  return c.put k { e with dirty := e.dirty || dirty, fresh := e.fresh || fresh }

def setDirty : CCoinsViewCache → COutPoint → Except CacheError CCoinsViewCache :=
    addFlags true false

def setFresh : CCoinsViewCache → COutPoint → Except CacheError CCoinsViewCache :=
    addFlags false true

def setClean (c : CCoinsViewCache) (k : COutPoint) : Except CacheError CCoinsViewCache := do
  let e ← c.find k
  if e.flagged then
    let next ← follow e.m_next
    let prev ← follow e.m_prev
    let c ← c.setPrev next prev
    let c ← c.setNext prev next
    let e ← c.find k
    return c.put k { e with dirty := false, fresh := false, m_prev := none, m_next := none }
  else return c

/-- Erasing an entry; its destructor takes it out of the list first. -/
def erase (c : CCoinsViewCache) (k : COutPoint) : Except CacheError CCoinsViewCache := do
  let c ← c.setClean k
  return { c with cacheCoins := c.cacheCoins.erase k }

def addUsage (c : CCoinsViewCache) (n : ℕ) : CCoinsViewCache :=
  { c with cachedCoinsUsage := c.cachedCoinsUsage+n }

def subUsage (c : CCoinsViewCache) (n : ℕ) : Except CacheError CCoinsViewCache :=
  if n ≤ c.cachedCoinsUsage then .ok { c with cachedCoinsUsage := c.cachedCoinsUsage-n }
  else .error .usageUnderflow

def setCoin (c : CCoinsViewCache) (k : COutPoint) (s : StoredCoin) :
    Except CacheError CCoinsViewCache := do
  let e ← c.find k
  return c.put k { e with toStoredCoin := s }

/-- The entry for an outpoint, asked of the base view when it is not cached. -/
def fetchCoin (c : CCoinsViewCache) (outpoint : COutPoint) (answer : Option StoredCoin) :
    Except CacheError (CCoinsViewCache × Option CacheValue) :=
  match c.cacheCoins.lookup outpoint with
  | some e => .ok (c,some e.toCacheValue)
  | none =>
    match answer with
    | none => .ok (c,none)
    | some s => do
        let c := (c.put outpoint (.ofCoin s)).addUsage s.dynamicMemoryUsage
        let c ← applyIf s.coin.isSpent (·.setFresh outpoint) c
        let e ← c.find outpoint
        return (c,some e.toCacheValue)

def getCoin (c : CCoinsViewCache) (outpoint : COutPoint) (answer : Option StoredCoin) :
    Except CacheError (CCoinsViewCache × Option Coin) := do
  let (c,found) ← c.fetchCoin outpoint answer
  match found with
  | some v => return (c,if v.coin.isSpent then none else some v.coin)
  | none => return (c,none)

def haveCoin (c : CCoinsViewCache) (outpoint : COutPoint) (answer : Option StoredCoin) :
    Except CacheError (CCoinsViewCache × Bool) := do
  let (c,found) ← c.fetchCoin outpoint answer
  match found with
  | some v => return (c,!v.coin.isSpent)
  | none => return (c,false)

def accessCoin (c : CCoinsViewCache) (outpoint : COutPoint) (answer : Option StoredCoin) :
    Except CacheError (CCoinsViewCache × Coin) := do
  let (c,found) ← c.fetchCoin outpoint answer
  match found with
  | some v => return (c,v.coin)
  | none => return (c,Coin.empty)

def haveCoinInCache (c : CCoinsViewCache) (outpoint : COutPoint) : Bool :=
  match c.cacheCoins.lookup outpoint with
  | some e => !e.coin.isSpent
  | none => false

def addCoin (c : CCoinsViewCache) (outpoint : COutPoint) (s : StoredCoin)
    (possible_overwrite : Bool) : Except CacheError CCoinsViewCache := do
  if s.coin.isSpent then throw .assertion
  if CScript.isUnspendable s.coin.out.scriptPubKey then return c
  let inserted := decide (outpoint ∉ c.cacheCoins)
  let c := if inserted then c.put outpoint (.ofCoin .cleared) else c
  let e ← c.find outpoint
  if !possible_overwrite ∧ !e.coin.isSpent then throw (.logicError overwriteMessage)
  let fresh := !possible_overwrite && !e.dirty
  let c ← applyIf (!inserted) (·.subUsage e.dynamicMemoryUsage) c
  let c ← c.setCoin outpoint s
  let c ← c.setDirty outpoint
  let c ← applyIf fresh (·.setFresh outpoint) c
  return c.addUsage s.dynamicMemoryUsage

def emplaceCoinInternalDANGER (c : CCoinsViewCache) (outpoint : COutPoint) (s : StoredCoin) :
    Except CacheError CCoinsViewCache := do
  let mem_usage := s.dynamicMemoryUsage
  if outpoint ∈ c.cacheCoins then return c
  let c ← (c.put outpoint (.ofCoin s)).setDirty outpoint
  return c.addUsage mem_usage

/-- The new cache and the coin handed out, if there was an entry for the outpoint. -/
def spendCoin (c : CCoinsViewCache) (outpoint : COutPoint) (answer : Option StoredCoin) :
    Except CacheError (CCoinsViewCache × Option StoredCoin) := do
  let (c,found) ← c.fetchCoin outpoint answer
  match found with
  | none => return (c,none)
  | some v =>
    let c ← c.subUsage v.dynamicMemoryUsage
    if v.fresh then
      let c ← c.erase outpoint
      return (c,some v.toStoredCoin)
    else
      let c ← c.setDirty outpoint
      let c ← c.setCoin outpoint .cleared
      return (c,some v.toStoredCoin)

def uncache (c : CCoinsViewCache) (outpoint : COutPoint) : Except CacheError CCoinsViewCache :=
  match c.cacheCoins.lookup outpoint with
  | none => .ok c
  | some e =>
    if e.flagged then .ok c
    else do
      let c ← c.subUsage e.dynamicMemoryUsage
      c.erase outpoint

def getCacheSize (c : CCoinsViewCache) : ℕ := c.cacheCoins.keys.card

def setBestBlock (c : CCoinsViewCache) (hashBlockIn : BitVec 256) : CCoinsViewCache :=
  { c with hashBlock := hashBlockIn }

/-- What a base view does with an entry of a batch, given whether the coin may be moved out: a new
state and whether it was moved. -/
abbrev Visitor (σ : Type) := σ → COutPoint → CacheValue → Bool → Except CacheError (σ × Bool)

/-- Without `will_erase` a spent entry is erased and any other is taken out of the list. -/
def nextAndMaybeErase (c : CCoinsViewCache) (k : COutPoint) (will_erase : Bool) :
    Except CacheError (CCoinsViewCache × Node) := do
  let e ← c.find k
  let next_entry ← follow e.m_next
  if will_erase then return (c,next_entry)
  if e.coin.isSpent then
    if e.dynamicMemoryUsage ≠ 0 then throw .assertion
    let c ← c.erase k
    return (c,next_entry)
  let c ← c.setClean k
  return (c,next_entry)

/-- The loop of a batch write from a node on, with the receiver's work as a parameter. -/
def cursorLoop {σ : Type} (visit : Visitor σ) (will_erase : Bool) :
    ℕ → σ → CCoinsViewCache → Node → Except CacheError (σ × CCoinsViewCache)
  | 0, _, _, _ => .error .diverged
  | _+1, s, c, none => .ok (s,c)
  | fuel+1, s, c, some k => do
      let e ← c.find k
      let willErase := will_erase || e.coin.isSpent
      let (s,moved) ← visit s k e.toCacheValue willErase
      let c ← applyIf (moved && willErase) (·.setCoin k e.toStoredCoin.movedFrom) c
      let (c,node) ← c.nextAndMaybeErase k will_erase
      cursorLoop visit will_erase fuel s c node

def cursorRun {σ : Type} (visit : Visitor σ) (will_erase : Bool) (s : σ)
    (c : CCoinsViewCache) : Except CacheError (σ × CCoinsViewCache) :=
  cursorLoop visit will_erase (c.getCacheSize+1) s c c.sentinelNext

/-- What a cache does with one entry of its child. -/
def writeEntry : Visitor CCoinsViewCache := fun c k v willErase =>
  if v.dirty then
    match c.cacheCoins.lookup k with
    | none =>
      if v.fresh && v.coin.isSpent then .ok (c,false)
      else do
        let s := StoredCoin.cleared.assign v.toStoredCoin willErase
        let c := (c.put k (.ofCoin s)).addUsage s.dynamicMemoryUsage
        let c ← c.setDirty k
        let c ← applyIf v.fresh (·.setFresh k) c
        return (c,willErase)
    | some us =>
      if v.fresh && !us.coin.isSpent then .error (.logicError freshMisappliedMessage)
      else if us.fresh && v.coin.isSpent then do
        let c ← c.subUsage us.dynamicMemoryUsage
        let c ← c.erase k
        return (c,false)
      else do
        let c ← c.subUsage us.dynamicMemoryUsage
        let s := us.toStoredCoin.assign v.toStoredCoin willErase
        let c ← c.setCoin k s
        let c := c.addUsage s.dynamicMemoryUsage
        let c ← c.setDirty k
        return (c,willErase)
  else .ok (c,false)

/-- A batch written by a child cache: this cache and the child afterwards. -/
def batchWrite (c child : CCoinsViewCache) (will_erase : Bool) :
    Except CacheError (CCoinsViewCache × CCoinsViewCache) := do
  let (c,child) ← cursorRun writeEntry will_erase c child
  return (c.setBestBlock child.hashBlock,child)

/-- Clearing the map; the destructors of the entries take each of them out of the list. -/
def clear (c : CCoinsViewCache) : CCoinsViewCache :=
  { c with cacheCoins := ∅, sentinelPrev := none, sentinelNext := none }

/-- A base view that receives batches: it refuses them all, or visits every entry. -/
inductive Receiver (σ : Type) where
  | refuse
  | visits (visit : Visitor σ)

def flush {σ : Type} (c : CCoinsViewCache) (base : Receiver σ) (s : σ) :
    Except CacheError (CCoinsViewCache × σ × Bool) :=
  match base with
  | .refuse => .ok (c,s,false)
  | .visits visit => do
      let (s,c) ← cursorRun visit true s c
      return ({ c.clear with cachedCoinsUsage := 0 },s,true)

def sync {σ : Type} (c : CCoinsViewCache) (base : Receiver σ) (s : σ) :
    Except CacheError (CCoinsViewCache × σ × Bool) :=
  match base with
  | .refuse => .ok (c,s,false)
  | .visits visit => do
      let (s,c) ← cursorRun visit false s c
      if c.sentinelNext ≠ none then throw (.logicError notClearedMessage)
      return (c,s,true)

def next (c : CCoinsViewCache) : Node → Option Node
  | none => some c.sentinelNext
  | some k => (c.cacheCoins.lookup k).bind CCoinsCacheEntry.m_next

def prev (c : CCoinsViewCache) : Node → Option Node
  | none => some c.sentinelPrev
  | some k => (c.cacheCoins.lookup k).bind CCoinsCacheEntry.m_prev

/-- The number of entries on the list from a node on, if each is linked both ways and flagged. -/
def countLinked (c : CCoinsViewCache) : ℕ → Node → Option ℕ
  | 0, _ => none
  | _+1, none => some 0
  | fuel+1, some k =>
    match c.cacheCoins.lookup k with
    | none => none
    | some e =>
      if e.m_next.bind c.prev = some (some k) ∧ e.m_prev.bind c.next = some (some k) ∧
          e.flagged = true then
        (e.m_next.bind (countLinked c fuel)).map (· + 1)
      else none

/-- The permitted combinations of flags and spentness. -/
def permitted (v : CacheValue) : Bool :=
  let attr := (if v.dirty then 1 else 0)+(if v.fresh then 2 else 0) +
    (if v.coin.isSpent then 4 else 0)
  attr != 2 && attr != 4 && attr != 7

def recomputedUsage (c : CCoinsViewCache) : ℕ := total (fun e => e.dynamicMemoryUsage) c.cacheCoins

def countFlagged (c : CCoinsViewCache) :
    ℕ := total (fun e => if e.flagged then 1 else 0) c.cacheCoins

def sanityCheck (c : CCoinsViewCache) : Bool :=
  decide (∀ k ∈ c.cacheCoins.keys,
    ((c.cacheCoins.lookup k).map fun e => permitted e.toCacheValue) = some true) &&
  decide (c.countLinked (c.getCacheSize+1) c.sentinelNext = some c.countFlagged) &&
  decide (c.recomputedUsage = c.cachedCoinsUsage)

end CCoinsViewCache
end DripCore
