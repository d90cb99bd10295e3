import DripCore.MempoolResurrection

/-!
# The policy for version-3 transactions

`SingleTRUCChecks` and `PackageTRUCChecks` with the texts of their errors. Sets of identifiers are
lists in the order of `std::set`. The virtual size of a transaction and the text that names it are
parameters. Members of a package are told apart by their identifiers.
-/
namespace DripCore
open CTxMemPool

def trucVersion : BitVec 32 := 3

def trucDescendantLimit : ℕ := 2

def trucAncestorLimit : ℕ := 2

def trucMaxVsize : ℤ := 10000

def trucChildMaxVsize : ℤ := 1000

/-- The bytes of an identifier, in the order in which they are compared. -/
def txidBytes (txid : Txid) : List ℕ := (List.range 32).map fun i => (txid >>> (8*i)).toNat % 256

def txidLess (a b : Txid) : Bool := decide (txidBytes a < txidBytes b)

def txidSet (txids : List Txid) : List Txid := txids.dedup.insertionSort fun a b =>
    txidLess b a = false

theorem mem_txidSet {t : List Txid} {txid : Txid} : txid ∈ txidSet t ↔ txid ∈ t := by
  rw [txidSet,List.mem_insertionSort,List.mem_dedup]

namespace DependencyGraph
variable {α : Type} [DecidableEq α]

def ancestors (g : DependencyGraph α) (x : α) : List α :=
  if x ∈ g.nodes then g.nodes.filter fun y => y == x || g.reach y x else []

theorem mem_ancestors {g : DependencyGraph α} {x y : α} :
    y ∈ g.ancestors x ↔ x ∈ g.nodes ∧ y ∈ g.nodes ∧ (y = x ∨ g.reach y x = true) := by
  unfold ancestors
  split_ifs with h
  · simp [h]
  · simp [h]

end DependencyGraph

namespace CTxMemPool

def getAncestorCount (pool : CTxMemPool) (txid : Txid) : ℕ := (pool.m_txgraph.ancestors txid).length

def getDescendantCount (pool : CTxMemPool) (txid : Txid) :
    ℕ := (pool.m_txgraph.descendants txid).length

def getParents (pool : CTxMemPool) (tx : CTransaction) : List CTxMemPoolEntry :=
  (txidSet (tx.prevouts.map COutPoint.hash)).filterMap pool.find

/-- The entries that spend an outpoint which a transaction spends. -/
def directConflicts (pool : CTxMemPool) (tx : CTransaction) : List Txid :=
  txidSet (tx.prevouts.filterMap fun o => pool.mapNextTx.lookup o)

end CTxMemPool

/-- The indices of the direct parents of a transaction among the members before it. -/
def findInPackageParents (ptx : CTransaction) : ℕ → List CTransaction → List ℕ
  | _, [] => []
  | i, tx::package =>
    if tx.hash = ptx.hash then []
    else if tx.hash ∈ ptx.prevouts.map COutPoint.hash then
      i::findInPackageParents ptx (i+1) package
    else findInPackageParents ptx (i+1) package

def earlierParents (ptx : CTransaction) (package : List CTransaction) : List CTransaction :=
  (package.takeWhile fun tx => tx.hash ≠ ptx.hash).filter fun tx =>
    tx.hash ∈ ptx.prevouts.map COutPoint.hash

structure ParentInfo where
  tx : CTransaction
  m_has_mempool_descendant : Bool

section
variable (name : CTransaction → String) (pool : CTxMemPool)

def cannotSpend (ptx parent : CTransaction) : String :=
  if ptx.version = trucVersion then
    "version=3 tx " ++ name ptx ++ " cannot spend from non-version=3 tx " ++ name parent
  else "non-version=3 tx " ++ name ptx ++ " cannot spend from version=3 tx " ++ name parent

def tooBig (ptx : CTransaction) (vsize : ℤ) : String :=
  "version=3 tx " ++ name ptx ++ " is too big: " ++ toString vsize ++ " > " ++
    toString trucMaxVsize ++
    " virtual bytes"

def childTooBig (ptx : CTransaction) (vsize : ℤ) : String :=
  "version=3 child tx " ++ name ptx ++ " is too big: " ++ toString vsize ++ " > " ++
    toString trucChildMaxVsize ++ " virtual bytes"

def tooManyAncestors (tx : CTransaction) : String :=
    "tx " ++ name tx ++ " would have too many ancestors"

def exceedsDescendants (parent : CTransaction) : String :=
  "tx " ++ name parent ++ " would exceed descendant count limit"

/-- The error of another child of the parent or a child of the transaction, by its first such input.
-/
def memberError (ptx parent member : CTransaction) : Option String :=
    member.vin.findSome? fun input =>
    if input.prevout.hash = parent.hash then some (exceedsDescendants name parent)
    else if input.prevout.hash = ptx.hash then some (tooManyAncestors name member)
    else none

def parentInfo (package : List CTransaction) (mempool_parents : List CTxMemPoolEntry)
    (in_package_parents : List ℕ) : Option ParentInfo :=
  match mempool_parents with
  | parent::_ => some ⟨parent.tx,decide (pool.getDescendantCount parent.hash > 1)⟩
  | [] => (in_package_parents.head?.bind fun i => package[i]?).map fun tx => ⟨tx,false⟩

/-- What is checked about the parent of a version-3 transaction in a package. -/
def parentError (ptx : CTransaction) (package : List CTransaction) (info : ParentInfo) :
    Option String :=
  if info.tx.version ≠ trucVersion then some (cannotSpend name ptx info.tx)
  else
    match (package.filter fun tx => tx.hash ≠ ptx.hash).findSome? (memberError name ptx info.tx)
      with
    | some error => some error
    | none => if info.m_has_mempool_descendant then some (exceedsDescendants name info.tx) else none

def packageTRUCChecks (ptx : CTransaction) (vsize : ℤ) (package : List CTransaction)
    (mempool_parents : List CTxMemPoolEntry) : Option String :=
  let in_package_parents := findInPackageParents ptx 0 package
  if ptx.version = trucVersion then
    if vsize > trucMaxVsize then some (tooBig name ptx vsize)
    else if mempool_parents.length+in_package_parents.length+1 > trucAncestorLimit then
      some (tooManyAncestors name ptx)
    else if mempool_parents.head?.any fun parent =>
        decide (pool.getAncestorCount parent.hash+in_package_parents.length+1 > trucAncestorLimit)
          then
      some (tooManyAncestors name ptx)
    else if mempool_parents.length+in_package_parents.length > 0 then
      if vsize > trucChildMaxVsize then some (childTooBig name ptx vsize)
      else (parentInfo pool package mempool_parents in_package_parents).bind
        (parentError name ptx package)
    else none
  else
    match mempool_parents.find? fun parent => parent.tx.version = trucVersion with
    | some parent => some (cannotSpend name ptx parent.tx)
    | none =>
      (in_package_parents.filterMap fun i => package[i]?).findSome? fun parent =>
        if parent.version = trucVersion then some (cannotSpend name ptx parent) else none

/-- Inheritance of the version, for one parent. -/
def inheritanceError (ptx : CTransaction) (parent : CTxMemPoolEntry) : Option String :=
  if ptx.version ≠ trucVersion ∧ parent.tx.version = trucVersion then
    some (cannotSpend name ptx parent.tx)
  else if ptx.version = trucVersion ∧ parent.tx.version ≠ trucVersion then
    some (cannotSpend name ptx parent.tx)
  else none

/-- The descendants of an entry, in the order of their identifiers. -/
def otherDescendants (txid : Txid) : List Txid :=
  (txidSet (pool.m_txgraph.descendants txid)).filter (· ≠ txid)

def siblingToEvict (parent : Txid) : Option CTransaction :=
  match otherDescendants pool parent with
  | [] => none
  | sibling::_ =>
    if pool.getDescendantCount parent = 2 ∧ pool.getAncestorCount sibling = 2 then
      (pool.find sibling).map CTxMemPoolEntry.tx
    else none

/-- What is checked about the parent in the pool of a version-3 transaction. -/
def poolParentError (ptx : CTransaction) (parent : CTxMemPoolEntry) (direct_conflicts : List Txid)
    (vsize : ℤ) : Option (String × Option CTransaction) :=
  if pool.getAncestorCount parent.hash+1 > trucAncestorLimit then
    some (tooManyAncestors name ptx,none)
  else if vsize > trucChildMaxVsize then some (childTooBig name ptx vsize,none)
  else
    let child_will_be_replaced :=
      (otherDescendants pool parent.hash).any fun child => direct_conflicts.contains child
    if pool.getDescendantCount parent.hash+1 > trucDescendantLimit ∧
        child_will_be_replaced = false then
      some (exceedsDescendants name parent.tx,siblingToEvict pool parent.hash)
    else none

def singleTRUCChecks (ptx : CTransaction) (mempool_parents : List CTxMemPoolEntry)
    (direct_conflicts : List Txid) (vsize : ℤ) : Option (String × Option CTransaction) :=
  match mempool_parents.findSome? (inheritanceError name ptx) with
  | some error => some (error,none)
  | none =>
    if ptx.version ≠ trucVersion then none
    else if vsize > trucMaxVsize then some (tooBig name ptx vsize,none)
    else if mempool_parents.length+1 > trucAncestorLimit then
      some (tooManyAncestors name ptx,none)
    else
      match mempool_parents with
      | [] => none
      | parent::_ => poolParentError name pool ptx parent direct_conflicts vsize

/-- The part of `PreChecks` that decides what a transaction replaces, where an error that names a
sibling may be answered by replacing this too. -/
def preChecksTRUC (allow_sibling_eviction : Bool) (ptx : CTransaction) (vsize : ℤ) :
    Except String (List Txid) :=
  let conflicts := pool.directConflicts ptx
  match singleTRUCChecks name pool ptx (pool.getParents ptx) conflicts vsize with
  | none => .ok conflicts
  | some (error,none) => .error error
  | some (error,some sibling) =>
    if allow_sibling_eviction then .ok (txidSet (sibling.hash::conflicts)) else .error error

end

/-- No member spends itself or a later one. -/
def isTopoSortedPackage : List CTransaction → Bool
  | [] => true
  | tx::package =>
    !(tx.prevouts.any fun o => ((tx::package).map CTransaction.hash).contains o.hash) &&
      isTopoSortedPackage package

/-- No outpoint is spent by two members, and each member has inputs. -/
def isConsistentPackage : List COutPoint → List CTransaction → Bool
  | _, [] => true
  | inputs_seen, tx::package =>
    !tx.vin.isEmpty && !(tx.prevouts.any inputs_seen.contains) &&
      isConsistentPackage (tx.prevouts++inputs_seen) package

/-- Removes the conflicts with all their descendants and adds the transaction. -/
def CTxMemPool.replaceWith (pool : CTxMemPool) (conflicts : List Txid) (entry : CTxMemPoolEntry) :
    MempoolResult CTxMemPool := do
  let pool ← removeStaged (pool.m_txgraph.descendantsUnion conflicts) pool
  pool.addNewTransaction entry

def CTxMemPool.addPackage : List CTxMemPoolEntry → CTxMemPool → MempoolResult CTxMemPool
  | [], pool => .ok pool
  | entry::entries, pool => do
      let pool ← pool.addNewTransaction entry
      addPackage entries pool

end DripCore
