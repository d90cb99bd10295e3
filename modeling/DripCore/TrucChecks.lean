import DripCore.TrucTopology

/-!
# The checks for version-3 transactions keep families small

`SingleTRUCChecks` looks at the parents in the pool, and `PackageTRUCChecks` also at the inputs of
all members of a package. From each the facts about edges follow that a new entry needs to join a
family.
-/
namespace DripCore
open CTxMemPool CTxMemPoolEntry DependencyGraph ExceptRules List Relation

theorem le_one_of_limit {n : ℕ} (h : ¬n+1 > trucAncestorLimit) : n ≤ 1 := by
  rw [trucAncestorLimit] at h
  omega

section
variable {name : CTransaction → String} {pool : CTxMemPool} {ptx : CTransaction} {vsize : ℤ}
  {parents : List CTxMemPoolEntry} {conflicts d : List Txid} {al : Bool}

variable {parent en : CTxMemPoolEntry} {s : CTransaction} {pool₁ : CTxMemPool}
    {t : CTxMemPoolEntry → ℤ} {se : List Txid}

theorem inheritance_eq_none : inheritanceError name ptx parent = none ↔
    (parent.tx.IsTruc ↔ ptx.IsTruc) := by
  unfold inheritanceError CTransaction.IsTruc
  split_ifs <;> simp <;> tauto

/-- The parent in the pool has no other ancestor or descendant, unless one is replaced. -/
structure ParentAlone (pool : CTxMemPool) (conflicts : List Txid) (vsize : ℤ)
    (parent : CTxMemPoolEntry) : Prop where
  childSize : vsize ≤ trucChildMaxVsize
  ancestors : pool.getAncestorCount parent.hash ≤ 1
  descendants : pool.getDescendantCount parent.hash ≤ 1 ∨
    ∃ txid ∈ otherDescendants pool parent.hash, txid ∈ conflicts

theorem siblingToEvict_eq_some {parent : Txid} (h : siblingToEvict pool parent = some s) :
    s.hash ∈ otherDescendants pool parent := by
  unfold siblingToEvict at h
  split at h
  · cases h
  · next txid rest he =>
    split_ifs at h
    obtain ⟨en,hf,rfl⟩ := Option.map_eq_some_iff.mp h
    rw [he,show en.tx.hash = txid from (mem_of_find hf).2]
    exact mem_cons_self

theorem poolError_eq_none (h : poolParentError name pool ptx parent d vsize = none) :
    ParentAlone pool d vsize parent := by
  unfold poolParentError at h
  dsimp only at h
  split_ifs at h with ha hs hd
  refine ⟨not_lt.mp hs,le_one_of_limit ha,?_⟩
  rcases not_and_or.mp hd with hc | hr
  · exact .inl (le_one_of_limit hc)
  · rw [Bool.not_eq_false,any_eq_true] at hr
    obtain ⟨txid,ht,ho⟩ := hr
    exact .inr ⟨txid,ht,contains_iff_mem.mp ho⟩

/-- When the error names a sibling, everything else is in order. -/
theorem parentError_sibling {error : String}
    (h : poolParentError name pool ptx parent d vsize = some (error,some s))
    (hc : s.hash ∈ conflicts) : ParentAlone pool conflicts vsize parent := by
  unfold poolParentError at h
  dsimp only at h
  split_ifs at h with ha hs hd
  · simp at h
  · simp at h
  · have hsi := (Prod.mk.inj (Option.some.inj h)).2
    exact ⟨not_lt.mp hs,le_one_of_limit ha,.inr ⟨s.hash,siblingToEvict_eq_some hsi,hc⟩⟩

/-- What follows from the checks for a single transaction, with what it replaces. -/
structure SinglePassed (pool : CTxMemPool) (ptx : CTransaction) (parents : List CTxMemPoolEntry)
    (conflicts : List Txid) (vsize : ℤ) : Prop where
  inherit : ∀ parent ∈ parents, (parent.tx.IsTruc ↔ ptx.IsTruc)
  size : ptx.IsTruc → vsize ≤ trucMaxVsize
  single : ptx.IsTruc → parents.length ≤ 1
  alone : ptx.IsTruc → ∀ parent ∈ parents, ParentAlone pool conflicts vsize parent

theorem singleTruc_passed
    {error : Option (String × Option CTransaction)}
    (h : singleTRUCChecks name pool ptx parents d vsize = error)
    (he : ∀ te, error ≠ some (te,none))
    (hp : ∀ parent, poolParentError name pool ptx parent d vsize = error →
      ParentAlone pool conflicts vsize parent) :
    SinglePassed pool ptx parents conflicts vsize := by
  subst h
  unfold singleTRUCChecks at he hp
  cases hn : parents.findSome? (inheritanceError name ptx) with
  | some te =>
    rw [hn] at he
    exact absurd rfl (he te)
  | none =>
    rw [hn] at he hp
    have hn' : ∀ parent ∈ parents, (parent.tx.IsTruc ↔ ptx.IsTruc) := fun parent hm =>
      inheritance_eq_none.mp (findSome?_eq_none_iff.mp hn parent hm)
    by_cases ht : ptx.version = trucVersion
    · rw [if_neg (not_not.mpr ht)] at he hp
      split_ifs at he hp with hs hc
      · exact absurd rfl (he _)
      · exact absurd rfl (he _)
      · have hl : parents.length ≤ 1 := le_one_of_limit hc
        refine ⟨hn',fun _ => not_lt.mp hs,fun _ => hl,fun _ parent hm => ?_⟩
        obtain ⟨first,rfl⟩ := length_eq_one_iff.mp (le_antisymm hl (length_pos_of_mem hm))
        rw [mem_singleton.mp hm]
        exact hp first rfl
    · exact ⟨hn',fun h => absurd h ht,fun h => absurd h ht,fun h => absurd h ht⟩

theorem preChecksTRUC_passed (h : preChecksTRUC name pool al ptx vsize = .ok conflicts) :
    SinglePassed pool ptx (pool.getParents ptx) conflicts vsize ∧
      ∀ txid ∈ pool.directConflicts ptx, txid ∈ conflicts := by
  unfold preChecksTRUC at h
  dsimp only at h
  split at h
  · next hc =>
    cases h
    exact ⟨singleTruc_passed hc (by simp) fun _ => poolError_eq_none,fun _ => id⟩
  · cases h
  · next error s hc =>
    split_ifs at h
    cases h
    refine ⟨singleTruc_passed hc (by simp) fun parent hp => ?_,fun txid ht => ?_⟩
    · exact parentError_sibling hp (mem_txidSet.mpr mem_cons_self)
    · exact mem_txidSet.mpr (mem_cons_of_mem _ ht)

/-- After the removal of what it replaces, the transaction joins a family. -/
theorem SinglePassed.joins {pool' : CTxMemPool} (ho : pool.WellFormed) (hl : pool.TrucClean t)
    (h : SinglePassed pool en.tx (pool.getParents en.tx) conflicts (t en))
    (hw : pool.Without (pool.m_txgraph.descendantsUnion conflicts) pool₁)
    (hne : pool₁.Unseen en) (hin : pool'.Indexed)
    (hm : pool'.mapTx = en::pool₁.mapTx) :
    pool'.JoinsFamily t en := by
  have hex := hne.extends hm
  have hpa {x : Txid} (hx : pool'.Spends x en.hash) : x ∈ pool₁.hashes ∧
    ∃ e ∈ pool.getParents en.tx, e.hash = x := by
    obtain ⟨hx,e,he,hq,hn⟩ := hx
    rw [hin.eq_of_hash he (hm ▸ mem_cons_self) hq] at hn
    obtain ⟨p,hp,rfl⟩ := mem_hashes.mp hx
    rcases (hex.mem p).mp hp with hp | hp
    · have hme := ((hw.entries p).mp hp).1
      exact ⟨mem_hashes.mpr ⟨p,hp,rfl⟩,p,(mem_getParents ho.toIndexed).mpr ⟨hme,hn⟩,rfl⟩
    · rw [mem_singleton.mp hp] at hn
      exact absurd hn hne.self
  have hold {x y : Txid} (hxy : pool'.Spends x y) (hy : y ∈ pool₁.hashes) :
      pool.Spends x y ∧ y ∉ pool.m_txgraph.descendantsUnion conflicts := by
    have hxy := hw.spends.mp (hex.spends_old hin hxy hy)
    exact ⟨hxy.1,hxy.2.2⟩
  constructor
  · intro parent hme hx
    obtain ⟨hme1,e,he,hq⟩ := hpa hx
    have hme' := (hex.mem e).mpr (.inl ?_)
    · rw [← hin.eq_of_hash hme' hme hq]
      exact h.inherit e he
    · obtain ⟨p,hp,hpe⟩ := mem_hashes.mp hme1
      have hme := ((mem_getParents ho.toIndexed).mp he).1
      rwa [← ho.eq_of_hash ((hw.entries p).mp hp).1 hme (hpe.trans hq.symm)]
  · intro ht a b ha hb
    obtain ⟨_,ea,hea,rfl⟩ := hpa ha
    obtain ⟨_,eb,heb,rfl⟩ := hpa hb
    rw [eq_of_length_le_one (h.single ht) hea heb]
  · intro ht a b ha hb
    obtain ⟨_,e,he,rfl⟩ := hpa ha
    obtain ⟨eb,heb,rfl⟩ := hb.right_entry
    rcases (hex.mem eb).mp heb with hold' | hne'
    · obtain ⟨hs,hk⟩ := hold hb (mem_hashes.mpr ⟨eb,hold',rfl⟩)
      rcases (h.alone ht e he).descendants with hc | ⟨txid,htx,hco⟩
      · exact absurd hs (ho.no_child hc _)
      · -- The one descendant of the parent is among what is replaced.
        obtain ⟨hno,hpat⟩ := mem_otherDescendants ho htx
        have hq := hl.descendant e ((mem_getParents ho.toIndexed).mp he).1
          ((h.inherit e he).mpr ht) _ _ hpat (.single hs)
        rw [hq] at hno hco
        exact absurd (mem_descUnion.mpr ⟨hno,_,hco,hno,.inl rfl⟩) hk
    · rw [mem_singleton.mp hne']
  · intro ht a b hb ha
    obtain ⟨hme,e,he,rfl⟩ := hpa hb
    exact ho.no_parent (h.alone ht e he).ancestors a (hold ha hme).1
  · exact h.size
  · intro ht parent hx
    obtain ⟨_,e,he,_⟩ := hpa hx
    exact (h.alone ht e he).childSize

theorem CTxMemPool.Without.unseen (hw : pool.Without se pool₁) (h : pool.Unseen en) :
    pool₁.Unseen en where
  new hm := h.new (hw.hashes_iff.mp hm).1
  unnamed other ho := h.unnamed other ((hw.entries other).mp ho).1
  self := h.self

/-- After the direct conflicts are gone, nothing spends what the transaction spends. -/
theorem CTxMemPool.Without.unspent {tx : CTransaction} (hp : pool.WellFormed) (hin : pool₁.Indexed)
    (hw : pool.Without (pool.m_txgraph.descendantsUnion conflicts) pool₁)
    (hco : ∀ txid ∈ pool.directConflicts tx, txid ∈ conflicts) {o : COutPoint}
    (ho : o ∈ tx.prevouts) : pool₁.mapNextTx.lookup o = none := by
  by_contra hne
  obtain ⟨txid,hl⟩ := Option.ne_none_iff_exists'.mp hne
  obtain ⟨e,he,rfl,hoe⟩ := (hin.nextTx o txid).mp (mem_of_lookup hl)
  obtain ⟨hm,hk⟩ := (hw.entries e).mp he
  cases hl' : pool.mapNextTx.lookup o with
  | none => exact notMem_of_lookup hl' ((hp.nextTx o e.hash).mpr ⟨e,hm,rfl,hoe⟩)
  | some txid =>
    obtain ⟨e',he',rfl,hoe'⟩ := (hp.nextTx o txid).mp (mem_of_lookup hl')
    rw [hp.single e' he' e hm o hoe' hoe] at hl'
    have hc := hco e.hash (mem_txidSet.mpr (mem_filterMap.mpr ⟨o,ho,hl'⟩))
    have hn := (hp.nodes e.hash).mpr (mem_hashes.mpr ⟨e,hm,rfl⟩)
    exact hk (mem_descUnion.mpr ⟨hn,_,hc,hn,.inl rfl⟩)

theorem CTxMemPool.Without.acyclic (hw : pool.Without se pool₁) (hp : pool.WellFormed)
    (txid : Txid) : ¬TransGen pool₁.Spends txid txid := fun hpa =>
  hp.acyclic txid (hpa.lift id fun _ _ ha => (hw.spends.mp ha).1)

theorem replaceWith_clean (hp : pool.WellFormed) (hc : pool.TrucClean t) (hn : pool.Unseen en)
    (hh : preChecksTRUC name pool al en.tx (t en) = .ok conflicts) : ∃ pool',
    pool.replaceWith conflicts en = .ok pool' ∧ pool'.WellFormed ∧ pool'.TrucClean t := by
  obtain ⟨hpa,hco⟩ := preChecksTRUC_passed hh
  obtain ⟨pool₁,hr,hs,hw⟩ := hp.toSound.remove_union conflicts
  have hp1 : pool₁.WellFormed := ⟨hs,hw.acyclic hp⟩
  have hn1 := hw.unseen hn
  obtain ⟨pool',ha,hp',hm⟩ := addNew_wellFormed hp1 hn1 fun o ho =>
    hw.unspent hp hs.toIndexed hco ho
  have hf := ((hc.families hp).without hw).extend (hn1.extends hm) hp'.toIndexed (fun e he => by
      rw [mem_singleton.mp he]
      exact hpa.joins hp hc hw hn1 hp'.toIndexed hm)
  refine ⟨pool',?_,hp',hf.clean⟩
  rw [replaceWith,hr,ok_bind,ha]

variable {package : List CTransaction}

theorem packageParents_map (ptx : CTransaction) (before package : List CTransaction) :
    (findInPackageParents ptx before.length package).map (fun i => (before++package)[i]?) =
      (earlierParents ptx package).map some := by
  induction package generalizing before with
  | nil => rfl
  | cons tx package ih =>
    have ih := ih (before++[tx])
    rw [append_assoc,singleton_append,length_append,length_singleton] at ih
    unfold findInPackageParents earlierParents
    by_cases hs : tx.hash = ptx.hash
    · rw [if_pos hs,takeWhile_cons_of_neg (by simpa using hs)]
      rfl
    · rw [takeWhile_cons_of_pos (by simpa using hs)]
      split_ifs with hn
      · rw [filter_cons_of_pos (by simpa using hn),map_cons,ih, getElem?_append_right le_rfl,
          Nat.sub_self]
        rfl
      · rw [filter_cons_of_neg (by simpa using hn),ih]
        rfl

theorem packageParents_length :
    (findInPackageParents ptx 0 package).length = (earlierParents ptx package).length := by
  have h := congrArg length (packageParents_map ptx [] package)
  rwa [length_map,length_map] at h

theorem parents_filterMap :
    (findInPackageParents ptx 0 package).filterMap (fun i => package[i]?) =
      earlierParents ptx package := by
  have h := congrArg (filterMap id) (packageParents_map ptx [] package)
  rw [filterMap_map,filterMap_map] at h
  exact h.trans filterMap_some

/-- In a sorted package the parents of a member are before it. -/
theorem mem_earlierParents (hn : (package.map CTransaction.hash).Nodup)
    (hs : isTopoSortedPackage package = true) (hm : ptx ∈ package) {tx : CTransaction} :
    tx ∈ earlierParents ptx package ↔ tx ∈ package ∧ ptx.Names tx.hash := by
  rw [earlierParents,mem_filter,decide_eq_true_eq,mem_map]
  refine and_congr_left fun ha => ⟨fun h => ( takeWhile_prefix _).subset h,fun ht => ?_⟩
  induction package with
  | nil => exact absurd hm not_mem_nil
  | cons first package ih =>
    rw [map_cons,nodup_cons] at hn
    rw [isTopoSortedPackage,Bool.and_eq_true,Bool.not_eq_true',any_eq_false] at hs
    have hf : first ≠ ptx := by
      rintro rfl
      obtain ⟨o,ho,he⟩ := ha
      refine hs.1 o ho ?_
      rw [contains_iff_mem,he]
      exact mem_map.mpr ⟨tx,ht,rfl⟩
    have hp := mem_of_ne_of_mem hf.symm hm
    have hne : first.hash ≠ ptx.hash := fun he =>
      hn.1 (he ▸ mem_map.mpr ⟨ptx,hp,rfl⟩)
    rw [takeWhile_cons_of_pos (by simpa using hne)]
    rcases mem_cons.mp ht with rfl | ht
    · exact mem_cons_self
    · exact mem_cons_of_mem _ (ih hn.2 hs.2 hp ht)

def familyParents (ptx : CTransaction) (package : List CTransaction)
    (parents : List CTxMemPoolEntry) :
    List CTransaction := parents.map tx++earlierParents ptx package

variable {parent : CTransaction}

theorem parentInfo_eq (pool : CTxMemPool) (hs : (familyParents ptx package parents).length ≤ 1)
    (hp : parent ∈ familyParents ptx package parents) : ∃ info,
    parentInfo pool package parents (findInPackageParents ptx 0 package) = some info ∧
      info.tx = parent ∧
      ∀ en ∈ parents, info.m_has_mempool_descendant =
        decide (pool.getDescendantCount en.hash > 1) := by
  cases parents with
  | cons en rest =>
    refine ⟨_,rfl,?_,fun ot ho => ?_⟩
    · exact eq_of_length_le_one hs mem_cons_self hp
    · obtain rfl : rest = [] := by
        rw [familyParents,map_cons,cons_append,length_cons,length_append,length_map] at hs
        exact length_eq_zero_iff.mp (by omega)
      rw [mem_singleton.mp ho]
  | nil =>
    rw [familyParents] at hs hp
    have hm := packageParents_map ptx [] package
    cases hl : earlierParents ptx package with
    | nil => exact absurd (hl ▸ hp) not_mem_nil
    | cons first rest =>
      rw [hl] at hm
      obtain ⟨i,tail,hf,hi,_⟩ := map_eq_cons_iff.mp hm
      refine ⟨⟨first,false⟩,?_,?_,nofun⟩
      · rw [parentInfo,show findInPackageParents ptx 0 package = i::tail from hf]
        rw [head?_cons,Option.bind_some,show package[i]? = some first from hi]
        rfl
      · exact eq_of_length_le_one hs (hl ▸ mem_cons_self) hp

theorem memberError_eq_none {m : CTransaction} (h : memberError name ptx parent m = none) :
    ¬m.Names parent.hash ∧ ¬m.Names ptx.hash := by
  have hin : ∀ i ∈ m.vin, i.prevout.hash ≠ parent.hash ∧ i.prevout.hash ≠ ptx.hash := by
    intro i hin
    have hn := findSome?_eq_none_iff.mp h i hin
    split_ifs at hn with hp hs
    exact ⟨hp,hs⟩
  constructor
  · rintro ⟨o,ho,he⟩
    obtain ⟨i,hm,rfl⟩ := mem_map.mp ho
    exact (hin i hm).1 he
  · rintro ⟨o,ho,he⟩
    obtain ⟨i,hm,rfl⟩ := mem_map.mp ho
    exact (hin i hm).2 he

/-- What follows from the checks for a member of a package. -/
structure MemberPassed (pool : CTxMemPool) (ptx : CTransaction) (vsize : ℤ)
    (package : List CTransaction) (parents : List CTxMemPoolEntry) : Prop where
  inherit : ∀ parent ∈ familyParents ptx package parents, (parent.IsTruc ↔ ptx.IsTruc)
  size : ptx.IsTruc → vsize ≤ trucMaxVsize
  single : ptx.IsTruc → (familyParents ptx package parents).length ≤ 1
  childSize : ptx.IsTruc → ∀ parent ∈ familyParents ptx package parents, vsize ≤ trucChildMaxVsize
  alone : ptx.IsTruc → ∀ parent ∈ parents,
    pool.getAncestorCount parent.hash ≤ 1 ∧ pool.getDescendantCount parent.hash ≤ 1
  members : ptx.IsTruc → ∀ parent ∈ familyParents ptx package parents, ∀ member ∈ package,
    member.hash ≠ ptx.hash → ¬member.Names parent.hash ∧ ¬member.Names ptx.hash

theorem parentError_eq_none {i : ParentInfo} (h : parentError name ptx package i = none) :
    i.tx.IsTruc ∧ (∀ m ∈ package, m.hash ≠ ptx.hash →
      ¬m.Names i.tx.hash ∧ ¬m.Names ptx.hash) ∧ i.m_has_mempool_descendant = false := by
  unfold parentError at h
  by_cases hv : i.tx.version = trucVersion
  · rw [if_neg (not_not.mpr hv)] at h
    split at h
    · cases h
    · next hm =>
      split_ifs at h with hd
      refine ⟨hv,fun m he hn => ?_,Bool.eq_false_iff.mpr hd⟩
      refine memberError_eq_none (findSome?_eq_none_iff.mp hm m ?_)
      exact mem_filter.mpr ⟨he,decide_eq_true hn⟩
  · rw [if_pos hv] at h
    cases h

theorem packageTruc_passed (h : packageTRUCChecks name pool ptx vsize package parents = none) :
    MemberPassed pool ptx vsize package parents := by
  unfold packageTRUCChecks at h
  dsimp only at h
  rw [parents_filterMap,packageParents_length] at h
  by_cases ht : ptx.version = trucVersion
  · rw [if_pos ht] at h
    have hl : parents.length+(earlierParents ptx package).length =
      (familyParents ptx package parents).length := by
      rw [familyParents,length_append,length_map]
    rw [hl] at h
    split_ifs at h with hs ho ha hp hc
    · have hsi : (familyParents ptx package parents).length ≤ 1 := le_one_of_limit ho
      have hf {parent : CTransaction} (hpa : parent ∈ familyParents ptx package parents) :=
        parentInfo_eq pool hsi hpa
      refine ⟨fun parent hpa => ?_,fun _ => not_lt.mp hs,fun _ => hsi,
        fun _ _ _ => not_lt.mp hc,fun _ en he => ?_,fun _ parent hpa => ?_⟩
      · obtain ⟨i,hinf,rfl,_⟩ := hf hpa
        rw [hinf] at h
        exact iff_of_true (parentError_eq_none h).1 ht
      · have hpa : en.tx ∈ familyParents ptx package parents :=
          mem_append_left _ (mem_map.mpr ⟨en,he,rfl⟩)
        obtain ⟨i,hinf,_,hd⟩ := hf hpa
        rw [hinf] at h
        have hfa := (parentError_eq_none h).2.2
        rw [hd en he,decide_eq_false_iff_not] at hfa
        refine ⟨?_,not_lt.mp hfa⟩
        cases parents with
        | nil => exact absurd he not_mem_nil
        | cons first rest =>
          have hfi : en.tx = first.tx := eq_of_length_le_one hsi hpa mem_cons_self
          rw [head?_cons,Option.any_some,decide_eq_true_eq] at ha
          rw [CTxMemPoolEntry.hash,hfi]
          exact (Nat.le_add_right _ _).trans (le_one_of_limit ha)
      · obtain ⟨i,hinf,rfl,_⟩ := hf hpa
        rw [hinf] at h
        exact (parentError_eq_none h).2.1
    · have hni : familyParents ptx package parents = [] :=
        length_eq_zero_iff.mp (Nat.eq_zero_of_not_pos hp)
      have hpo : parents = [] := map_eq_nil_iff.mp (append_eq_nil_iff.mp hni).1
      refine ⟨?_,fun _ => not_lt.mp hs,?_,?_,?_,?_⟩
      · exact hni ▸ nofun
      · exact fun _ => hni ▸ Nat.zero_le 1
      · exact fun _ => hni ▸ nofun
      · exact fun _ => hpo ▸ nofun
      · exact fun _ => hni ▸ nofun
  · rw [if_neg ht] at h
    have hin : ∀ parent ∈ familyParents ptx package parents, ¬parent.IsTruc := by
      intro parent hpa hv
      split at h
      · cases h
      · next hfin =>
        rcases mem_append.mp hpa with hm | hm
        · obtain ⟨en,he,rfl⟩ := mem_map.mp hm
          exact find?_eq_none.mp hfin en he (decide_eq_true hv)
        · have hn := findSome?_eq_none_iff.mp h parent hm
          rw [if_pos (show parent.version = trucVersion from hv)] at hn
          cases hn
    exact ⟨fun parent hpa => iff_of_false (hin parent hpa) ht,fun h => absurd h ht,
      fun h => absurd h ht,fun h => absurd h ht,fun h => absurd h ht,fun h => absurd h ht⟩

end

section
variable {name : CTransaction → String} {pool pool' : CTxMemPool} {entries : List CTxMemPoolEntry}
  {txSize : CTxMemPoolEntry → ℤ}

/-- A sorted package without conflicts whose members pass all checks and replace nothing. -/
structure PackagePassed (name : CTransaction → String) (txSize : CTxMemPoolEntry → ℤ)
    (pool : CTxMemPool) (entries : List CTxMemPoolEntry) : Prop where
  nodup : (entries.map hash).Nodup
  sorted : isTopoSortedPackage (entries.map tx) = true
  consistent : isConsistentPackage [] (entries.map tx) = true
  unseen : ∀ entry ∈ entries, pool.Unseen entry
  conflicts : ∀ entry ∈ entries, pool.directConflicts entry.tx = []
  single : ∀ entry ∈ entries,
    singleTRUCChecks name pool entry.tx (pool.getParents entry.tx) [] (txSize entry) = none
  package : ∀ entry ∈ entries, packageTRUCChecks name pool entry.tx (txSize entry)
    (entries.map tx) (pool.getParents entry.tx) = none

variable {pa : List CTransaction} {seen : List COutPoint} {tx : CTransaction}
    {ey f : CTxMemPoolEntry}

theorem consistentPackage_cons : isConsistentPackage seen (tx::pa) = true ↔
      tx.vin.isEmpty = false ∧ (∀ o ∈ tx.prevouts, o ∉ seen) ∧
        isConsistentPackage (tx.prevouts++seen) pa = true := by
  simp [isConsistentPackage,and_assoc]

theorem topoSorted_cons (h : isTopoSortedPackage (tx::pa) = true) :
    (∀ {other}, other ∈ pa → ¬tx.Names other.hash) ∧ isTopoSortedPackage pa = true := by
  rw [isTopoSortedPackage,Bool.and_eq_true,Bool.not_eq_true',any_eq_false] at h
  refine ⟨fun ht hn => ?_,h.2⟩
  obtain ⟨o,ho,he⟩ := hn
  refine h.1 o ho ?_
  rw [contains_iff_mem,he]
  exact mem_cons_of_mem _ (mem_map.mpr ⟨_,ht,rfl⟩)

theorem CTxMemPool.Unseen.next (h : pool.Unseen ey) (hm : pool'.mapTx = f::pool.mapTx)
    (hne : f.hash ≠ ey.hash) (hn : ¬f.tx.Names ey.hash) : pool'.Unseen ey where
  new hme := by
    rw [hashes,hm,map_cons,mem_cons] at hme
    rcases hme with he | hme
    · exact hne he.symm
    · exact h.new hme
  unnamed other ho := by
    rw [hm,mem_cons] at ho
    rcases ho with rfl | ho
    · exact hn
    · exact h.unnamed other ho
  self := h.self

theorem lookup_next (hp : pool.Indexed) (hp' : pool'.Indexed)
    (hm : pool'.mapTx = f::pool.mapTx) {o : COutPoint} (hf : o ∉ f.tx.prevouts)
    (hl : pool.mapNextTx.lookup o = none) : pool'.mapNextTx.lookup o = none := by
  by_contra hn
  obtain ⟨txid,hl'⟩ := Option.ne_none_iff_exists'.mp hn
  obtain ⟨e,he,rfl,ho⟩ := (hp'.nextTx o txid).mp (mem_of_lookup hl')
  rw [hm,mem_cons] at he
  rcases he with rfl | he
  · exact hf ho
  · exact notMem_of_lookup hl ((hp.nextTx o e.hash).mpr ⟨e,he,rfl,ho⟩)

/-- The members are added one by one. What was seen covers the inputs that members could share. -/
theorem addPackage_wellFormed (hp : pool.WellFormed) (hn : (entries.map hash).Nodup)
    (hso : isTopoSortedPackage (entries.map CTxMemPoolEntry.tx) = true)
    (hc : isConsistentPackage seen (entries.map CTxMemPoolEntry.tx) = true)
    (hu : ∀ ey ∈ entries, pool.Unseen ey)
    (hs : ∀ ey ∈ entries, ∀ o ∈ ey.tx.prevouts, o ∉ seen → pool.mapNextTx.lookup o = none) :
    ∃ pool', addPackage entries pool = .ok pool' ∧ pool'.WellFormed ∧
      ∀ ey, ey ∈ pool'.mapTx ↔ ey ∈ pool.mapTx ∨ ey ∈ entries := by
  induction entries generalizing pool seen with
  | nil => exact ⟨pool,rfl,hp,fun ey => by simp⟩
  | cons f entries ih =>
    rw [map_cons,nodup_cons] at hn
    obtain ⟨hf,hso⟩ := topoSorted_cons hso
    rw [map_cons,consistentPackage_cons] at hc
    obtain ⟨_,hfr,hc⟩ := hc
    obtain ⟨pool₁,ha,hp1,hm⟩ := addNew_wellFormed hp (hu f mem_cons_self)
      fun o ho => hs f mem_cons_self o ho (hfr o ho)
    have hu1 : ∀ ey ∈ entries, pool₁.Unseen ey := fun ey he =>
      (hu ey (mem_cons_of_mem _ he)).next hm (fun hq => hn.1 (hq ▸ mem_map.mpr ⟨ey,he,rfl⟩))
        (hf (mem_map.mpr ⟨ey,he,rfl⟩))
    have hs1 : ∀ ey ∈ entries, ∀ o ∈ ey.tx.prevouts, o ∉ f.tx.prevouts++seen →
      pool₁.mapNextTx.lookup o = none := by
      intro ey he o ho hno
      rw [mem_append,not_or] at hno
      exact lookup_next hp.toIndexed hp1.toIndexed hm hno.1
        (hs ey (mem_cons_of_mem _ he) o ho hno.2)
    obtain ⟨pool',hr,hp',hme⟩ := ih hp1 hn.2 hso hc hu1 hs1
    refine ⟨pool',?_,hp',fun ey => ?_⟩
    · rw [addPackage,ha,ok_bind,hr]
    · rw [hme,hm,mem_cons,mem_cons,or_assoc,or_left_comm]

/-- The parents of a member, in the pool or before it in the package. -/
theorem PackagePassed.parents (h : PackagePassed name txSize pool entries) (hp : pool.Indexed)
    (hin : pool'.Indexed) (he : pool.Extends entries pool') {parent : CTxMemPoolEntry}
    (hen : ey ∈ entries) (ha : parent ∈ pool'.mapTx)
    (hs : pool'.Spends parent.hash ey.hash) :
    parent.tx ∈ familyParents ey.tx (entries.map CTxMemPoolEntry.tx) (pool.getParents ey.tx) ∧
      (parent ∈ pool.mapTx → parent ∈ pool.getParents ey.tx) := by
  obtain ⟨_,child,hc,hq,hn⟩ := hs
  rw [hin.eq_of_hash hc ((he.mem ey).mpr (.inr hen)) hq] at hn
  have hold (hm : parent ∈ pool.mapTx) : parent ∈ pool.getParents ey.tx :=
    (mem_getParents hp).mpr ⟨hm,hn⟩
  refine ⟨mem_append.mpr (((he.mem parent).mp ha).imp (fun hm => ?_) fun hm => ?_),hold⟩
  · exact mem_map.mpr ⟨parent,hold hm,rfl⟩
  · have ho : ((entries.map tx).map CTransaction.hash).Nodup := by
      rw [List.map_map]
      exact h.nodup
    exact (mem_earlierParents ho h.sorted (mem_map.mpr ⟨ey,hen,rfl⟩)).mpr
      ⟨mem_map.mpr ⟨parent,hm,rfl⟩,hn⟩

theorem PackagePassed.joins (h : PackagePassed name txSize pool entries) (ho : pool.WellFormed)
    (ho' : pool'.WellFormed) (hx : pool.Extends entries pool') (hen : ey ∈ entries) :
    pool'.JoinsFamily txSize ey := by
  have hpas {e : CTxMemPoolEntry} (he : e ∈ entries) := packageTruc_passed (h.package e he)
  have hpa {e p : CTxMemPoolEntry} (he : e ∈ entries) (hp : p ∈ pool'.mapTx)
    (hs : pool'.Spends p.hash e.hash) :=
    h.parents ho.toIndexed ho'.toIndexed hx he hp hs
  have hin {e p : CTxMemPoolEntry} (he : e ∈ entries) (hp : p ∈ pool'.mapTx)
      (hs : pool'.Spends p.hash e.hash) : p.tx.IsTruc ↔ e.tx.IsTruc :=
    (hpas he).inherit p.tx (hpa he hp hs).1
  have hold {x : Txid} {e : CTxMemPoolEntry} (he : e ∈ pool.mapTx) (hs : pool'.Spends x e.hash) :
      pool.Spends x e.hash :=
    hx.spends_old ho'.toIndexed hs (mem_hashes.mpr ⟨e,he,rfl⟩)
  have hme {e p m : CTxMemPoolEntry} (he : e ∈ entries) (ht : e.tx.IsTruc)
      (hp : p ∈ pool'.mapTx) (hs : pool'.Spends p.hash e.hash) (hm : m ∈ entries)
      (hne : m.hash ≠ e.hash) : ¬m.tx.Names p.hash ∧ ¬m.tx.Names e.hash :=
    (hpas he).members ht p.tx (hpa he hp hs).1 m.tx (mem_map.mpr ⟨m,hm,rfl⟩) hne
  have hn {x : Txid} {e : CTxMemPoolEntry} (he : e ∈ pool'.mapTx) (hs : pool'.Spends x e.hash) :
    e.tx.Names x := by
    obtain ⟨_,e',he',hq,hn⟩ := hs
    rwa [ho'.eq_of_hash he' he hq] at hn
  have hen' := (hx.mem ey).mpr (.inr hen)
  constructor
  · exact fun parent hr hs => hin hen hr hs
  · intro ht a b ha hb
    obtain ⟨ea,hea,rfl⟩ := ha.left_entry
    obtain ⟨eb,heb,rfl⟩ := hb.left_entry
    have hq := eq_of_length_le_one ((hpas hen).single ht) (hpa hen hea ha).1 (hpa hen heb hb).1
    rw [CTxMemPoolEntry.hash,CTxMemPoolEntry.hash,hq]
  · intro ht a b ha hb
    obtain ⟨p,hp,rfl⟩ := ha.left_entry
    obtain ⟨child,hc,rfl⟩ := hb.right_entry
    by_contra hne
    rcases (hx.mem child).mp hc with hmem | hmem
    · have hs := hold hmem hb
      obtain ⟨p',hp',hq⟩ := hs.left_entry
      rw [← ho'.eq_of_hash ((hx.mem p').mpr (.inl hp')) hp hq] at ha hs
      have hl := (hpas hen).alone ht p' ((hpa hen ((hx.mem p').mpr (.inl hp')) ha).2 hp')
      exact ho.no_child hl.2 _ hs
    · exact (hme hen ht hp ha hmem hne).1 (hn hc hb)
  · intro ht a b hb ha
    obtain ⟨p,hp,rfl⟩ := hb.left_entry
    rcases (hx.mem p).mp hp with hmem | hmem
    · have hl := (hpas hen).alone ht p ((hpa hen hp hb).2 hmem)
      exact ho.no_parent hl.1 a (hold hmem ha)
    · -- The parent would be in the package and have a parent itself.
      obtain ⟨g,hg,rfl⟩ := ha.left_entry
      have hne : ey.hash ≠ p.hash := by
        intro hq
        rw [hq] at hb
        exact ho'.acyclic p.hash (.single hb)
      exact (hme hmem ((hin hen hp hb).mpr ht) hg ha hen hne).2 (hn hen' hb)
  · exact (hpas hen).size
  · intro ht parent hs
    obtain ⟨p,hp,rfl⟩ := hs.left_entry
    exact (hpas hen).childSize ht p.tx (hpa hen hp hs).1

theorem addPackage_clean (hp : pool.WellFormed) (hc : pool.TrucClean txSize)
    (h : PackagePassed name txSize pool entries) : ∃ pool', addPackage entries pool = .ok pool' ∧
      pool'.WellFormed ∧ pool'.TrucClean txSize := by
  obtain ⟨pool',ha,hp',hm⟩ := addPackage_wellFormed hp h.nodup h.sorted h.consistent
    h.unseen fun ey he o ho _ => by
      cases hl : pool.mapNextTx.lookup o with
      | none => rfl
      | some txid =>
        have hco : txid ∈ pool.directConflicts ey.tx :=
          mem_txidSet.mpr (mem_filterMap.mpr ⟨o,ho,hl⟩)
        exact absurd (h.conflicts ey he ▸ hco) not_mem_nil
  have hx : pool.Extends entries pool' := ⟨hm,fun ey he ot ht => (h.unseen ot ht).unnamed ey he⟩
  have hf := (hc.families hp).extend hx hp'.toIndexed fun ey he => h.joins hp hp' hx he
  exact ⟨pool',ha,hp',hf.clean⟩

end

/-- Single transactions, also with the eviction of a sibling, and packages. -/
theorem trucChecks_keep_clean (name : CTransaction → String) (txSize : CTxMemPoolEntry → ℤ)
    (pool : CTxMemPool) (hpool : pool.WellFormed) (hclean : pool.TrucClean txSize) :
    (∀ allow_sibling_eviction entry conflicts, pool.Unseen entry →
      preChecksTRUC name pool allow_sibling_eviction entry.tx (txSize entry) = .ok conflicts →
      ∃ pool', pool.replaceWith conflicts entry = .ok pool' ∧ pool'.WellFormed ∧
        pool'.TrucClean txSize) ∧
    ∀ entries, PackagePassed name txSize pool entries →
      ∃ pool', addPackage entries pool = .ok pool' ∧ pool'.WellFormed ∧ pool'.TrucClean txSize := by
  constructor
  · intro a entry conflicts hn hc
    exact replaceWith_clean hpool hclean hn hc
  · intro entries hp
    exact addPackage_clean hpool hclean hp

def emptyPool : CTxMemPool := ⟨[],[],.empty⟩

theorem emptyPool_wellFormed : emptyPool.WellFormed := by
  have hn (x y : Txid) : ¬emptyPool.Spends x y := fun h => absurd h.1 not_mem_nil
  refine ⟨sound_nil.mpr ⟨⟨nodup_nil,?_,nofun,fun _ => Iff.rfl,nodup_nil⟩,?_⟩,?_⟩
  · intro o txid
    exact iff_of_false not_mem_nil fun ⟨_,h,_⟩ => absurd h not_mem_nil
  · exact represents_empty.congr fun x y => (iff_of_false id (hn x y))
  · intro txid hp
    obtain ⟨b,hb,_⟩ := TransGen.head'_iff.mp hp
    exact hn txid b hb

def trucEntry (txid : Txid) (prevout : COutPoint) : CTxMemPoolEntry where
  tx := {
    version := 3
    vin := [⟨prevout,[],0xfffffffd,[]⟩]
    vout := []
    nLockTime := 0
    hash := txid
    vin_size := by simp
    vout_size := by simp
    scriptSig_size := by simp }
  nTime := 0
  spendsCoinbase := false
  lockPoints := ⟨0,0,none⟩

variable {o : COutPoint} {txid : Txid}

theorem names_trucEntry {x : Txid} : (trucEntry txid o).tx.Names x ↔ o.hash = x := by
  simp [CTransaction.Names,CTransaction.prevouts,trucEntry]

theorem trucEntry_self (h : o.hash ≠ txid) :
    ¬(trucEntry txid o).tx.Names (trucEntry txid o).hash := fun hn => h (names_trucEntry.mp hn)

def trucParent : CTxMemPoolEntry := trucEntry 1 ⟨100,0⟩

def trucChild : CTxMemPoolEntry := trucEntry 2 ⟨1,0⟩

def trucSibling : CTxMemPoolEntry := trucEntry 3 ⟨1,1⟩

def familyPool : CTxMemPool where
  mapTx := [trucChild,trucParent]
  mapNextTx := [(⟨1,0⟩,2),(⟨100,0⟩,1)]
  m_txgraph := (((empty.addNode 1).addNode 2).addDependency 1 2)

/-- A package of a parent with its child, and then a sibling that takes the place of the child. -/
theorem trucChecks_keep_clean_example :
    addPackage [trucParent, trucChild] emptyPool = .ok familyPool ∧
      preChecksTRUC (fun _ => "") familyPool true trucSibling.tx 500 = .ok [2] ∧
      ∃ pool', familyPool.replaceWith [2] trucSibling = .ok pool' ∧ pool'.TrucClean fun _ =>
        500 := by
  have hn {P : CTxMemPoolEntry → Prop} : ∀ e ∈ emptyPool.mapTx,
    P e := fun e he => absurd he not_mem_nil
  have hl : emptyPool.TrucClean fun _ => 500 := ⟨hn,hn,hn,hn,hn,hn⟩
  have hp : emptyPool.Unseen trucParent := ⟨not_mem_nil,nofun,trucEntry_self (by decide)⟩
  have hc : emptyPool.Unseen trucChild := ⟨not_mem_nil,nofun,trucEntry_self (by decide)⟩
  have hpa : PackagePassed (fun _ => "") (fun _ => 500) emptyPool [trucParent,trucChild] :=
    ⟨by decide,by decide,by decide,
      forall_mem_cons.mpr ⟨hp,forall_mem_singleton.mpr hc⟩,by decide,by decide,
      by decide⟩
  have hf : addPackage [trucParent,trucChild] emptyPool = .ok familyPool := rfl
  obtain ⟨pool₁,ha,hpo,hl₁⟩ := (trucChecks_keep_clean _ _ emptyPool emptyPool_wellFormed hl).2 _ hpa
  obtain rfl : familyPool = pool₁ := Except.ok.inj (hf.symm.trans ha)
  have hs : familyPool.Unseen trucSibling := by
    refine ⟨by decide,fun ot ho => ?_,trucEntry_self (by decide)⟩
    rcases mem_pair.mp ho with rfl | rfl
    · exact fun h => absurd (names_trucEntry.mp h) (by decide)
    · exact fun h => absurd (names_trucEntry.mp h) (by decide)
  have hh : preChecksTRUC (fun _ => "") familyPool true trucSibling.tx 500 = .ok [2] := rfl
  obtain ⟨pool',hr,_,hl'⟩ := (trucChecks_keep_clean _ _ familyPool hpo hl₁).1 true trucSibling [2]
    hs hh
  exact ⟨hf,hh,pool',hr,hl'⟩

end DripCore
