import DripCore.HeadersSyncSafety

/-!
# Headers sync with an honest peer

A peer that serves one chain of enough work in both phases, in whatever batches, is never turned
away. The commitments are those of a prefix that reaches the required work; in the second phase
headers are compared only before that work is reached again, so the queue holds exactly the
commitments to come.
-/
namespace DripCore.HeadersSync
open CompactTarget ExceptRules List

def totalWork (work : ℕ) (headers : List WireHeader) : ℕ :=
  work+(headers.map fun header => (getBlockProof header.nBits).toNat).sum

def commitments (cfg : Config) : ℤ → List WireHeader → List Bool
  | _, [] => []
  | height, header::headers =>
    if cfg.isCommitmentHeight (height+1) then
      cfg.hasher (cfg.getHash header)::commitments cfg (height+1) headers
    else commitments cfg (height+1) headers

def Config.startWork (cfg : Config) : ℕ := cfg.chainStart.nChainWork.toNat

def Config.startHeight (cfg : Config) : ℤ := cfg.chainStart.index.nHeight

/-- The chain of an honest peer. -/
structure ServedChain (cfg : Config) (headers : List WireHeader) : Prop where
  linked : Linked cfg.getHash cfg.chainStartHash headers
  permitted : PermittedSteps cfg.consensusParams cfg.startHeight cfg.chainStart.header.nBits headers
  reaches : cfg.minimumRequiredWork.toNat ≤ totalWork cfg.startWork headers
  commitments_le : (commitments cfg cfg.startHeight headers).length ≤ cfg.maxCommitments

/-- Such a chain within the ranges of heights and work. -/
structure HonestChain (cfg : Config) (headers : List WireHeader) : Prop
    extends ServedChain cfg headers where
  heights : cfg.startHeight+headers.length < 2^31
  work_lt : totalWork cfg.startWork headers < 2^256

theorem totalWork_append (work : ℕ) (hs hs' : List WireHeader) :
    totalWork work (hs++hs') = totalWork (totalWork work hs) hs' := by
  simp only [totalWork,map_append,sum_append]
  omega

theorem totalWork_le_append (work : ℕ) (hs hs' : List WireHeader) :
    totalWork work hs ≤ totalWork work (hs++hs') := by
  rw [totalWork_append]
  exact Nat.le_add_right _ _

theorem toNat_chainWork {work : ArithUint256} {headers : List WireHeader}
    (h : totalWork work.toNat headers < 2^256) :
    (chainWork work headers).toNat = totalWork work.toNat headers := by
  induction headers generalizing work with
  | nil => rfl
  | cons header headers ih =>
    have hc : totalWork work.toNat (header::headers) =
        totalWork (work.toNat+(getBlockProof header.nBits).toNat) headers := by
      simp only [totalWork,map_cons,sum_cons]
      omega
    rw [hc] at h ⊢
    have ha : (work+getBlockProof header.nBits).toNat =
      work.toNat+(getBlockProof header.nBits).toNat := by
      rw [BitVec.toNat_add,Nat.mod_eq_of_lt (lt_of_le_of_lt (Nat.le_add_right _ _) h)]
    exact (ih (by rwa [ha])).trans (by rw [ha])

theorem commitments_append (cfg : Config) (height : ℤ) (hs hs' : List WireHeader) :
    commitments cfg height (hs++hs') = commitments cfg height hs++commitments cfg (height+hs.length)
      hs' := by
  induction hs generalizing height with
  | nil => simp [commitments]
  | cons header hs ih =>
    have hh : height+1+(hs.length : ℤ) = height+(header::hs).length := by
      rw [length_cons]
      push_cast
      ring
    simp only [cons_append,commitments,ih,hh]
    split_ifs <;> rfl

theorem toInt_of_lt {height : ℤ} (h0 : 0 ≤ height) (h : height < 2^31) : toInt height = height := by
  rw [toInt,BitVec.toInt_ofInt,Int.bmod_eq_of_le (by omega) (by omega)]

abbrev Config.Reaches (cfg : Config) (hs : List WireHeader) : Prop :=
  cfg.minimumRequiredWork.toNat ≤ totalWork cfg.startWork hs

variable {cfg : Config} {header : WireHeader} {st : HeadersSyncState}
    {headers hs rest b presynced released held : List WireHeader}
    {call : List WireHeader × Bool} {calls : List (List WireHeader × Bool)} {phase : State}

theorem HonestChain.le_chainWork (h : HonestChain cfg headers) (hinitial : hs <+: headers) :
    cfg.minimumRequiredWork ≤ chainWork cfg.chainStart.nChainWork hs ↔ cfg.Reaches hs := by
  obtain ⟨rest,rfl⟩ := hinitial
  rw [BitVec.le_def,toNat_chainWork ((totalWork_le_append _ hs rest).trans_lt h.work_lt)]
  rfl

/-- The members of the first phase after a prefix of the chain. -/
structure Presynced (cfg : Config) (hs : List WireHeader) (st : HeadersSyncState) : Prop where
  toPresyncing : Presyncing cfg hs st
  lastHash_eq : cfg.getHash st.lastHeaderReceived = lastHash cfg.getHash cfg.chainStartHash hs
  lastBits_eq : st.lastHeaderReceived.nBits = lastBits cfg.chainStart.header.nBits hs
  height_eq : st.currentHeight = cfg.startHeight+hs.length
  commitments_eq : st.headerCommitments = commitments cfg cfg.startHeight hs

theorem presynced_start (cfg : Config) : Presynced cfg [] cfg.start where
  toPresyncing := ⟨rfl,rfl,rfl⟩
  lastHash_eq := rfl
  lastBits_eq := rfl
  height_eq := by simp [Config.start,Config.startHeight]
  commitments_eq := rfl

theorem lastBits_append (nBits : BitVec 32) (hs hs' : List WireHeader) :
    lastBits nBits (hs++hs') = lastBits (lastBits nBits hs) hs' := foldl_append

theorem HonestChain.presync_header (h : HonestChain cfg headers)
    (hsp : headers = hs++header::rest) (hst : Presynced cfg hs st) :
    ∃ st', validateAndProcessSingleHeader cfg st header = .ok st' ∧
      Presynced cfg (hs++[header]) st' := by
  have hsp' : headers = (hs++[header])++rest := by simp [hsp]
  have hh : toInt (st.currentHeight+1) = cfg.startHeight+hs.length+1 := by
    have hl := h.heights
    have hpo : 0 ≤ cfg.startHeight := Int.natCast_nonneg _
    rw [hsp,length_append,length_cons] at hl
    rw [hst.height_eq,toInt_of_lt (by omega) (by omega)]
  have hp : permittedDifficultyTransition cfg.consensusParams (toInt (st.currentHeight+1))
      st.lastHeaderReceived.nBits header.nBits = some true := by
    have ht := h.permitted
    rw [hsp,permitted_append,← hst.lastBits_eq] at ht
    rw [hh]
    exact ht.2.1
  have hco : commitments cfg cfg.startHeight (hs++[header]) =
      st.headerCommitments++commitments cfg (cfg.startHeight+hs.length) [header] := by
    rw [commitments_append,hst.commitments_eq]
  have hm : (commitments cfg cfg.startHeight (hs++[header])).length ≤ cfg.maxCommitments := by
    have he := h.commitments_le
    rw [hsp',commitments_append,length_append] at he
    omega
  have ho : storeCommitment cfg header (toInt (st.currentHeight+1)) st = .ok { st with
      headerCommitments := commitments cfg cfg.startHeight (hs++[header]) } := by
    rw [hco] at hm ⊢
    simp only [commitments] at hm ⊢
    rw [storeCommitment,hh]
    split_ifs at hm ⊢ with hc
    · simp only [if_neg (not_lt.mpr hm)]
    · rw [append_nil]
  refine ⟨{ st with
    headerCommitments := commitments cfg cfg.startHeight (hs++[header])
    currentChainWork := st.currentChainWork+getBlockProof header.nBits
    lastHeaderReceived := header
    currentHeight := toInt (st.currentHeight+1) },?_,?_⟩
  · rw [validateAndProcessSingleHeader,if_neg (not_not.mpr hst.toPresyncing.state)]
    simp only [checkTransition,hp,ok_bind,ho,pure_eq_ok]
  · refine ⟨⟨?_,hst.toPresyncing.all,hst.toPresyncing.state⟩,?_,?_,?_,rfl⟩
    · rw [chainWork_append,← hst.toPresyncing.work]
      rfl
    · rw [lastHash_append]
      rfl
    · rw [lastBits_append]
      rfl
    · rw [hh,length_append,length_singleton]
      push_cast
      ring

theorem HonestChain.presync_headers (h : HonestChain cfg headers)
    (hsp : headers = hs++(b++rest)) (hst : Presynced cfg hs st) :
    ∃ st', b.foldlM (validateAndProcessSingleHeader cfg) st = .ok st' ∧
      Presynced cfg (hs++b) st' := by
  induction b generalizing hs st with
  | nil => exact ⟨st,rfl,by rwa [append_nil]⟩
  | cons header b ih =>
    obtain ⟨st1,hf,hst1⟩ := h.presync_header hsp hst
    obtain ⟨st2,hr,hst2⟩ := ih (by simpa using hsp) hst1
    refine ⟨st2,?_,by simpa using hst2⟩
    rw [foldlM_cons,hf,ok_bind,hr]

/-- The members of the second phase, with the commitments of the first that are still to come. -/
structure Redownloaded (cfg : Config) (presynced released held : List WireHeader)
    (st : HeadersSyncState) : Prop where
  toBuffering : Buffering cfg released held st
  queue : st.processAllRemainingHeaders = false → ∃ rest, presynced = released++held++rest ∧
    st.headerCommitments = commitments cfg (cfg.startHeight+(released++held).length) rest
  reached : st.processAllRemainingHeaders = true →
    cfg.minimumRequiredWork.toNat ≤ totalWork cfg.startWork (released++held)
  waiting : st.processAllRemainingHeaders = false → released++held ≠ [] →
    totalWork cfg.startWork (released++held) < cfg.minimumRequiredWork.toNat

/-- The next header is the next one that was committed to, until the work is reached. -/
theorem next_presynced (hinitial : presynced <+: hs++header::rest)
    (hreached : cfg.Reaches presynced)
    (hw : totalWork cfg.startWork (hs++[header]) < cfg.minimumRequiredWork.toNat)
    {tail : List WireHeader} (ht : presynced = hs++tail) :
    ∃ tail', tail = header::tail' := by
  cases tail with
  | nil =>
    have hl := totalWork_le_append cfg.startWork hs [header]
    rw [ht,append_nil] at hreached
    omega
  | cons header' tail' =>
    rw [ht,prefix_append_right_inj,cons_prefix_cons] at hinitial
    exact ⟨tail',by rw [hinitial.1]⟩

section
variable (h : HonestChain cfg headers) (hsp : headers = released++held++header::rest)
  (hinitial : presynced <+: headers)
  (hreached : cfg.Reaches presynced)
  (hst : Redownloaded cfg presynced released held st)
include h hsp hinitial hreached hst

/-- The next header agrees with the commitment to it, or no more are compared. -/
theorem HonestChain.checkCommitment_ok :
    ∃ st1, checkCommitment cfg header (st.redownloadBufferLastHeight+1)
      (trackWork cfg header st) = .ok st1 ∧
      (st1.processAllRemainingHeaders = false →
        totalWork cfg.startWork (released++held++[header]) < cfg.minimumRequiredWork.toNat ∧
        ∃ tail, presynced = released++held++header::tail ∧ st1.headerCommitments =
          commitments cfg (cfg.startHeight+(released++held).length+1) tail) ∧
      (st1.processAllRemainingHeaders = true → cfg.Reaches (released++held++[header])) := by
  have hb := hst.toBuffering
  have hw : (trackWork cfg header st).redownloadChainWork =
      chainWork cfg.chainStart.nChainWork (released++held++[header]) := by
    rw [trackWork,hb.work,chainWork_append _ (released++held)]
    rfl
  have hle : cfg.minimumRequiredWork ≤ (trackWork cfg header st).redownloadChainWork ↔ _ :=
    hw ▸ h.le_chainWork ⟨rest,by simp [hsp]⟩
  by_cases hm : cfg.minimumRequiredWork ≤ (trackWork cfg header st).redownloadChainWork
  · have ha : (trackWork cfg header st).processAllRemainingHeaders = true := if_pos hm
    refine ⟨trackWork cfg header st,?_,fun hf => ?_,fun _ => hle.mp hm⟩
    · rw [checkCommitment,ha]
      rfl
    · rw [ha] at hf
      exact absurd hf (by simp)
  · have hl : totalWork cfg.startWork (released++held++[header]) <
        cfg.minimumRequiredWork.toNat := not_le.mp fun hm' => hm (hle.mpr hm')
    have hbe : st.processAllRemainingHeaders = false := by
      by_contra ht
      have he := hst.reached (by simpa using ht)
      have := totalWork_le_append cfg.startWork (released++held) [header]
      omega
    have ha : (trackWork cfg header st).processAllRemainingHeaders = false := (if_neg hm).trans hbe
    obtain ⟨tail,hta,ho⟩ := hst.queue hbe
    obtain ⟨tail,rfl⟩ := next_presynced (hsp ▸ hinitial) hreached hl hta
    have hq : (trackWork cfg header st).headerCommitments = st.headerCommitments := rfl
    have hh : st.redownloadBufferLastHeight+1 = cfg.startHeight+(released++held).length+1 := by
      rw [hb.lastHeight]
      rfl
    rw [commitments] at ho
    rw [checkCommitment,hh]
    split_ifs at ho with hc
    · refine ⟨{ trackWork cfg header st with
        headerCommitments := commitments cfg (cfg.startHeight+(released++held).length+1) tail },
        ?_,fun _ => ⟨hl,tail,hta,rfl⟩,fun ht => ?_⟩
      · simp [-length_append,hc,hq,ho,ha]
      · exact absurd (ha.symm.trans ht) (by simp)
    · refine ⟨trackWork cfg header st,?_,fun _ => ⟨hl,tail,hta,hq.trans ho⟩,fun ht => ?_⟩
      · simp [-length_append,hc]
      · exact absurd (ha.symm.trans ht) (by simp)

theorem HonestChain.redownload_header : ∃ st',
    validateAndStoreRedownloadedHeader cfg st header = .ok st' ∧
      Redownloaded cfg presynced released (held++[header]) st' := by
  have hb := hst.toBuffering
  have hl := h.linked
  rw [hsp,linked_append,← hb.bufferLastHash] at hl
  have hp := h.permitted
  rw [hsp,permitted_append,← hb.previousNBits,Config.startHeight,← hb.lastHeight] at hp
  obtain ⟨st1,hc,hq,ha⟩ := h.checkCommitment_ok hsp hinitial hreached hst
  have ho : validateAndStoreRedownloadedHeader cfg st header = .ok { st1 with
      redownloadedHeaders := st1.redownloadedHeaders++[.ofHeader header]
      redownloadBufferLastHeight := st.redownloadBufferLastHeight+1
      redownloadBufferLastHash := cfg.getHash header } := by
    rw [validateAndStoreRedownloadedHeader,if_neg (not_not.mpr hb.state),
      if_neg (not_not.mpr hl.2.1)]
    simp only [checkTransition,hp.2.1,ok_bind,hc,pure_eq_ok]
  have has : released++(held++[header]) = released++held++[header] := by
    rw [append_assoc]
  refine ⟨_,ho,hb.store ho,fun hf => ?_,fun ht => ?_,fun hf _ => ?_⟩
  · obtain ⟨-,tail,hta,hco⟩ := hq hf
    have he : cfg.startHeight+((released++held++[header]).length : ℤ) =
        cfg.startHeight+(released++held).length+1 := by
      rw [length_append,length_singleton]
      push_cast
      ring
    rw [has,he]
    exact ⟨tail,by rw [hta,append_assoc _ [header],singleton_append],hco⟩
  · rw [has]
    exact ha ht
  · rw [has]
    exact (hq hf).1

end

theorem HonestChain.redownload_headers (h : HonestChain cfg headers)
    (hsp : headers = released++held++(b++rest)) (hinitial : presynced <+: headers)
    (hreached : cfg.Reaches presynced)
    (hst : Redownloaded cfg presynced released held st) :
    ∃ st', b.foldlM (validateAndStoreRedownloadedHeader cfg) st = .ok st' ∧
      Redownloaded cfg presynced released (held++b) st' := by
  induction b generalizing held st with
  | nil => exact ⟨st,rfl,by rwa [append_nil]⟩
  | cons header b ih =>
    obtain ⟨st1,hf,hst1⟩ := h.redownload_header hsp hinitial hreached hst
    obtain ⟨st2,hr,hst2⟩ := ih (by simpa using hsp) hst1
    refine ⟨st2,?_,by simpa using hst2⟩
    rw [foldlM_cons,hf,ok_bind,hr]

/-- Calls made in a phase: the state after them, the headers they return, and whether all succeed.
-/
def serve (cfg : Config) (phase : State) :
    HeadersSyncState → List (List WireHeader × Bool) → HeadersSyncState × List WireHeader × Bool
  | st, [] => (st,[],true)
  | st, call::calls =>
    if st.downloadState = phase then
      let (result,st) := processNextHeaders cfg st call.1 call.2
      let (st,headers,success) := serve cfg phase st calls
      (st,result.powValidatedHeaders++headers,result.success && success)
    else (st,[],true)

/-- Calls that bring a chain in batches, with full messages until the work is reached. -/
structure Batches (cfg : Config) (hs headers : List WireHeader)
    (calls : List (List WireHeader × Bool)) : Prop where
  flatten : calls.flatMap Prod.fst = headers
  nonempty : ∀ call ∈ calls, call.1 ≠ []
  full : ∀ before call after, calls = before++call::after →
    totalWork cfg.startWork (hs++before.flatMap Prod.fst++call.1) < cfg.minimumRequiredWork.toNat →
    call.2 = true

/-- The headers of the batches up to the one that reaches the work. -/
def servedPrefix (cfg : Config) : List WireHeader → List (List WireHeader × Bool) → List WireHeader
  | hs, [] => hs
  | hs, call::calls =>
    if cfg.minimumRequiredWork.toNat ≤ totalWork cfg.startWork (hs++call.1) then hs++call.1
    else servedPrefix cfg (hs++call.1) calls

theorem Batches.cons (h : Batches cfg hs rest (call::calls)) : call.1 ≠ [] ∧
      (totalWork cfg.startWork (hs++call.1) < cfg.minimumRequiredWork.toNat → call.2 = true) ∧
      ∃ rest', rest = call.1++rest' ∧ Batches cfg (hs++call.1) rest' calls := by
  refine ⟨h.nonempty call mem_cons_self,fun hw => ?_,calls.flatMap Prod.fst,?_,rfl,?_,?_⟩
  · exact h.full [] call calls rfl (by simpa using hw)
  · rw [← h.flatten,flatMap_cons]
  · exact fun call' hm => h.nonempty call' (mem_cons_of_mem _ hm)
  · intro before call' after hc hw
    refine h.full (call::before) call' after (by rw [hc,cons_append]) ?_
    simpa using hw

theorem serve_cons (h : st.downloadState = phase) : serve cfg phase st (call::calls) =
      let result := processNextHeaders cfg st call.1 call.2
      let later := serve cfg phase result.2 calls
      (later.1,result.1.powValidatedHeaders++later.2.1,result.1.success && later.2.2) := by
  rw [serve,if_pos h]

theorem serve_of_ne (h : st.downloadState ≠ phase) (calls : List (List WireHeader × Bool)) :
    serve cfg phase st calls = (st,[],true) := by
  cases calls with
  | nil => rfl
  | cons call calls => rw [serve,if_neg h]

section
variable (h : HonestChain cfg headers)
include h

variable {full : Bool}

/-- One call of the first phase: it starts the second one if the work is reached. -/
theorem HonestChain.presync_call (hsp : headers = hs++(b++rest)) (hn : b ≠ [])
    (hf : totalWork cfg.startWork (hs++b) < cfg.minimumRequiredWork.toNat → full = true)
    (hst : Presynced cfg hs st) : ∃ st1, Presynced cfg (hs++b) st1 ∧
      processNextHeaders cfg st b full = (⟨[],true,true⟩,
        if cfg.Reaches (hs++b) then
          startRedownload cfg st1 else st1) := by
  obtain ⟨st1,ho,hst1⟩ := h.presync_headers hsp hst
  obtain ⟨header,headers',rfl⟩ := exists_cons_of_ne_nil hn
  have hl : header.hashPrevBlock = cfg.getHash st.lastHeaderReceived := by
    have hl := h.linked
    rw [hsp,linked_append,← hst.lastHash_eq] at hl
    exact hl.2.1
  have he := h.le_chainWork (show hs++header::headers' <+: headers from ⟨rest,by simp [hsp]⟩)
  rw [← hst1.toPresyncing.work] at he
  have hv : validateAndStoreHeadersCommitments cfg st (header::headers') =
      .ok (if cfg.minimumRequiredWork ≤ st1.currentChainWork then startRedownload cfg st1
        else st1) := by
    rw [validateAndStoreHeadersCommitments,if_neg (not_not.mpr hst.toPresyncing.state),
      if_neg (not_not.mpr hl),ho]
    rfl
  refine ⟨st1,hst1,?_⟩
  simp only [processNextHeaders,isEmpty_cons,Bool.false_eq_true,if_false,
    hst.toPresyncing.state,processPresync,hv,conclude,he]
  split_ifs with hmi hm hm
  · simp [startRedownload]
  · simp [startRedownload] at hm
  · simp [hf (not_le.mp hmi)]
  · simp [hf (not_le.mp hmi)] at hm

/-- The first phase ends with the commitments to a prefix of the chain that reaches the work. -/
theorem HonestChain.serve_presync (hsp : headers = hs++rest)
    (ha : Batches cfg hs rest calls) (hst : Presynced cfg hs st)
    (hw : calls = [] → totalWork cfg.startWork hs < cfg.minimumRequiredWork.toNat) :
    ∃ presynced st', serve cfg .presync st calls = (st',[],true) ∧ presynced <+: headers ∧
      cfg.Reaches presynced ∧
      Redownloaded cfg presynced [] [] st' := by
  induction calls generalizing hs rest st with
  | nil =>
    have he : rest = [] := ha.flatten.symm
    have hr := h.reaches
    rw [hsp,he,append_nil] at hr
    exact absurd hr (not_le.mpr (hw rfl))
  | cons call calls ih =>
    obtain ⟨hne,hf,rest',rfl,hl⟩ := ha.cons
    obtain ⟨st1,hst1,hc⟩ := h.presync_call hsp hne hf hst
    rw [serve_cons hst.toPresyncing.state]
    simp only [hc]
    by_cases hm : cfg.Reaches (hs++call.1)
    · have hsta : (startRedownload cfg st1).downloadState ≠ .presync := by simp [startRedownload]
      rw [if_pos hm,serve_of_ne hsta]
      refine ⟨hs++call.1,_,rfl,⟨rest',by simp [hsp]⟩,hm,?_⟩
      refine ⟨buffering_start hst1.toPresyncing.all,fun _ => ⟨hs++call.1,rfl,?_⟩,?_,?_⟩
      · simpa [startRedownload] using hst1.commitments_eq
      · intro ht
        exact absurd (hst1.toPresyncing.all.symm.trans ht) (by simp)
      · exact fun _ hn => absurd rfl hn
    · rw [if_neg hm]
      obtain ⟨presynced,st',hse,he⟩ := ih (by simp [hsp]) hl hst1 fun _ => not_le.mp hm
      exact ⟨presynced,st',by rw [hse]; rfl,he⟩

/-- One call of the second phase releases everything and ends if the work is reached, and otherwise
releases what the buffer does not hold. -/
theorem HonestChain.redownload_call (hu : 0 < cfg.redownloadBufferSize)
    (hsp : headers = released++held++(b++rest)) (hinitial : presynced <+: headers)
    (hreached : cfg.Reaches presynced)
    (hn : b ≠ [])
    (hf : totalWork cfg.startWork (released++held++b) < cfg.minimumRequiredWork.toNat → full = true)
    (hst : Redownloaded cfg presynced released held st) :
    (processNextHeaders cfg st b full).1.success = true ∧
      if cfg.Reaches (released++held++b) then
        (processNextHeaders cfg st b full).2.downloadState = .final ∧
          (processNextHeaders cfg st b full).1.powValidatedHeaders = held++b
      else
        ∃ released' held', Redownloaded cfg presynced released' held'
          (processNextHeaders cfg st b full).2 ∧
          released' = released++(processNextHeaders cfg st b full).1.powValidatedHeaders ∧
          released'++held' = released++held++b := by
  obtain ⟨st1,hl,hst1⟩ := h.redownload_headers hsp hinitial hreached hst
  have hc : processNextHeaders cfg st b full = processRedownload cfg st b full := by
    have he : b.isEmpty = false := by simpa using hn
    simp [processNextHeaders,he,hst.toBuffering.state]
  have hh : held++b ≠ [] := by simp [hn]
  have hsta := redownload_state full hl hst1.toBuffering hu hh
  have hr := redownload_of_ok full hl hst1.toBuffering
  have hp : (processRedownload cfg st b full).1.powValidatedHeaders =
      (held++b).take (popCount cfg st1.processAllRemainingHeaders (held++b).length) := by
    rw [hr]
    rfl
  rw [hc,hp]
  refine ⟨by rw [hr]; rfl,?_⟩
  cases ha : st1.processAllRemainingHeaders with
  | true =>
    rw [ha] at hsta
    rw [if_pos (by simpa using hst1.reached ha)]
    exact ⟨hsta,take_length⟩
  | false =>
    have hlt := hst1.waiting ha (by simp [hn])
    rw [← append_assoc] at hlt
    rw [if_neg (not_le.mpr hlt)]
    rw [ha,hf hlt] at hsta
    obtain ⟨ha',ho,hb⟩ := hsta
    rw [hf hlt]
    have hj : ∀ k, released++(held++b).take k++(held++b).drop k = released++(held++b) := by
      intro k
      rw [append_assoc,take_append_drop]
    refine ⟨_,_,⟨hb,fun _ => ?_,fun ht => ?_,fun _ _ => ?_⟩,rfl,by simp⟩
    · rw [ho,hj]
      exact hst1.queue ha
    · exact absurd (ha'.symm.trans ht) (by simp)
    · rw [hj]
      exact hst1.waiting ha (by simp [hn])

/-- The second phase of an honest sync releases the served headers and ends. -/
theorem HonestChain.serve_redownload (hb : 0 < cfg.redownloadBufferSize)
    (hsp : headers = released++held++rest)
    (hc : Batches cfg (released++held) rest calls) (hinitial : presynced <+: headers)
    (hreached : cfg.Reaches presynced)
    (hst : Redownloaded cfg presynced released held st)
    (hw : calls = [] → totalWork cfg.startWork (released++held) < cfg.minimumRequiredWork.toNat) :
    ∃ st' ret, serve cfg .redownload st calls = (st',ret,true) ∧ st'.downloadState = .final ∧
      released++ret = servedPrefix cfg (released++held) calls := by
  induction calls generalizing released held rest st with
  | nil =>
    have he : rest = [] := hc.flatten.symm
    have hr := h.reaches
    rw [hsp,he,append_nil] at hr
    exact absurd hr (not_le.mpr (hw rfl))
  | cons call calls ih =>
    obtain ⟨hn,hfu,rest',rfl,hl⟩ := hc.cons
    obtain ⟨hu,ha⟩ := h.redownload_call hb hsp hinitial hreached hn hfu hst
    rw [serve_cons hst.toBuffering.state,servedPrefix]
    dsimp only
    split_ifs at ha ⊢ with hm
    · obtain ⟨hf,hp⟩ := ha
      rw [serve_of_ne (by simp [hf])]
      refine ⟨_,held++call.1,?_,hf,by rw [append_assoc]⟩
      rw [hu,hp,append_nil]
      rfl
    · obtain ⟨released',held',hst',hrel,hj⟩ := ha
      rw [← hj] at hl hm ⊢
      obtain ⟨st',ret,hse,hf,hre⟩ := ih (by rw [hj,hsp,append_assoc _ call.1]) hl hst' fun _ =>
        not_le.mp hm
      refine ⟨st',(processNextHeaders cfg st call.1 call.2).1.powValidatedHeaders++ret,?_,hf,?_⟩
      · rw [hse,hu]
        rfl
      · rw [← hre,hrel,append_assoc]

end

/-- A chain of enough work that is served in both phases, however it is split, is accepted; the sync
hands out the headers up to the end of the batch that reached the work. -/
theorem honest_sync (hbuffer : 0 < cfg.redownloadBufferSize) (h : HonestChain cfg headers)
    (hne : headers ≠ []) {first second : List (List WireHeader × Bool)}
    (hfirst : Batches cfg [] headers first) (hsecond : Batches cfg [] headers second) :
    ∃ st₁ st₂, serve cfg .presync cfg.start first = (st₁, [], true) ∧
      st₁.downloadState = .redownload ∧
      serve cfg .redownload st₁ second = (st₂, servedPrefix cfg [] second, true) ∧
      st₂.downloadState = .final := by
  have hc : ∀ {calls}, Batches cfg [] headers calls → calls ≠ [] := by
    rintro calls hc rfl
    exact hne hc.flatten.symm
  obtain ⟨presynced,st₁,he,hinitial,hreached,hst₁⟩ :=
    h.serve_presync rfl hfirst (presynced_start cfg) fun hn => absurd hn (hc hfirst)
  obtain ⟨st₂,ret,he',hf,hr⟩ :=
    h.serve_redownload hbuffer rfl hsecond hinitial hreached hst₁ fun hn => absurd hn (hc hsecond)
  obtain rfl : ret = servedPrefix cfg [] second := hr
  exact ⟨st₁,st₂,he,hst₁.toBuffering.state,he',hf⟩

/-- Full messages are as they have to be, whatever they bring. -/
theorem batches_of_full (hf : calls.flatMap Prod.fst = headers)
    (h : ∀ call ∈ calls, call.1 ≠ [] ∧ call.2 = true) : Batches cfg [] headers calls where
  flatten := hf
  nonempty call hm := (h call hm).1
  full before call after hc _ := (h call (by simp [hc])).2

/-- The headers of `shortHeaders`, in one batch and then in two. -/
theorem honest_sync_short :
    servedPrefix shortSync [] [(shortHeaders.take 2, true), (shortHeaders.drop 2, true)] =
      shortHeaders ∧
      ∃ st₁ st₂, serve shortSync .presync shortSync.start [(shortHeaders, true)] = (st₁, [], true) ∧
        st₁.downloadState = .redownload ∧
        serve shortSync .redownload st₁ [(shortHeaders.take 2, true), (shortHeaders.drop 2, true)] =
          (st₂, servedPrefix shortSync [] [(shortHeaders.take 2, true),
            (shortHeaders.drop 2, true)],
            true) ∧
        st₂.downloadState = .final := by
  refine ⟨by decide +kernel,honest_sync (show 0 < shortSync.redownloadBufferSize by decide) ?_
    (show shortHeaders ≠ [] by decide) (batches_of_full rfl (by decide))
    (batches_of_full rfl (by decide))⟩
  exact ⟨⟨⟨rfl,rfl,rfl,trivial⟩,⟨by decide +kernel,by decide +kernel,by decide +kernel,trivial⟩,
    by decide +kernel,by decide +kernel⟩,by decide +kernel,by decide +kernel⟩

/-- A sync with an empty buffer and a retarget at every height. -/
def unbufferedSync : Config where
  getHash header := header.nNonce.setWidth 256
  hasher hash := hash.getLsbD 0
  consensusParams := { cDripParams with
    nPowTargetTimespan := cDripParams.nPowTargetSpacing
    nDifficultyForkHeight := 0 }
  commitmentPeriod := 2
  redownloadBufferSize := 0
  commitOffset := 1
  chainStart := ⟨.genesis ⟨1,0,0x1d00ffff#32⟩,⟨⟨1,0,0x1d00ffff#32⟩,0,0,1⟩,0,rfl⟩
  minimumRequiredWork := 50000000000
  maxCommitments := 9

/-- Two headers that each ask for four times the work of the one before. -/
def harderHeaders : List WireHeader := [⟨⟨1,0,0x1c3fffc0#32⟩,1,5,2⟩,⟨⟨1,0,0x1c0ffff0#32⟩,2,6,3⟩]

/-- Two headers whose work together is `2 ^ 256`. -/
def heaviestHeaders : List WireHeader := [⟨⟨1,0,0x01010000#32⟩,1,5,2⟩,⟨⟨1,0,0x01010000#32⟩,2,6,3⟩]

/-- With no buffer the second batch of an honest peer is turned away; with work that wraps around,
the first phase does not end. -/
theorem honest_sync_limits : (ServedChain unbufferedSync harderHeaders ∧
      Batches unbufferedSync [] harderHeaders [(harderHeaders, true)] ∧
      Batches unbufferedSync [] harderHeaders
        [(harderHeaders.take 1, true), (harderHeaders.drop 1, true)] ∧
      (serve unbufferedSync .redownload
          (serve unbufferedSync .presync unbufferedSync.start [(harderHeaders, true)]).1
          [(harderHeaders.take 1, true), (harderHeaders.drop 1, true)]).2.2 = false) ∧
    ServedChain shortSync heaviestHeaders ∧
      Batches shortSync [] heaviestHeaders [(heaviestHeaders, true)] ∧
      (serve shortSync .presync shortSync.start [(heaviestHeaders, true)]).1.downloadState =
        .presync := by
  refine ⟨⟨⟨⟨rfl,rfl,trivial⟩,⟨?_,?_,trivial⟩,?_,?_⟩,batches_of_full rfl (by decide),
    batches_of_full rfl (by decide),?_⟩,⟨⟨rfl,rfl,trivial⟩,⟨?_,?_,trivial⟩,?_,?_⟩,
    batches_of_full rfl (by decide),?_⟩
  all_goals decide +kernel

end DripCore.HeadersSync
