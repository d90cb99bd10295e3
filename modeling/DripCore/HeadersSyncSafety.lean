import DripCore.HeadersSync
import DripCore.ExceptRules

/-!
# What a headers sync releases

Whatever a peer sends, the headers that are handed out are those it sent in the second phase, linked
to the start and with permitted difficulty steps, and only after the first phase has seen enough
work, with a full buffer behind them or enough work in the second phase as well.
-/
namespace DripCore.HeadersSync
open CompactTarget Except ExceptRules List

def chainWork (work : ArithUint256) (headers : List WireHeader) : ArithUint256 :=
  headers.foldl (fun work header => work+getBlockProof header.nBits) work

/-- The hash of the last header, or of what is before the headers. -/
def lastHash (getHash : WireHeader → BitVec 256) (prev : BitVec 256) (headers : List WireHeader) :
    BitVec 256 :=
  headers.foldl (fun _ header => getHash header) prev

def Linked (getHash : WireHeader → BitVec 256) : BitVec 256 → List WireHeader → Prop
  | _, [] => True
  | prev, header::headers => header.hashPrevBlock = prev ∧ Linked getHash (getHash header) headers

def PermittedSteps (params : Params) : ℤ → BitVec 32 → List WireHeader → Prop
  | _, _, [] => True
  | height, nBits, header::headers =>
    permittedDifficultyTransition params (height+1) nBits header.nBits = some true ∧
      PermittedSteps params (height+1) header.nBits headers

/-- The difficulty of the last header, or of what is before the headers. -/
def lastBits (nBits : BitVec 32) (headers : List WireHeader) : BitVec 32 :=
  headers.foldl (fun _ header => header.nBits) nBits

@[simp] theorem chainWork_append (work : ArithUint256) (hs hs' : List WireHeader) :
    chainWork work (hs++hs') = chainWork (chainWork work hs) hs' := foldl_append

@[simp] theorem lastHash_append (getHash : WireHeader → BitVec 256) (prev : BitVec 256)
    (hs hs' : List WireHeader) :
    lastHash getHash prev (hs++hs') = lastHash getHash (lastHash getHash prev hs) hs' :=
  foldl_append

variable {hs hs' : List WireHeader}

theorem linked_append {getHash : WireHeader → BitVec 256} {prev : BitVec 256} :
    Linked getHash prev (hs++hs') ↔
      Linked getHash prev hs ∧ Linked getHash (lastHash getHash prev hs) hs' := by
  induction hs generalizing prev with
  | nil => simp [Linked,lastHash]
  | cons header hs ih =>
    rw [cons_append,Linked,ih,Linked,and_assoc]
    rfl

theorem permitted_append {p : Params} {height : ℤ} {nBits : BitVec 32} :
    PermittedSteps p height nBits (hs++hs') ↔ PermittedSteps p height nBits hs ∧
        PermittedSteps p (height+hs.length) (lastBits nBits hs) hs' := by
  induction hs generalizing height nBits with
  | nil => simp [PermittedSteps,lastBits]
  | cons header hs ih =>
    rw [cons_append,PermittedSteps,ih,PermittedSteps,and_assoc]
    rw [show height+1+(hs.length : ℤ) = height+((hs.length : ℤ)+1) by ring]
    rfl

theorem lastBits_eq_getLast (nBits : BitVec 32) (headers : List WireHeader) :
    lastBits nBits headers = (headers.getLast?.map fun header => header.nBits).getD nBits := by
  induction headers using reverseRecOn with
  | nil => rfl
  | append_singleton headers header ih => simp [lastBits]

/-- What a peer has sent in the two phases and what it has got through. -/
structure Transcript where
  state : HeadersSyncState
  presynced : List WireHeader
  redownloaded : List WireHeader
  released : List WireHeader

def Transcript.start (cfg : Config) : Transcript := ⟨cfg.start,[],[],[]⟩

def Transcript.next (cfg : Config) (t : Transcript) (call : List WireHeader × Bool) :
    Transcript where
  state := (processNextHeaders cfg t.state call.1 call.2).2
  presynced := if t.state.downloadState = .presync then t.presynced++call.1 else t.presynced
  redownloaded :=
    if t.state.downloadState = .redownload then t.redownloaded++call.1 else t.redownloaded
  released := t.released++(processNextHeaders cfg t.state call.1 call.2).1.powValidatedHeaders

def transcript (cfg : Config) (calls : List (List WireHeader × Bool)) : Transcript :=
  calls.foldl (Transcript.next cfg) (.start cfg)

variable {cfg : Config} {st st' : HeadersSyncState} {header : WireHeader}
    {headers : List WireHeader}

section
variable {released held : List WireHeader}

def Reached (cfg : Config) (headers : List WireHeader) : Prop := ∃ n ≤ headers.length,
    cfg.minimumRequiredWork ≤ chainWork cfg.chainStart.nChainWork (headers.take n)

/-- The members of the second phase, when `released` and then `held` have been accepted. -/
structure Buffering (cfg : Config) (released held : List WireHeader) (st : HeadersSyncState) :
    Prop where
  linked : Linked cfg.getHash cfg.chainStartHash (released++held)
  permitted : PermittedSteps cfg.consensusParams cfg.chainStart.index.nHeight
    cfg.chainStart.header.nBits (released++held)
  buffer : st.redownloadedHeaders = held.map .ofHeader
  held_ne : released ≠ [] → held ≠ []
  firstPrevHash : st.redownloadBufferFirstPrevHash =
    lastHash cfg.getHash cfg.chainStartHash released
  bufferLastHash : st.redownloadBufferLastHash =
    lastHash cfg.getHash cfg.chainStartHash (released++held)
  lastHeight : st.redownloadBufferLastHeight =
    cfg.chainStart.index.nHeight+((released++held).length : ℤ)
  work : st.redownloadChainWork = chainWork cfg.chainStart.nChainWork (released++held)
  reached : st.processAllRemainingHeaders = true → Reached cfg (released++held)
  state : st.downloadState = .redownload

variable {height : ℤ} {prev : BitVec 256}

theorem transition_eq_ok {on nn : BitVec 32} (h : checkTransition cfg height on nn st = .ok st') :
    st' = st ∧ permittedDifficultyTransition cfg.consensusParams height on nn = some true := by
  unfold checkTransition at h
  split at h
  · rename_i hp
    exact ⟨(ok.inj h).symm,hp⟩
  · simp at h
  · simp at h

theorem checkCommitment_eq_ok (h : checkCommitment cfg header height st = .ok st') :
    ∃ commitments, st' = { st with headerCommitments := commitments } := by
  unfold checkCommitment at h
  split_ifs at h
  · split at h
    · simp at h
    · dsimp only at h
      split_ifs at h
      exact ⟨_,(ok.inj h).symm⟩
  · exact ⟨st.headerCommitments,(ok.inj h).symm⟩

theorem Reached.append {headers' : List WireHeader} (h : Reached cfg headers) :
    Reached cfg (headers++headers') := by
  obtain ⟨n,hn,hw⟩ := h
  refine ⟨n,hn.trans (by simp),?_⟩
  rwa [take_append_of_le_length hn]

theorem reached_of_work (h : cfg.minimumRequiredWork ≤
    chainWork cfg.chainStart.nChainWork headers) :
    Reached cfg headers :=
  ⟨headers.length,le_refl _,by rwa [take_length]⟩

section
variable (h : Buffering cfg released held st)
include h

theorem Buffering.previousNBits :
    previousNBits cfg st = lastBits cfg.chainStart.header.nBits (released++held) := by
  rw [HeadersSync.previousNBits,h.buffer,getLast?_map,lastBits_eq_getLast]
  cases hl : held.getLast? with
  | none =>
    rw [getLast?_eq_none_iff] at hl
    have hr : released = [] := by
      by_contra hne
      exact h.held_ne hne hl
    rw [hl,hr]
    rfl
  | some header =>
    rw [getLast?_append,hl]
    rfl

theorem Buffering.store (hsto : validateAndStoreRedownloadedHeader cfg st header = .ok st') :
    Buffering cfg released (held++[header]) st' := by
  unfold validateAndStoreRedownloadedHeader at hsto
  rw [if_neg (not_not.mpr h.state)] at hsto
  split_ifs at hsto with hp
  rw [not_not] at hp
  obtain ⟨st₁,ht,he⟩ := bind_eq_ok.mp hsto
  obtain ⟨rfl,hpe⟩ := transition_eq_ok ht
  obtain ⟨st2,hc,hr⟩ := bind_eq_ok.mp he
  obtain ⟨commitments,rfl⟩ := checkCommitment_eq_ok hc
  obtain rfl := ok.inj hr
  have hw : (trackWork cfg header st₁).redownloadChainWork =
      chainWork cfg.chainStart.nChainWork (released++(held++[header])) := by
    rw [trackWork,h.work,← append_assoc,chainWork_append _ (released++held)]
    rfl
  constructor
  · rw [← append_assoc,linked_append]
    exact ⟨h.linked,by rw [hp,h.bufferLastHash],trivial⟩
  · rw [← append_assoc,permitted_append]
    refine ⟨h.permitted,?_,trivial⟩
    rw [← h.lastHeight,← h.previousNBits]
    exact hpe
  · simp [trackWork,h.buffer]
  · simp
  · exact h.firstPrevHash
  · rw [← append_assoc,lastHash_append]
    rfl
  · simp only [h.lastHeight,length_append,length_singleton]
    push_cast
    ring
  · exact hw
  · intro ha
    dsimp only [trackWork] at ha
    split_ifs at ha with hl
    · exact reached_of_work (hw ▸ hl)
    · rw [← append_assoc]
      exact (h.reached ha).append
  · exact h.state

theorem Buffering.storeAll (hsto : headers.foldlM (validateAndStoreRedownloadedHeader cfg) st =
    .ok st') :
    Buffering cfg released (held++headers) st' := by
  induction headers generalizing held st with
  | nil =>
    rw [append_nil]
    exact ok.inj hsto ▸ h
  | cons header headers ih =>
    obtain ⟨st₁,hf,hr⟩ := bind_eq_ok.mp hsto
    have hn := ih (h.store hf) hr
    rwa [append_assoc] at hn

end

theorem getFullHeader_ofHeader (h : header.hashPrevBlock = prev) :
    (CompressedHeader.ofHeader header).getFullHeader prev = header := by
  rw [← h]
  rfl

/-- How many headers leave the buffer: all of them, or all but as many as it holds. -/
def popCount (cfg : Config) (all : Bool) (n : ℕ) :
    ℕ := if all then n else n-cfg.redownloadBufferSize

theorem popLoop_spec (all : Bool) (h : Linked cfg.getHash prev held) :
    popLoop cfg all (held.map .ofHeader) prev = (held.take (popCount cfg all held.length),
        (held.drop (popCount cfg all held.length)).map .ofHeader,
        lastHash cfg.getHash prev (held.take (popCount cfg all held.length))) := by
  induction held generalizing prev with
  | nil => simp [popLoop,lastHash]
  | cons header held ih =>
    rw [map_cons,popLoop]
    by_cases hp : (decide (cfg.redownloadBufferSize <
        (CompressedHeader.ofHeader header::held.map .ofHeader).length) || all) = true
    · have hc : popCount cfg all (header::held).length = popCount cfg all held.length+1 := by
        cases all with
        | true => rfl
        | false =>
          simp only [length_cons,length_map,Bool.or_false,decide_eq_true_eq] at hp
          simp only [popCount,Bool.false_eq_true,if_false,length_cons]
          omega
      rw [if_pos hp,getFullHeader_ofHeader h.1,hc]
      dsimp only
      rw [ih h.2]
      rfl
    · rw [if_neg hp]
      simp only [length_cons,length_map,Bool.or_eq_true,decide_eq_true_eq,not_or,
        Bool.not_eq_true] at hp
      obtain ⟨hsi,rfl⟩ := hp
      have hc : popCount cfg false (header::held).length = 0 := by
        simp only [popCount,Bool.false_eq_true,if_false,length_cons]
        omega
      rw [hc]
      rfl

theorem Buffering.pop (h : Buffering cfg released held st) : popHeadersReadyForAcceptance cfg st =
      let k := popCount cfg st.processAllRemainingHeaders held.length
      (held.take k,{ st with
        redownloadedHeaders := (held.drop k).map .ofHeader
        redownloadBufferFirstPrevHash :=
          lastHash cfg.getHash cfg.chainStartHash (released++held.take k) }) := by
  have hl := (linked_append.mp h.linked).2
  rw [popHeadersReadyForAcceptance,if_neg (not_not.mpr h.state),h.buffer,h.firstPrevHash,
    popLoop_spec _ hl]
  simp only [lastHash_append]

theorem Buffering.release (h : Buffering cfg released held st) {k : ℕ} (hk : k < held.length) :
    Buffering cfg (released++held.take k) (held.drop k) { st with
      redownloadedHeaders := (held.drop k).map .ofHeader
      redownloadBufferFirstPrevHash :=
        lastHash cfg.getHash cfg.chainStartHash (released++held.take k) } := by
  have hp : (released++held.take k)++held.drop k = released++held := by
    rw [append_assoc,take_append_drop]
  constructor
  · exact hp ▸ h.linked
  · exact hp ▸ h.permitted
  · rfl
  · intro _ hn
    rw [drop_eq_nil_iff] at hn
    omega
  · rfl
  · exact hp ▸ h.bufferLastHash
  · exact hp ▸ h.lastHeight
  · exact hp ▸ h.work
  · exact hp ▸ h.reached
  · exact h.state

section
variable {st₁ : HeadersSyncState} (full : Bool)
  (hsto : headers.foldlM (validateAndStoreRedownloadedHeader cfg) st = .ok st₁)
  (h : Buffering cfg released held st₁)
include full hsto h

/-- The result of a call of the second phase whose headers are all accepted. -/
theorem redownload_of_ok : processRedownload cfg st headers full =
      let k := popCount cfg st₁.processAllRemainingHeaders held.length
      conclude ⟨held.take k,true,
        !(((held.drop k).map CompressedHeader.ofHeader).isEmpty &&
          st₁.processAllRemainingHeaders) && full⟩
        { st₁ with
          redownloadedHeaders := (held.drop k).map .ofHeader
          redownloadBufferFirstPrevHash :=
            lastHash cfg.getHash cfg.chainStartHash (released++held.take k) } := by
  simp only [processRedownload,hsto,h.pop]

/-- It ends the sync when the work suffices, and otherwise goes on if the message was full. -/
theorem redownload_state (hbuffer : 0 < cfg.redownloadBufferSize) (hn : held ≠ []) :
    let k := popCount cfg st₁.processAllRemainingHeaders held.length
    if st₁.processAllRemainingHeaders = true ∨ full = false then
      (processRedownload cfg st headers full).2.downloadState = .final
    else
      (processRedownload cfg st headers full).2.processAllRemainingHeaders = false ∧
        (processRedownload cfg st headers full).2.headerCommitments = st₁.headerCommitments ∧
        Buffering cfg (released++held.take k) (held.drop k)
          (processRedownload cfg st headers full).2 := by
  rw [redownload_of_ok full hsto h]
  cases ha : st₁.processAllRemainingHeaders with
  | true => simp [conclude,popCount,finalize]
  | false =>
    cases full with
    | false => simp [conclude,finalize]
    | true =>
      have hl : popCount cfg false held.length < held.length := by
        have hp : 0 < held.length := length_pos_iff.mpr hn
        rw [popCount,if_neg Bool.false_ne_true]
        omega
      have hr := h.release hl
      rw [ha] at hr
      simpa [conclude] using hr

end

/-- What one call of the second phase can do: fail, or release headers from the buffer. -/
theorem redownload_spec (full : Bool) (h : Buffering cfg released held st)
    (hbuffer : 0 < cfg.redownloadBufferSize) (hn : headers ≠ []) :
    ((processRedownload cfg st headers full).1.powValidatedHeaders = [] ∧
        (processRedownload cfg st headers full).2.downloadState = .final) ∨
      ∃ st₁ k, Buffering cfg released (held++headers) st₁ ∧
        k = popCount cfg st₁.processAllRemainingHeaders (held++headers).length ∧
        (processRedownload cfg st headers full).1.powValidatedHeaders = (held++headers).take k ∧
        ((processRedownload cfg st headers full).2.downloadState = .final ∨
          Buffering cfg (released++(held++headers).take k) ((held++headers).drop k)
              (processRedownload cfg st headers full).2 ∧
            (processRedownload cfg st headers full).2.processAllRemainingHeaders = false) := by
  cases hsto : headers.foldlM (validateAndStoreRedownloadedHeader cfg) st with
  | error e =>
    left
    simp [processRedownload,hsto,conclude,finalize]
  | ok st₁ =>
    have h1 := h.storeAll hsto
    have ht := redownload_state full hsto h1 hbuffer (by simp [hn])
    right
    refine ⟨st₁,_,h1,rfl,?_,?_⟩
    · rw [redownload_of_ok full hsto h1]
      rfl
    · dsimp only at ht
      split_ifs at ht
      · exact .inl ht
      · exact .inr ⟨ht.2.2,ht.1⟩

end

section
variable {presynced : List WireHeader}

theorem storeCommitment_eq_ok {height : ℤ} (h : storeCommitment cfg header height st = .ok st') :
    ∃ commitments, st' = { st with headerCommitments := commitments } := by
  unfold storeCommitment at h
  dsimp only at h
  split_ifs at h
  · exact ⟨_,(ok.inj h).symm⟩
  · exact ⟨st.headerCommitments,(ok.inj h).symm⟩

/-- The members that matter for the second phase, after headers of the first phase. -/
structure Presyncing (cfg : Config) (presynced : List WireHeader) (st : HeadersSyncState) :
    Prop where
  work : st.currentChainWork = chainWork cfg.chainStart.nChainWork presynced
  all : st.processAllRemainingHeaders = false
  state : st.downloadState = .presync

theorem Presyncing.process (h : Presyncing cfg presynced st)
    (hp : validateAndProcessSingleHeader cfg st header = .ok st') :
    Presyncing cfg (presynced++[header]) st' := by
  unfold validateAndProcessSingleHeader at hp
  rw [if_neg (not_not.mpr h.state)] at hp
  obtain ⟨st₁,ht,he⟩ := bind_eq_ok.mp hp
  obtain ⟨rfl,-⟩ := transition_eq_ok ht
  obtain ⟨st2,hc,hr⟩ := bind_eq_ok.mp he
  obtain ⟨commitments,rfl⟩ := storeCommitment_eq_ok hc
  obtain rfl := ok.inj hr
  exact ⟨by rw [chainWork_append,← h.work]; rfl,h.all,h.state⟩

theorem Presyncing.processAll (h : Presyncing cfg presynced st)
    (hp : headers.foldlM (validateAndProcessSingleHeader cfg) st = .ok st') :
    Presyncing cfg (presynced++headers) st' := by
  induction headers generalizing presynced st with
  | nil =>
    rw [append_nil]
    exact ok.inj hp ▸ h
  | cons header headers ih =>
    obtain ⟨st₁,hf,hr⟩ := bind_eq_ok.mp hp
    have hn := ih (h.process hf) hr
    rwa [append_assoc] at hn

theorem buffering_start (ha : st.processAllRemainingHeaders = false) :
    Buffering cfg [] [] (startRedownload cfg st) where
  linked := trivial
  permitted := trivial
  buffer := rfl
  held_ne h := absurd rfl h
  firstPrevHash := rfl
  bufferLastHash := rfl
  lastHeight := by simp [startRedownload]
  work := rfl
  reached h := by simp [startRedownload,ha] at h
  state := rfl

/-- One call of the first phase fails, goes on, or starts the second phase with enough work. -/
theorem processPresync_spec (full : Bool) (h : Presyncing cfg presynced st) (hn : headers ≠ []) :
    (processPresync cfg st headers full).1.powValidatedHeaders = [] ∧
      ((processPresync cfg st headers full).2.downloadState = .final ∨
        Presyncing cfg (presynced++headers) (processPresync cfg st headers full).2 ∨
        Buffering cfg [] [] (processPresync cfg st headers full).2 ∧
          (processPresync cfg st headers full).2.processAllRemainingHeaders = false ∧
          cfg.minimumRequiredWork ≤ chainWork cfg.chainStart.nChainWork (presynced++headers)) := by
  obtain ⟨header,rest,rfl⟩ := exists_cons_of_ne_nil hn
  cases hv : validateAndStoreHeadersCommitments cfg st (header::rest) with
  | error e => simp [processPresync,hv,conclude,finalize]
  | ok st' =>
    simp only [processPresync,hv,conclude,true_and]
    dsimp only [validateAndStoreHeadersCommitments] at hv
    split_ifs at hv with hp
    obtain ⟨st₁,hl,hr⟩ := bind_eq_ok.mp hv
    have h1 := h.processAll hl
    obtain rfl := ok.inj hr
    split_ifs with hw hm
    · exact .inr (.inr ⟨buffering_start h1.all,h1.all,h1.work ▸ hw⟩)
    · exact .inl rfl
    · exact .inr (.inl h1)
    · exact .inl rfl

end

/-- What holds of the headers that have been handed out. -/
structure Released (cfg : Config) (t : Transcript) : Prop where
  isPrefix : t.released <+: t.redownloaded
  linked : Linked cfg.getHash cfg.chainStartHash t.released
  permitted : PermittedSteps cfg.consensusParams cfg.chainStart.index.nHeight
    cfg.chainStart.header.nBits t.released

/-- The members agree with the transcript. -/
inductive Transcript.Inv (cfg : Config) (t : Transcript) : Prop
  | presync (h : Presyncing cfg t.presynced t.state) (hredownloaded : t.redownloaded = [])
      (hreleased : t.released = []) : t.Inv cfg
  | redownload (held : List WireHeader) (h : Buffering cfg t.released held t.state)
      (hredownloaded : t.redownloaded = t.released++held)
      (hall : t.state.processAllRemainingHeaders = false)
      (hwork : cfg.minimumRequiredWork ≤ chainWork cfg.chainStart.nChainWork t.presynced) :
        t.Inv cfg
  | final (hstate : t.state.downloadState = .final) (h : Released cfg t) : t.Inv cfg

variable {t : Transcript}

theorem Buffering.toReleased {released held : List WireHeader} (h : Buffering cfg released held st)
    (headers : List WireHeader) (hl : t.released <+: released++held)
    (hr : t.redownloaded = released++held++headers) : Released cfg t := by
  obtain ⟨rest,he⟩ := hl
  refine ⟨?_,?_,?_⟩
  · rw [hr,← he,append_assoc]
    exact prefix_append _ _
  · exact (linked_append.mp (he ▸ h.linked)).1
  · exact (permitted_append.mp (he ▸ h.permitted)).1

theorem Transcript.Inv.released (h : t.Inv cfg) : Released cfg t := by
  cases h with
  | presync _ _ he =>
    refine ⟨?_,?_,?_⟩ <;> rw [he]
    · exact nil_prefix
    · trivial
    · trivial
  | redownload held h hr _ _ =>
    exact h.toReleased [] (prefix_append _ _) (by rw [hr,append_nil])
  | final _ h => exact h

/-- When a call hands out headers, the first phase has seen enough work, and each has a full buffer
behind it or the second phase has seen enough work. -/
def ReleaseJustified (cfg : Config) (t t' : Transcript) : Prop :=
  ∀ j, t.released.length ≤ j → j < t'.released.length →
    cfg.minimumRequiredWork ≤ chainWork cfg.chainStart.nChainWork t.presynced ∧
      (cfg.redownloadBufferSize ≤ t'.redownloaded.length-(j+1) ∨ Reached cfg t'.redownloaded)

theorem justified_of_nil {t' : Transcript} (h : t'.released = t.released) :
    ReleaseJustified cfg t t' := by
  intro j he hl
  rw [h] at hl
  omega

theorem next_of_idle {call : List WireHeader × Bool}
    (h : call.1 = [] ∨ t.state.downloadState = .final) : t.next cfg call = t := by
  obtain ⟨headers,full⟩ := call
  rcases h with rfl | hf
  · simp [Transcript.next,processNextHeaders]
  · have hd : processNextHeaders cfg t.state headers full = (⟨[],false,false⟩,t.state) := by
      simp [processNextHeaders,hf]
    simp [Transcript.next,hd,hf]

section
variable (hbuffer : 0 < cfg.redownloadBufferSize)
include hbuffer

theorem Transcript.Inv.next (h : t.Inv cfg) (call : List WireHeader × Bool) :
    (t.next cfg call).Inv cfg ∧ ReleaseJustified cfg t (t.next cfg call) := by
  by_cases hd : call.1 = [] ∨ t.state.downloadState = .final
  · rw [next_of_idle hd]
    exact ⟨h,justified_of_nil rfl⟩
  obtain ⟨headers,full⟩ := call
  obtain ⟨hne,hn⟩ := not_or.mp hd
  have he : headers.isEmpty = false := by simpa using hne
  cases h with
  | final ht _ => exact absurd ht hn
  | presync h hre hrel =>
    have hp : processNextHeaders cfg t.state headers full =
      processPresync cfg t.state headers full := by
      simp [processNextHeaders,he,h.state]
    obtain ⟨hni,hc⟩ := processPresync_spec full h hne
    have hx : t.next cfg (headers,full) =
        ⟨(processPresync cfg t.state headers full).2,t.presynced++headers,[],[]⟩ := by
      simp [Transcript.next,hp,hni,h.state,hre,hrel]
    rw [hx]
    refine ⟨?_,justified_of_nil hrel.symm⟩
    rcases hc with hf | hg | ⟨hst,ha,hw⟩
    · exact .final hf ⟨ nil_prefix,trivial,trivial⟩
    · exact .presync hg rfl rfl
    · exact .redownload [] hst rfl ha hw
  | redownload held h hre ha hw =>
    have hp : processNextHeaders cfg t.state headers full =
      processRedownload cfg t.state headers full := by
      simp [processNextHeaders,he,h.state]
    have hx : t.next cfg (headers,full) = ⟨(processRedownload cfg t.state headers full).2,
        t.presynced,t.released++(held++headers),t.released ++
          (processRedownload cfg t.state headers full).1.powValidatedHeaders⟩ := by
      simp [Transcript.next,hp,h.state,hre]
    rw [hx]
    rcases redownload_spec full h hbuffer hne with ⟨hni,hf⟩ | ⟨st₁,k,h1,hk,ho,hc⟩
    · rw [hni,append_nil]
      refine ⟨.final hf ?_,justified_of_nil rfl⟩
      exact h.toReleased headers (prefix_append _ _) (by rw [append_assoc])
    · rw [ho]
      have hsp : t.released++(held++headers) =
        t.released++(held++headers).take k++(held++headers).drop k := by
        rw [append_assoc,take_append_drop]
      refine ⟨?_,fun j hle hl => ⟨hw,?_⟩⟩
      · rcases hc with hf | ⟨hg,ha'⟩
        · refine .final hf (h1.toReleased [] ?_ (by rw [append_nil]))
          exact ⟨_,hsp.symm⟩
        · exact .redownload _ hg hsp ha' hw
      · cases hr : st₁.processAllRemainingHeaders with
        | true => exact .inr (h1.reached hr)
        | false =>
          left
          rw [hr,popCount,if_neg Bool.false_ne_true] at hk
          simp only [length_append,length_take] at hl hk ⊢
          omega

theorem transcript_inv (c : List (List WireHeader × Bool)) : (transcript cfg c).Inv cfg := by
  induction c using reverseRecOn with
  | nil => exact .presync ⟨rfl,rfl,rfl⟩ rfl rfl
  | append_singleton c call ih =>
    rw [transcript,foldl_append]
    exact (ih.next hbuffer call).1

end

/-- Release safety: however the peer batches its headers, what has been handed out is a prefix of
what it sent in the second phase, linked and with permitted difficulty steps; each further header
only when the work of the first phase suffices and either a full buffer of later headers has been
accepted or the work of the second phase suffices; and nothing is handed out after the end. -/
theorem release_safety (cfg : Config) (hbuffer : 0 < cfg.redownloadBufferSize)
    (calls : List (List WireHeader × Bool)) (call : List WireHeader × Bool) :
    Released cfg (transcript cfg calls) ∧
      ReleaseJustified cfg (transcript cfg calls) (transcript cfg (calls ++ [call])) ∧
      ((transcript cfg calls).state.downloadState = .final →
        (transcript cfg (calls ++ [call])).state.downloadState = .final ∧
          (processNextHeaders cfg (transcript cfg calls).state call.1
            call.2).1.powValidatedHeaders = []) := by
  have hn := transcript_inv hbuffer calls
  have ht : transcript cfg (calls++[call]) = (transcript cfg calls).next cfg call := by
    rw [transcript,foldl_append]
    rfl
  rw [ht]
  refine ⟨hn.released,(hn.next hbuffer call).2,fun hf => ?_⟩
  rw [next_of_idle (.inr hf)]
  refine ⟨hf,?_⟩
  rw [processNextHeaders,hf]
  split_ifs <;> rfl

/-- A start at genesis, a buffer of one header and hashes that are the nonces. -/
def shortSync : Config where
  getHash header := header.nNonce.setWidth 256
  hasher hash := hash.getLsbD 0
  consensusParams := { cDripParams with fPowAllowMinDifficultyBlocks := true }
  commitmentPeriod := 2
  redownloadBufferSize := 1
  commitOffset := 1
  chainStart := ⟨.genesis ⟨1,0,0x207fffff#32⟩,⟨⟨1,0,0x207fffff#32⟩,0,0,1⟩,2,rfl⟩
  minimumRequiredWork := 7
  maxCommitments := 9

def shortHeaders : List WireHeader :=
  [⟨⟨1,0,0x207fffff#32⟩,1,5,2⟩,⟨⟨1,0,0x207fffff#32⟩,2,6,3⟩,⟨⟨1,0,0x207fffff#32⟩,3,7,4⟩]

theorem release_safety_short :
    (transcript shortSync [(shortHeaders, false), (shortHeaders.take 2, true)]).released =
        shortHeaders.take 1 ∧
      Released shortSync (transcript shortSync [(shortHeaders, false),
        (shortHeaders.take 2, true)]) :=
  ⟨by decide +kernel,(release_safety shortSync (by decide) _ ([],true)).1⟩

end DripCore.HeadersSync
