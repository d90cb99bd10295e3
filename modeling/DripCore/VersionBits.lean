import DripCore.NetworkHashRate
import DripCore.TimeLocks
import Mathlib.Order.Interval.Finset.Nat

/-!
# States of a deployment

`GetStateFor` walks back over whole periods to a state in its cache, and then forward. A block
stands for its branch, and the parent of genesis is `none`. A failed assertion and a null pointer
that is dereferenced, as by a count that leaves the branch, are the result `none`.

The recursion of BIP9 stands beside the code, with definitions of its own: it goes from genesis to
the block, changes the state at the end of each period, and counts the signalling heights of a
period as a set. That the code agrees with it includes that the counting loop stays on the branch.
-/
namespace DripCore
open CBlockIndex Finset
open Function (update update_self update_of_ne)

namespace CBlockIndex

/-- Median times do not fall along the branch. -/
def MedianRises : CBlockIndex → Prop
  | genesis _ => True
  | extend p b => p.getMedianTimePast ≤ (extend p b).getMedianTimePast ∧ p.MedianRises

variable {b : CBlockIndex} {i : ℤ}

theorem ancestor_self (b : CBlockIndex) : b.getAncestor b.nHeight = some b := by
  rw [getAncestor,if_neg (by omega),ancestorWalk_self]

theorem ancestor_neg (h : i < 0) : b.getAncestor i = none := if_pos (.inr h)

theorem ancestor_pred (b : CBlockIndex) : b.getAncestor (b.nHeight-1) = b.pprev := by
  cases b with
  | genesis g => exact ancestor_neg neg_one_lt_zero
  | extend p g =>
    rw [nHeight,Nat.cast_succ,add_sub_cancel_right,ancestor_extend le_rfl,ancestor_self]
    rfl

/-- What holds of no block and of a block itself, and goes on to the next blocks, holds of
ancestors. -/
theorem ancestor_induction {motive : CBlockIndex → Option CBlockIndex → Prop}
    (none : ∀ b, motive b none) (self : ∀ b, motive b (some b))
    (extend : ∀ p g o, motive p o → motive (.extend p g) o) (b : CBlockIndex) (i : ℤ) :
    motive b (b.getAncestor i) := by
  rcases lt_trichotomy i b.nHeight with h | rfl | h
  · induction b with
    | genesis g => exact ancestor_neg h ▸ none _
    | extend p g ih =>
      rw [nHeight,Nat.cast_succ,Int.lt_add_one_iff] at h
      rw [ancestor_extend h]
      refine extend p g _ ?_
      rcases h.lt_or_eq with h | rfl
      · exact ih h
      · exact ancestor_self p ▸ self p
  · exact ancestor_self b ▸ self b
  · rw [getAncestor,if_pos (.inl h)]
    exact none b

theorem MedianRises.ancestor (h : b.MedianRises) (i : ℤ) : ∀ a ∈ b.getAncestor i, a.MedianRises :=
  ancestor_induction (motive := fun b o => b.MedianRises → ∀ a ∈ o, a.MedianRises)
    (fun _ _ _ h => nomatch h) (fun _ h _ ha => Option.some.inj ha ▸ h)
    (fun _ _ _ ih h => ih h.2) b i h

theorem ancestor_spec (b : CBlockIndex) (i : ℤ) : ∀ a ∈ b.getAncestor i,
    a.nHeight ≤ b.nHeight ∧ ∀ j : ℤ, j ≤ a.nHeight → a.getAncestor j = b.getAncestor j := by
  refine ancestor_induction (motive := fun b o => ∀ a ∈ o, a.nHeight ≤ b.nHeight ∧
    ∀ j : ℤ, j ≤ a.nHeight → a.getAncestor j = b.getAncestor j) (fun _ _ h => nomatch h)
    (fun b a ha => Option.some.inj ha ▸ ⟨le_rfl,fun _ _ => rfl⟩) (fun p g o ih a ha => ?_) b i
  obtain ⟨hl,h⟩ := ih a ha
  refine ⟨hl.trans (Nat.le_succ _),fun j hj => (h j hj).trans (ancestor_extend ?_).symm⟩
  exact hj.trans (Int.ofNat_le.mpr hl)

theorem nHeight_of_ancestor {a : CBlockIndex} (h : b.getAncestor i = some a) :
    (a.nHeight : ℤ) = i := by
  rw [getAncestor] at h
  split_ifs at h with hi
  cases h
  exact b.nHeight_walk (by omega) (by omega)

end CBlockIndex

inductive ThresholdState where
  | defined
  | started
  | lockedIn
  | active
  | failed
deriving DecidableEq

namespace ThresholdState

/-- `STARTED` is followed by `LOCKED_IN` and `ACTIVE`, or by `FAILED`. -/
def progress : ThresholdState → ℕ × ℕ
  | defined => (0,0)
  | started => (1,1)
  | lockedIn => (2,1)
  | active => (3,1)
  | failed => (1,2)

theorem progress_injective : Function.Injective progress := by
  intro s t h
  cases s <;> cases t <;> first | rfl | cases h

instance : PartialOrder ThresholdState := .lift progress progress_injective

theorem defined_le (s : ThresholdState) : defined ≤ s :=
    Prod.mk_le_mk.mpr ⟨Nat.zero_le _,Nat.zero_le _⟩

end ThresholdState

def BIP9Deployment.alwaysActive : ℤ := -1

def BIP9Deployment.neverActive : ℤ := -2

structure ThresholdConditionChecker where
  condition : CBlockIndex → Bool
  beginTime : ℤ
  endTime : ℤ
  minActivationHeight : ℤ
  period : ℕ
  threshold : ℤ
  period_pos : 0 < period

abbrev ThresholdConditionCache := Option CBlockIndex → Option ThresholdState

namespace ThresholdConditionChecker
open BIP9Deployment
variable (c : ThresholdConditionChecker)

/-- The last block of the period before that of the next block. -/
def periodParent (b : CBlockIndex) : Option CBlockIndex :=
  b.getAncestor (b.nHeight-((b.nHeight+1) % c.period : ℕ))

/-- The last block of one period earlier. -/
def previousPeriodParent (b : CBlockIndex) : Option CBlockIndex :=
    b.getAncestor (b.nHeight-c.period)

/-- The loop that counts; `pindexCount` may not be null in a round. -/
def countLoop : ℕ → Option CBlockIndex → ℤ → Option ℤ
  | 0, _, count => some count
  | _ + 1, none, _ => none
  | i + 1, some pindexCount, count =>
    countLoop i pindexCount.pprev (if c.condition pindexCount then count + 1 else count)

/-- The `switch` on the state. -/
def stateNext (b : CBlockIndex) : ThresholdState → Option ThresholdState
  | .defined => some (if b.getMedianTimePast ≥ c.beginTime then .started else .defined)
  | .started => do
    let count ← c.countLoop c.period (some b) 0
    if count ≥ c.threshold then return .lockedIn
    else if b.getMedianTimePast ≥ c.endTime then return .failed
    else return .started
  | .lockedIn => some (if b.nHeight + 1 ≥ c.minActivationHeight then .active else .lockedIn)
  | .failed => some .failed
  | .active => some .active

def walkForward : List CBlockIndex → ThresholdState → ThresholdConditionCache →
    Option (ThresholdState × ThresholdConditionCache)
  | [], state, cache => some (state, cache)
  | b :: vToCompute, state, cache => do
    let state ← c.stateNext b state
    walkForward vToCompute state (update cache (some b) (some state))

/-- What follows the walk backwards. -/
def forward (vToCompute : List CBlockIndex) (pindexPrev : Option CBlockIndex)
    (cache : ThresholdConditionCache) : Option (ThresholdState × ThresholdConditionCache) := do
  let state ← cache pindexPrev
  c.walkForward vToCompute state cache

/-- The walk backwards, of at most `n` rounds. -/
def walkBack (cache : ThresholdConditionCache) : ℕ → Option CBlockIndex → List CBlockIndex →
    Option (ThresholdState × ThresholdConditionCache)
  | 0, _, _ => none
  | n+1, pindexPrev, vToCompute =>
    if (cache pindexPrev).isSome then c.forward vToCompute pindexPrev cache
    else match pindexPrev with
      | none => c.forward vToCompute none (update cache none (some .defined))
      | some b =>
        if b.getMedianTimePast < c.beginTime then
          c.forward vToCompute (some b) (update cache (some b) (some .defined))
        else walkBack cache n (c.previousPeriodParent b) (b::vToCompute)

def getStateFor (pindexPrev : Option CBlockIndex) (cache : ThresholdConditionCache) :
    Option (ThresholdState × ThresholdConditionCache) :=
  if c.beginTime = alwaysActive then some (.active,cache)
  else if c.beginTime = neverActive then some (.failed,cache)
  else
    let pindexPrev := pindexPrev.bind c.periodParent
    c.walkBack cache (pindexPrev.elim 1 (·.nHeight+2)) pindexPrev []

def sinceLoop (initialState : ThresholdState) : ℕ → CBlockIndex → ThresholdConditionCache →
    Option (ℕ × ThresholdConditionCache)
  | 0, _, _ => none
  | n+1, b, cache =>
    match c.previousPeriodParent b with
    | none => some (b.nHeight+1,cache)
    | some previous => do
      let (state,cache) ← c.getStateFor (some previous) cache
      if state = initialState then sinceLoop initialState n previous cache
      else return (b.nHeight+1,cache)

def getStateSinceHeightFor (pindexPrev : Option CBlockIndex) (cache : ThresholdConditionCache) :
    Option (ℕ × ThresholdConditionCache) :=
  if c.beginTime = alwaysActive ∨ c.beginTime = neverActive then some (0,cache)
  else do
    let (initialState,cache) ← c.getStateFor pindexPrev cache
    if initialState = .defined then return (0,cache)
    else do
      let b ← pindexPrev.bind c.periodParent
      c.sinceLoop initialState (b.nHeight+1) b cache

/-- The heights of the period that ends with a block at which its branch signals. -/
def signalling (b : CBlockIndex) : Finset ℕ :=
  {h ∈ Ico (b.nHeight + 1 - c.period) (b.nHeight + 1) | (b.getAncestor h).any c.condition}

/-- The transitions of BIP9 at the end of a period. -/
def bip9Next (b : CBlockIndex) (state : ThresholdState) : ThresholdState :=
  match state with
  | .defined => if c.beginTime ≤ b.getMedianTimePast then .started else .defined
  | .started =>
    if c.threshold ≤ #(c.signalling b) then .lockedIn
    else if c.endTime ≤ b.getMedianTimePast then .failed
    else .started
  | .lockedIn => if c.minActivationHeight ≤ b.nHeight + 1 then .active else .lockedIn
  | .active => .active
  | .failed => .failed

/-- What BIP9 does with the state after a block. -/
def advance (b : CBlockIndex) (state : ThresholdState) : ThresholdState :=
  if (b.nHeight + 1) % c.period = 0 then c.bip9Next b state else state

/-- The state after a block, from genesis on. -/
def stateAfter : CBlockIndex → ThresholdState
  | genesis b => c.advance (genesis b) .defined
  | extend p b => c.advance (extend p b) (stateAfter p)

def branchState (o : Option CBlockIndex) : ThresholdState := o.elim .defined c.stateAfter

def bip9State (o : Option CBlockIndex) : ThresholdState :=
  if c.beginTime = alwaysActive then .active
  else if c.beginTime = neverActive then .failed
  else c.branchState o

/-- The caches after calls for blocks of a tree. -/
inductive Produced (tree : Set CBlockIndex) : ThresholdConditionCache → Prop
  | empty : Produced tree fun _ => none
  | call {cache cache' : ThresholdConditionCache} {o : Option CBlockIndex}
    {state : ThresholdState} :
    Produced tree cache → (∀ b ∈ o, b ∈ tree) → c.getStateFor o cache = some (state,cache') →
    Produced tree cache'

/-- The heights from which on the branch has had its state. -/
def heights (o : Option CBlockIndex) : Set ℕ := {n | ∀ m : ℕ, n ≤ m → m ≤ o.elim 0 (·.nHeight+1) →
  c.bip9State (o.bind (·.getAncestor (m-1))) = c.bip9State o}

/-- Ends of periods on branches with rising times. -/
def Aligned (o : Option CBlockIndex) : Prop := ∀ b ∈ o, (b.nHeight+1) % c.period = 0 ∧ b.MedianRises

def Agrees (cache : ThresholdConditionCache) : Prop :=
  ∀ o state, cache o = some state → state = c.branchState o

variable {c} {b : CBlockIndex} {o : Option CBlockIndex} {cache : ThresholdConditionCache}

theorem mod_add_one (n : ℕ) : n % c.period+1 = if (n+1) % c.period = 0 then c.period
    else (n+1) % c.period := by
  rw [← Nat.mod_add_mod]
  rcases (Nat.add_one_le_of_lt (n.mod_lt c.period_pos)).lt_or_eq with h | h
  · rw [Nat.mod_eq_of_lt h,if_neg (Nat.succ_ne_zero _)]
  · rw [h,Nat.mod_self,if_pos rfl]

section
variable (b)

theorem pprev_bind : b.pprev.bind c.periodParent =
    b.getAncestor (b.nHeight-(b.nHeight % c.period+1 : ℕ)) := by
  cases b with
  | genesis g => exact (ancestor_neg (by rw [nHeight]; omega)).symm
  | extend p g =>
    rw [nHeight,ancestor_extend (by omega)]
    change p.getAncestor _ = _
    congr 1
    omega

theorem periodParent_eq : c.periodParent b =
    if (b.nHeight+1) % c.period = 0 then some b else b.pprev.bind c.periodParent := by
  rw [pprev_bind,mod_add_one,periodParent]
  split_ifs with h
  · rw [h,Nat.cast_zero,sub_zero,ancestor_self]
  · rfl

theorem stateAfter_eq : c.stateAfter b = c.advance b (c.branchState b.pprev) := by
  cases b <;> rfl

theorem branchState_bind : c.branchState (b.pprev.bind c.periodParent) = c.branchState b.pprev := by
  induction b with
  | genesis g => rfl
  | extend p g ih =>
    change c.branchState (c.periodParent p) = c.stateAfter p
    rw [periodParent_eq]
    split_ifs with h
    · rfl
    · rw [ih,stateAfter_eq,advance,if_neg h]

theorem branchState_parent (o : Option CBlockIndex) :
    c.branchState (o.bind c.periodParent) = c.branchState o := by
  cases o with
  | none => rfl
  | some b => exact branchState_bind (b.extend b.header)

theorem le_advance (s : ThresholdState) : s ≤ c.advance b s := by
  unfold advance
  change s.progress ≤ _
  cases s <;> dsimp only [bip9Next] <;> split_ifs <;> decide

theorem ancestor_le (i : ℤ) : c.branchState (b.getAncestor i) ≤ c.stateAfter b :=
  ancestor_induction (motive := fun b o => c.branchState o ≤ c.stateAfter b)
    (fun _ => ThresholdState.defined_le _) (fun _ => le_rfl)
    (fun _ _ _ h => h.trans (le_advance _ _)) b i

end

section
variable (he : (b.nHeight+1) % c.period = 0)
include he

theorem previous_eq : c.previousPeriodParent b = b.pprev.bind c.periodParent := by
  rw [pprev_bind,mod_add_one,if_pos he,previousPeriodParent]

theorem stateAfter_of_end :
    c.stateAfter b = c.bip9Next b (c.branchState (c.previousPeriodParent b)) := by
  rw [previous_eq he, branchState_bind, stateAfter_eq, advance, if_pos he]

/-- A period that ends with the block does not reach beyond genesis. -/
theorem period_le : c.period ≤ b.nHeight + 1 :=
  Nat.le_of_dvd b.nHeight.succ_pos (Nat.dvd_of_mod_eq_zero he)

end

/-- The signalling heights among the last ones of a branch. -/
theorem card_signalling_succ (b : CBlockIndex) (n : ℕ) :
    #{m ∈ Ico (b.nHeight - n) (b.nHeight + 1) | (b.getAncestor (m : ℕ)).any c.condition} =
      #{m ∈ Ico (b.nHeight - n) b.nHeight | (b.getAncestor (m : ℕ)).any c.condition} +
        if c.condition b then 1 else 0 := by
  rw [Nat.Ico_succ_right_eq_insert_Ico (Nat.sub_le _ _), filter_insert, ancestor_self,
    Option.any_some]
  split_ifs with hb
  · rw [card_insert_of_notMem (by simp)]
  · rfl

/-- The loop counts the signalling heights, as long as it stays on the branch. -/
theorem countLoop_eq (b : CBlockIndex) (n : ℕ) (h : n ≤ b.nHeight) (count : ℤ) :
    c.countLoop (n + 1) (some b) count = some (count +
      #{m ∈ Ico (b.nHeight - n) (b.nHeight + 1) | (b.getAncestor (m : ℕ)).any c.condition}) := by
  rw [card_signalling_succ b n, countLoop]
  induction n generalizing b count with
  | zero => split_ifs <;> simp [countLoop]
  | succ n ih =>
    cases b with
    | genesis g => cases h
    | extend p g =>
      have hp : n ≤ p.nHeight := Nat.le_of_succ_le_succ h
      have hs : #{m ∈ Ico (p.nHeight + 1 - (n + 1)) (p.nHeight + 1) |
            ((p.extend g).getAncestor (m : ℕ)).any c.condition} =
          #{m ∈ Ico (p.nHeight - n) (p.nHeight + 1) | (p.getAncestor (m : ℕ)).any c.condition} := by
        rw [Nat.add_sub_add_right]
        refine congrArg card (filter_congr fun m hm => ?_)
        rw [ancestor_extend (Int.ofNat_le.mpr (Nat.le_of_lt_succ (mem_Ico.mp hm).2))]
      rw [pprev, countLoop, ih p hp, nHeight, hs, card_signalling_succ p n]
      split_ifs <;> push_cast <;> ring_nf

/-- At the end of a period the code makes the transition of BIP9. -/
theorem stateNext_eq (he : (b.nHeight + 1) % c.period = 0) (s : ThresholdState) :
    c.stateNext b s = some (c.bip9Next b s) := by
  cases s with
  | started =>
    obtain ⟨n, hn⟩ := Nat.exists_eq_succ_of_ne_zero c.period_pos.ne'
    have hl := period_le he
    rw [stateNext, bip9Next, signalling, hn, countLoop_eq b n (by omega), zero_add,
      Nat.succ_eq_add_one, Nat.add_sub_add_right]
    dsimp only [Option.bind_eq_bind, Option.bind_some]
    split_ifs <;> rfl
  | defined => rfl
  | lockedIn => rfl
  | active => rfl
  | failed => rfl

/-- No block before the begin of the deployment has left the first state. -/
theorem stateAfter_of_early (h : b.MedianRises) (ht : b.getMedianTimePast < c.beginTime) :
    c.stateAfter b = .defined := by
  have hn : c.bip9Next b .defined = .defined := if_neg ht.not_ge
  induction b with
  | genesis g => rw [stateAfter,advance,hn,ite_self]
  | extend p g ih =>
    have hp := h.1.trans_lt ht
    rw [stateAfter,ih h.2 hp (if_neg hp.not_ge),advance,hn,ite_self]

theorem aligned_parent (h : ∀ b ∈ o, b.MedianRises) : c.Aligned (o.bind c.periodParent) := by
  intro a ha
  obtain ⟨b,hb,ha⟩ := Option.bind_eq_some_iff.mp ha
  have hh := nHeight_of_ancestor ha
  refine ⟨?_,(h b hb).ancestor _ a ha⟩
  have hm : a.nHeight+1 = b.nHeight+1-(b.nHeight+1) % c.period := by omega
  rw [hm]
  exact Nat.mod_eq_zero_of_dvd (Nat.dvd_sub_mod _)

theorem Aligned.previous (h : c.Aligned (some b)) : c.Aligned (c.previousPeriodParent b) := by
  obtain ⟨he,hr⟩ := h b rfl
  rw [previous_eq he]
  refine aligned_parent ?_
  rw [← ancestor_pred]
  exact hr.ancestor _

theorem Agrees.update (h : c.Agrees cache) (o : Option CBlockIndex) :
    c.Agrees (update cache o (some (c.branchState o))) := by
  intro o' state ho
  rcases eq_or_ne o' o with rfl | hn
  · rw [update_self] at ho
    exact (Option.some.inj ho).symm
  · rw [update_of_ne hn] at ho
    exact h o' state ho

theorem forward_eq (v : List CBlockIndex) (h : cache o = some (c.branchState o)) :
    c.forward v o cache = c.walkForward v (c.branchState o) cache := by
  rw [forward,h]
  rfl

/-- A walk backwards with rounds enough comes to a right state, and then goes forward. -/
theorem walkBack_eq {n : ℕ} (ha : c.Agrees cache) (hn : o.elim 1 (·.nHeight+2) ≤ n)
    (ho : c.Aligned o)
    (v : List CBlockIndex) : ∃ cache', c.Agrees cache' ∧
    c.walkBack cache n o v = c.walkForward v (c.branchState o) cache' := by
  induction n generalizing o v with
  | zero => cases o <;> cases hn
  | succ n ih =>
    unfold walkBack
    split_ifs with hc
    · obtain ⟨state,hs⟩ := Option.isSome_iff_exists.mp hc
      exact ⟨cache,ha,forward_eq v (ha o state hs ▸ hs)⟩
    · cases o with
      | none => exact ⟨_,ha.update none,forward_eq v (update_self ..)⟩
      | some b =>
        obtain ⟨he,hr⟩ := ho b rfl
        dsimp only
        split_ifs with ht
        · rw [← stateAfter_of_early hr ht]
          exact ⟨_,ha.update (some b),forward_eq v (update_self ..)⟩
        · change b.nHeight+2 ≤ n+1 at hn
          have hl : (c.previousPeriodParent b).elim 1 (·.nHeight+2) ≤ n := by
            cases hp : c.previousPeriodParent b with
            | none => exact Nat.le_trans (Nat.le_add_left 1 _) (Nat.le_of_succ_le_succ hn)
            | some p =>
              have hh := nHeight_of_ancestor hp
              have hc := c.period_pos
              change p.nHeight+2 ≤ n
              omega
          obtain ⟨cache',ha',h⟩ := ih hl ho.previous (b::v)
          rw [h, walkForward, stateNext_eq he, ← stateAfter_of_end he]
          exact ⟨_, ha'.update (some b), rfl⟩

theorem getStateFor_eq (ha : c.Agrees cache) (ho : ∀ b ∈ o, b.MedianRises) : ∃ cache',
    c.Agrees cache' ∧ c.getStateFor o cache = some (c.bip9State o,cache') := by
  rw [getStateFor,bip9State]
  split_ifs
  · exact ⟨cache,ha,rfl⟩
  · exact ⟨cache,ha,rfl⟩
  · rw [← branchState_parent]
    exact walkBack_eq ha le_rfl (aligned_parent ho) []

theorem Produced.agrees {tree : Set CBlockIndex} (ht : ∀ b ∈ tree, b.MedianRises)
    (h : c.Produced tree cache) : c.Agrees cache := by
  induction h with
  | empty => exact fun _ _ h => nomatch h
  | call _ ho he ih =>
    obtain ⟨_,ha,h⟩ := getStateFor_eq ih fun b hb => ht b (ho b hb)
    cases h.symm.trans he
    exact ha

theorem bip9State_ancestor_le (b : CBlockIndex) (i : ℤ) :
    c.bip9State (b.getAncestor i) ≤ c.bip9State (some b) := by
  unfold bip9State
  split_ifs
  · exact le_rfl
  · exact le_rfl
  · exact ancestor_le b i

section
variable (hs : c.bip9State = c.branchState)
include hs

/-- The search for the first period of a state ends at a period before which there is another state.
-/
theorem sinceLoop_eq {p : CBlockIndex} {n : ℕ} (hd : c.stateAfter b ≠ .defined) (hn : p.nHeight < n)
    (ha : c.Agrees cache) (hp : c.Aligned (some p)) (hb : b.getAncestor p.nHeight = some p)
    (he : c.stateAfter p = c.stateAfter b) :
    ∃ q cache', c.sinceLoop (c.stateAfter b) n p cache = some (q.nHeight+1,cache') ∧
      b.getAncestor q.nHeight = some q ∧ c.stateAfter q = c.stateAfter b ∧
      c.branchState q.pprev ≠ c.stateAfter b := by
  induction n generalizing p cache with
  | zero => cases hn
  | succ n ih =>
    have hpr : c.branchState (c.previousPeriodParent p) = c.branchState p.pprev := by
      rw [previous_eq (hp p rfl).1,branchState_bind]
    have hpa := hp.previous
    unfold sinceLoop
    cases hq : c.previousPeriodParent p with
    | none =>
      rw [hq] at hpr
      exact ⟨p,cache,rfl,hb,he,hpr ▸ hd.symm⟩
    | some q =>
      rw [hq] at hpr hpa
      obtain ⟨cache',ha',hg⟩ := getStateFor_eq ha fun b hb => (hpa b hb).2
      dsimp only
      rw [hg,hs]
      change ∃ _ _, (if c.stateAfter q = _ then _ else _) = _ ∧ _
      split_ifs with hc
      · have hh := nHeight_of_ancestor hq
        have hc' := c.period_pos
        refine ih (by omega) ha' hpa ?_ hc
        rw [← (b.ancestor_spec _ p hb).2 q.nHeight (by omega),hh]
        exact hq
      · exact ⟨p,cache',rfl,hb,he,hpr ▸ hc⟩

theorem isLeast_heights {q : CBlockIndex} (hq : b.getAncestor q.nHeight = some q)
    (he : c.stateAfter q = c.stateAfter b) (hn : c.branchState q.pprev ≠ c.stateAfter b) :
    IsLeast (c.heights (some b)) (q.nHeight+1) := by
  obtain ⟨hl,hj⟩ := b.ancestor_spec _ q hq
  unfold heights
  rw [hs]
  refine ⟨fun m hm hm' => ?_,fun n h => ?_⟩
  · change m ≤ b.nHeight+1 at hm'
    obtain ⟨a,ha,hh⟩ := b.ancestor_of_le (show (0 : ℤ) ≤ m-1 by omega) (by omega)
    have hla : c.stateAfter a ≤ c.stateAfter b := by
      have h := ancestor_le (c := c) b (m-1)
      rwa [ha] at h
    have hle : c.stateAfter b ≤ c.stateAfter a := by
      have h := ancestor_le (c := c) a q.nHeight
      rwa [(b.ancestor_spec _ a ha).2 _ (by omega),hq,branchState,Option.elim_some,he] at h
    exact (congrArg c.branchState ha).trans (hla.antisymm hle)
  · by_contra hlt
    have h := h q.nHeight (by omega) (Nat.le_succ_of_le hl)
    rw [Option.bind_some,← hj _ (by omega),ancestor_pred] at h
    exact hn h

end

/-- Whatever calls filled the cache, the state is that of the recursion, never falls along a branch,
and the height is the first one from which on the branch has had the state. -/
theorem getStateFor_cache_independent (c : ThresholdConditionChecker) (tree : Set CBlockIndex)
    (ht : ∀ b ∈ tree, b.MedianRises) (cache : ThresholdConditionCache) (hc : c.Produced tree cache)
    (o : Option CBlockIndex) (hp : ∀ b ∈ o, b ∈ tree) :
    (∃ cache', c.getStateFor o cache = some (c.bip9State o, cache')) ∧
    (∀ b ∈ o, ∀ height, c.bip9State (b.getAncestor height) ≤ c.bip9State (some b)) ∧
    ∃ height cache', c.getStateSinceHeightFor o cache = some (height, cache') ∧
      (c.bip9State o = .defined → height = 0) ∧ IsLeast (c.heights o) height := by
  have ho b hb := ht b (hp b hb)
  obtain ⟨cache',ha,hg⟩ := getStateFor_eq (hc.agrees ht) ho
  refine ⟨⟨cache',hg⟩,fun b _ => bip9State_ancestor_le b,?_⟩
  rw [getStateSinceHeightFor]
  split_ifs with hb
  · refine ⟨0,cache,rfl,fun _ => rfl,fun m _ _ => ?_,fun _ _ => Nat.zero_le _⟩
    unfold bip9State
    split_ifs
    · rfl
    · rfl
    · tauto
  · have hs : c.bip9State = c.branchState := by
      funext
      rw [bip9State,if_neg (hb ∘ .inl),if_neg (hb ∘ .inr)]
    rw [hg]
    change ∃ _ _, (if _ = _ then _ else _) = _ ∧ _
    split_ifs with hd
    · refine ⟨0,cache',rfl,fun _ => rfl,fun m _ _ => ?_,fun _ _ => Nat.zero_le _⟩
      cases o with
      | none => rfl
      | some b =>
        have h := bip9State_ancestor_le (c := c) b (m-1)
        rw [hd] at h ⊢
        exact h.antisymm (ThresholdState.defined_le _)
    · have hbi := branchState_parent (c := c) o
      have hal := aligned_parent (c := c) ho
      rw [hs] at hd ⊢
      cases hpa : o.bind c.periodParent with
      | none =>
        rw [hpa] at hbi
        exact absurd hbi.symm hd
      | some p =>
        obtain ⟨b,rfl,hq⟩ := Option.bind_eq_some_iff.mp hpa
        rw [hpa] at hbi hal
        obtain ⟨q,cache'',hl,hq,he,hn⟩ := sinceLoop_eq hs hd p.nHeight.lt_succ_self ha hal
          (nHeight_of_ancestor hq ▸ hq) hbi
        exact ⟨_,cache'',hl,fun h => absurd h hd,isLeast_heights hs hq he hn⟩

section

/-- A deployment with periods of two blocks, one of which has to signal. -/
def sampleChecker : ThresholdConditionChecker :=
  ⟨fun b => b.header.nVersion == 1, 3, 99, 0, 2, 1, two_pos⟩

/-- Four blocks; the third one has a version of choice. -/
def sampleBranch (nVersion : ℤ) : CBlockIndex :=
  (((genesis ⟨0, 5, 0⟩).extend ⟨0, 6, 0⟩).extend ⟨nVersion, 7, 0⟩).extend ⟨0, 8, 0⟩

/-- The cache is filled on the branch that signals, and then used on the other one. -/
theorem getStateFor_cache_independent_branches : ∃ cache cache' cache'',
    sampleChecker.getStateFor (some (sampleBranch 1)) (fun _ => none) = some (.lockedIn, cache) ∧
    sampleChecker.getStateFor (some (sampleBranch 0)) cache = some (.started, cache') ∧
    sampleChecker.getStateSinceHeightFor (some (sampleBranch 0)) cache = some (2, cache'') := by
  have ht : ∀ b ∈ ({sampleBranch 0, sampleBranch 1} : Set CBlockIndex), b.MedianRises := by
    rintro b (rfl | rfl) <;> refine ⟨?_, ?_, ?_, trivial⟩ <;> decide
  have hs : ∀ v, v = 0 ∨ v = 1 → ∀ b ∈ some (sampleBranch v),
      b ∈ ({sampleBranch 0, sampleBranch 1} : Set CBlockIndex) := by
    rintro v (rfl | rfl) b hb
    · exact .inl (Option.some.inj hb).symm
    · exact .inr (Option.some.inj hb).symm
  obtain ⟨⟨cache, hc⟩, -⟩ := getStateFor_cache_independent sampleChecker _ ht _ .empty _
    (hs 1 (.inr rfl))
  obtain ⟨⟨cache', hc'⟩, -, n, cache'', hn, -, hl⟩ :=
    getStateFor_cache_independent sampleChecker _ ht
    _ (.call .empty (hs 1 (.inr rfl)) hc) _ (hs 0 (.inl rfl))
  have h2 : IsLeast (sampleChecker.heights (some (sampleBranch 0))) 2 := by
    refine ⟨fun m hm hm' => ?_, fun m hm => ?_⟩
    · change m ≤ 4 at hm'
      obtain rfl | rfl | rfl : m = 2 ∨ m = 3 ∨ m = 4 := by omega
      all_goals decide
    · by_contra hlt
      have h1 := hm 1 (by omega) (by decide)
      revert h1
      decide
  refine ⟨cache, cache', cache'', hc.trans ?_, hc'.trans ?_, ?_⟩
  · rw [show sampleChecker.bip9State (some (sampleBranch 1)) = .lockedIn by decide]
  · rw [show sampleChecker.bip9State (some (sampleBranch 0)) = .started by decide]
  · rw [hn, hl.unique h2]

end

end ThresholdConditionChecker

end DripCore
