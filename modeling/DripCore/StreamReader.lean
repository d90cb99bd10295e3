import DripCore.ExceptRules
import DripCore.PrefixCode

/-!
# Reading values from the front of a stream

A reader takes a value from the front of a list of symbols, or fails. It reads a writer when every
written value comes back and nothing after it is touched; it is exact when it accepts nothing else.
Both hold of sequences and counted lists when they hold of the parts.
-/
namespace DripCore.StreamReader
open ExceptRules List PrefixCode

variable {ε α β γ : Type}

abbrev Reader (ε β : Type) := StateT (List β) (Except ε)

/-- What was written is read back, whatever follows. -/
def Reads (r : Reader ε β α) (w : α → List β) (P : α → Prop) : Prop :=
  ∀ a, P a → ∀ rest, r.run (w a++rest) = .ok (a,rest)

/-- Nothing is read but what is written. -/
def Exact (r : Reader ε β α) (w : α → List β) : Prop :=
  ∀ s a rest, r.run s = .ok (a,rest) → s = w a++rest

variable {a : α} {k : α → Reader ε β γ} {r : Reader ε β α} {s rest : List β} {P : α → Prop}
    {w : α → List β} {e : ε} {n : ℕ} {l : List α} {co : ℕ → List β} {readCount : Reader ε β ℕ}

theorem run_bind {s' : List β} (h : r.run s = .ok (a,s')) : (r >>= k).run s = (k a).run s' := by
  rw [StateT.run_bind,h,ok_bind]

theorem run_bind_eq_ok {c : γ} : (r >>= k).run s = .ok (c,rest) ↔
      ∃ a s', r.run s = .ok (a,s') ∧ (k a).run s' = .ok (c,rest) := by
  rw [StateT.run_bind,bind_eq_ok,Prod.exists]

@[simp] theorem run_pure_eq_ok {b : α} : (pure a : Reader ε β α).run s = .ok (b,rest) ↔
    a = b ∧ s = rest := by
  rw [StateT.run_pure,pure_eq_ok,Except.ok.injEq,Prod.mk.injEq]

@[simp] theorem run_throw (e : ε) (s : List β) : (throw e : Reader ε β α).run s = .error e := rfl

/-- Only values with some property are read. -/
def Yields (r : Reader ε β α) (P : α → Prop) : Prop := ∀ s a rest, r.run s = .ok (a,rest) → P a

def readBytes (e : ε) (n : ℕ) : Reader ε β (List β) := fun s =>
  if n ≤ s.length then .ok (s.take n,s.drop n) else .error e

theorem run_readBytes (e : ε) (l rest : List β) :
    (readBytes e l.length).run (l++rest) = .ok (l,rest) := by
  rw [StateT.run,readBytes,if_pos (by simp),take_left,drop_left]

theorem run_readBytes_eq_ok {l : List β} : (readBytes e n).run s = .ok (l,rest) ↔
    s = l++rest ∧ l.length = n := by
  constructor
  · intro h
    rw [StateT.run,readBytes] at h
    split_ifs at h with hl
    obtain ⟨rfl,rfl⟩ := Prod.mk.inj (Except.ok.inj h)
    exact ⟨(take_append_drop n s).symm,length_take_of_le hl⟩
  · rintro ⟨rfl,rfl⟩
    exact run_readBytes e l rest

def readLE (e : ε) (k : ℕ) : Reader ε (BitVec 8) ℕ := do
  let bytes ← readBytes e k
  return leValue bytes

theorem reads_readLE (e : ε) (k : ℕ) : Reads (readLE e k) (leBytes k) fun n => n < 256^k := by
  intro n hn rest
  have hr := run_readBytes e (leBytes k n) rest
  rw [length_leBytes] at hr
  rw [readLE,run_bind hr,leValue_leBytes hn]
  rfl

theorem readLE_lt {k : ℕ} {s rest : List (BitVec 8)} (h : (readLE e k).run s = .ok (n,rest)) :
    n < 256^k := by
  obtain ⟨bytes,s',hr,hv⟩ := run_bind_eq_ok.mp h
  obtain ⟨rfl,-⟩ := run_pure_eq_ok.mp hv
  rw [← (run_readBytes_eq_ok.mp hr).2]
  exact leValue_lt bytes

theorem exact_readLE (e : ε) (k : ℕ) : Exact (readLE e k) (leBytes k) := by
  intro s n rest h
  obtain ⟨bytes,s',hr,hv⟩ := run_bind_eq_ok.mp h
  obtain ⟨rfl,rfl⟩ := run_pure_eq_ok.mp hv
  obtain ⟨rfl,rfl⟩ := run_readBytes_eq_ok.mp hr
  rw [leBytes_leValue]

def readMany (r : Reader ε β α) : ℕ → Reader ε β (List α)
  | 0 => pure []
  | n+1 => do
      let a ← r
      let l ← readMany r n
      return a::l

theorem Reads.readMany (h : Reads r w P) (hl : ∀ a ∈ l, P a) (rest : List β) :
    (readMany r l.length).run (l.flatMap w++rest) = .ok (l,rest) := by
  induction l with
  | nil => rfl
  | cons a l ih =>
    have hh := h a (hl a mem_cons_self) (l.flatMap w++rest)
    have ht := ih fun b hb => hl b (mem_cons_of_mem a hb)
    rw [length_cons,StreamReader.readMany,flatMap_cons,append_assoc,run_bind hh,run_bind ht]
    rfl

theorem Exact.readMany (h : Exact r w) (hr : (readMany r n).run s = .ok (l,rest)) :
    l.length = n ∧ s = l.flatMap w++rest := by
  induction n generalizing l s with
  | zero =>
    obtain ⟨rfl,rfl⟩ := run_pure_eq_ok.mp hr
    exact ⟨rfl,rfl⟩
  | succ n ih =>
    obtain ⟨a,s',hh,hr⟩ := run_bind_eq_ok.mp hr
    obtain ⟨m,s'',ht,hr⟩ := run_bind_eq_ok.mp hr
    obtain ⟨rfl,rfl⟩ := run_pure_eq_ok.mp hr
    obtain ⟨hl,he⟩ := ih ht
    rw [length_cons,hl,flatMap_cons,append_assoc,← he]
    exact ⟨rfl,h _ _ _ hh⟩

theorem Yields.readMany (h : Yields r P) (n : ℕ) : Yields (readMany r n) fun l => ∀ a ∈ l, P a := by
  induction n with
  | zero =>
    intro s l rest hr a ha
    obtain ⟨rfl,-⟩ := run_pure_eq_ok.mp hr
    exact absurd ha not_mem_nil
  | succ n ih =>
    intro s l rest hr a ha
    obtain ⟨b,s',hh,hr⟩ := run_bind_eq_ok.mp hr
    obtain ⟨m,s'',ht,hr⟩ := run_bind_eq_ok.mp hr
    obtain ⟨rfl,-⟩ := run_pure_eq_ok.mp hr
    rcases mem_cons.mp ha with rfl | ha
    · exact h _ _ _ hh
    · exact ih _ _ _ ht a ha

def readCounted (readCount : Reader ε β ℕ) (r : Reader ε β α) : Reader ε β (List α) := do
  let n ← readCount
  readMany r n

theorem Reads.counted {Q : ℕ → Prop} (hc : Reads readCount co Q) (h : Reads r w P) :
    Reads (readCounted readCount r) (fun l => co l.length++l.flatMap w) fun l => Q l.length ∧
      ∀ a ∈ l, P a := by
  intro l hl rest
  rw [readCounted,append_assoc,run_bind (hc _ hl.1 _),h.readMany hl.2]

theorem Exact.counted (hc : Exact readCount co) (h : Exact r w) :
    Exact (readCounted readCount r) fun l => co l.length++l.flatMap w := by
  intro s l rest hr
  obtain ⟨n,s',hn,hl⟩ := run_bind_eq_ok.mp hr
  obtain ⟨rfl,rfl⟩ := h.readMany hl
  rw [hc _ _ _ hn,append_assoc]

theorem Yields.counted (h : Yields r P) (readCount : Reader ε β ℕ) :
    Yields (readCounted readCount r) fun l => ∀ a ∈ l, P a := by
  intro s l rest hr
  obtain ⟨n,s',-,hl⟩ := run_bind_eq_ok.mp hr
  exact h.readMany n _ _ _ hl

end DripCore.StreamReader
