import Mathlib.Data.BitVec

/-!
# Codes that can be read from the front

An encoder is uniquely readable when the encoding of a value, followed by anything, determines the
value and what follows. Injective encoders of a fixed length are, and pairs and counted lists of
readable encodings.
-/
namespace DripCore.PrefixCode
open List

variable {α β γ : Type}

/-- Reading `f a` from the front of a list determines `a` and the rest. -/
def Readable (P : α → Prop) (f : α → List β) : Prop :=
  ∀ a b s t, P a → P b → f a++s = f b++t → a = b ∧ s = t

variable {P : α → Prop} {f : α → List β} {k n : ℕ}

theorem readable_of_length (n : ℕ) (hl : ∀ a, P a → (f a).length = n)
    (hn : ∀ a b, P a → P b → f a = f b → a = b) :
    Readable P f := by
  intro a b s t ha hb he
  obtain ⟨hf,hs⟩ := append_inj he (by rw [hl a ha,hl b hb])
  exact ⟨hn a b ha hb hf,hs⟩

/-- A first symbol that fixes the length of what follows it. -/
theorem readable_of_head {w : β → ℕ} (hh : ∀ a, P a → ∃ b l, f a = b::l ∧ l.length = w b)
    (hn : ∀ a b, P a → P b → f a = f b → a = b) : Readable P f := by
  intro a b s t ha hb he
  obtain ⟨x,l,hx,hl⟩ := hh a ha
  obtain ⟨y,m,hy,hm⟩ := hh b hb
  have hsa : x = y := by
    rw [hx,hy,cons_append,cons_append,cons.injEq] at he
    exact he.1
  obtain ⟨hf,hs⟩ := append_inj he (by
    rw [hx,hy,length_cons,length_cons,hl,hm,hsa])
  exact ⟨hn a b ha hb hf,hs⟩

theorem Readable.pair {Q : β → Prop} {f : α → List γ} {g : β → List γ} (hf : Readable P f)
    (hg : Readable Q g) :
    Readable (fun p : α × β => P p.1 ∧ Q p.2) (fun p => f p.1++g p.2) := by
  intro p q s t hp hq he
  rw [append_assoc,append_assoc] at he
  obtain ⟨h,hr⟩ := hf _ _ _ _ hp.1 hq.1 he
  obtain ⟨h',hs⟩ := hg _ _ _ _ hp.2 hq.2 hr
  exact ⟨Prod.ext h h',hs⟩

theorem Readable.flatMap (h : Readable P f) {l l' : List α} {s t : List β} (hl : ∀ a ∈ l, P a)
    (hl' : ∀ a ∈ l', P a) (hle : l.length = l'.length)
    (he : l.flatMap f++s = l'.flatMap f++t) : l = l' ∧ s = t := by
  induction l generalizing l' with
  | nil =>
    obtain rfl := length_eq_zero_iff.mp hle.symm
    exact ⟨rfl,he⟩
  | cons a l ih =>
    obtain ⟨b,m,rfl⟩ := exists_cons_of_length_eq_add_one hle.symm
    rw [flatMap_cons,flatMap_cons,append_assoc,append_assoc] at he
    obtain ⟨rfl,hr⟩ := h _ _ _ _ (hl a mem_cons_self) (hl' b mem_cons_self) he
    obtain ⟨rfl,hs⟩ := ih (fun a ha => hl a (mem_cons_of_mem _ ha))
      (fun a ha => hl' a (mem_cons_of_mem _ ha)) (Nat.succ.inj hle) hr
    exact ⟨rfl,hs⟩

theorem Readable.counted {Q : ℕ → Prop} {c : ℕ → List β} (hc : Readable Q c) (hf : Readable P f) :
    Readable (fun l : List α => Q l.length ∧ ∀ a ∈ l, P a) (fun l => c l.length++l.flatMap f) := by
  intro l l' s t hl hl' he
  rw [append_assoc,append_assoc] at he
  obtain ⟨hle,hr⟩ := hc _ _ _ _ hl.1 hl'.1 he
  exact hf.flatMap hl.2 hl'.2 hle hr

def leBytes : ℕ → ℕ → List (BitVec 8)
  | 0, _ => []
  | k+1, n => BitVec.ofNat 8 n::leBytes k (n / 256)

@[simp] theorem length_leBytes (k n : ℕ) : (leBytes k n).length = k := by
  induction k generalizing n with
  | zero => rfl
  | succ k ih => rw [leBytes,length_cons,ih]

def leValue : List (BitVec 8) → ℕ
  | [] => 0
  | b::l => b.toNat+256*leValue l

theorem leValue_leBytes (h : n < 256^k) : leValue (leBytes k n) = n := by
  induction k generalizing n with
  | zero =>
    rw [leBytes,leValue]
    omega
  | succ k ih =>
    rw [leBytes,leValue,ih (Nat.div_lt_of_lt_mul (by omega)),BitVec.toNat_ofNat]
    omega

theorem leValue_lt (bytes : List (BitVec 8)) : leValue bytes < 256^bytes.length := by
  induction bytes with
  | nil => exact Nat.one_pos
  | cons b bytes ih =>
    rw [leValue,length_cons]
    omega

theorem leBytes_leValue (bytes : List (BitVec 8)) :
    leBytes bytes.length (leValue bytes) = bytes := by
  induction bytes with
  | nil => rfl
  | cons b bytes ih =>
    have hd : (b.toNat+256*leValue bytes) / 256 = leValue bytes := by omega
    have hm : BitVec.ofNat 8 (b.toNat+256*leValue bytes) = b := by
      refine BitVec.eq_of_toNat_eq ?_
      rw [BitVec.toNat_ofNat]
      omega
    rw [length_cons,leValue,leBytes,hd,hm,ih]

theorem leBytes_inj {m : ℕ} (hm : m < 256^k) (hn : n < 256^k) (h : leBytes k m = leBytes k n) :
    m = n := by
  rw [← leValue_leBytes hm,h,leValue_leBytes hn]

theorem readable_leBytes (k : ℕ) : Readable (fun n => n < 256^k) (leBytes k) :=
  readable_of_length k (fun n _ => length_leBytes k n) fun _ _ hm hn => leBytes_inj hm hn

end DripCore.PrefixCode
