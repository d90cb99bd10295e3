import Mathlib.Data.List.Basic
import Mathlib.Data.Option.Basic

/-!
# Receiving a stream in chunks

A machine reads a stream one symbol at a time and yields messages until it fails. A receiver absorbs
a chunk part by part and takes complete messages out in between. If each part is handled as by the
machine, messages and verdict do not depend on how the stream is cut.
-/
namespace DripCore.ByteMachine
open List Nat

variable {α β σ μ : Type}

/-- One symbol: a failure, or the next state and maybe a message. -/
abbrev Machine (α β μ : Type) := α → β → Option (α × Option μ)

/-- The messages of a stream, and the state after it unless the machine has failed. -/
def run (step : Machine α β μ) : Option α → List β → List μ × Option α
  | none, _ => ([],none)
  | some a, [] => ([],some a)
  | some a, x::xs =>
    match step a x with
    | none => ([],none)
    | some (a',m) =>
      let rest := run step (some a') xs
      (m.toList++rest.1,rest.2)

@[simp] theorem run_none (step : Machine α β μ) (xs : List β) : run step none xs = ([],none) := by
  cases xs <;> rfl

@[simp] theorem run_nil (step : Machine α β μ) (o : Option α) : run step o [] = ([],o) := by
  cases o <;> rfl

theorem run_append (step : Machine α β μ) (o : Option α) (xs ys : List β) : run step o (xs++ys) =
      ((run step o xs).1++(run step (run step o xs).2 ys).1,(run step (run step o xs).2 ys).2) := by
  induction xs generalizing o with
  | nil => rw [nil_append,run_nil,nil_append]
  | cons x xs ih =>
    cases o with
    | none => simp
    | some a =>
      rw [cons_append,run,run]
      cases step a x with
      | none => simp
      | some next =>
        dsimp only
        rw [ih,append_assoc]

variable {n : ℕ} {o : Option α}

theorem run_of_take_failed {step : Machine α β μ} {xs : List β}
    (h : run step o (xs.take n) = ([],none)) : run step o xs = ([],none) := by
  rw [← take_append_drop n xs,run_append,h,run_none]
  rfl

/-- What takes chunks: `absorb` returns what is left of a chunk, or fails. -/
structure Receiver (σ β μ : Type) where
  absorb : σ → List β → Option (σ × List β)
  complete : σ → Bool
  extract : σ → σ × μ

/-- A message is taken out as soon as it is complete. -/
def Receiver.collect (r : Receiver σ β μ) (s : σ) : σ × List μ :=
  if r.complete s then ((r.extract s).1,[(r.extract s).2]) else (s,[])

def Receiver.feedLoop (r : Receiver σ β μ) : ℕ → σ → List β → List μ × Option σ
  | _, s, [] => ([],some s)
  | 0, _, _::_ => ([],none)
  | fuel+1, s, x::xs =>
    match r.absorb s (x::xs) with
    | none => ([],none)
    | some (s',left) =>
      let rest := r.feedLoop fuel (r.collect s').1 left
      ((r.collect s').2++rest.1,rest.2)

/-- One chunk. Every call absorbs a symbol or more. -/
def Receiver.feed (r : Receiver σ β μ) (s : σ) (chunk : List β) : List μ × Option σ :=
  r.feedLoop chunk.length s chunk

def Receiver.feedAll (r : Receiver σ β μ) : Option σ → List (List β) → List μ × Option σ
  | o, [] => ([],o)
  | none, _::_ => ([],none)
  | some s, chunk::chunks =>
    let first := r.feed s chunk
    let rest := r.feedAll first.2 chunks
    (first.1++rest.1,rest.2)

/-- One call fails where the machine fails, or absorbs some symbols as the machine does. The
receiver may not have noticed yet that the machine has failed. -/
def Absorbs (r : Receiver σ β μ) (step : Machine α β μ) (R : σ → Option α → Prop) (s : σ)
    (o : Option α)
    (chunk : List β) : Prop :=
  (r.absorb s chunk = none ∧ run step o chunk = ([],none)) ∨
  ∃ n s', 0 < n ∧ n ≤ chunk.length ∧ r.absorb s chunk = some (s',chunk.drop n) ∧
    (run step o (chunk.take n)).1 = (r.collect s').2 ∧
      R (r.collect s').1 (run step o (chunk.take n)).2

/-- Every call does. -/
def Simulates (r : Receiver σ β μ) (step : Machine α β μ) (R : σ → Option α → Prop) : Prop :=
  ∀ (s : σ) (o : Option α) (chunk : List β), R s o → chunk ≠ [] → Absorbs r step R s o chunk

variable {r : Receiver σ β μ} {step : Machine α β μ} {R : σ → Option α → Prop}

/-- The end of a receiver matches the end of the machine. -/
def Agrees (R : σ → Option α → Prop) : Option σ → Option α → Prop
  | none, o => o = none
  | some s, o => R s o

theorem Simulates.feedLoop (h : Simulates r step R) (fuel : ℕ) (s : σ) (o : Option α)
    (chunk : List β)
    (hs : R s o) (hf : chunk.length ≤ fuel) :
    (r.feedLoop fuel s chunk).1 = (run step o chunk).1 ∧
      Agrees R (r.feedLoop fuel s chunk).2 (run step o chunk).2 := by
  induction fuel generalizing s o chunk with
  | zero =>
    rw [length_eq_zero_iff.mp (le_zero.mp hf),run_nil]
    exact ⟨rfl,hs⟩
  | succ fuel ih =>
    cases chunk with
    | nil =>
      rw [run_nil]
      exact ⟨rfl,hs⟩
    | cons x xs =>
      rcases h s o (x::xs) hs (cons_ne_nil x xs) with
        ⟨hfa,hr⟩ | ⟨n,s',hp,hl,ha,hm,hn⟩
      · rw [Receiver.feedLoop,hfa,hr]
        exact ⟨rfl,rfl⟩
      · have hh : ((x::xs).drop n).length ≤ fuel := by
          rw [length_drop]
          omega
        have he := ih (r.collect s').1 _ _ hn hh
        have hsp : run step o (x::xs) = run step o ((x::xs).take n++(x::xs).drop n) := by
          rw [take_append_drop]
        rw [Receiver.feedLoop,ha,hsp,run_append,hm]
        dsimp only
        rw [he.1]
        exact ⟨rfl,he.2⟩

theorem Simulates.feed (h : Simulates r step R) {s : σ} (hs : R s o) (chunk : List β) :
    (r.feed s chunk).1 = (run step o chunk).1 ∧ Agrees R (r.feed s chunk).2 (run step o chunk).2 :=
  h.feedLoop chunk.length s o chunk hs (Nat.le_refl _)

/-- However a stream is cut into chunks, the receiver yields the messages of the stream. -/
theorem Simulates.feedAll (h : Simulates r step R) (chunks : List (List β)) {so : Option σ}
    (hs : Agrees R so o) :
    (r.feedAll so chunks).1 = (run step o chunks.flatten).1 ∧
      Agrees R (r.feedAll so chunks).2 (run step o chunks.flatten).2 := by
  induction chunks generalizing so o with
  | nil =>
    rw [flatten_nil,run_nil]
    exact ⟨rfl,hs⟩
  | cons chunk chunks ih =>
    cases so with
    | none =>
      rw [show o = none from hs,run_none]
      exact ⟨rfl,rfl⟩
    | some s =>
      obtain ⟨hm,hn⟩ := h.feed hs chunk
      obtain ⟨hr,he⟩ := ih hn
      rw [Receiver.feedAll,flatten_cons,run_append,← hm]
      rw [hr]
      exact ⟨rfl,he⟩

/-- What the symbols of one message so far amount to. -/
inductive Status (μ : Type) where
  | incomplete
  | failed
  | complete (m : μ)

/-- A machine that keeps the symbols of the message that is being read. -/
def framing (status : List β → Status μ) : Machine (List β) β μ := fun read x =>
  match status (read++[x]) with
  | .incomplete => some (read++[x],none)
  | .failed => none
  | .complete m => some ([],some m)

/-- What a machine does after the last symbol of a part of a message. -/
def Status.result (read : List β) : Status μ → List μ × Option (List β)
  | .incomplete => ([],some read)
  | .failed => ([],none)
  | .complete m => ([m],some [])

/-- Up to its last symbol nothing happens, and then what is read counts. -/
theorem run_framing (s : List β → Status μ) (re xs : List β) (hx : xs ≠ [])
    (h : ∀ k, 0 < k → k < xs.length → s (re++xs.take k) = .incomplete) :
    run (framing s) (some re) xs = (s (re++xs)).result (re++xs) := by
  induction xs generalizing re with
  | nil => exact absurd rfl hx
  | cons x xs ih =>
    cases xs with
    | nil =>
      rw [run,framing]
      cases s (re++[x]) <;> rfl
    | cons y ys =>
      have hf : s (re++[x]) = .incomplete := h 1 Nat.one_pos (by simp)
      have hr := ih (re++[x]) (cons_ne_nil y ys) fun k hk hl => by
        have hn := h (k+1) (succ_pos k) (by simpa using hl)
        rw [take_succ_cons,← singleton_append,← append_assoc] at hn
        exact hn
      rw [run,framing,hf]
      dsimp only
      rw [hr,append_assoc]
      rfl

theorem run_framing_take (s : List β → Status μ) (re chunk : List β) (hn : 0 < n)
    (he : n ≤ chunk.length) (h : ∀ k, 0 < k → k < n → s (re++chunk.take k) = .incomplete) :
    run (framing s) (some re) (chunk.take n) =
      (s (re++chunk.take n)).result (re++chunk.take n) := by
  have hl : (chunk.take n).length = n := by
    rw [List.length_take,Nat.min_eq_left he]
  refine run_framing s re _ (List.ne_nil_of_length_pos (by omega)) fun k hk ht => ?_
  rw [hl] at ht
  rw [List.take_take,Nat.min_eq_left (Nat.le_of_lt ht)]
  exact h k hk ht

end DripCore.ByteMachine
