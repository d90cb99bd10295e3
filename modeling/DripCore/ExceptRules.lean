import Mathlib.Init

/-!
# Running computations that may fail

Rewriting rules for `Except`. A computation refines another one that returns whatever the first
returns; binds and branches keep this relation.
-/
namespace DripCore.ExceptRules

variable {ε α β : Type}

@[simp] theorem ok_bind (a : α) (f : α → Except ε β) : (Except.ok a >>= f) = f a := rfl

@[simp] theorem error_bind (e : ε) (f : α → Except ε β) :
    ((Except.error e : Except ε α) >>= f) = Except.error e := rfl

@[simp] theorem pure_eq_ok (a : α) : (pure a : Except ε α) = Except.ok a := rfl

@[simp] theorem throw_eq_error (e : ε) : (throw e : Except ε α) = Except.error e := rfl

/-- A step that is taken only under a condition. -/
def applyIf (b : Bool) (f : α → Except ε α) (a : α) : Except ε α := if b then f a else .ok a

@[simp] theorem applyIf_true (f : α → Except ε α) (a : α) : applyIf true f a = f a := rfl

@[simp] theorem applyIf_false (f : α → Except ε α) (a : α) : applyIf false f a = .ok a := rfl

theorem bind_eq_ok {x : Except ε α} {f : α → Except ε β} {b : β} :
    (x >>= f) = Except.ok b ↔ ∃ a, x = Except.ok a ∧ f a = Except.ok b := by
  cases x with
  | error e => simp
  | ok a => simp

/-- A failure under a condition. -/
def failIf (b : Bool) (e : ε) : Except ε Unit := if b then .error e else .ok ()

theorem failIf_of_false {b : Bool} {e : ε} (h : b = false) : failIf b e = .ok () := by
  rw [h]
  rfl

/-- A check that is made only under a condition. -/
def checkIf (b : Bool) (x : Except ε Unit) : Except ε Unit := if b then x else .ok ()

/-- What the first computation returns, the second returns too. -/
def Refines (x y : Except ε α) : Prop := ∀ a, x = .ok a → y = .ok a

namespace Refines

theorem refl (x : Except ε α) : Refines x x := fun _ h => h

theorem error (e : ε) (y : Except ε α) : Refines (.error e) y := fun _ h => nomatch h

theorem unit (x : Except ε Unit) : Refines x (.ok ()) := fun _ _ => rfl

theorem bind {x y : Except ε α} {f g : α → Except ε β} (h : Refines x y)
    (hf : ∀ a, Refines (f a) (g a)) : Refines (x >>= f) (y >>= g) := by
  intro b hb
  obtain ⟨a,ha,hb⟩ := bind_eq_ok.mp hb
  rw [h a ha]
  exact hf a b hb

theorem ite {c : Prop} [Decidable c] {x x' y y' : Except ε α} (h : Refines x x')
    (h' : Refines y y') :
    Refines (if c then x else y) (if c then x' else y') := by
  split
  · exact h
  · exact h'

theorem checkIf {a b : Bool} {x y : Except ε Unit} (h : a = true → b = true) (hx : Refines x y) :
    Refines (checkIf b x) (checkIf a y) := by
  cases a with
  | false => exact unit _
  | true =>
    rw [h rfl]
    exact hx

theorem failIf {a b : Bool} (h : a = true → b = true) (e : ε) : Refines (failIf b e) (failIf a e) :=
  checkIf h (refl (.error e))

end Refines

end DripCore.ExceptRules
