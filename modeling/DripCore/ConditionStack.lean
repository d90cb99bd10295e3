import DripCore.Interpreter

/-!
# The stack of conditions

`ConditionStack` stands for a stack of booleans, of which it keeps the size and the position of the
first false one. In 32 bits the greatest number says that none is false. What scripts can ask of it
is what they could ask of the booleans.
-/
namespace DripCore
open List

inductive ConditionOp where
  | pushBack (f : Bool)
  | popBack
  | toggleTop

open ConditionOp

/-- The operations on a vector of booleans, where they are defined. -/
def ConditionOp.onVector : ConditionOp → List Bool → Option (List Bool)
  | .pushBack f, v => if v.length+1 < 2^32-1 then some (v++[f]) else none
  | .popBack, v => if v = [] then none else some v.dropLast
  | .toggleTop, v => if v = [] then none else some (v.dropLast++[!v.getLastD false])

def ConditionOp.onStack : ConditionOp → ConditionStack → ConditionStack
  | .pushBack f, vfExec => vfExec.pushBack f
  | .popBack, vfExec => vfExec.popBack
  | .toggleTop, vfExec => vfExec.toggleTop

/-- The members of `ConditionStack`, of 32 bits. -/
structure ConditionWords where
  m_stack_size : ℕ
  m_first_false_pos : ℕ
deriving DecidableEq

namespace ConditionWords

def noFalse : ℕ := 2^32-1

def init : ConditionWords := ⟨0,noFalse⟩

variable (c : ConditionWords)

def empty : Bool := c.m_stack_size == 0

def allTrue : Bool := c.m_first_false_pos == noFalse

def pushBack (f : Bool) : ConditionWords where
  m_stack_size := (c.m_stack_size+1) % 2^32
  m_first_false_pos :=
    if c.m_first_false_pos = noFalse ∧ f = false then c.m_stack_size else c.m_first_false_pos

/-- Nothing is returned when the assertion fails, here and in `toggleTop`. -/
def popBack : Option ConditionWords :=
  if c.m_stack_size = 0 then none
  else
    let size := c.m_stack_size-1
    some ⟨size,if c.m_first_false_pos = size then noFalse else c.m_first_false_pos⟩

def toggleTop : Option ConditionWords :=
  if c.m_stack_size = 0 then none
  else some ⟨c.m_stack_size,
    if c.m_first_false_pos = noFalse then c.m_stack_size-1
    else if c.m_first_false_pos = c.m_stack_size-1 then noFalse
    else c.m_first_false_pos⟩

/-- The interpreter's stack, without the number that stands for no position. -/
def stack : ConditionStack :=
  ⟨c.m_stack_size,if c.m_first_false_pos = noFalse then none else some c.m_first_false_pos⟩

end ConditionWords

open ConditionWords

def ConditionOp.onWords : ConditionOp → ConditionWords → Option ConditionWords
  | .pushBack f, c => some (c.pushBack f)
  | .popBack, c => c.popBack
  | .toggleTop, c => c.toggleTop

def firstFalse (v : List Bool) : ℕ := if false ∈ v then v.idxOf false else noFalse

/-- The words that stand for a vector. -/
structure Stands (c : ConditionWords) (v : List Bool) : Prop where
  size : c.m_stack_size = v.length
  pos : c.m_first_false_pos = firstFalse v
  fits : v.length < 2^32-1

theorem firstFalse_cases (v : List Bool) : false ∈ v ∧ firstFalse v < v.length ∨ false ∉ v ∧
    firstFalse v = noFalse := by
  unfold firstFalse
  split_ifs with h
  · exact .inl ⟨h,idxOf_lt_length_iff.mpr h⟩
  · exact .inr ⟨h,rfl⟩

theorem firstFalse_concat (v : List Bool) (f : Bool) : firstFalse (v++[f]) =
    if false ∈ v then firstFalse v else if f then noFalse else v.length := by
  unfold firstFalse
  by_cases h : false ∈ v <;> cases f <;> simp [h,idxOf_append]

variable {v v' : List Bool} {c : ConditionWords}

theorem exists_concat (h : v ≠ []) : ∃ w f,
    v = w++[f] := ⟨v.dropLast,v.getLast h,(dropLast_append_getLast h).symm⟩

/-- A step on the words is the step on the vector that they stand for, and the interpreter's. -/
theorem Stands.step {op : ConditionOp} (h : Stands c v) (ho : op.onVector v = some v') :
    ∃ c', op.onWords c = some c' ∧ Stands c' v' ∧ c'.stack = op.onStack c.stack := by
  obtain ⟨hs,hp,hf⟩ := h
  obtain ⟨size,pos⟩ := c
  dsimp only at hs hp
  subst hs hp
  -- each operation reads and moves the end of the vector
  cases op with
  | pushBack f =>
    rw [onVector] at ho
    split_ifs at ho with hr
    cases ho
    have hc := firstFalse_cases v
    refine ⟨_,rfl,⟨?_,?_,by simpa using hr⟩,?_⟩
    · rw [length_append,length_singleton]
      exact Nat.mod_eq_of_lt (show v.length+1 < 2^32 by omega)
    · grind [ConditionWords.pushBack,firstFalse_concat,noFalse]
    · grind [ConditionWords.pushBack,ConditionOp.onStack,ConditionStack.pushBack,
        ConditionWords.stack,
        ConditionStack.allTrue,noFalse]
  | popBack =>
    rw [onVector] at ho
    split_ifs at ho with hn
    obtain ⟨w,f,rfl⟩ := exists_concat hn
    cases ho
    have hc := firstFalse_cases w
    rw [dropLast_concat,firstFalse_concat]
    rw [length_append,length_singleton] at *
    rw [onWords,ConditionWords.popBack,if_neg (Nat.succ_ne_zero w.length)]
    refine ⟨_,rfl,⟨rfl,?_,by omega⟩,?_⟩
    · grind [noFalse]
    · grind [ConditionOp.onStack,ConditionStack.popBack,stack,noFalse]
  | toggleTop =>
    rw [onVector] at ho
    split_ifs at ho with hn
    obtain ⟨w,f,rfl⟩ := exists_concat hn
    cases ho
    have hc := firstFalse_cases w
    rw [dropLast_concat,firstFalse_concat,getLastD_concat]
    rw [length_append,length_singleton] at *
    rw [onWords,ConditionWords.toggleTop,if_neg (Nat.succ_ne_zero w.length)]
    refine ⟨_,rfl,⟨by simp,?_,by simpa using hf⟩,?_⟩
    · grind [firstFalse_concat,noFalse]
    · grind [ConditionOp.onStack,ConditionStack.toggleTop,stack,noFalse]

theorem Stands.run {ops : List ConditionOp} (h : Stands c v)
    (ho : ops.foldlM (fun v op => op.onVector v) v = some v') :
    ∃ c', ops.foldlM (fun c op => op.onWords c) c = some c' ∧ Stands c' v' ∧
      c'.stack = ops.foldl (fun vfExec op => op.onStack vfExec) c.stack := by
  induction ops generalizing c v with
  | nil =>
    cases ho
    exact ⟨c,rfl,h,rfl⟩
  | cons op ops ih =>
    obtain ⟨v1,hs,ho⟩ := Option.bind_eq_some_iff.mp ho
    obtain ⟨c1,hw,h1,ht⟩ := h.step hs
    obtain ⟨c',hr,h',hst⟩ := ih h1 ho
    exact ⟨c',by rw [foldlM_cons,hw]; exact hr,h',by rw [hst,ht]; rfl⟩

/-- After any operations, `empty` and `all_true` answer as on the vector. -/
theorem conditionWords_refine (ops : List ConditionOp) (v : List Bool)
    (h : ops.foldlM (fun v op => op.onVector v) [] = some v) :
    ∃ c, ops.foldlM (fun c op => op.onWords c) init = some c ∧
      c.empty = v.isEmpty ∧ c.allTrue = v.all id ∧
      c.stack = ops.foldl (fun vfExec op => op.onStack vfExec) ConditionStack.init := by
  have hn : Stands init [] := ⟨rfl,rfl,by decide⟩
  obtain ⟨c,hr,⟨hs,hp,hf⟩,ht⟩ := hn.run h
  refine ⟨c,hr,?_,?_,ht⟩
  · rw [empty,hs]
    cases v <;> rfl
  · have hc := firstFalse_cases v
    rw [Bool.eq_iff_iff,allTrue,beq_iff_eq,hp,all_eq_true]
    grind [noFalse]

theorem conditionWords_refine_toggled :
    ∃ c, [pushBack false, .pushBack true, .toggleTop, .popBack, .toggleTop].foldlM
        (fun c op => op.onWords c) init = some c ∧
      c.empty = [true].isEmpty ∧ c.allTrue = [true].all id :=
  have ⟨c,hr,he,ht,_⟩ := conditionWords_refine _ [true] (by decide)
  ⟨c,hr,he,ht⟩

end DripCore
