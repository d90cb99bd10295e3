import DripCore.ExceptRules
import Mathlib.Data.List.Basic
import Mathlib.Tactic.Ring

/-!
# Fees by sizes

`FeeFrac` and the comparison of feerate diagrams. A sum of 64-bit fees or 32-bit sizes outside their
range is a failure. Products are taken in 128 bits, where nothing is lost.
-/
namespace DripCore
open ExceptRules

inductive FeeFracFailure where
  | signedOverflow
deriving DecidableEq

abbrev FeeFracResult := Except FeeFracFailure

@[ext] structure FeeFrac where
  fee : ℤ
  size : ℤ
deriving DecidableEq

namespace FeeFrac

def empty : FeeFrac := ⟨0,0⟩

instance : Add FeeFrac := ⟨fun a b => ⟨a.fee+b.fee,a.size+b.size⟩⟩

instance : Sub FeeFrac := ⟨fun a b => ⟨a.fee-b.fee,a.size-b.size⟩⟩

@[simp] theorem add_fee (a b : FeeFrac) : (a+b).fee = a.fee+b.fee := rfl

@[simp] theorem add_size (a b : FeeFrac) : (a+b).size = a.size+b.size := rfl

@[simp] theorem sub_fee (a b : FeeFrac) : (a-b).fee = a.fee-b.fee := rfl

@[simp] theorem sub_size (a b : FeeFrac) : (a-b).size = a.size-b.size := rfl

theorem add_sub_cancel_right (a b : FeeFrac) : a+b-b = a := by
  ext
  · exact Int.add_sub_cancel _ _
  · exact Int.add_sub_cancel _ _

def inRange (a : FeeFrac) : Bool :=
  decide (-2^63 ≤ a.fee ∧ a.fee < 2^63 ∧ -2^31 ≤ a.size ∧ a.size < 2^31)

def feeRateCompare (a b : FeeFrac) : Ordering := compare (a.fee*b.size) (b.fee*a.size)

/-- The order of `<`: by feerate, and the larger size first among equal ones. -/
def less (a b : FeeFrac) : Bool :=
  if a.fee*b.size = b.fee*a.size then decide (b.size < a.size)
  else decide (a.fee*b.size < b.fee*a.size)

theorem le_of_less {a b : FeeFrac} (h : a.less b = true) : a.fee*b.size ≤ b.fee*a.size := by
  rw [less] at h
  split_ifs at h with he
  · exact he.le
  · exact (of_decide_eq_true h).le

theorem le_of_not_less {a b : FeeFrac} (h : a.less b = false) : b.fee*a.size ≤ a.fee*b.size := by
  rw [less] at h
  split_ifs at h with he
  · exact he.ge
  · exact not_lt.mp (of_decide_eq_false h)

end FeeFrac

inductive PartialOrdering where
  | less
  | equivalent
  | greater
  | unordered
deriving DecidableEq

/-- One input of `CompareChunks`: what is not processed, the sum of what is, and whether it is
better. -/
structure ChunkCursor where
  chunks : List FeeFrac
  accum : FeeFrac
  better_somewhere : Bool
deriving DecidableEq

namespace ChunkCursor

def init (chunks : List FeeFrac) : ChunkCursor := ⟨chunks,.empty,false⟩

def advance (c : ChunkCursor) (point : FeeFrac) : ChunkCursor :=
  { c with
    chunks := c.chunks.tail
    accum := point }

def markBetter (c : ChunkCursor) (better : Bool) : ChunkCursor :=
  { c with better_somewhere := c.better_somewhere || better }

end ChunkCursor

def checkedFeeFrac (r : FeeFrac) : FeeFracResult FeeFrac :=
  if r.inRange then .ok r else .error .signedOverflow

def ChunkCursor.next_point (c : ChunkCursor) : FeeFracResult (Option FeeFrac) :=
  match c.chunks with
  | [] => return none
  | chunk::_ => do
      let point ← checkedFeeFrac (chunk+c.accum)
      return some point

/-- The comparison at the point `P` of the unprocessed side with the next point `B` of the other
side. A point `B` of the same size is processed as well. -/
def comparePoint (point_p : FeeFrac) (next_b : Option FeeFrac) (unproc other : ChunkCursor) :
    FeeFracResult (ChunkCursor × ChunkCursor) := do
  let point_a := other.accum
  let slope_ap ← checkedFeeFrac (point_p-point_a)
  match next_b with
  | none =>
    let cmp := slope_ap.feeRateCompare ⟨0,1⟩
    return ((unproc.advance point_p).markBetter (cmp == .gt),other.markBetter (cmp == .lt))
  | some point_b => do
      let slope_ab ← checkedFeeFrac (point_b-point_a)
      let cmp := slope_ap.feeRateCompare slope_ab
      let advanced := if point_b.size = point_p.size then other.advance point_b else other
      return ((unproc.advance point_p).markBetter (cmp == .gt),advanced.markBetter (cmp == .lt))

def compareStep (c0 c1 : ChunkCursor) : FeeFracResult (Option (ChunkCursor × ChunkCursor)) := do
  let next0 ← c0.next_point
  let next1 ← c1.next_point
  match next0, next1 with
  | none, none => return none
  | none, some p1 => do
      let (c1,c0) ← comparePoint p1 none c1 c0
      return some (c0,c1)
  | some p0, none => do
      let (c0,c1) ← comparePoint p0 none c0 c1
      return some (c0,c1)
  | some p0, some p1 =>
    if p1.size < p0.size then do
      let (c1,c0) ← comparePoint p1 (some p0) c1 c0
      return some (c0,c1)
    else do
      let (c0,c1) ← comparePoint p0 (some p1) c0 c1
      return some (c0,c1)

def compareFlags : Bool → Bool → PartialOrdering
  | false, false => .equivalent
  | true, false => .greater
  | false, true => .less
  | true, true => .unordered

/-- The loop; each round processes a chunk, so their number is enough fuel. -/
def compareLoop : ℕ → ChunkCursor → ChunkCursor → FeeFracResult PartialOrdering
  | 0, c0, c1 => return compareFlags c0.better_somewhere c1.better_somewhere
  | fuel+1, c0, c1 => do
      match ← compareStep c0 c1 with
      | none => return compareFlags c0.better_somewhere c1.better_somewhere
      | some (c0,c1) =>
        if c0.better_somewhere && c1.better_somewhere then return .unordered
        else compareLoop fuel c0 c1

def compareChunks (chunks0 chunks1 : List FeeFrac) : FeeFracResult PartialOrdering :=
  compareLoop (chunks0.length+chunks1.length) (.init chunks0) (.init chunks1)

end DripCore
