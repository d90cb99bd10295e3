import DripCore.FeeFrac
import DripCore.PiecewiseLinear
import Mathlib.Data.Real.Basic

/-!
# The comparison of feerate diagrams is exact

The loop of `CompareChunks` compares the two diagrams at every point of either of them, between
which both are straight. The only step that may overflow although the sums of both inputs are in
range is the difference between points of different diagrams.
-/
namespace DripCore
open ChunkCursor ExceptRules Int List Option PiecewiseLinear Prod

variable {K : Type*} [Field K] [LinearOrder K] {c c0 c1 c0' c1' : ChunkCursor} {m m' : ℤ} {x : K}
  {chunk : FeeFrac} {chunks : List FeeFrac}

/-- The diagram of a list of chunks: through the cumulative sizes and fees, then horizontal. -/
def diagram (chunks : List FeeFrac) : K →
    K := polyline (chunks.map fun chunk => ⟨chunk.size,chunk.fee⟩)

def ChunkCursor.value (c : ChunkCursor) (x : K) : K := c.accum.fee+diagram c.chunks (x-c.accum.size)

section

theorem diagram_nil (x : K) : diagram [] x = 0 := rfl

theorem value_of_nil (h : c.chunks = []) (x : K) : c.value x = c.accum.fee := by
  rw [value,h,diagram_nil,add_zero]

variable [IsStrictOrderedRing K]

theorem value_of_le (h : c.chunks = chunk::chunks) (hx : x ≤ ((chunk+c.accum).size : ℤ)) :
    c.value x = c.accum.fee+chunk.fee*(x-c.accum.size) / chunk.size := by
  rw [value,h,diagram,map_cons,polyline_cons_of_le]
  rw [FeeFrac.add_size,cast_add] at hx
  exact sub_le_iff_le_add.mpr hx

theorem forward_of_positive (h : ∀ chunk ∈ chunks, 0 < chunk.size) :
    Forward (chunks.map fun chunk => (⟨chunk.size,chunk.fee⟩ : Segment K)) := by
  intro s hs
  obtain ⟨chunk,hc,rfl⟩ := mem_map.mp hs
  exact cast_pos.mpr (h chunk hc)

theorem value_advance (h : c.chunks = chunk::chunks) (hpos : ∀ d ∈ c.chunks, 0 < d.size)
    (hx : ((chunk+c.accum).size : ℤ) ≤ x) : (c.advance (chunk+c.accum)).value x = c.value x := by
  rw [h] at hpos
  rw [FeeFrac.add_size,cast_add] at hx
  have hf := forward_of_positive (K := K) hpos
  rw [value,value,advance,h,diagram,diagram,map_cons,polyline_cons_of_ge hf (by linarith)]
  simp only [tail_cons,FeeFrac.add_fee,FeeFrac.add_size,cast_add]
  ring_nf

theorem value_next (h : c.chunks = chunk::chunks) (hpos : 0 < chunk.size) :
    c.value ((chunk+c.accum).size : K) = ((chunk+c.accum).fee : ℤ) := by
  have hn : (chunk.size : K) ≠ 0 := by exact_mod_cast hpos.ne'
  rw [value_of_le h le_rfl,FeeFrac.add_size,FeeFrac.add_fee,cast_add,cast_add,
    add_sub_cancel_right,mul_div_cancel_right₀ _ hn,add_comm]

end

/-- A cursor whose processed points are up to a size, and whose other points are beyond it. -/
structure ChunkCursor.Ready (m : ℤ) (c : ChunkCursor) : Prop where
  positive : ∀ chunk ∈ c.chunks, 0 < chunk.size
  accum_le : c.accum.size ≤ m
  next_gt : ∀ chunk ∈ c.chunks.head?, m < (chunk+c.accum).size

theorem ChunkCursor.Ready.markBetter (h : c.Ready m) (b : Bool) : (c.markBetter b).Ready m :=
  ⟨h.positive,h.accum_le,h.next_gt⟩

def ChunkCursor.slope (c : ChunkCursor) : FeeFrac := c.chunks.head?.getD ⟨0,1⟩

theorem value_slope [IsStrictOrderedRing K]
    (hn : ∀ chunk ∈ c.chunks.head?, x ≤ ((chunk+c.accum).size : ℤ)) :
    c.value x = c.accum.fee+c.slope.fee*(x-c.accum.size) / c.slope.size := by
  cases hc : c.chunks with
  | nil =>
    rw [value_of_nil hc,ChunkCursor.slope,hc]
    simp
  | cons chunk chunks =>
    rw [value_of_le hc (hn chunk (by rw [hc]; rfl)),ChunkCursor.slope,hc]
    rfl

/-- One round: the comparison has moved on to a size, up to which both sides are straight. -/
structure Compared (K : Type*) [Field K] [LinearOrder K] (m m' : ℤ) (c0 c1 c0' c1' : ChunkCursor) :
    Prop where
  lt : m < m'
  ready0 : c0'.Ready m'
  ready1 : c1'.Ready m'
  value0 : ∀ x : K, (m' : K) ≤ x → c0'.value x = c0.value x
  value1 : ∀ x : K, (m' : K) ≤ x → c1'.value x = c1.value x
  affine0 : AffineOn (c0.value : K → K) m m'
  affine1 : AffineOn (c1.value : K → K) m m'
  better0 : c0'.better_somewhere = true ↔
    c0.better_somewhere = true ∨ c1.value (m' : K) < c0.value (m' : K)
  better1 : c1'.better_somewhere = true ↔
    c1.better_somewhere = true ∨ c0.value (m' : K) < c1.value (m' : K)
  shorter : c0'.chunks.length+c1'.chunks.length < c0.chunks.length+c1.chunks.length
  tail0 : c0'.chunks <:+ c0.chunks
  tail1 : c1'.chunks <:+ c1.chunks

theorem Compared.swap (h : Compared K m m' c0 c1 c0' c1') : Compared K m m' c1 c0 c1' c0' where
  lt := h.lt
  ready0 := h.ready1
  ready1 := h.ready0
  value0 := h.value1
  value1 := h.value0
  affine0 := h.affine1
  affine1 := h.affine0
  better0 := h.better1
  better1 := h.better0
  shorter := by
    have := h.shorter
    omega
  tail0 := h.tail1
  tail1 := h.tail0

variable {slope : FeeFrac} {cs : ChunkCursor × ChunkCursor}

section
variable [IsStrictOrderedRing K]

theorem affineOn_value (hn : ∀ chunk ∈ c.chunks.head?, m' ≤ (chunk+c.accum).size) :
    AffineOn (c.value : K → K) m m' := by
  refine ⟨c.accum.fee-c.slope.fee*c.accum.size / c.slope.size,c.slope.fee / c.slope.size,
    fun x _ hx' => ?_⟩
  rw [value_slope fun chunk hc => hx'.trans (cast_le.mpr (hn chunk hc))]
  ring

theorem slope_pos (h : c.Ready m) : 0 < c.slope.size := by
  cases hc : c.chunks with
  | nil =>
    rw [ChunkCursor.slope,hc]
    exact one_pos
  | cons chunk chunks =>
    rw [ChunkCursor.slope,hc]
    exact h.positive chunk (hc ▸ mem_cons_self)

/-- Comparing slopes from the last point of the other side is comparing fees. -/
theorem compare_slope (h : c.Ready m) {p : FeeFrac}
    (hn : ∀ chunk ∈ c.chunks.head?, p.size ≤ (chunk+c.accum).size) :
    ((p-c.accum).feeRateCompare c.slope = .gt ↔ c.value (p.size : K) < p.fee) ∧
      ((p-c.accum).feeRateCompare c.slope = .lt ↔ (p.fee : K) < c.value (p.size : K)) := by
  have hpos : (0 : K) < c.slope.size := cast_pos.mpr (slope_pos h)
  rw [value_slope fun chunk hc => cast_le.mpr (hn chunk hc),FeeFrac.feeRateCompare,
    compare_gt_iff_gt,compare_lt_iff_lt,← lt_sub_iff_add_lt',
    ← sub_lt_iff_lt_add',div_lt_iff₀ hpos,lt_div_iff₀ hpos]
  constructor
  · exact_mod_cast Iff.rfl
  · exact_mod_cast Iff.rfl

/-- A point of the other side at the same size is processed too. -/
def ChunkCursor.catchUp (c : ChunkCursor) (size : ℤ) : ChunkCursor :=
  match c.chunks with
  | [] => c
  | chunk::_ => if (chunk+c.accum).size = size then c.advance (chunk+c.accum) else c

theorem ready_advance (hpos : ∀ chunk ∈ c.chunks, 0 < chunk.size) (p : FeeFrac) :
    (c.advance p).Ready p.size where
  positive chunk hc := hpos chunk (mem_of_mem_tail hc)
  accum_le := le_rfl
  next_gt chunk hc := by
    have hc := hpos chunk (mem_of_mem_tail (mem_of_mem_head? hc))
    exact lt_add_of_pos_left p.size hc

theorem catchUp_spec (h : c.Ready m) {size : ℤ} (hm : m < size)
    (hn : ∀ chunk ∈ c.chunks.head?, size ≤ (chunk+c.accum).size) :
    (c.catchUp size).Ready size ∧ (∀ x : K, (size : K) ≤ x → (c.catchUp size).value x = c.value x) ∧
      (c.catchUp size).chunks <:+ c.chunks ∧
      (c.catchUp size).better_somewhere = c.better_somewhere := by
  unfold catchUp
  split
  · next hc =>
      refine ⟨⟨h.positive,h.accum_le.trans hm.le,?_⟩,fun _ _ => rfl,suffix_refl _,rfl⟩
      rw [hc]
      exact fun chunk => nofun
  · next chunk chunks hc =>
      have hh : chunk ∈ c.chunks.head? := by rw [hc]; rfl
      split_ifs with hs
      · refine ⟨?_,fun x hx => ?_,tail_suffix _,rfl⟩
        · rw [← hs]
          exact ready_advance h.positive _
        · exact value_advance hc h.positive (hs ▸ hx)
      · refine ⟨⟨h.positive,h.accum_le.trans hm.le,?_⟩,fun _ _ => rfl,suffix_refl _,rfl⟩
        intro chunk' hch'
        obtain rfl : chunk' = chunk := some.inj (hch'.symm.trans hh)
        exact lt_of_le_of_ne (hn chunk' hh) (Ne.symm hs)

/-- The cursors after a comparison at a point of the first one. -/
def comparedAt (point : FeeFrac) (unproc other : ChunkCursor) : ChunkCursor × ChunkCursor :=
  ((unproc.advance point).markBetter ((point-other.accum).feeRateCompare other.slope == .gt),
    (other.catchUp point.size).markBetter ((point-other.accum).feeRateCompare other.slope == .lt))

theorem compared_comparedAt {u o : ChunkCursor} (hu : u.Ready m) (ho : o.Ready m)
    (hc : u.chunks = chunk::chunks)
    (hn : ∀ b ∈ o.chunks.head?, (chunk+u.accum).size ≤ (b+o.accum).size) :
    Compared K m (chunk+u.accum).size u o (comparedAt (chunk+u.accum) u o).1
      (comparedAt (chunk+u.accum) u o).2 := by
  have hh : chunk ∈ u.chunks.head? := by rw [hc]; rfl
  have hlt := hu.next_gt chunk hh
  have hv := value_next (K := K) hc (hu.positive chunk (hc ▸ mem_cons_self))
  obtain ⟨hr,hs,ht,hf⟩ := catchUp_spec (K := K) ho hlt hn
  obtain ⟨hg,hlt'⟩ := compare_slope (K := K) ho hn
  refine ⟨hlt,(ready_advance hu.positive _).markBetter _,hr.markBetter _,
    fun x hx => value_advance hc hu.positive hx,hs,affineOn_value fun b hb => ?_,affineOn_value hn,
      ?_,?_,?_,tail_suffix _,ht⟩
  · obtain rfl : b = chunk := some.inj (hb.symm.trans hh)
    exact le_rfl
  · rw [hv,← hg,← beq_iff_eq (b := Ordering.gt)]
    exact Bool.or_eq_true _ _ ▸ Iff.rfl
  · rw [hv,← hlt',← hf,← beq_iff_eq (b := Ordering.lt)]
    exact Bool.or_eq_true _ _ ▸ Iff.rfl
  · have hl := ht.length_le
    change u.chunks.tail.length+_ < _
    rw [hc,tail_cons,length_cons]
    change _+(o.catchUp _).chunks.length < _
    omega

/-- The next comparison in exact arithmetic: the slope `AP`, and the cursors afterwards. -/
def exactStep (c0 c1 : ChunkCursor) : Option (FeeFrac × (ChunkCursor × ChunkCursor)) :=
  match c0.chunks, c1.chunks with
  | [], [] => none
  | [], chunk1::_ =>
    some (chunk1+c1.accum-c0.accum,(comparedAt (chunk1+c1.accum) c1 c0).swap)
  | chunk0::_, [] => some (chunk0+c0.accum-c1.accum,comparedAt (chunk0+c0.accum) c0 c1)
  | chunk0::_, chunk1::_ =>
    if (chunk1+c1.accum).size < (chunk0+c0.accum).size then
      some (chunk1+c1.accum-c0.accum,(comparedAt (chunk1+c1.accum) c1 c0).swap)
    else some (chunk0+c0.accum-c1.accum,comparedAt (chunk0+c0.accum) c0 c1)

theorem exactStep_eq_none (h : exactStep c0 c1 = none) : c0.chunks = [] ∧ c1.chunks = [] := by
  unfold exactStep at h
  split at h
  · next h0 h1 => exact ⟨h0,h1⟩
  · exact absurd h (by simp)
  · exact absurd h (by simp)
  · split_ifs at h

theorem compared_exactStep (h0 : c0.Ready m) (h1 : c1.Ready m)
    (h : exactStep c0 c1 = some (slope,cs)) :
    ∃ m', Compared K m m' c0 c1 cs.1 cs.2 := by
  unfold exactStep at h
  split at h
  · exact absurd h (by simp)
  · next chunk1 rest1 hc0 hc1 =>
      obtain ⟨-,rfl⟩ := mk.inj (some.inj h)
      refine ⟨_,(compared_comparedAt h1 h0 hc1 ?_).swap⟩
      rw [hc0]
      exact fun b => nofun
  · next chunk0 rest0 hc0 hc1 =>
      obtain ⟨-,rfl⟩ := mk.inj (some.inj h)
      refine ⟨_,compared_comparedAt h0 h1 hc0 ?_⟩
      rw [hc1]
      exact fun b => nofun
  · next chunk0 rest0 chunk1 rest1 hc0 hc1 =>
      split_ifs at h with hs
      · obtain ⟨-,rfl⟩ := mk.inj (some.inj h)
        refine ⟨_,(compared_comparedAt h1 h0 hc1 ?_).swap⟩
        rw [hc0]
        rintro b ⟨rfl⟩
        exact hs.le
      · obtain ⟨-,rfl⟩ := mk.inj (some.inj h)
        refine ⟨_,compared_comparedAt h0 h1 hc0 ?_⟩
        rw [hc1]
        rintro b ⟨rfl⟩
        exact not_lt.mp hs

end

/-- Chunks that are values of their type, with sums that do not overflow. -/
def SumsFit : FeeFrac → List FeeFrac → Prop
  | _, [] => True
  | accum, chunk::chunks =>
    chunk.inRange = true ∧ (chunk+accum).inRange = true ∧ SumsFit (chunk+accum) chunks

instance decidableSumsFit : ∀ accum chunks, Decidable (SumsFit accum chunks)
  | _, [] => .isTrue trivial
  | accum, chunk::chunks =>
    have := decidableSumsFit (chunk+accum) chunks
    inferInstanceAs (Decidable (_ ∧ _ ∧ _))

variable {r : FeeFrac}

theorem sumsFit_advance (hc : c.chunks = chunk::chunks) (h : SumsFit c.accum c.chunks) :
    SumsFit (chunk+c.accum) (c.advance (chunk+c.accum)).chunks := by
  rw [hc] at h
  rw [advance,hc]
  exact h.2.2

theorem sumsFit_catchUp (h : SumsFit c.accum c.chunks) (size : ℤ) :
    SumsFit (c.catchUp size).accum (c.catchUp size).chunks := by
  unfold catchUp
  split
  · exact h
  · next chunk chunks hc =>
      split_ifs
      · exact sumsFit_advance hc h
      · exact h

theorem next_point_eq (h : SumsFit c.accum c.chunks) :
    c.next_point = .ok (c.chunks.head?.map (· + c.accum)) := by
  unfold next_point
  split
  · next hc =>
      rw [hc]
      rfl
  · next chunk chunks hc =>
      rw [hc] at h ⊢
      rw [checkedFeeFrac,h.2.1]
      rfl

theorem checkedFeeFrac_ok (h : r.inRange = true) : checkedFeeFrac r = .ok r := if_pos h

theorem checkedFeeFrac_error (h : r.inRange = false) : checkedFeeFrac r = .error .signedOverflow :=
  if_neg (Bool.eq_false_iff.mp h)

/-- In machine arithmetic only the slope `AP` may overflow: the slope `AB` is a chunk. -/
theorem comparePoint_eq {o : ChunkCursor} (ho : SumsFit o.accum o.chunks) (p : FeeFrac)
    (u : ChunkCursor) :
    comparePoint p (o.chunks.head?.map (· + o.accum)) u o =
      if (p-o.accum).inRange then .ok (comparedAt p u o)
      else .error .signedOverflow := by
  cases hs : (p-o.accum).inRange with
  | false =>
    rw [comparePoint,checkedFeeFrac_error hs]
    rfl
  | true =>
    rw [comparePoint,checkedFeeFrac_ok hs,comparedAt,ChunkCursor.slope,catchUp]
    cases hc : o.chunks with
    | nil => rfl
    | cons chunk chunks =>
      rw [hc] at ho
      rw [head?_cons,map_some]
      dsimp only
      rw [FeeFrac.add_sub_cancel_right,checkedFeeFrac_ok ho.1]
      rfl

section
variable (h0 : SumsFit c0.accum c0.chunks) (h1 : SumsFit c1.accum c1.chunks)
include h0 h1

theorem compareStep_eq : compareStep c0 c1 =
      match exactStep c0 c1 with
      | none => .ok none
      | some (slope,cs) => if slope.inRange then .ok (some cs) else .error .signedOverflow := by
  have hp0 := comparePoint_eq h0
  have hp1 := comparePoint_eq h1
  have ho (x : FeeFracResult (ChunkCursor × ChunkCursor)) (slope : FeeFrac)
      (cs : ChunkCursor × ChunkCursor) (f : ChunkCursor × ChunkCursor → ChunkCursor × ChunkCursor)
      (hx : x = if slope.inRange then .ok cs else .error .signedOverflow) :
      (x >>= fun p => pure (some (f p))) =
        if slope.inRange then .ok (some (f cs)) else .error .signedOverflow := by
    rw [hx]
    split_ifs <;> rfl
  rw [compareStep,next_point_eq h0,next_point_eq h1,ok_bind,ok_bind,exactStep]
  cases hc0 : c0.chunks with
  | nil =>
    rw [hc0] at hp0
    cases hc1 : c1.chunks with
    | nil => rfl
    | cons ch re => exact ho _ _ _ swap (hp0 _ _)
  | cons chunk0 rest0 =>
    rw [hc0] at hp0
    cases hc1 : c1.chunks with
    | nil =>
      rw [hc1] at hp1
      exact ho _ _ _ id (hp1 _ _)
    | cons ch re =>
      rw [hc1] at hp1
      dsimp only [head?_cons,map_some]
      split_ifs with hs
      · exact ho _ _ _ swap (hp0 _ _)
      · exact ho _ _ _ id (hp1 _ _)

theorem sumsFit_exactStep (h : exactStep c0 c1 = some (slope,cs)) :
    SumsFit cs.1.accum cs.1.chunks ∧ SumsFit cs.2.accum cs.2.chunks := by
  unfold exactStep at h
  split at h
  · exact absurd h (by simp)
  · next chunk1 rest1 hc0 hc1 =>
      obtain ⟨-,rfl⟩ := mk.inj (some.inj h)
      exact ⟨sumsFit_catchUp h0 _,sumsFit_advance hc1 h1⟩
  · next chunk0 rest0 hc0 hc1 =>
      obtain ⟨-,rfl⟩ := mk.inj (some.inj h)
      exact ⟨sumsFit_advance hc0 h0,sumsFit_catchUp h1 _⟩
  · next chunk0 rest0 chunk1 rest1 hc0 hc1 =>
      split_ifs at h with hs
      · obtain ⟨-,rfl⟩ := mk.inj (some.inj h)
        exact ⟨sumsFit_catchUp h0 _,sumsFit_advance hc1 h1⟩
      · obtain ⟨-,rfl⟩ := mk.inj (some.inj h)
        exact ⟨sumsFit_advance hc0 h0,sumsFit_catchUp h1 _⟩

end

section

/-- The cumulative points of chunks after a point. -/
def pointsFrom : FeeFrac → List FeeFrac → List FeeFrac
  | _, [] => []
  | accum, chunk :: chunks => (chunk + accum) :: pointsFrom (chunk + accum) chunks

/-- The points that are not processed, and these with the last one that is. -/
def ChunkCursor.ahead (c : ChunkCursor) : List FeeFrac := pointsFrom c.accum c.chunks

def ChunkCursor.points (c : ChunkCursor) : List FeeFrac := c.accum :: c.ahead

/-- The last one of some points before a size. -/
def LastBefore (points : List FeeFrac) (a : FeeFrac) (size : ℤ) : Prop :=
  a ∈ points ∧ a.size < size ∧ ∀ b ∈ points, b.size < size → b.size ≤ a.size

theorem lt_of_mem_pointsFrom {accum p : FeeFrac} (hpos : ∀ chunk ∈ chunks, 0 < chunk.size)
    (hp : p ∈ pointsFrom accum chunks) : accum.size < p.size := by
  induction chunks generalizing accum with
  | nil => cases hp
  | cons chunk chunks ih =>
    have hc := hpos chunk mem_cons_self
    rcases mem_cons.mp hp with rfl | hp
    · exact lt_add_of_pos_left _ hc
    · have hl := ih (fun d hd => hpos d (mem_cons_of_mem _ hd)) hp
      rw [FeeFrac.add_size] at hl
      omega

/-- A cursor has moved on to a size, up to which it had at most one point ahead. -/
structure ChunkCursor.Passes (size : ℤ) (c c' : ChunkCursor) : Prop where
  accum_le : c'.accum.size ≤ size
  points : ∀ p ∈ c'.points, p ∈ c.points
  passed : ∀ p ∈ c.points, p ∈ c'.points ∨ p.size < c'.accum.size
  ahead : ∀ p ∈ c'.ahead, p ∈ c.ahead ∧ size < p.size
  ahead_passed : ∀ p ∈ c.ahead, p ∈ c'.ahead ∨ p.size = size

theorem ChunkCursor.Passes.markBetter {size : ℤ} (h : c.Passes size c') (b : Bool) :
    c.Passes size (c'.markBetter b) :=
  ⟨h.accum_le, h.points, h.passed, h.ahead, h.ahead_passed⟩

theorem ahead_cons (h : c.chunks = chunk :: chunks) :
    c.ahead = (chunk + c.accum) :: (c.advance (chunk + c.accum)).ahead := by
  rw [ahead, h, pointsFrom, ahead, advance, h, tail_cons]

theorem passes_advance (h : c.chunks = chunk :: chunks) (hpos : ∀ d ∈ c.chunks, 0 < d.size) :
    c.Passes (chunk + c.accum).size (c.advance (chunk + c.accum)) := by
  have ha := ahead_cons h
  have hc := hpos chunk (h ▸ mem_cons_self)
  refine ⟨le_rfl, fun p hp => ?_, fun p hp => ?_, fun p hp => ⟨?_, ?_⟩, fun p hp => ?_⟩
  · rw [points, ha]
    exact mem_cons_of_mem _ hp
  · rw [points, ha] at hp
    rcases mem_cons.mp hp with rfl | hp
    · exact .inr (lt_add_of_pos_left _ hc)
    · exact .inl hp
  · rw [ha]
    exact mem_cons_of_mem _ hp
  · exact lt_of_mem_pointsFrom (fun d hd => hpos d (mem_of_mem_tail hd)) hp
  · rw [ha] at hp
    rcases mem_cons.mp hp with rfl | hp
    · exact .inr rfl
    · exact .inl hp

theorem passes_catchUp {size : ℤ} (h : c.Ready m) (hm : m < size)
    (hn : ∀ chunk ∈ c.chunks.head?, size ≤ (chunk + c.accum).size) :
      c.Passes size (c.catchUp size) := by
  have hstay (hs : ∀ p ∈ c.ahead, size < p.size) : c.Passes size c :=
    ⟨h.accum_le.trans hm.le, fun _ hp => hp, fun _ hp => .inl hp, fun p hp => ⟨hp, hs p hp⟩,
      fun _ hp => .inl hp⟩
  unfold catchUp
  split
  · next hc =>
      refine hstay fun p hp => ?_
      rw [ahead, hc] at hp
      cases hp
  · next chunk chunks hc =>
      have hl := hn chunk (by rw [hc]; rfl)
      split_ifs with hs
      · rw [← hs]
        exact passes_advance hc h.positive
      · refine hstay fun p hp => ?_
        have hlt := lt_of_le_of_ne hl (Ne.symm hs)
        rw [ahead_cons hc] at hp
        rcases mem_cons.mp hp with rfl | hp
        · exact hlt
        · exact hlt.trans ((passes_advance hc h.positive).ahead p hp).2

theorem ChunkCursor.Passes.lastBefore_iff {size size' : ℤ} (h : c.Passes size c')
    (hs : size < size')
    (a : FeeFrac) : LastBefore c'.points a size' ↔ LastBefore c.points a size' := by
  have hm : c'.accum ∈ c'.points := mem_cons_self
  have hl := h.accum_le.trans_lt hs
  constructor
  · rintro ⟨ha, hlt, hb⟩
    refine ⟨h.points a ha, hlt, fun b hb' hbs => ?_⟩
    rcases h.passed b hb' with hp | hp
    · exact hb b hp hbs
    · exact hp.le.trans (hb _ hm hl)
  · rintro ⟨ha, hlt, hb⟩
    refine ⟨?_, hlt, fun b hb' => hb b (h.points b hb')⟩
    rcases h.passed a ha with hp | hp
    · exact hp
    · exact absurd (hb _ (h.points _ hm) hl) (not_le.mpr hp)

/-- The differences between points ahead on one side and the last point before on the other side are
in range, as long as the comparison is open. Where `tie` is set, points at a size at which the other
side has one as well are left out. -/
def FitsFrom (tie : Bool) (u o : ChunkCursor) (isOpen : ℤ → Prop) : Prop :=
  ∀ p ∈ u.ahead, (tie = true → ∀ q ∈ o.ahead, q.size ≠ p.size) → isOpen p.size →
    ∀ a, LastBefore o.points a p.size → (p - a).inRange = true

section
variable {u o u' o' : ChunkCursor} {tie : Bool} {isOpen isOpen' : ℤ → Prop} {size : ℤ}

theorem FitsFrom.of_passes (hu : u.Passes size u') (ho : o.Passes size o')
    (hi : ∀ s, size < s → (isOpen' s ↔ isOpen s)) (h : FitsFrom tie u o isOpen) :
    FitsFrom tie u' o' isOpen' := by
  intro p hp ht hop a ha
  obtain ⟨hm, hs⟩ := hu.ahead p hp
  refine h p hm (fun hb q hq => ?_) ((hi _ hs).mp hop) a ((ho.lastBefore_iff hs a).mp ha)
  rcases ho.ahead_passed q hq with hq | hq
  · exact ht hb q hq
  · rw [hq]
    exact hs.ne

theorem FitsFrom.to_passes (hu : u.Passes size u') (ho : o.Passes size o')
    (hi : ∀ s, size < s → (isOpen' s ↔ isOpen s)) (h : FitsFrom tie u' o' isOpen')
    (hs : ∀ p ∈ u.ahead, p.size = size → (tie = true → ∀ q ∈ o.ahead, q.size ≠ p.size) →
      isOpen p.size → ∀ a, LastBefore o.points a p.size → (p - a).inRange = true) :
    FitsFrom tie u o isOpen := by
  intro p hp ht hop a ha
  rcases hu.ahead_passed p hp with hm | hm
  · have hl := (hu.ahead p hm).2
    exact h p hm (fun hb q hq => ht hb q (ho.ahead q hq).1) ((hi _ hl).mpr hop) a
      ((ho.lastBefore_iff hl a).mpr ha)
  · exact hs p hp hm ht hop a ha

end

/-- At some point ahead, before a size, one side is better than the other, or it has been before. -/
def BetterBefore (c c' : ChunkCursor) (size : ℤ) : Prop :=
  c.better_somewhere = true ∨
    ∃ p, (p ∈ c.ahead ∨ p ∈ c'.ahead) ∧ p.size < size ∧ c'.value (p.size : ℝ) < c.value (p.size : ℝ)

def OpenAt (c0 c1 : ChunkCursor) (size : ℤ) : Prop :=
  ¬(BetterBefore c0 c1 size ∧ BetterBefore c1 c0 size)

def Fits (c0 c1 : ChunkCursor) : Prop :=
  FitsFrom false c0 c1 (OpenAt c0 c1) ∧ FitsFrom true c1 c0 (OpenAt c0 c1)

section
variable {size : ℤ}

theorem betterBefore_of_compared (h : Compared ℝ m m' c0 c1 c0' c1') (h0 : c0.Passes m' c0')
    (h1 : c1.Passes m' c1') (he : ∃ p, (p ∈ c0.ahead ∨ p ∈ c1.ahead) ∧ p.size = m')
    (hs : m' < size) :
    BetterBefore c0' c1' size ↔ BetterBefore c0 c1 size := by
  have hv (p : FeeFrac) (hp : m' ≤ p.size) : c1'.value (p.size : ℝ) < c0'.value (p.size : ℝ) ↔
      c1.value (p.size : ℝ) < c0.value (p.size : ℝ) := by
    rw [h.value0 _ (cast_le.mpr hp), h.value1 _ (cast_le.mpr hp)]
  rw [BetterBefore, BetterBefore, h.better0]
  constructor
  · rintro ((hb | hb) | ⟨p, hp, hl, hb⟩)
    · exact .inl hb
    · obtain ⟨p, hp, rfl⟩ := he
      exact .inr ⟨p, hp, hs, hb⟩
    · have hlt : m' < p.size := hp.elim (fun hp => (h0.ahead p hp).2) fun hp => (h1.ahead p hp).2
      exact .inr ⟨p, hp.imp (fun hp => (h0.ahead p hp).1) fun hp => (h1.ahead p hp).1, hl,
        (hv p hlt.le).mp hb⟩
  · rintro (hb | ⟨p, hp, hl, hb⟩)
    · exact .inl (.inl hb)
    · have hp' : (p ∈ c0'.ahead ∨ p ∈ c1'.ahead) ∨ p.size = m' := by
        rcases hp with hp | hp
        · exact (h0.ahead_passed p hp).imp_left .inl
        · exact (h1.ahead_passed p hp).imp_left .inr
      rcases hp' with hp' | he
      · have hlt : m' < p.size := hp'.elim (fun hp => (h0.ahead p hp).2) fun hp => (h1.ahead p hp).2
        exact .inr ⟨p, hp', hl, (hv p hlt.le).mpr hb⟩
      · exact .inl (.inr (he ▸ hb))

/-- A comparison at a point of one side. -/
theorem fitsFrom_comparedAt {u o : ChunkCursor} (hu : u.Ready m) (ho : o.Ready m)
    (hc : u.chunks = chunk :: chunks)
    (hn : ∀ b ∈ o.chunks.head?, (chunk + u.accum).size ≤ (b + o.accum).size) (tie : Bool)
    (ht : tie = true → ∀ b ∈ o.chunks.head?, (chunk + u.accum).size ≠ (b + o.accum).size)
    {isOpen isOpen' : ℤ → Prop} (hopen : isOpen (chunk + u.accum).size)
    (hi : ∀ s, (chunk + u.accum).size < s → (isOpen' s ↔ isOpen s)) :
    (FitsFrom tie u o isOpen ∧ FitsFrom (!tie) o u isOpen ↔
      (chunk + u.accum - o.accum).inRange = true ∧
      FitsFrom tie (comparedAt (chunk + u.accum) u o).1 (comparedAt (chunk + u.accum) u o).2
        isOpen' ∧
      FitsFrom (!tie) (comparedAt (chunk + u.accum) u o).2 (comparedAt (chunk + u.accum) u o).1
        isOpen') := by
  have hh : chunk ∈ u.chunks.head? := by rw [hc]; rfl
  have hlt := hu.next_gt chunk hh
  have hpu := (passes_advance hc hu.positive).markBetter
    ((chunk + u.accum - o.accum).feeRateCompare o.slope == .gt)
  have hpo := (passes_catchUp ho hlt hn).markBetter
    ((chunk + u.accum - o.accum).feeRateCompare o.slope == .lt)
  have hm : chunk + u.accum ∈ u.ahead := by
    rw [ahead_cons hc]
    exact mem_cons_self
  -- What the other side has ahead is not before the point.
  have hge : ∀ q ∈ o.ahead, (chunk + u.accum).size ≤ q.size := by
    intro q hq
    rcases hpo.ahead_passed q hq with hq | hq
    · exact (hpo.ahead q hq).2.le
    · exact hq.ge
  have hlast (a : FeeFrac) : LastBefore o.points a (chunk + u.accum).size ↔ a = o.accum := by
    constructor
    · rintro ⟨ha, hl, -⟩
      rcases mem_cons.mp ha with rfl | ha
      · rfl
      · exact absurd hl (not_lt.mpr (hge a ha))
    · rintro rfl
      refine ⟨mem_cons_self, ho.accum_le.trans_lt hlt, fun b hb hl => ?_⟩
      rcases mem_cons.mp hb with rfl | hb
      · exact le_rfl
      · exact absurd hl (not_lt.mpr (hge b hb))
  -- A point of the other side at this size is its next one.
  have htie : ∀ q ∈ o.ahead, q.size = (chunk + u.accum).size →
      ∃ b ∈ o.chunks.head?, (chunk + u.accum).size = (b + o.accum).size := by
    intro q hq he
    cases ho' : o.chunks with
    | nil =>
      rw [ahead, ho'] at hq
      cases hq
    | cons b rest =>
      refine ⟨b, rfl, le_antisymm (hn b (by rw [ho']; rfl)) ?_⟩
      rw [ahead_cons ho'] at hq
      rw [← he]
      rcases mem_cons.mp hq with rfl | hq
      · exact le_rfl
      · exact (lt_of_mem_pointsFrom (fun d hd => ho.positive d (mem_of_mem_tail hd)) hq).le
  constructor
  · rintro ⟨h, h'⟩
    refine ⟨h _ hm (fun hb q hq he => ?_) hopen _ ((hlast _).mpr rfl), h.of_passes hpu hpo hi,
      h'.of_passes hpo hpu hi⟩
    obtain ⟨b, hb', hs⟩ := htie q hq he
    exact ht hb b hb' hs
  · rintro ⟨hr, h, h'⟩
    refine ⟨h.to_passes hpu hpo hi fun p hp hs _ _ a ha => ?_,
      h'.to_passes hpo hpu hi fun p hp hs hb _ a ha => ?_⟩
    · have he : p = chunk + u.accum := by
        rw [ahead_cons hc] at hp
        rcases mem_cons.mp hp with he | hp
        · exact he
        · exact absurd hs (hpu.ahead p hp).2.ne'
      rw [he] at ha ⊢
      rw [(hlast a).mp ha]
      exact hr
    · exfalso
      cases tie with
      | false => exact hb rfl _ hm hs.symm
      | true =>
        obtain ⟨b, hb', hs'⟩ := htie p hp hs
        exact ht rfl b hb' hs'

/-- The condition is the same after a round, apart from the slope of the round. -/
theorem fits_exactStep (h0 : c0.Ready m) (h1 : c1.Ready m)
    (hb : (c0.better_somewhere && c1.better_somewhere) = false)
    (h : exactStep c0 c1 = some (slope, cs)) :
    Fits c0 c1 ↔ slope.inRange = true ∧ Fits cs.1 cs.2 := by
  -- The comparison is open at the first point ahead, and what is open later does not change.
  have hopen {size : ℤ} (hs : (∀ p ∈ c0.ahead, size ≤ p.size) ∧ ∀ p ∈ c1.ahead, size ≤ p.size) :
      OpenAt c0 c1 size := by
    rintro ⟨hb0 | ⟨p, hp, hl, -⟩, hb1 | ⟨q, hq, hl', -⟩⟩
    · rw [hb0, hb1] at hb
      cases hb
    · exact hq.elim (fun hq => hl'.not_ge (hs.2 q hq)) fun hq => hl'.not_ge (hs.1 q hq)
    · exact hp.elim (fun hp => hl.not_ge (hs.1 p hp)) fun hp => hl.not_ge (hs.2 p hp)
    · exact hp.elim (fun hp => hl.not_ge (hs.1 p hp)) fun hp => hl.not_ge (hs.2 p hp)
  have hge {u o : ChunkCursor} {p : FeeFrac} (hpu : u.Passes p.size (comparedAt p u o).1)
      (hpo : o.Passes p.size (comparedAt p u o).2) :
      (∀ q ∈ u.ahead, p.size ≤ q.size) ∧ ∀ q ∈ o.ahead, p.size ≤ q.size :=
    ⟨fun q hq => (hpu.ahead_passed q hq).elim (fun hq => (hpu.ahead q hq).2.le) fun hq => hq.ge,
      fun q hq => (hpo.ahead_passed q hq).elim (fun hq => (hpo.ahead q hq).2.le) fun hq => hq.ge⟩
  have hfirst {rest : List FeeFrac} {chunk : FeeFrac} (hc : c0.chunks = chunk :: rest)
      (hn : ∀ b ∈ c1.chunks.head?, (chunk + c0.accum).size ≤ (b + c1.accum).size) :
      Fits c0 c1 ↔ (chunk + c0.accum - c1.accum).inRange = true ∧
        Fits (comparedAt (chunk + c0.accum) c0 c1).1 (comparedAt (chunk + c0.accum) c0 c1).2 := by
    have hlt := h0.next_gt chunk (by rw [hc]; rfl)
    have hco := compared_comparedAt (K := ℝ) h0 h1 hc hn
    have hpu := (passes_advance hc h0.positive).markBetter
      ((chunk + c0.accum - c1.accum).feeRateCompare c1.slope == .gt)
    have hpo := (passes_catchUp h1 hlt hn).markBetter
      ((chunk + c0.accum - c1.accum).feeRateCompare c1.slope == .lt)
    have he : ∃ p, (p ∈ c0.ahead ∨ p ∈ c1.ahead) ∧ p.size = (chunk + c0.accum).size :=
      ⟨_, .inl (by rw [ahead_cons hc]; exact mem_cons_self), rfl⟩
    refine fitsFrom_comparedAt h0 h1 hc hn false (fun hf => nomatch hf)
      (hopen (hge hpu hpo)) fun s hs => ?_
    have hb0 := betterBefore_of_compared hco hpu hpo he hs
    have hb1 := betterBefore_of_compared hco.swap hpo hpu (he.imp fun p hp => ⟨hp.1.symm, hp.2⟩) hs
    exact not_congr (and_congr hb0 hb1)
  have hsecond {rest : List FeeFrac} {chunk : FeeFrac} (hc : c1.chunks = chunk :: rest)
      (hn : ∀ b ∈ c0.chunks.head?, (chunk + c1.accum).size < (b + c0.accum).size) :
      Fits c0 c1 ↔ (chunk + c1.accum - c0.accum).inRange = true ∧
        Fits (comparedAt (chunk + c1.accum) c1 c0).2 (comparedAt (chunk + c1.accum) c1 c0).1 := by
    have hlt := h1.next_gt chunk (by rw [hc]; rfl)
    have hn' : ∀ b ∈ c0.chunks.head?, (chunk + c1.accum).size ≤ (b + c0.accum).size :=
      fun b hb => (hn b hb).le
    have hco := compared_comparedAt (K := ℝ) h1 h0 hc hn'
    have hpu := (passes_advance hc h1.positive).markBetter
      ((chunk + c1.accum - c0.accum).feeRateCompare c0.slope == .gt)
    have hpo := (passes_catchUp h0 hlt hn').markBetter
      ((chunk + c1.accum - c0.accum).feeRateCompare c0.slope == .lt)
    have he : ∃ p, (p ∈ c1.ahead ∨ p ∈ c0.ahead) ∧ p.size = (chunk + c1.accum).size :=
      ⟨_, .inl (by rw [ahead_cons hc]; exact mem_cons_self), rfl⟩
    have hi (s : ℤ) (hs : (chunk + c1.accum).size < s) :
        OpenAt (comparedAt (chunk + c1.accum) c1 c0).2 (comparedAt (chunk + c1.accum) c1 c0).1 s ↔
          OpenAt c0 c1 s := by
      have hb1 := betterBefore_of_compared hco hpu hpo he hs
      have hb0 := betterBefore_of_compared hco.swap hpo hpu (he.imp fun p hp => ⟨hp.1.symm, hp.2⟩)
        hs
      exact not_congr (and_congr hb0 hb1)
    have hf := fitsFrom_comparedAt h1 h0 hc hn' true (fun _ b hb => (hn b hb).ne)
      (hopen (hge hpu hpo).symm) hi
    rw [Fits, Fits, and_comm, and_comm (a := FitsFrom false _ _ _)]
    exact hf
  unfold exactStep at h
  split at h
  · exact absurd h (by simp)
  · next chunk1 rest1 hc0 hc1 =>
      obtain ⟨rfl, rfl⟩ := mk.inj (some.inj h)
      refine hsecond hc1 ?_
      rw [hc0]
      exact fun b => nofun
  · next chunk0 rest0 hc0 hc1 =>
      obtain ⟨rfl, rfl⟩ := mk.inj (some.inj h)
      refine hfirst hc0 ?_
      rw [hc1]
      exact fun b => nofun
  · next chunk0 rest0 chunk1 rest1 hc0 hc1 =>
      split_ifs at h with hs
      · obtain ⟨rfl, rfl⟩ := mk.inj (some.inj h)
        refine hsecond hc1 ?_
        rw [hc0]
        rintro b ⟨rfl⟩
        exact hs
      · obtain ⟨rfl, rfl⟩ := mk.inj (some.inj h)
        refine hfirst hc0 ?_
        rw [hc1]
        rintro b ⟨rfl⟩
        exact not_lt.mp hs

theorem fits_of_done (h0 : c0.chunks = []) (h1 : c1.chunks = []) : Fits c0 c1 := by
  refine ⟨fun p hp => ?_, fun p hp => ?_⟩
  · rw [ahead, h0] at hp
    cases hp
  · rw [ahead, h1] at hp
    cases hp

theorem fits_of_decided (hb : (c0.better_somewhere && c1.better_somewhere) = true) :
    Fits c0 c1 := by
  rw [Bool.and_eq_true] at hb
  have hn (s : ℤ) : ¬OpenAt c0 c1 s := fun ho => ho ⟨.inl hb.1, .inl hb.2⟩
  exact ⟨fun p _ _ ho => absurd ho (hn _), fun p _ _ ho => absurd ho (hn _)⟩

end

/-- The answer when one side is better somewhere, or the other, or both. -/
def Verdict (better0 better1 : Prop) : PartialOrdering → Prop
  | .equivalent => ¬better0 ∧ ¬better1
  | .greater => better0 ∧ ¬better1
  | .less => ¬better0 ∧ better1
  | .unordered => better0 ∧ better1

theorem verdict_compareFlags {better0 better1 : Prop} {b0 b1 : Bool} (h0 : b0 = true ↔ better0)
    (h1 : b1 = true ↔ better1) : Verdict better0 better1 (compareFlags b0 b1) := by
  cases b0 <;> cases b1 <;> simp_all [compareFlags,Verdict]

/-- The loop in machine arithmetic, while the slopes are in range. -/
theorem compareLoop_cases (fuel : ℕ) (h0 : SumsFit c0.accum c0.chunks)
    (h1 : SumsFit c1.accum c1.chunks) : compareLoop (fuel+1) c0 c1 =
      match exactStep c0 c1 with
      | none => .ok (compareFlags c0.better_somewhere c1.better_somewhere)
      | some (slope,cs) =>
        if slope.inRange then
          if cs.1.better_somewhere && cs.2.better_somewhere then .ok .unordered
          else compareLoop fuel cs.1 cs.2
        else .error .signedOverflow := by
  rw [compareLoop,compareStep_eq h0 h1]
  cases exactStep c0 c1 with
  | none => rfl
  | some p =>
    dsimp only
    split_ifs <;> simp_all

/-- When both sides are processed, the flags tell where one is better than the other. -/
theorem better_iff_of_done (h0 : c0.chunks = []) (h1 : c1.chunks = [])
    (hm : c1.value (m : K) < c0.value (m : K) → c0.better_somewhere = true) :
    c0.better_somewhere = true ↔ c0.better_somewhere = true ∨ ∃ x : K,
      (m : K) ≤ x ∧ c1.value x < c0.value x := by
  refine ⟨.inl,?_⟩
  rintro (hb | ⟨x,hx,hl⟩)
  · exact hb
  · apply hm
    rw [value_of_nil h0,value_of_nil h1] at hl ⊢
    exact hl

variable [IsStrictOrderedRing K]

/-- A round adds what happens up to its size, and leaves what happens beyond it. -/
theorem Compared.better_iff (h : Compared K m m' c0 c1 c0' c1')
    (hm : c1.value (m : K) < c0.value (m : K) → c0.better_somewhere = true) :
    (c0'.better_somewhere = true ∨ ∃ x : K, (m' : K) ≤ x ∧ c1'.value x < c0'.value x) ↔
      (c0.better_somewhere = true ∨ ∃ x : K, (m : K) ≤ x ∧ c1.value x < c0.value x) := by
  have hl : (m : K) ≤ m' := cast_le.mpr h.lt.le
  have hb : (∃ x : K, (m' : K) ≤ x ∧ c1'.value x < c0'.value x) ↔ ∃ x : K,
    (m' : K) ≤ x ∧ c1.value x < c0.value x := by
    refine exists_congr fun x => and_congr_right fun hx => ?_
    rw [h.value0 x hx,h.value1 x hx]
  rw [hb,h.better0,exists_lt_iff h.affine0 h.affine1 hl]
  tauto

/-- The verdict of the loop is that of the diagrams beyond the processed points. -/
theorem compareLoop_verdict (fuel : ℕ) (h0 : c0.Ready m) (h1 : c1.Ready m)
    (hs0 : SumsFit c0.accum c0.chunks) (hs1 : SumsFit c1.accum c1.chunks)
    (hm0 : c1.value (m : K) < c0.value (m : K) → c0.better_somewhere = true)
    (hm1 : c0.value (m : K) < c1.value (m : K) → c1.better_somewhere = true)
    (hu : c0.chunks.length + c1.chunks.length ≤ fuel)
    (hb : (c0.better_somewhere && c1.better_somewhere) = false) (hf : Fits c0 c1) : ∃ r,
    compareLoop fuel c0 c1 = .ok r ∧
      Verdict (c0.better_somewhere = true ∨ ∃ x : K, (m : K) ≤ x ∧ c1.value x < c0.value x)
        (c1.better_somewhere = true ∨ ∃ x : K, (m : K) ≤ x ∧ c0.value x < c1.value x) r := by
  induction fuel generalizing c0 c1 m with
  | zero =>
    have hc0 : c0.chunks = [] := length_eq_zero_iff.mp (by omega)
    have hc1 : c1.chunks = [] := length_eq_zero_iff.mp (by omega)
    exact ⟨_, rfl, verdict_compareFlags (better_iff_of_done hc0 hc1 hm0)
      (better_iff_of_done hc1 hc0 hm1)⟩
  | succ fuel ih =>
    rw [compareLoop_cases fuel hs0 hs1]
    cases ht : exactStep c0 c1 with
    | none =>
      obtain ⟨hc0, hc1⟩ := exactStep_eq_none ht
      exact ⟨_, rfl, verdict_compareFlags (better_iff_of_done hc0 hc1 hm0)
        (better_iff_of_done hc1 hc0 hm1)⟩
    | some p =>
      obtain ⟨slope, cs⟩ := p
      obtain ⟨m', ho⟩ := compared_exactStep (K := K) h0 h1 ht
      obtain ⟨hr, hf'⟩ := (fits_exactStep h0 h1 hb ht).mp hf
      have hb0 := ho.better_iff hm0
      have hb1 := ho.swap.better_iff hm1
      dsimp only
      rw [if_pos hr, ← hb0, ← hb1]
      split_ifs with hbo
      · rw [Bool.and_eq_true] at hbo
        exact ⟨.unordered, rfl, .inl hbo.1, .inl hbo.2⟩
      · rw [Bool.not_eq_true] at hbo
        obtain ⟨hs0', hs1'⟩ := sumsFit_exactStep hs0 hs1 ht
        have hh := ho.shorter
        apply ih ho.ready0 ho.ready1 hs0' hs1' _ _ (by omega) hbo hf'
        · rw [ho.value0 _ le_rfl, ho.value1 _ le_rfl]
          exact fun hl => ho.better0.mpr (.inr hl)
        · rw [ho.value0 _ le_rfl, ho.value1 _ le_rfl]
          exact fun hl => ho.better1.mpr (.inr hl)

/-- The loop stops at the first difference out of range. -/
theorem fits_of_compareLoop {fuel : ℕ} (h0 : c0.Ready m) (h1 : c1.Ready m)
    (hs0 : SumsFit c0.accum c0.chunks) (hs1 : SumsFit c1.accum c1.chunks)
    (hu : c0.chunks.length + c1.chunks.length ≤ fuel)
    (hb : (c0.better_somewhere && c1.better_somewhere) = false) {r : PartialOrdering}
    (hr : compareLoop fuel c0 c1 = .ok r) : Fits c0 c1 := by
  induction fuel generalizing c0 c1 m with
  | zero => exact fits_of_done (length_eq_zero_iff.mp (by omega)) (length_eq_zero_iff.mp (by omega))
  | succ fuel ih =>
    rw [compareLoop_cases fuel hs0 hs1] at hr
    cases ht : exactStep c0 c1 with
    | none =>
      obtain ⟨hc0, hc1⟩ := exactStep_eq_none ht
      exact fits_of_done hc0 hc1
    | some p =>
      obtain ⟨slope, cs⟩ := p
      obtain ⟨m', hc⟩ := compared_exactStep (K := ℝ) h0 h1 ht
      obtain ⟨hs0', hs1'⟩ := sumsFit_exactStep hs0 hs1 ht
      have hh := hc.shorter
      rw [ht] at hr
      dsimp only at hr
      split_ifs at hr with hin hbo
      · exact (fits_exactStep h0 h1 hb ht).mpr ⟨hin, fits_of_decided hbo⟩
      · rw [Bool.not_eq_true] at hbo
        exact (fits_exactStep h0 h1 hb ht).mpr
          ⟨hin, ih hc.ready0 hc.ready1 hs0' hs1' (by omega) hbo hr⟩

end

theorem ready_init (hpos : ∀ chunk ∈ chunks, 0 < chunk.size) : (init chunks).Ready 0 where
  positive := hpos
  accum_le := le_rfl
  next_gt := by
    intro chunk hc
    have hm : chunk ∈ chunks := mem_of_mem_head? hc
    simpa [init,FeeFrac.empty] using hpos chunk hm

theorem better_init (chunks : List FeeFrac) : (init chunks).better_somewhere = false := rfl

theorem value_init (chunks : List FeeFrac) (x : K) : (init chunks).value x = diagram chunks x := by
  simp [value,init,FeeFrac.empty]

theorem diagram_zero [IsStrictOrderedRing K] (chunks : List FeeFrac)
    (hpos : ∀ chunk ∈ chunks, 0 < chunk.size) : diagram chunks (0 : K) = 0 :=
  polyline_zero (forward_of_positive hpos)

/-- The answer that the diagrams themselves give. -/
def ExactOrdering (f0 f1 : ℝ → ℝ) (r : PartialOrdering) : Prop :=
  (r = .equivalent ↔ ∀ x, 0 ≤ x → f0 x = f1 x) ∧
  (r = .greater ↔ (∀ x, 0 ≤ x → f1 x ≤ f0 x) ∧ ∃ x, 0 ≤ x ∧ f1 x < f0 x) ∧
  (r = .less ↔ (∀ x, 0 ≤ x → f0 x ≤ f1 x) ∧ ∃ x, 0 ≤ x ∧ f0 x < f1 x) ∧
  (r = .unordered ↔ (∃ x, 0 ≤ x ∧ f1 x < f0 x) ∧ ∃ x, 0 ≤ x ∧ f0 x < f1 x)

theorem exactOrdering_of_verdict {f0 f1 : ℝ → ℝ} {r : PartialOrdering}
    (h : Verdict (∃ x, 0 ≤ x ∧ f1 x < f0 x) (∃ x, 0 ≤ x ∧ f0 x < f1 x) r) :
    ExactOrdering f0 f1 r := by
  have hl0 : (∀ x, 0 ≤ x → f0 x ≤ f1 x) ↔ ¬∃ x, 0 ≤ x ∧ f1 x < f0 x := by
    push Not
    rfl
  have hl1 : (∀ x, 0 ≤ x → f1 x ≤ f0 x) ↔ ¬∃ x, 0 ≤ x ∧ f0 x < f1 x := by
    push Not
    rfl
  have he : (∀ x, 0 ≤ x → f0 x = f1 x) ↔ (∀ x, 0 ≤ x → f0 x ≤ f1 x) ∧ ∀ x, 0 ≤ x → f1 x ≤ f0 x := by
    refine ⟨fun h => ⟨fun x hx => (h x hx).le,fun x hx => (h x hx).ge⟩,fun h x hx => ?_⟩
    exact le_antisymm (h.1 x hx) (h.2 x hx)
  rw [ExactOrdering,he,hl0,hl1]
  cases r <;> simp only [Verdict] at h <;> simp [h]

section
variable {chunks0 chunks1 : List FeeFrac}

/-- The cumulative points of a list of chunks, without the origin. -/
def cumulative (chunks : List FeeFrac) : List FeeFrac := pointsFrom .empty chunks

/-- One diagram is above the other at some cumulative point of either list before a size. -/
def AboveBefore (chunks0 chunks1 : List FeeFrac) (size : ℤ) : Prop :=
  ∃ p, (p ∈ cumulative chunks0 ∨ p ∈ cumulative chunks1) ∧ p.size < size ∧
    diagram chunks1 (p.size : ℝ) < diagram chunks0 (p.size : ℝ)

/-- Before a size it is not clear yet that the diagrams cross. -/
def Undecided (chunks0 chunks1 : List FeeFrac) (size : ℤ) : Prop :=
  ¬(AboveBefore chunks0 chunks1 size ∧ AboveBefore chunks1 chunks0 size)

/-- The difference between a cumulative point of one list and the last point before it of the other
list is a value of `FeeFrac`, for all points up to the one where the diagrams are known to cross. At
a size where both lists have a point, only the point of the first list counts. -/
def DifferencesFit (chunks0 chunks1 : List FeeFrac) : Prop :=
  (∀ p ∈ cumulative chunks0, Undecided chunks0 chunks1 p.size →
    ∀ a, LastBefore (.empty :: cumulative chunks1) a p.size → (p - a).inRange = true) ∧
  ∀ p ∈ cumulative chunks1, (∀ q ∈ cumulative chunks0, q.size ≠ p.size) →
    Undecided chunks0 chunks1 p.size →
    ∀ a, LastBefore (.empty :: cumulative chunks0) a p.size → (p - a).inRange = true

theorem betterBefore_init (chunks0 chunks1 : List FeeFrac) (size : ℤ) :
    BetterBefore (init chunks0) (init chunks1) size ↔ AboveBefore chunks0 chunks1 size := by
  rw [BetterBefore, better_init]
  simp only [value_init, Bool.false_eq_true, false_or]
  rfl

theorem fits_init (chunks0 chunks1 : List FeeFrac) :
    Fits (init chunks0) (init chunks1) ↔ DifferencesFit chunks0 chunks1 := by
  have ho (size : ℤ) : OpenAt (init chunks0) (init chunks1) size ↔ Undecided chunks0 chunks1 size :=
    not_congr (and_congr (betterBefore_init _ _ _) (betterBefore_init _ _ _))
  simp only [Fits, FitsFrom, ho, Bool.false_eq_true, false_imp_iff, true_imp_iff]
  rfl

variable (hpos0 : ∀ chunk ∈ chunks0, 0 < chunk.size) (hpos1 : ∀ chunk ∈ chunks1, 0 < chunk.size)
  (hfit0 : SumsFit .empty chunks0) (hfit1 : SumsFit .empty chunks1)
include hpos0 hpos1 hfit0 hfit1

theorem exists_exactOrdering (hf : Fits (.init chunks0) (.init chunks1)) : ∃ r,
    compareChunks chunks0 chunks1 = .ok r ∧ ExactOrdering (diagram chunks0)
      (diagram chunks1) r := by
  have hz0 : (init chunks0).value ((0 : ℤ) : ℝ) = 0 := by
    rw [value_init, cast_zero, diagram_zero chunks0 hpos0]
  have hz1 : (init chunks1).value ((0 : ℤ) : ℝ) = 0 := by
    rw [value_init, cast_zero, diagram_zero chunks1 hpos1]
  obtain ⟨r, hr, hv⟩ := compareLoop_verdict (K := ℝ) _ (ready_init hpos0) (ready_init hpos1)
    hfit0 hfit1 (fun hl => absurd hl (by rw [hz0, hz1]; exact lt_irrefl 0))
    (fun hl => absurd hl (by rw [hz0, hz1]; exact lt_irrefl 0)) le_rfl rfl hf
  refine ⟨r, hr, exactOrdering_of_verdict ?_⟩
  simpa only [value_init, cast_zero, better_init, Bool.false_eq_true, false_or] using hv

theorem fits_of_ok {r : PartialOrdering} (hr : compareChunks chunks0 chunks1 = .ok r) :
    Fits (.init chunks0) (.init chunks1) :=
  fits_of_compareLoop (ready_init hpos0) (ready_init hpos1) hfit0 hfit1 le_rfl rfl hr

theorem exactOrdering_of_ok {r : PartialOrdering} (hr : compareChunks chunks0 chunks1 = .ok r) :
    ExactOrdering (diagram chunks0) (diagram chunks1) r := by
  obtain ⟨r', hr', he⟩ := exists_exactOrdering hpos0 hpos1 hfit0 hfit1
    (fits_of_ok hpos0 hpos1 hfit0 hfit1 hr)
  obtain rfl := Except.ok.inj (hr.symm.trans hr')
  exact he

end

/-- For positive sizes and sums in range, the comparison is exact just when the differences between
neighbouring points of the two lists are in range. -/
theorem compareChunks_exact_iff {chunks0 chunks1 : List FeeFrac}
    (hpos0 : ∀ chunk ∈ chunks0, 0 < chunk.size) (hpos1 : ∀ chunk ∈ chunks1, 0 < chunk.size)
    (hfit0 : SumsFit .empty chunks0) (hfit1 : SumsFit .empty chunks1) :
    (∃ r, compareChunks chunks0 chunks1 = .ok r ∧
      ExactOrdering (diagram chunks0) (diagram chunks1) r) ↔ DifferencesFit chunks0 chunks1 := by
  rw [← fits_init]
  constructor
  · rintro ⟨r, hr, -⟩
    exact fits_of_ok hpos0 hpos1 hfit0 hfit1 hr
  · exact exists_exactOrdering hpos0 hpos1 hfit0 hfit1

theorem compareChunks_exact_two_lists : DifferencesFit [⟨5, 2⟩] [⟨2, 1⟩, ⟨1, 1⟩] ∧
    ∃ r, compareChunks [⟨5, 2⟩] [⟨2, 1⟩, ⟨1, 1⟩] = .ok r ∧
      ExactOrdering (diagram [⟨5, 2⟩]) (diagram [⟨2, 1⟩, ⟨1, 1⟩]) r := by
  have h0 : ∀ p ∈ cumulative [⟨5, 2⟩], ∀ a ∈ FeeFrac.empty :: cumulative [⟨2, 1⟩, ⟨1, 1⟩],
      (p - a).inRange = true := by decide
  have h1 : ∀ p ∈ cumulative [⟨2, 1⟩, ⟨1, 1⟩], ∀ a ∈ FeeFrac.empty :: cumulative [⟨5, 2⟩],
      (p - a).inRange = true := by decide
  have hd : DifferencesFit [⟨5, 2⟩] [⟨2, 1⟩, ⟨1, 1⟩] :=
    ⟨fun p hp _ a ha => h0 p hp a ha.1, fun p hp _ _ a ha => h1 p hp a ha.1⟩
  exact ⟨hd, (compareChunks_exact_iff (by decide) (by decide) (by decide) (by decide)).mpr hd⟩

/-- Both lists are sorted and the first diagram is above the second one, but the difference between
the end of the first one and the last point before it of the second one does not fit. -/
theorem compareChunks_overflows :
    SumsFit .empty [⟨2 ^ 63 - 1, 2⟩] ∧ SumsFit .empty [⟨-2 ^ 62, 1⟩, ⟨-2 ^ 62, 1⟩] ∧
    compareChunks [⟨2 ^ 63 - 1, 2⟩] [⟨-2 ^ 62, 1⟩, ⟨-2 ^ 62, 1⟩] = .error .signedOverflow := by
  decide

end DripCore
