import LightRcu.IntervalLists
import Mathlib.Algebra.Group.Nat.Defs
import Mathlib.Data.List.Sort

/-!
# The range set of `range.c`

A range set is a counted array of closed ranges of versions over a buffer that
its user supplies.  The buffer is a total function of the index, so that what
lies behind the counted part, left over from an earlier use, stays readable.
Versions are `u64` values and are kept as naturals; only the subtraction in
the squeeze wraps.  An operation that fails an `LRCU_ASSERT` returns `none`.
-/

namespace LightRcu

/-- `lrcu_range_t`. -/
abbrev LrcuRange := ClosedInterval Nat

/-- `RANGE_BINTREE_EMPTY_VALUE`, the largest `u64`. -/
def rangeBintreeEmptyValue : Nat := 2 ^ 64 - 1

/-- Subtraction of `u64` values. -/
def u64Sub (minuend subtrahend : Nat) : Nat :=
  (minuend + (2 ^ 64 - subtrahend % 2 ^ 64)) % 2 ^ 64

/-- `lrcu_rangetree_t`. -/
structure LrcuRangetree where
  len : Nat
  capacity : Nat
  sorted : Bool
  r : Nat → LrcuRange

/-- `RANGE_BINTREE_INIT`: the fields that are not named are zero. -/
def rangeBintreeInit (ranges : Nat → LrcuRange) (capacity : Nat) : LrcuRangetree :=
  { len := 0, capacity := capacity, sorted := false, r := ranges }

/-- `RANGE_BINTREE_OPTLEVEL_MERGE` and `RANGE_BINTREE_OPTLEVEL_SQUEEZE`. -/
inductive OptLevel
  | merge
  | squeeze
  deriving DecidableEq, Repr

def cmpRanges (r1 r2 : LrcuRange) : Int :=
  if r1.minv > r2.minv then 1
  else if r1.minv < r2.minv then -1
  else if r1.maxv = r2.maxv then 0
  else if r1.maxv > r2.maxv then 1
  else -1

/-- The order that `cmp_ranges` gives to `LRCU_QSORT`. -/
def CmpRangesLe (r1 r2 : LrcuRange) : Prop :=
  cmpRanges r1 r2 ≤ 0

instance : DecidableRel CmpRangesLe := fun r1 r2 =>
  inferInstanceAs (Decidable (cmpRanges r1 r2 ≤ 0))

/-- `LRCU_QSORT(r, len, sizeof(lrcu_range_t), cmp_ranges)`.  Ranges that
compare equal are identical, so the sorted permutation is unique. -/
def lrcuQsort (r : Nat → LrcuRange) (len : Nat) : Nat → LrcuRange :=
  let sorted := ((List.range len).map r).insertionSort CmpRangesLe
  fun index => sorted.getD index (r index)

/-! ## `lrcu_rangetree_remove_overlapping` -/

/-- The inner loop over `j`, with the number of iterations left: the index it
stops at and the end of the segment. -/
def absorbLoop (r : Nat → LrcuRange) : Nat → Nat → Nat → Nat × Nat
  | 0, j, endOfSegment => (j, endOfSegment)
  | remaining + 1, j, endOfSegment =>
      if endOfSegment < (r j).minv then
        (j, endOfSegment)
      else
        absorbLoop r remaining (j + 1)
          (if (r j).maxv > endOfSegment then (r j).maxv else endOfSegment)

/-- The outer loop over `i` and `real_index`: the compacted buffer and its
length, or `none` when an assertion fails. -/
def compactLoop (len : Nat) :
    Nat → (Nat → LrcuRange) → Nat → Nat → Nat → Option ((Nat → LrcuRange) × Nat)
  | 0, _, _, _, _ => none
  | fuel + 1, r, i, realIndex, realOffset =>
      if i < len then
        if (r i).minv = rangeBintreeEmptyValue then
          none
        else
          let (j, endOfSegment) := absorbLoop r (len - (i + 1)) (i + 1) (r i).maxv
          let outer : LrcuRange := ⟨(r i).minv, endOfSegment⟩
          let r := Function.update r i outer
          let r := if realOffset ≠ 0 then Function.update r realIndex (r i) else r
          compactLoop len fuel r j (realIndex + 1) (realOffset + (j - 1 - i))
      else
        some (r, realIndex)

def lrcuRangetreeRemoveOverlapping (rbt : LrcuRangetree) : Option LrcuRangetree :=
  if rbt.sorted then
    (compactLoop rbt.len (rbt.len + 1) rbt.r 0 0 0).map fun (r, len) =>
      { rbt with r := r, len := len }
  else
    none

/-! ## `lrcu_rangetree_squeeze` -/

/-- The backward search for the pair to join.  It stops at index `0` without
looking at the first pair. -/
def squeezeIndexLoop (r : Nat → LrcuRange) : Nat → Nat → Nat → Nat
  | 0, _, indexSqueeze => indexSqueeze
  | i + 1, deltaMin, indexSqueeze =>
      let vDelta := u64Sub (r (i + 2)).minv (r (i + 1)).maxv
      if vDelta = 1 then i + 1
      else if vDelta < deltaMin then squeezeIndexLoop r i vDelta (i + 1)
      else squeezeIndexLoop r i deltaMin indexSqueeze

def squeezeIndex (rbt : LrcuRangetree) : Nat :=
  squeezeIndexLoop rbt.r (rbt.len - 2) (2 ^ 64 - 1) (rbt.len - 2)

/-- `memmove(r + target, r + source, count * sizeof(lrcu_range_t))`. -/
def memmoveRanges (r : Nat → LrcuRange) (target source count : Nat) :
    Nat → LrcuRange := fun index =>
  if target ≤ index ∧ index < target + count then r (index - target + source)
  else r index

def lrcuRangetreeSqueeze (rbt : LrcuRangetree) : Option LrcuRangetree :=
  if rbt.sorted ∧ 1 < rbt.len then
    let index := squeezeIndex rbt
    let joined : LrcuRange := ⟨(rbt.r index).minv, (rbt.r (index + 1)).maxv⟩
    let r := Function.update rbt.r index joined
    some { rbt with
      r := memmoveRanges r (index + 1) (index + 2) (rbt.len - index - 1)
      len := rbt.len - 1 }
  else
    none

/-! ## The interface -/

/-- The sort that both optimisation levels start with. -/
def sortRanges (rbt : LrcuRangetree) : LrcuRangetree :=
  if rbt.sorted then rbt
  else { rbt with r := lrcuQsort rbt.r rbt.len, sorted := true }

/-- The tree and whether it still has room. -/
def lrcuRangetreeOptimize (rbt : LrcuRangetree) (optLevel : OptLevel) :
    Option (LrcuRangetree × Bool) :=
  let optimized := match optLevel with
    | .merge => lrcuRangetreeRemoveOverlapping (sortRanges rbt)
    | .squeeze => lrcuRangetreeSqueeze (sortRanges rbt)
  optimized.map fun rbt => (rbt, rbt.len != rbt.capacity)

def lrcuRangetreeGetmin (rbt : LrcuRangetree) : Option Nat :=
  if rbt.sorted then
    if rbt.len = 0 then some 0 else some (rbt.r 0).minv
  else
    none

/-- The branch of `lrcu_rangetree_add` that finds a free slot. -/
def appendRange (rbt : LrcuRangetree) (minv maxv : Nat) : LrcuRangetree :=
  { rbt with
    r := Function.update rbt.r rbt.len ⟨minv, maxv⟩
    len := rbt.len + 1
    sorted := false }

/-- The `retry` loop of `lrcu_rangetree_add`, with the optimisation levels
that `opt_level++` has still to reach.  When none is left,
`LRCU_ASSERT(opt_level <= RANGE_BINTREE_OPTLEVEL_MAX)` fails. -/
def rangetreeAddRetry (minv maxv : Nat) :
    List OptLevel → LrcuRangetree → Option LrcuRangetree
  | [], rbt =>
      if rbt.len < rbt.capacity then some (appendRange rbt minv maxv) else none
  | optLevel :: levels, rbt =>
      if rbt.len < rbt.capacity then
        some (appendRange rbt minv maxv)
      else
        (lrcuRangetreeOptimize rbt optLevel).bind fun (rbt, _) =>
          rangetreeAddRetry minv maxv levels rbt

def lrcuRangetreeAdd (rbt : LrcuRangetree) (minv maxv : Nat) :
    Option LrcuRangetree :=
  rangetreeAddRetry minv maxv [.merge, .squeeze] rbt

/-! ## `lrcu_rangetree_find` -/

def bintreeRangeValueCmp (r : LrcuRange) (value : Nat) : Int :=
  if r.minv > value then -1
  else if r.maxv < value then 1
  else 0

/-- The `do … while(low <= high)` loop.  The division truncates towards zero,
so that `mid` is `0` when the loop is entered with `high = -1`. -/
def bintreeRangeSearchLoop (r : Nat → LrcuRange) (value : Nat) :
    Nat → Int → Int → Int
  | 0, _, _ => -1
  | fuel + 1, low, high =>
      let mid := (low + high).tdiv 2
      let rangeCmp := bintreeRangeValueCmp (r mid.toNat) value
      if rangeCmp = 0 then mid
      else
        let high := if rangeCmp < 0 then mid - 1 else high
        let low := if rangeCmp > 0 then mid + 1 else low
        if low ≤ high then bintreeRangeSearchLoop r value fuel low high else -1

/-- The index of a range that contains the value, `-1` otherwise.  Each
iteration drops at least one index, so that `len + 1` of them are enough. -/
def bintreeRangeSearch (r : Nat → LrcuRange) (len value : Nat) : Int :=
  bintreeRangeSearchLoop r value (len + 1) 0 (len - 1)

def lrcuRangetreeFind (rbt : LrcuRangetree) (value : Nat) : Bool :=
  bintreeRangeSearch rbt.r rbt.len value != -1

end LightRcu
