import LightRcu.RangeTreeCanonical

/-!
# The cells that an add touches

For each function of `range.c` that an add runs, the list of the indices of
`rbt->r` that it reads or writes, in program order and with the control flow of
the function itself.  The last definitions ask for all of them to lie inside
the array.
-/

namespace LightRcu

/-- Each iteration of the inner loop reads the range at `j`. -/
def absorbLoopAccesses (r : Nat → LrcuRange) : Nat → Nat → Nat → List Nat
  | 0, _, _ => []
  | remaining + 1, j, endOfSegment =>
      if endOfSegment < (r j).minv then
        [j]
      else
        j :: absorbLoopAccesses r remaining (j + 1)
          (if (r j).maxv > endOfSegment then (r j).maxv else endOfSegment)

/-- Each iteration of the outer loop reads and writes the range at `i`, and
copies it to `real_index` once something was removed. -/
def compactLoopAccesses (len : Nat) :
    Nat → (Nat → LrcuRange) → Nat → Nat → Nat → List Nat
  | 0, _, _, _, _ => []
  | fuel + 1, r, i, realIndex, realOffset =>
      if i < len then
        if (r i).minv = rangeBintreeEmptyValue then
          [i]
        else
          let (j, endOfSegment) := absorbLoop r (len - (i + 1)) (i + 1) (r i).maxv
          let scanned := absorbLoopAccesses r (len - (i + 1)) (i + 1) (r i).maxv
          let copied := if realOffset ≠ 0 then [i, realIndex] else []
          let outer : LrcuRange := ⟨(r i).minv, endOfSegment⟩
          let r := Function.update r i outer
          let r := if realOffset ≠ 0 then Function.update r realIndex (r i) else r
          i :: scanned ++ i :: copied ++
            compactLoopAccesses len fuel r j (realIndex + 1) (realOffset + (j - 1 - i))
      else
        []

def lrcuRangetreeRemoveOverlappingAccesses (rbt : LrcuRangetree) : List Nat :=
  if rbt.sorted then compactLoopAccesses rbt.len (rbt.len + 1) rbt.r 0 0 0 else []

/-- Each iteration of the backward search reads a range and its successor. -/
def squeezeIndexLoopAccesses (r : Nat → LrcuRange) : Nat → Nat → List Nat
  | 0, _ => []
  | i + 1, deltaMin =>
      let vDelta := u64Sub (r (i + 2)).minv (r (i + 1)).maxv
      [i + 2, i + 1] ++
        if vDelta = 1 then []
        else if vDelta < deltaMin then squeezeIndexLoopAccesses r i vDelta
        else squeezeIndexLoopAccesses r i deltaMin

/-- The elements that `memmove` reads and those that it writes. -/
def memmoveAccesses (target source count : Nat) : List Nat :=
  List.range' source count ++ List.range' target count

def lrcuRangetreeSqueezeAccesses (rbt : LrcuRangetree) : List Nat :=
  if rbt.sorted ∧ 1 < rbt.len then
    let index := squeezeIndex rbt
    squeezeIndexLoopAccesses rbt.r (rbt.len - 2) (2 ^ 64 - 1) ++ [index + 1, index] ++
      memmoveAccesses (index + 1) (index + 2) (rbt.len - index - 1)
  else
    []

/-- The sort may touch every counted range. -/
def sortRangesAccesses (rbt : LrcuRangetree) : List Nat :=
  if rbt.sorted then [] else List.range rbt.len

def lrcuRangetreeOptimizeAccesses (rbt : LrcuRangetree) (optLevel : OptLevel) : List Nat :=
  sortRangesAccesses rbt ++
    match optLevel with
    | .merge => lrcuRangetreeRemoveOverlappingAccesses (sortRanges rbt)
    | .squeeze => lrcuRangetreeSqueezeAccesses (sortRanges rbt)

def rangetreeAddRetryAccesses : List OptLevel → LrcuRangetree → List Nat
  | [], rbt => if rbt.len < rbt.capacity then [rbt.len] else []
  | optLevel :: levels, rbt =>
      if rbt.len < rbt.capacity then
        [rbt.len]
      else
        lrcuRangetreeOptimizeAccesses rbt optLevel ++
          match lrcuRangetreeOptimize rbt optLevel with
          | some (rbt, _) => rangetreeAddRetryAccesses levels rbt
          | none => []

def lrcuRangetreeAddAccesses (rbt : LrcuRangetree) : List Nat :=
  rangetreeAddRetryAccesses [.merge, .squeeze] rbt

/-- The calls that build a range set stay inside its array. -/
def OpInBounds (rbt : LrcuRangetree) : RangeOp → Prop
  | .add _ _ => ∀ index ∈ lrcuRangetreeAddAccesses rbt, index < rbt.capacity
  | .optimizeMerge => ∀ index ∈ lrcuRangetreeOptimizeAccesses rbt .merge, index < rbt.capacity

end LightRcu
