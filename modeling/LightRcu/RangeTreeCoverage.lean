import LightRcu.Execution
import LightRcu.RangeTreeAdd
import LightRcu.RangeTreeSearch

/-!
# The range set never under-reports

One pass over the registered threads adds a range for each reader it meets,
all of them with the same upper end or in order, and merges the set before it
is searched.  However many ranges were added, every version up to that upper
end which lies in one of them is found.
-/

namespace LightRcu

open ClosedInterval Execution

/-- The calls that build a range set. -/
inductive RangeOp
  | add (minv maxv : Nat)
  | optimizeMerge
  deriving DecidableEq, Repr

def applyRangeOp (rbt : LrcuRangetree) : RangeOp → Option LrcuRangetree
  | .add minv maxv => lrcuRangetreeAdd rbt minv maxv
  | .optimizeMerge => (lrcuRangetreeOptimize rbt .merge).map Prod.fst

/-- The ranges that a sequence of calls adds. -/
def addedRanges : List RangeOp → List LrcuRange
  | [] => []
  | .add minv maxv :: rest => ⟨minv, maxv⟩ :: addedRanges rest
  | .optimizeMerge :: rest => addedRanges rest

/-- The calls that add the given ranges. -/
def addAll (added : List LrcuRange) : List RangeOp :=
  added.map fun range => .add range.minv range.maxv

@[simp]
theorem addedRanges_addAll (added : List LrcuRange) : addedRanges (addAll added) = added := by
  induction added with
  | nil => rfl
  | cons range rest ih => exact congrArg (range :: ·) ih

/-- Every sequence of calls runs to its end, and what it leaves stands in for
everything that was added. -/
theorem run_applyRangeOp_spec (bound : Nat) (ops : List RangeOp)
    {rbt : LrcuRangetree} {added : List LrcuRange} (ok : RangetreeOk rbt)
    (validBefore : rbt.Valid) (coarsens : CoarsensUpTo bound added rbt.entries)
    (valid : ∀ range ∈ addedRanges ops, range.minv ≠ rangeBintreeEmptyValue) :
    ∃ final, run applyRangeOp rbt ops = some final ∧ RangetreeOk final ∧ final.Valid ∧
      CoarsensUpTo bound (added ++ addedRanges ops) final.entries := by
  induction ops generalizing rbt added with
  | nil => exact ⟨rbt, rfl, ok, validBefore, by simpa [addedRanges] using coarsens⟩
  | cons op rest ih =>
      cases op with
      | add minv maxv =>
          obtain ⟨next, stepped⟩ := lrcuRangetreeAdd_completes ok validBefore minv maxv
          obtain ⟨okNext, appended⟩ := lrcuRangetreeAdd_spec ok stepped bound
          have validNext := validBefore.add ok
            (valid ⟨minv, maxv⟩ List.mem_cons_self) stepped
          obtain ⟨final, ran, okFinal, validFinal, kept⟩ :=
            ih okNext validNext (coarsens.append_right.trans appended)
              fun range member => valid range (List.mem_cons_of_mem _ member)
          refine ⟨final, run_cons_eq_some_iff.mpr ⟨next, stepped, ran⟩, okFinal, validFinal, ?_⟩
          rwa [List.append_assoc, List.singleton_append] at kept
      | optimizeMerge =>
          obtain ⟨next, room, optimized⟩ := optimize_merge_completes validBefore
          obtain ⟨okNext, _, _, _, merged⟩ := optimize_merge_spec ok optimized bound
          obtain ⟨final, ran, okFinal, validFinal, kept⟩ :=
            ih okNext (validBefore.coarsen merged) (coarsens.trans merged) valid
          have stepped : applyRangeOp rbt .optimizeMerge = some next := by
            simp [applyRangeOp, optimized]
          exact ⟨final, run_cons_eq_some_iff.mpr ⟨next, stepped, ran⟩, okFinal, validFinal, kept⟩

/-- After a final merge, the search finds every value up to the common upper
end of the inverted ranges that lies in some added range. -/
theorem lrcuRangetreeFind_of_added (ranges : Nat → LrcuRange) (capacity bound : Nat)
    (ops : List RangeOp) (several : 2 ≤ capacity)
    (shaped : ∀ range ∈ addedRanges ops,
      ShapedAt bound range ∧ range.minv ≠ rangeBintreeEmptyValue) :
    ∃ rbt merged room,
      run applyRangeOp (rangeBintreeInit ranges capacity) ops = some rbt ∧
        lrcuRangetreeOptimize rbt .merge = some (merged, room) ∧
          ∀ value ≤ bound, Covered (addedRanges ops) value →
            lrcuRangetreeFind merged value = true := by
  obtain ⟨rbt, ran, ok, valid, kept⟩ :=
    run_applyRangeOp_spec bound ops (rangetreeOk_init ranges several)
      (valid_rangeBintreeInit ranges capacity) (.of_perm (.refl _))
      fun range member => (shaped range member).2
  rw [entries_rangeBintreeInit, List.nil_append] at kept
  obtain ⟨merged, room, optimized⟩ := optimize_merge_completes valid
  obtain ⟨_, _, _, separated, coarsens⟩ := optimize_merge_spec ok optimized bound
  refine ⟨rbt, merged, room, ran, optimized, fun value below covered => ?_⟩
  have stays : Covered merged.entries value :=
    (kept.trans coarsens).covers (fun range member => (shaped range member).1)
      value below covered
  have nonempty : 0 < merged.len := by
    obtain ⟨range, member, _⟩ := stays
    rw [← entries_length]
    exact List.length_pos_of_mem member
  exact (lrcuRangetreeFind_iff_covered separated nonempty value).mpr stays

/-- Four readers in an array of two slots, one of which entered after version
`5` was sampled. -/
theorem lrcuRangetreeFind_of_added_squeezed :
    ∃ rbt merged room,
      run applyRangeOp (rangeBintreeInit (fun _ => ⟨0, 0⟩) 2)
          [.add 1 1, .add 3 3, .add 7 5, .optimizeMerge, .add 5 5] = some rbt ∧
        lrcuRangetreeOptimize rbt .merge = some (merged, room) ∧
          ∀ value ≤ 5, Covered (addedRanges
              [.add 1 1, .add 3 3, .add 7 5, .optimizeMerge, .add 5 5]) value →
            lrcuRangetreeFind merged value = true :=
  lrcuRangetreeFind_of_added (fun _ => ⟨0, 0⟩) 2 5
    [.add 1 1, .add 3 3, .add 7 5, .optimizeMerge, .add 5 5] (by decide) (by decide)

end LightRcu
