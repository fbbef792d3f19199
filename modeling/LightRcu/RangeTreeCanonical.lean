import LightRcu.Execution
import LightRcu.RangeTreeCoverage
import LightRcu.RangeTreeStarts

/-!
# Merging is canonical

The order of `cmp_ranges` is total and identifies only equal ranges, so the
sort that a merge starts with depends on the ranges alone and not on the order
they were added in.  The compaction then leaves ranges that it would not change
again.
-/

namespace LightRcu

open ClosedInterval Execution

instance : Std.Antisymm CmpRangesLe where
  antisymm r1 r2 := by
    rw [cmpRangesLe_iff, cmpRangesLe_iff]
    intro forwards backwards
    have sameMinv : r1.minv = r2.minv := by omega
    have sameMaxv : r1.maxv = r2.maxv := by omega
    cases r1
    exact congrArg₂ ClosedInterval.mk sameMinv sameMaxv

/-- What a range set keeps between two calls: its `sorted` flag tells the
truth, and its counted ranges are in order and start below the reserved
value. -/
structure RangesOk (rbt : LrcuRangetree) : Prop where
  flag : rbt.sorted = true → rbt.entries.Pairwise CmpRangesLe
  inOrder : ∀ range ∈ rbt.entries, range.minv ≤ range.maxv
  valid : rbt.Valid

theorem RangesOk.sortedFlag {rbt : LrcuRangetree} (ok : RangesOk rbt) : SortedFlag rbt :=
  fun sorted => ascending_of_cmpRangesLe (ok.flag sorted)

theorem rangesOk_init (ranges : Nat → LrcuRange) (capacity : Nat) :
    RangesOk (rangeBintreeInit ranges capacity) where
  flag := by simp
  inOrder := by simp
  valid := valid_rangeBintreeInit ranges capacity

/-! ## The sort -/

theorem cmpRangesLe_of_separated {ranges : List LrcuRange} (separated : Separated ranges)
    (inOrder : ∀ range ∈ ranges, range.minv ≤ range.maxv) :
    ranges.Pairwise CmpRangesLe := by
  refine List.Pairwise.imp_of_mem ?_ separated
  intro first second inFirst _ before
  have proper := inOrder first inFirst
  rw [cmpRangesLe_iff]
  exact Or.inl (proper.trans_lt before.2)

theorem cmpRangesLe_entries_sortRanges {rbt : LrcuRangetree}
    (flag : rbt.sorted = true → rbt.entries.Pairwise CmpRangesLe) :
    (sortRanges rbt).entries.Pairwise CmpRangesLe := by
  by_cases sorted : rbt.sorted = true
  · simpa [sortRanges, sorted] using flag sorted
  · rw [entries_sortRanges_of_unsorted sorted]
    exact List.pairwise_insertionSort _ _

/-- The sorted array is determined by the ranges, whatever their order was. -/
theorem entries_sortRanges_eq {rbt other : LrcuRangetree}
    (flag : rbt.sorted = true → rbt.entries.Pairwise CmpRangesLe)
    (otherFlag : other.sorted = true → other.entries.Pairwise CmpRangesLe)
    (permuted : other.entries.Perm rbt.entries) :
    (sortRanges other).entries = (sortRanges rbt).entries := by
  apply List.Perm.eq_of_pairwise' (cmpRangesLe_entries_sortRanges otherFlag)
    (cmpRangesLe_entries_sortRanges flag)
  exact (entries_sortRanges_perm other).trans
    (permuted.trans (entries_sortRanges_perm rbt).symm)

/-! ## A second merge -/

/-- On separated ranges neither index of the compaction ever jumps, and each
write puts back what was there. -/
private theorem compactLoop_of_separated {r : Nat → LrcuRange} {len : Nat}
    (valid : ∀ index < len, (r index).minv ≠ rangeBintreeEmptyValue)
    (apart : ∀ index, index + 1 < len → (r index).maxv < (r (index + 1)).minv) :
    ∀ fuel i, i ≤ len → len - i < fuel →
      compactLoop len fuel r i i 0 = some (r, len) := by
  intro fuel
  induction fuel with
  | zero => intro i _ enough; omega
  | succ fuel ih =>
      intro i within enough
      rw [compactLoop]
      by_cases more : i < len
      · have stops : absorbLoop r (len - (i + 1)) (i + 1) (r i).maxv =
            (i + 1, (r i).maxv) := by
          cases left : len - (i + 1) with
          | zero => rfl
          | succ remaining => exact if_pos (apart i (by omega))
        have writesBack : Function.update r i ⟨(r i).minv, (r i).maxv⟩ = r :=
          Function.update_eq_self i r
        have noOffset : 0 + (i + 1 - 1 - i) = 0 := by omega
        simp only [if_pos more, if_neg (valid i more), stops, writesBack, noOffset]
        exact ih (i + 1) (by omega) (by omega)
      · have finished : i = len := by omega
        rw [if_neg more, finished]

/-- A merge of sorted and separated ranges leaves every cell as it was. -/
theorem optimize_merge_of_separated {rbt : LrcuRangetree} (sorted : rbt.sorted = true)
    (separated : Separated rbt.entries) (valid : rbt.Valid) :
    lrcuRangetreeOptimize rbt .merge = some (rbt, rbt.len != rbt.capacity) := by
  have apart : ∀ index, index + 1 < rbt.len →
      (rbt.r index).maxv < (rbt.r (index + 1)).minv := by
    intro index inside
    exact (pairwise_entries separated (Nat.lt_succ_self index) inside).2
  have starts : ∀ index < rbt.len, (rbt.r index).minv ≠ rangeBintreeEmptyValue :=
    fun index inside => valid _ (mem_entries.mpr ⟨index, inside, rfl⟩)
  have unchanged := compactLoop_of_separated starts apart (rbt.len + 1) 0 (Nat.zero_le _)
    (Nat.lt_succ_self _)
  have same : sortRanges rbt = rbt := if_pos sorted
  rw [lrcuRangetreeOptimize]
  simp only [same, lrcuRangetreeRemoveOverlapping, if_pos sorted, unchanged, Option.map_some]

/-! ## The merge as a function of the ranges -/

theorem entries_optimize_merge {rbt merged : LrcuRangetree} {room : Bool}
    (ran : lrcuRangetreeOptimize rbt .merge = some (merged, room)) :
    merged.entries = mergeSorted (sortRanges rbt).entries := by
  simp only [lrcuRangetreeOptimize, Option.map_eq_some_iff, Prod.mk.injEq] at ran
  obtain ⟨_, ran, rfl, _⟩ := ran
  exact (removeOverlapping_spec ran).1

theorem separated_optimize_merge {rbt merged : LrcuRangetree} {room : Bool}
    (ok : RangesOk rbt) (ran : lrcuRangetreeOptimize rbt .merge = some (merged, room)) :
    Separated merged.entries := by
  rw [entries_optimize_merge ran]
  exact separated_mergeSorted (ascending_entries_sortRanges ok.sortedFlag)

theorem coarsensUpTo_optimize_merge {rbt merged : LrcuRangetree} {room : Bool}
    (ok : RangesOk rbt) (ran : lrcuRangetreeOptimize rbt .merge = some (merged, room))
    (bound : Nat) : CoarsensUpTo bound rbt.entries merged.entries := by
  rw [entries_optimize_merge ran]
  exact (CoarsensUpTo.of_perm (entries_sortRanges_perm rbt)).trans
    (.of_mergeSorted (ascending_entries_sortRanges ok.sortedFlag))

theorem covered_optimize_merge {rbt merged : LrcuRangetree} {room : Bool}
    (ok : RangesOk rbt) (ran : lrcuRangetreeOptimize rbt .merge = some (merged, room))
    (value : Nat) : Covered merged.entries value ↔ Covered rbt.entries value := by
  rw [entries_optimize_merge ran,
    covered_mergeSorted (ascending_entries_sortRanges ok.sortedFlag)]
  exact covered_perm (entries_sortRanges_perm rbt) value

theorem RangesOk.optimize_merge {rbt merged : LrcuRangetree} {room : Bool}
    (ok : RangesOk rbt) (ran : lrcuRangetreeOptimize rbt .merge = some (merged, room)) :
    RangesOk merged := by
  have inOrder := CoarsensUpTo.inOrder (coarsensUpTo_optimize_merge ok ran) ok.inOrder
  exact {
    flag := fun _ => cmpRangesLe_of_separated (separated_optimize_merge ok ran) inOrder
    inOrder := inOrder
    valid := ok.valid.coarsen (coarsensUpTo_optimize_merge ok ran 0) }

theorem RangesOk.add {rbt added : LrcuRangetree} {minv maxv : Nat} (ok : RangesOk rbt)
    (room : RangetreeOk rbt) (ordered : minv ≤ maxv) (new : minv ≠ rangeBintreeEmptyValue)
    (ran : lrcuRangetreeAdd rbt minv maxv = some added) : RangesOk added := by
  have coarsens : ∀ bound,
      CoarsensUpTo bound (rbt.entries ++ [⟨minv, maxv⟩]) added.entries :=
    fun bound => (lrcuRangetreeAdd_spec room ran bound).2
  have unsorted : added.sorted = false := by
    rcases lrcuRangetreeAdd_cases room minv maxv 0 with
      ⟨failed, _⟩ | ⟨freed, _, _, _, _, appended⟩
    · exact absurd (failed.symm.trans ran) (by simp)
    · obtain rfl := Option.some.inj (appended.symm.trans ran)
      rfl
  exact {
    flag := fun sorted => absurd (unsorted.symm.trans sorted) (by simp)
    inOrder := CoarsensUpTo.inOrder coarsens (by
      intro range member
      rcases List.mem_append.mp member with member | member
      · exact ok.inOrder range member
      · rw [List.mem_singleton] at member
        exact member ▸ ordered)
    valid := ok.valid.add room new ran }

theorem mem_addedRanges_of_mem {ops : List RangeOp} {op : RangeOp} {range : LrcuRange}
    (member : op ∈ ops) (added : range ∈ addedRanges [op]) : range ∈ addedRanges ops := by
  induction ops with
  | nil => exact absurd member List.not_mem_nil
  | cons first rest ih =>
      rcases List.mem_cons.mp member with rfl | later
      · cases op with
        | add minv maxv =>
            obtain rfl := List.mem_singleton.mp added
            exact List.mem_cons_self
        | optimizeMerge => exact absurd added List.not_mem_nil
      · cases first with
        | add minv maxv => exact List.mem_cons_of_mem _ (ih later)
        | optimizeMerge => exact ih later

theorem RangesOk.step {rbt next : LrcuRangetree} {op : RangeOp} (ok : RangesOk rbt)
    (room : RangetreeOk rbt)
    (proper : ∀ range ∈ addedRanges [op],
      range.minv ≤ range.maxv ∧ range.minv ≠ rangeBintreeEmptyValue)
    (stepped : applyRangeOp rbt op = some next) : RangesOk next ∧ RangetreeOk next := by
  cases op with
  | add minv maxv =>
      obtain ⟨ordered, new⟩ := proper ⟨minv, maxv⟩ List.mem_cons_self
      exact ⟨ok.add room ordered new stepped, (lrcuRangetreeAdd_spec room stepped 0).1⟩
  | optimizeMerge =>
      simp only [applyRangeOp, Option.map_eq_some_iff, Prod.exists,
        exists_and_right, exists_eq_right] at stepped
      obtain ⟨changed, optimized⟩ := stepped
      exact ⟨ok.optimize_merge optimized, (optimize_merge_spec room optimized 0).1⟩

theorem rangesOk_of_run {ops : List RangeOp} {rbt final : LrcuRangetree}
    (ok : RangesOk rbt) (room : RangetreeOk rbt)
    (proper : ∀ range ∈ addedRanges ops,
      range.minv ≤ range.maxv ∧ range.minv ≠ rangeBintreeEmptyValue)
    (ran : run applyRangeOp rbt ops = some final) : RangesOk final := by
  induction ops generalizing rbt with
  | nil =>
      obtain rfl := Option.some.inj ran
      exact ok
  | cons op rest ih =>
      obtain ⟨next, stepped, ranRest⟩ := run_cons_eq_some_iff.mp ran
      obtain ⟨okNext, roomNext⟩ := ok.step room
        (fun range added => proper range (mem_addedRanges_of_mem List.mem_cons_self added)) stepped
      apply ih okNext roomNext _ ranRest
      intro range added
      apply proper
      cases op with
      | add minv maxv => exact List.mem_cons_of_mem _ added
      | optimizeMerge => exact added

/-- A merge completes, leaves sorted and strictly separated ranges with the
same union, is idempotent, and depends only on the multiset of ranges. -/
theorem optimize_merge_canonical {rbt : LrcuRangetree} (ok : RangesOk rbt) :
    ∃ merged room, lrcuRangetreeOptimize rbt .merge = some (merged, room) ∧
      merged.entries.Pairwise CmpRangesLe ∧
      (∀ index, index + 1 < merged.len →
        (merged.r index).maxv < (merged.r (index + 1)).minv) ∧
      (∀ value, Covered merged.entries value ↔ Covered rbt.entries value) ∧
      lrcuRangetreeOptimize merged .merge = some (merged, room) ∧
      ∀ other : LrcuRangetree,
        (other.sorted = true → other.entries.Pairwise CmpRangesLe) →
        other.entries.Perm rbt.entries →
        ∃ otherMerged otherRoom,
          lrcuRangetreeOptimize other .merge = some (otherMerged, otherRoom) ∧
            otherMerged.len = merged.len ∧ otherMerged.entries = merged.entries := by
  obtain ⟨merged, room, ran⟩ := optimize_merge_completes ok.valid
  have separated := separated_optimize_merge ok ran
  have okMerged := ok.optimize_merge ran
  have sorted := sorted_of_optimize_merge ran
  refine ⟨merged, room, ran, okMerged.flag sorted, ?_, covered_optimize_merge ok ran, ?_, ?_⟩
  · intro index inside
    exact (pairwise_entries separated (Nat.lt_succ_self index) inside).2
  · have answer : room = (merged.len != merged.capacity) := by
      simp only [lrcuRangetreeOptimize, Option.map_eq_some_iff, Prod.mk.injEq] at ran
      obtain ⟨_, _, rfl, equal⟩ := ran
      exact equal.symm
    rw [answer]
    exact optimize_merge_of_separated sorted separated okMerged.valid
  · intro other flag permuted
    have valid : other.Valid := fun range member => ok.valid range (permuted.mem_iff.mp member)
    obtain ⟨otherMerged, otherRoom, otherRan⟩ := optimize_merge_completes valid
    have entries : otherMerged.entries = merged.entries := by
      rw [entries_optimize_merge otherRan, entries_optimize_merge ran,
        entries_sortRanges_eq ok.flag flag permuted]
    refine ⟨otherMerged, otherRoom, otherRan, ?_, entries⟩
    rw [← entries_length, ← entries_length, entries]

/-- Three ranges, two of which overlap, in no particular order. -/
def threeRanges : LrcuRangetree where
  len := 3
  capacity := 4
  sorted := false
  r := fun index => [⟨5, 9⟩, ⟨1, 3⟩, ⟨8, 8⟩].getD index ⟨0, 0⟩

theorem optimize_merge_canonical_threeRanges :
    ∃ merged room, lrcuRangetreeOptimize threeRanges .merge = some (merged, room) ∧
      lrcuRangetreeOptimize merged .merge = some (merged, room) ∧
      ∀ value, Covered merged.entries value ↔ Covered threeRanges.entries value := by
  have ok : RangesOk threeRanges := {
    flag := by simp [threeRanges]
    inOrder := by decide
    valid := by
      unfold LrcuRangetree.Valid
      decide }
  obtain ⟨merged, room, ran, _, _, covered, again, _⟩ := optimize_merge_canonical ok
  exact ⟨merged, room, ran, again, covered⟩

end LightRcu
