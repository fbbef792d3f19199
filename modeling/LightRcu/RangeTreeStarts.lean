import LightRcu.RangeTreeMerge
import LightRcu.RangeTreeSearch

/-!
# Lower ends are never invented

Whatever the operations do to the ranges, inverted ones and ones that start at
the reserved value included, every lower end in the counted part was added.
So a search cannot hit below the least lower end, unless the set is empty.
-/

namespace LightRcu

open ClosedInterval

/-- Every range in the counted part starts at a value with the property. -/
def StartsIn (property : Nat → Prop) (rbt : LrcuRangetree) : Prop :=
  ∀ index < rbt.len, property (rbt.r index).minv

variable {property : Nat → Prop}

theorem startsIn_sortRanges {rbt : LrcuRangetree} (starts : StartsIn property rbt) :
    StartsIn property (sortRanges rbt) := by
  intro index inside
  have member : (sortRanges rbt).r index ∈ (sortRanges rbt).entries :=
    mem_entries.mpr ⟨index, inside, rfl⟩
  obtain ⟨origin, within, equal⟩ :=
    mem_entries.mp ((entries_sortRanges_perm rbt).mem_iff.mp member)
  exact equal ▸ starts origin within

private theorem compactLoop_starts {len : Nat} :
    ∀ fuel (r : Nat → LrcuRange) (i realIndex realOffset : Nat) (r' : Nat → LrcuRange)
      (len' : Nat), realIndex ≤ i → i ≤ len → (∀ index < len, property (r index).minv) →
      compactLoop len fuel r i realIndex realOffset = some (r', len') →
      (∀ index < len', property (r' index).minv) ∧ realIndex ≤ len' ∧
        (i < len → realIndex < len') := by
  intro fuel
  induction fuel with
  | zero => intro _ _ _ _ _ _ _ _ _ ran; simp [compactLoop] at ran
  | succ fuel ih =>
      intro r i realIndex realOffset r' len' behind within starts ran
      rw [compactLoop] at ran
      by_cases more : i < len
      · rw [if_pos more] at ran
        by_cases reserved : (r i).minv = rangeBintreeEmptyValue
        · rw [if_pos reserved] at ran
          exact absurd ran (by simp)
        rw [if_neg reserved] at ran
        obtain ⟨low, high, _⟩ :=
          absorbLoop_spec r (r i).minv (len - (i + 1)) (i + 1) (r i).maxv
        generalize absorbLoop r (len - (i + 1)) (i + 1) (r i).maxv = stop at ran low high
        obtain ⟨j, endOfSegment⟩ := stop
        simp only at ran low high
        have outer : ∀ index < len,
            property (Function.update r i ⟨(r i).minv, endOfSegment⟩ index).minv := by
          intro index inside
          rcases eq_or_ne index i with rfl | apart
          · simpa using starts index inside
          · simpa [apart] using starts index inside
        obtain ⟨kept, grown, _⟩ := ih _ j (realIndex + 1) _ r' len' (by omega) (by omega)
          (by
            intro index inside
            split_ifs
            · rcases eq_or_ne index realIndex with rfl | apart
              · simpa using starts i more
              · simpa [apart] using outer index inside
            · exact outer index inside) ran
        exact ⟨kept, by omega, fun _ => by omega⟩
      · rw [if_neg more] at ran
        obtain ⟨rfl, rfl⟩ := Prod.mk.inj (Option.some.inj ran)
        exact ⟨fun index inside => starts index (by omega), Nat.le_refl _, fun inside =>
          absurd inside more⟩

private theorem removeOverlapping_starts {rbt merged : LrcuRangetree}
    (starts : StartsIn property rbt)
    (ran : lrcuRangetreeRemoveOverlapping rbt = some merged) :
    StartsIn property merged ∧ (0 < rbt.len → 0 < merged.len) ∧ merged.sorted = true := by
  simp only [lrcuRangetreeRemoveOverlapping, Option.ite_none_right_eq_some,
    Option.map_eq_some_iff, Prod.exists] at ran
  obtain ⟨sorted, r, len, compacted, rfl⟩ := ran
  obtain ⟨kept, _, nonempty⟩ := compactLoop_starts (rbt.len + 1) rbt.r 0 0 0 r len
    (Nat.le_refl _) (Nat.zero_le _) starts compacted
  exact ⟨kept, nonempty, sorted⟩

private theorem squeeze_starts {rbt squeezed : LrcuRangetree}
    (starts : StartsIn property rbt) (ran : lrcuRangetreeSqueeze rbt = some squeezed) :
    StartsIn property squeezed ∧ (0 < rbt.len → 0 < squeezed.len) := by
  simp only [lrcuRangetreeSqueeze, Option.ite_none_right_eq_some, Option.some.injEq] at ran
  obtain ⟨⟨_, several⟩, rfl⟩ := ran
  have inside := squeezeIndex_lt several
  refine ⟨fun index counted => ?_, fun _ => Nat.sub_pos_of_lt several⟩
  change index < rbt.len - 1 at counted
  have updated : ∀ index < rbt.len,
      property (Function.update rbt.r (squeezeIndex rbt)
        ⟨(rbt.r (squeezeIndex rbt)).minv, (rbt.r (squeezeIndex rbt + 1)).maxv⟩ index).minv := by
    intro index inside
    rcases eq_or_ne index (squeezeIndex rbt) with rfl | apart
    · simpa using starts _ inside
    · simpa [apart] using starts index inside
  simp only [memmoveRanges]
  split_ifs with moved
  · exact updated _ (by omega)
  · exact updated _ (by omega)

/-- Optimisation at either level invents no lower end and never empties the
set. -/
theorem startsIn_of_optimize {rbt optimized : LrcuRangetree} {optLevel : OptLevel}
    {room : Bool} (starts : StartsIn property rbt)
    (ran : lrcuRangetreeOptimize rbt optLevel = some (optimized, room)) :
    StartsIn property optimized ∧ (0 < rbt.len → 0 < optimized.len) := by
  have sortedStarts := startsIn_sortRanges starts
  simp only [lrcuRangetreeOptimize, Option.map_eq_some_iff, Prod.mk.injEq] at ran
  obtain ⟨_, ran, rfl, _⟩ := ran
  rw [← sortRanges_len rbt]
  cases optLevel with
  | merge =>
      obtain ⟨kept, nonempty, _⟩ := removeOverlapping_starts sortedStarts ran
      exact ⟨kept, nonempty⟩
  | squeeze => exact squeeze_starts sortedStarts ran

theorem sorted_of_optimize_merge {rbt merged : LrcuRangetree} {room : Bool}
    (ran : lrcuRangetreeOptimize rbt .merge = some (merged, room)) :
    merged.sorted = true := by
  simp only [lrcuRangetreeOptimize, Option.map_eq_some_iff, Prod.mk.injEq] at ran
  obtain ⟨_, ran, rfl, _⟩ := ran
  have starts : StartsIn (fun _ => True) (sortRanges rbt) := fun _ _ => trivial
  exact (removeOverlapping_starts starts ran).2.2

theorem optimize_merge_of_empty {rbt merged : LrcuRangetree} {room : Bool}
    (empty : rbt.len = 0)
    (ran : lrcuRangetreeOptimize rbt .merge = some (merged, room)) :
    merged.len = 0 ∧ merged.r = rbt.r := by
  have cells : (sortRanges rbt).r = rbt.r := by
    unfold sortRanges
    split_ifs
    · rfl
    · simp [lrcuQsort, empty]
  simp only [lrcuRangetreeOptimize, Option.map_eq_some_iff, Prod.mk.injEq,
    lrcuRangetreeRemoveOverlapping, Option.ite_none_right_eq_some, Prod.exists,
    sortRanges_len, empty] at ran
  obtain ⟨_, ⟨_, r, len, compacted, rfl⟩, rfl, _⟩ := ran
  simp only [compactLoop, Nat.lt_irrefl, if_false, Option.some.injEq, Prod.mk.injEq] at compacted
  exact ⟨compacted.2.symm, compacted.1.symm.trans cells⟩

/-- An add invents no other lower end than its own, and leaves a range. -/
theorem startsIn_of_add {rbt added : LrcuRangetree} {minv maxv : Nat}
    (starts : StartsIn property rbt) (new : property minv)
    (ran : lrcuRangetreeAdd rbt minv maxv = some added) :
    StartsIn property added ∧ 0 < added.len := by
  have appended : ∀ {rbt : LrcuRangetree}, StartsIn property rbt →
      StartsIn property (appendRange rbt minv maxv) ∧
        0 < (appendRange rbt minv maxv).len := by
    intro rbt starts
    refine ⟨fun index inside => ?_, Nat.succ_pos _⟩
    change index < rbt.len + 1 at inside
    rcases eq_or_ne index rbt.len with rfl | apart
    · simpa [appendRange] using new
    · simpa [appendRange, apart] using starts index (by omega)
  have retried : ∀ levels (rbt : LrcuRangetree), StartsIn property rbt →
      rangetreeAddRetry minv maxv levels rbt = some added →
        StartsIn property added ∧ 0 < added.len := by
    intro levels
    induction levels with
    | nil =>
        intro rbt starts ran
        simp only [rangetreeAddRetry, Option.ite_none_right_eq_some, Option.some.injEq] at ran
        exact ran.2 ▸ appended starts
    | cons optLevel levels ih =>
        intro rbt starts ran
        rw [rangetreeAddRetry] at ran
        split_ifs at ran
        · exact Option.some.inj ran ▸ appended starts
        · obtain ⟨⟨optimized, room⟩, optimizes, ran⟩ := Option.bind_eq_some_iff.mp ran
          exact ih optimized (startsIn_of_optimize starts optimizes).1 ran
  exact retried _ rbt starts ran

/-! ## The search -/

/-- A hit of the loop is inside the array, in whatever order the ranges are. -/
private theorem searchLoop_contains {r : Nat → LrcuRange} {value : Nat} (len : Nat) :
    ∀ (fuel : Nat) (low high : Int), 0 ≤ low → low ≤ high → high < len →
      bintreeRangeSearchLoop r value fuel low high ≠ -1 →
      ∃ index < len, (r index).Contains value := by
  intro fuel
  induction fuel with
  | zero => intro low high _ _ _ hit; simp [bintreeRangeSearchLoop] at hit
  | succ fuel ih =>
      intro low high nonneg ordered inside hit
      have truncated : (low + high).tdiv 2 = (low + high) / 2 :=
        Int.tdiv_eq_ediv_of_nonneg (by omega)
      obtain ⟨mid, midEq⟩ : ∃ mid : Nat, (low + high) / 2 = mid :=
        Int.eq_ofNat_of_zero_le (by omega)
      simp only [bintreeRangeSearchLoop, truncated, midEq, Int.toNat_natCast] at hit
      by_cases found : bintreeRangeValueCmp (r mid) value = 0
      · exact ⟨mid, by omega, (bintreeRangeValueCmp_eq_zero_iff _ _).mp found⟩
      · rw [if_neg found] at hit
        split_ifs at hit
        all_goals first
          | exact ih _ _ (by omega) (by omega) (by omega) hit
          | exact absurd rfl hit

theorem lrcuRangetreeFind_eq_false {rbt : LrcuRangetree} {value : Nat}
    (nonempty : 0 < rbt.len) (starts : StartsIn (value < ·) rbt) :
    lrcuRangetreeFind rbt value = false := by
  by_contra hit
  rw [Bool.not_eq_false, lrcuRangetreeFind, bne_iff_ne, bintreeRangeSearch] at hit
  obtain ⟨index, inside, low, _⟩ :=
    searchLoop_contains rbt.len (rbt.len + 1) 0 (rbt.len - 1) (Int.le_refl 0)
      (by omega) (by omega) hit
  exact absurd low (not_le.mpr (starts index inside))

end LightRcu
