import LightRcu.RangeTreeMerge

/-!
# The binary search of `range.c`

On a non-empty array of separated ranges the search decides whether one of
them contains the value.  On an empty array the loop body still runs once and
looks at the first cell of the buffer, whatever it holds.
-/

namespace LightRcu

open ClosedInterval

theorem bintreeRangeValueCmp_eq_zero_iff (range : LrcuRange) (value : Nat) :
    bintreeRangeValueCmp range value = 0 ↔ range.Contains value := by
  unfold bintreeRangeValueCmp Contains
  split_ifs <;> simp <;> omega

theorem bintreeRangeValueCmp_neg_iff (range : LrcuRange) (value : Nat) :
    bintreeRangeValueCmp range value < 0 ↔ value < range.minv := by
  unfold bintreeRangeValueCmp
  split_ifs <;> omega

theorem bintreeRangeValueCmp_pos_iff (range : LrcuRange) (value : Nat) :
    0 < bintreeRangeValueCmp range value ↔
      range.minv ≤ value ∧ range.maxv < value := by
  unfold bintreeRangeValueCmp
  split_ifs <;> omega

/-- Between `low` and `high`, both inside the array, the loop finds a range
that contains the value exactly when there is one. -/
private theorem searchLoop_ne_neg_one_iff {r : Nat → LrcuRange} {len : Nat} (value : Nat)
    (separated : ∀ first second, first < second → second < len →
      Before (r first) (r second)) :
    ∀ (fuel : Nat) (low high : Int), 0 ≤ low → low ≤ high → high < len →
      high - low < fuel →
      (bintreeRangeSearchLoop r value fuel low high ≠ -1 ↔
        ∃ index : Nat, low ≤ index ∧ (index : Int) ≤ high ∧
          (r index).Contains value) := by
  intro fuel
  induction fuel with
  | zero => intro low high _ _ _ enough; omega
  | succ fuel ih =>
      intro low high nonneg ordered inside enough
      have truncated : (low + high).tdiv 2 = (low + high) / 2 :=
        Int.tdiv_eq_ediv_of_nonneg (by omega)
      obtain ⟨mid, midEq⟩ : ∃ mid : Nat, (low + high) / 2 = mid :=
        Int.eq_ofNat_of_zero_le (by omega)
      have lowMid : low ≤ mid := by omega
      have midHigh : (mid : Int) ≤ high := by omega
      simp only [bintreeRangeSearchLoop, truncated, midEq, Int.toNat_natCast]
      rcases lt_trichotomy (bintreeRangeValueCmp (r mid) value) 0 with below | hit | above
      · -- every range from the middle on starts above the value
        rw [if_neg below.ne, if_pos below, if_neg (not_lt.mpr below.le)]
        rw [bintreeRangeValueCmp_neg_iff] at below
        have narrowed : ∀ index : Nat, (index : Int) ≤ high → (r index).Contains value →
            (index : Int) ≤ mid - 1 := by
          intro index indexHigh contains
          by_contra later
          rcases eq_or_lt_of_le (show mid ≤ index by omega) with rfl | after
          · exact (contains.1.trans_lt below).false
          · have before := separated mid index after (by omega)
            exact ((before.1.trans contains.1).trans_lt below).false
        split_ifs with more
        · rw [ih low (mid - 1) nonneg more (by omega) (by omega)]
          constructor
          · rintro ⟨index, lowIndex, indexMid, contains⟩
            exact ⟨index, lowIndex, by omega, contains⟩
          · rintro ⟨index, lowIndex, indexHigh, contains⟩
            exact ⟨index, lowIndex, narrowed index indexHigh contains, contains⟩
        · refine iff_of_false (by simp) ?_
          rintro ⟨index, lowIndex, indexHigh, contains⟩
          have := narrowed index indexHigh contains
          omega
      · rw [if_pos hit]
        rw [bintreeRangeValueCmp_eq_zero_iff] at hit
        exact iff_of_true (by omega) ⟨mid, lowMid, midHigh, hit⟩
      · -- every range up to the middle ends below the value
        rw [if_neg above.ne', if_neg (not_lt.mpr above.le), if_pos above]
        rw [bintreeRangeValueCmp_pos_iff] at above
        have narrowed : ∀ index : Nat, low ≤ index → (r index).Contains value →
            (mid : Int) + 1 ≤ index := by
          intro index _ contains
          by_contra earlier
          rcases eq_or_lt_of_le (show index ≤ mid by omega) with rfl | before
          · exact (contains.2.trans_lt above.2).false
          · have apart := separated index mid before (by omega)
            exact ((contains.2.trans_lt apart.2).trans_le above.1).false
        split_ifs with more
        · rw [ih (mid + 1) high (by omega) more inside (by omega)]
          constructor
          · rintro ⟨index, midIndex, indexHigh, contains⟩
            exact ⟨index, by omega, indexHigh, contains⟩
          · rintro ⟨index, lowIndex, indexHigh, contains⟩
            exact ⟨index, narrowed index lowIndex contains, indexHigh, contains⟩
        · refine iff_of_false (by simp) ?_
          rintro ⟨index, lowIndex, indexHigh, contains⟩
          have := narrowed index lowIndex contains
          omega

/-- On a non-empty array of separated ranges the search is exact. -/
theorem lrcuRangetreeFind_iff_covered {rbt : LrcuRangetree}
    (separated : Separated rbt.entries) (nonempty : 0 < rbt.len) (value : Nat) :
    lrcuRangetreeFind rbt value = true ↔ Covered rbt.entries value := by
  have apart : ∀ first second, first < second → second < rbt.len →
      Before (rbt.r first) (rbt.r second) :=
    fun first second ordered inside => pairwise_entries separated ordered inside
  have exactly := searchLoop_ne_neg_one_iff value apart (rbt.len + 1) 0
    (rbt.len - 1) (le_refl 0) (by omega) (by omega) (by omega)
  rw [lrcuRangetreeFind, bintreeRangeSearch, bne_iff_ne, exactly]
  constructor
  · rintro ⟨index, _, inside, contains⟩
    exact ⟨rbt.r index, mem_entries.mpr ⟨index, by omega, rfl⟩, contains⟩
  · rintro ⟨range, member, contains⟩
    obtain ⟨index, inside, rfl⟩ := mem_entries.mp member
    exact ⟨index, by omega, by omega, contains⟩

theorem lrcuRangetreeFind_of_empty {rbt : LrcuRangetree} (empty : rbt.len = 0)
    (value : Nat) :
    lrcuRangetreeFind rbt value = true ↔ (rbt.r 0).Contains value := by
  rw [← bintreeRangeValueCmp_eq_zero_iff]
  simp only [lrcuRangetreeFind, bintreeRangeSearch, empty, bintreeRangeSearchLoop]
  rcases lt_trichotomy (bintreeRangeValueCmp (rbt.r 0) value) 0 with below | hit | above
  · simp [below.ne, below, not_lt.mpr below.le]
  · simp [hit]
  · simp [above.ne', above, not_lt.mpr above.le]

end LightRcu
