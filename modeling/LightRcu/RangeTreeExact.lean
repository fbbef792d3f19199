import LightRcu.RangeTreeCanonical

/-!
# The range set is exact while it fits

As long as every range finds a free slot, nothing is merged or joined before
the final merge, so the search answers for the added ranges alone.  It stays
inside the counted part of the array unless that part is empty: the body of the
search loop runs before the bounds are compared.
-/

namespace LightRcu

open ClosedInterval Execution

/-! ## What the search reads -/

/-- The indices that `bintreeRangeSearchLoop` looks at, in order. -/
def bintreeRangeSearchLoopReads (r : Nat → LrcuRange) (value : Nat) :
    Nat → Int → Int → List Int
  | 0, _, _ => []
  | fuel + 1, low, high =>
      let mid := (low + high).tdiv 2
      let rangeCmp := bintreeRangeValueCmp (r mid.toNat) value
      if rangeCmp = 0 then [mid]
      else
        let high := if rangeCmp < 0 then mid - 1 else high
        let low := if rangeCmp > 0 then mid + 1 else low
        mid :: if low ≤ high then bintreeRangeSearchLoopReads r value fuel low high else []

def bintreeRangeSearchReads (r : Nat → LrcuRange) (len value : Nat) : List Int :=
  bintreeRangeSearchLoopReads r value (len + 1) 0 (len - 1)

/-- The search depends on no other cell of the buffer than those it reads. -/
theorem bintreeRangeSearchLoop_congr {r r' : Nat → LrcuRange} {value : Nat} :
    ∀ fuel low high,
      (∀ index ∈ bintreeRangeSearchLoopReads r value fuel low high,
        r' index.toNat = r index.toNat) →
      bintreeRangeSearchLoop r' value fuel low high =
        bintreeRangeSearchLoop r value fuel low high := by
  intro fuel
  induction fuel with
  | zero => intro _ _ _; rfl
  | succ fuel ih =>
      intro low high same
      rw [bintreeRangeSearchLoopReads] at same
      simp only at same
      have sameMid : r' ((low + high).tdiv 2).toNat = r ((low + high).tdiv 2).toNat := by
        apply same
        split_ifs <;> simp
      rw [bintreeRangeSearchLoop, bintreeRangeSearchLoop]
      simp only [sameMid]
      by_cases found : bintreeRangeValueCmp (r ((low + high).tdiv 2).toNat) value = 0
      · rw [if_pos found, if_pos found]
      · rw [if_neg found, if_neg found]
        rw [if_neg found, List.forall_mem_cons] at same
        split_ifs at same ⊢
        all_goals first
          | rfl
          | exact ih _ _ same.2

theorem bintreeRangeSearch_congr {r r' : Nat → LrcuRange} {len value : Nat}
    (same : ∀ index ∈ bintreeRangeSearchReads r len value,
      r' index.toNat = r index.toNat) :
    bintreeRangeSearch r' len value = bintreeRangeSearch r len value :=
  bintreeRangeSearchLoop_congr (len + 1) 0 (len - 1) same

/-- Between two bounds in order the search reads only between them. -/
private theorem searchLoopReads_between {r : Nat → LrcuRange} {value : Nat} :
    ∀ (fuel : Nat) (low high : Int), 0 ≤ low → low ≤ high →
      ∀ index ∈ bintreeRangeSearchLoopReads r value fuel low high,
        low ≤ index ∧ index ≤ high := by
  intro fuel
  induction fuel with
  | zero => intro low high _ _ index member; simp [bintreeRangeSearchLoopReads] at member
  | succ fuel ih =>
      intro low high nonneg ordered index member
      have truncated : (low + high).tdiv 2 = (low + high) / 2 :=
        Int.tdiv_eq_ediv_of_nonneg (by omega)
      rw [bintreeRangeSearchLoopReads] at member
      simp only [truncated] at member
      by_cases found : bintreeRangeValueCmp (r ((low + high) / 2).toNat) value = 0
      · rw [if_pos found, List.mem_singleton] at member
        omega
      · rw [if_neg found] at member
        rcases List.mem_cons.mp member with rfl | later
        · omega
        · split_ifs at later with below above more
          all_goals first
            | exact absurd later List.not_mem_nil
            | have narrowed := ih _ _ (by omega) (by assumption) index later
              omega

theorem bintreeRangeSearchReads_inside {r : Nat → LrcuRange} {len : Nat} (nonempty : 0 < len)
    (value : Nat) :
    ∀ index ∈ bintreeRangeSearchReads r len value, 0 ≤ index ∧ index < len := by
  intro index member
  have between := searchLoopReads_between (len + 1) 0 (len - 1) (Int.le_refl 0) (by omega)
    index member
  omega

theorem bintreeRangeSearchReads_of_empty (r : Nat → LrcuRange) (value : Nat) :
    bintreeRangeSearchReads r 0 value = [0] := by
  simp only [bintreeRangeSearchReads, bintreeRangeSearchLoopReads]
  rcases lt_trichotomy (bintreeRangeValueCmp (r 0) value) 0 with below | hit | above
  · simp [below.ne, below, not_lt.mpr below.le]
  · simp [hit]
  · simp [above.ne', above, not_lt.mpr above.le]

/-! ## Adds that fit -/

theorem run_addAll_of_room (added : List LrcuRange) {rbt : LrcuRangetree}
    (fits : rbt.len + added.length ≤ rbt.capacity) :
    ∃ final, run applyRangeOp rbt (addAll added) = some final ∧
      final.entries = rbt.entries ++ added ∧
      (rbt.sorted = false → final.sorted = false) := by
  induction added generalizing rbt with
  | nil => exact ⟨rbt, rfl, by simp, id⟩
  | cons range rest ih =>
      rw [List.length_cons] at fits
      have stepped : applyRangeOp rbt (.add range.minv range.maxv) =
          some (appendRange rbt range.minv range.maxv) :=
        rangetreeAddRetry_of_room _ (by omega)
      have fitsRest : (appendRange rbt range.minv range.maxv).len + rest.length ≤
          (appendRange rbt range.minv range.maxv).capacity := by
        change rbt.len + 1 + rest.length ≤ rbt.capacity
        omega
      obtain ⟨final, ran, entries, unsorted⟩ := ih fitsRest
      refine ⟨final, run_cons_eq_some_iff.mpr ⟨_, stepped, ran⟩, ?_, fun _ => unsorted rfl⟩
      rw [entries, entries_appendRange, List.append_assoc, List.singleton_append]

/-! ## Exactness -/

/-- The search finds exactly the values of the added ranges, and reads only the
counted part of the array. -/
def FindsExactly (rbt : LrcuRangetree) (added : List LrcuRange) : Prop :=
  ∀ value < 2 ^ 64,
    (lrcuRangetreeFind rbt value = true ↔ Covered added value) ∧
      ∀ index ∈ bintreeRangeSearchReads rbt.r rbt.len value, 0 ≤ index ∧ index < rbt.len

theorem not_findsExactly_of_empty {rbt : LrcuRangetree} (empty : rbt.len = 0)
    (added : List LrcuRange) : ¬ FindsExactly rbt added := by
  intro exactly
  have inside := (exactly 0 (by decide)).2 0
  rw [empty, bintreeRangeSearchReads_of_empty] at inside
  exact absurd (inside (List.mem_singleton_self 0)).2 (by decide)

/-- Any number of adds up to the capacity and a merge leave an exact set,
unless there was none. -/
theorem findsExactly_iff_nonempty (ranges : Nat → LrcuRange) (capacity : Nat)
    (added : List LrcuRange) (fits : added.length ≤ capacity)
    (proper : ∀ range ∈ added,
      range.minv ≤ range.maxv ∧ range.minv ≠ rangeBintreeEmptyValue) :
    ∃ rbt merged room,
      run applyRangeOp (rangeBintreeInit ranges capacity) (addAll added) = some rbt ∧
        lrcuRangetreeOptimize rbt .merge = some (merged, room) ∧
        (FindsExactly merged added ↔ added ≠ []) := by
  have fitsInit : (rangeBintreeInit ranges capacity).len + added.length ≤
      (rangeBintreeInit ranges capacity).capacity := by
    change 0 + added.length ≤ capacity
    omega
  obtain ⟨rbt, ran, entries, unsorted⟩ := run_addAll_of_room added fitsInit
  rw [entries_rangeBintreeInit, List.nil_append] at entries
  have ok : RangesOk rbt := {
    flag := fun sorted => absurd ((unsorted rfl).symm.trans sorted) (by simp)
    inOrder := fun range member => (proper range (entries ▸ member)).1
    valid := fun range member => (proper range (entries ▸ member)).2 }
  obtain ⟨merged, room, optimized⟩ := optimize_merge_completes ok.valid
  refine ⟨rbt, merged, room, ran, optimized, ?_⟩
  have covered := covered_optimize_merge ok optimized
  have length : rbt.len = added.length := by rw [← entries_length, entries]
  constructor
  · rintro exactly rfl
    exact not_findsExactly_of_empty (optimize_merge_of_empty length optimized).1 [] exactly
  · intro several value _
    have nonempty : 0 < merged.len := by
      have starts : StartsIn (fun _ => True) rbt := fun _ _ => trivial
      apply (startsIn_of_optimize starts optimized).2
      rw [length]
      exact List.length_pos_iff.mpr several
    refine ⟨?_, bintreeRangeSearchReads_inside nonempty value⟩
    rw [lrcuRangetreeFind_iff_covered (separated_optimize_merge ok optimized) nonempty,
      covered, entries]

theorem findsExactly_of_two_readers :
    ∃ rbt merged room,
      run applyRangeOp (rangeBintreeInit (fun _ => ⟨0, 0⟩) 2) (addAll [⟨4, 7⟩, ⟨2, 5⟩]) =
          some rbt ∧
        lrcuRangetreeOptimize rbt .merge = some (merged, room) ∧
        FindsExactly merged [⟨4, 7⟩, ⟨2, 5⟩] := by
  obtain ⟨rbt, merged, room, ran, optimized, exactly⟩ :=
    findsExactly_iff_nonempty (fun _ => ⟨0, 0⟩) 2 [⟨4, 7⟩, ⟨2, 5⟩] (by decide) (by decide)
  exact ⟨rbt, merged, room, ran, optimized, exactly.mpr (by decide)⟩

/-- With nothing added, the search answers for what the buffer held before. -/
theorem find_of_stale_buffer :
    ∃ rbt merged room,
      run applyRangeOp (rangeBintreeInit (fun _ => ⟨3, 5⟩) 1) (addAll []) = some rbt ∧
        lrcuRangetreeOptimize rbt .merge = some (merged, room) ∧
        lrcuRangetreeFind merged 4 = true ∧ ¬ Covered ([] : List LrcuRange) 4 ∧
        merged.len = 0 ∧ bintreeRangeSearchReads merged.r merged.len 4 = [0] ∧
        ¬ FindsExactly merged [] :=
  ⟨_, _, _, rfl, rfl, by decide, by simp, rfl, by decide, not_findsExactly_of_empty rfl []⟩

end LightRcu
