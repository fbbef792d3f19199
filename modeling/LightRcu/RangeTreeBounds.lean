import LightRcu.RangeTreeAccesses

/-!
# The squeeze moves one range too many

The sort and the compaction stay inside the counted part of the array.  The
squeeze does not: its `memmove` also takes the element behind the counted part,
and it runs only on a full array, so that element lies behind the array.  An
add avoids it exactly when the merge before it finds two ranges to join.
-/

namespace LightRcu

open ClosedInterval Execution

/-! ## The logs miss no write -/

private theorem compactLoop_frame {len : Nat} :
    ∀ fuel (r : Nat → LrcuRange) (i realIndex realOffset : Nat) (r' : Nat → LrcuRange)
      (len' : Nat), compactLoop len fuel r i realIndex realOffset = some (r', len') →
      ∀ index ∉ compactLoopAccesses len fuel r i realIndex realOffset, r' index = r index := by
  intro fuel
  induction fuel with
  | zero => intro _ _ _ _ _ _ ran; simp [compactLoop] at ran
  | succ fuel ih =>
      intro r i realIndex realOffset r' len' ran index untouched
      rw [compactLoop] at ran
      rw [compactLoopAccesses] at untouched
      by_cases more : i < len
      · rw [if_pos more] at ran untouched
        by_cases reserved : (r i).minv = rangeBintreeEmptyValue
        · rw [if_pos reserved] at ran
          exact absurd ran (by simp)
        rw [if_neg reserved] at ran untouched
        generalize absorbLoop r (len - (i + 1)) (i + 1) (r i).maxv = stop at ran untouched
        obtain ⟨j, endOfSegment⟩ := stop
        simp only [List.mem_append, List.mem_cons, not_or] at ran untouched
        obtain ⟨⟨⟨notOuter, _⟩, _, notCopied⟩, later⟩ := untouched
        rw [ih _ _ _ _ _ _ ran index later]
        split_ifs at notCopied ⊢ with moved
        · simp only [List.mem_cons, not_or] at notCopied
          rw [Function.update_of_ne notCopied.2.1, Function.update_of_ne notOuter]
        · rw [Function.update_of_ne notOuter]
      · rw [if_neg more] at ran
        obtain ⟨rfl, _⟩ := Prod.mk.inj (Option.some.inj ran)
        rfl

private theorem squeeze_frame {rbt squeezed : LrcuRangetree}
    (ran : lrcuRangetreeSqueeze rbt = some squeezed) :
    ∀ index ∉ lrcuRangetreeSqueezeAccesses rbt, squeezed.r index = rbt.r index := by
  intro index untouched
  simp only [lrcuRangetreeSqueeze, Option.ite_none_right_eq_some, Option.some.injEq] at ran
  obtain ⟨several, rfl⟩ := ran
  rw [lrcuRangetreeSqueezeAccesses, if_pos several] at untouched
  simp only [memmoveAccesses, List.mem_append, List.mem_cons, List.mem_range'_1,
    not_or] at untouched
  obtain ⟨⟨_, _, notJoined, _⟩, _, notMoved⟩ := untouched
  simp only [memmoveRanges]
  rw [if_neg notMoved, Function.update_of_ne notJoined]

private theorem sortRanges_frame (rbt : LrcuRangetree) :
    ∀ index ∉ sortRangesAccesses rbt, (sortRanges rbt).r index = rbt.r index := by
  intro index untouched
  rw [sortRangesAccesses] at untouched
  rw [sortRanges]
  split_ifs at untouched ⊢
  · rfl
  · have behind : rbt.len ≤ index := by simpa using untouched
    simp [lrcuQsort, List.getD_eq_getElem?_getD, List.length_insertionSort, behind]

private theorem optimize_frame {rbt optimized : LrcuRangetree} {optLevel : OptLevel} {room : Bool}
    (ran : lrcuRangetreeOptimize rbt optLevel = some (optimized, room)) :
    ∀ index ∉ lrcuRangetreeOptimizeAccesses rbt optLevel, optimized.r index = rbt.r index := by
  intro index untouched
  simp only [lrcuRangetreeOptimizeAccesses, List.mem_append, not_or] at untouched
  rw [← sortRanges_frame rbt index untouched.1]
  simp only [lrcuRangetreeOptimize, Option.map_eq_some_iff, Prod.mk.injEq] at ran
  obtain ⟨_, ran, rfl, _⟩ := ran
  cases optLevel with
  | merge =>
      have untouched := untouched.2
      simp only [lrcuRangetreeRemoveOverlapping, Option.ite_none_right_eq_some,
        Option.map_eq_some_iff, Prod.exists] at ran
      obtain ⟨sorted, r, len, compacted, rfl⟩ := ran
      simp only [lrcuRangetreeRemoveOverlappingAccesses, if_pos sorted] at untouched
      exact compactLoop_frame _ _ _ _ _ _ _ compacted index untouched
  | squeeze => exact squeeze_frame ran index untouched.2

/-- An add changes no cell that its log does not name. -/
theorem lrcuRangetreeAdd_frame {rbt added : LrcuRangetree} {minv maxv : Nat}
    (ran : lrcuRangetreeAdd rbt minv maxv = some added) :
    ∀ index ∉ lrcuRangetreeAddAccesses rbt, added.r index = rbt.r index := by
  have retried : ∀ levels (rbt : LrcuRangetree),
      rangetreeAddRetry minv maxv levels rbt = some added →
        ∀ index ∉ rangetreeAddRetryAccesses levels rbt, added.r index = rbt.r index := by
    intro levels
    induction levels with
    | nil =>
        intro rbt ran index untouched
        simp only [rangetreeAddRetry, Option.ite_none_right_eq_some, Option.some.injEq] at ran
        obtain ⟨room, rfl⟩ := ran
        rw [rangetreeAddRetryAccesses, if_pos room, List.mem_singleton] at untouched
        exact Function.update_of_ne untouched _ _
    | cons optLevel levels ih =>
        intro rbt ran index untouched
        rw [rangetreeAddRetry] at ran
        rw [rangetreeAddRetryAccesses] at untouched
        split_ifs at ran untouched with room
        · obtain rfl := Option.some.inj ran
          exact Function.update_of_ne (by simpa using untouched) _ _
        · obtain ⟨⟨optimized, changed⟩, optimizes, ran⟩ := Option.bind_eq_some_iff.mp ran
          rw [optimizes, List.mem_append, not_or] at untouched
          rw [ih optimized ran index untouched.2, optimize_frame optimizes index untouched.1]
  exact retried _ rbt ran

/-! ## The compaction stays inside -/

private theorem absorbLoopAccesses_lt {r : Nat → LrcuRange} :
    ∀ remaining j endOfSegment,
      ∀ index ∈ absorbLoopAccesses r remaining j endOfSegment, index < j + remaining := by
  intro remaining
  induction remaining with
  | zero => intro _ _ index member; simp [absorbLoopAccesses] at member
  | succ remaining ih =>
      intro j endOfSegment index member
      rw [absorbLoopAccesses] at member
      split_ifs at member
      all_goals
        rcases List.mem_cons.mp member with rfl | later
        · omega
      · exact absurd later List.not_mem_nil
      all_goals
        have := ih _ _ index later
        omega

private theorem compactLoopAccesses_lt {len : Nat} :
    ∀ fuel (r : Nat → LrcuRange) (i realIndex realOffset : Nat), realIndex ≤ i →
      ∀ index ∈ compactLoopAccesses len fuel r i realIndex realOffset, index < len := by
  intro fuel
  induction fuel with
  | zero => intro _ _ _ _ _ index member; simp [compactLoopAccesses] at member
  | succ fuel ih =>
      intro r i realIndex realOffset behind index member
      rw [compactLoopAccesses] at member
      by_cases more : i < len
      · rw [if_pos more] at member
        by_cases reserved : (r i).minv = rangeBintreeEmptyValue
        · rw [if_pos reserved, List.mem_singleton] at member
          exact member ▸ more
        rw [if_neg reserved] at member
        obtain ⟨low, _, _⟩ :=
          absorbLoop_spec r (r i).minv (len - (i + 1)) (i + 1) (r i).maxv
        generalize absorbLoop r (len - (i + 1)) (i + 1) (r i).maxv = stop at member low
        obtain ⟨j, endOfSegment⟩ := stop
        simp only [List.mem_append, List.mem_cons] at member low
        rcases member with ((rfl | scanned) | rfl | copied) | later
        · exact more
        · have := absorbLoopAccesses_lt _ _ _ index scanned
          omega
        · exact more
        · split_ifs at copied
          · simp only [List.mem_cons, List.not_mem_nil, or_false] at copied
            omega
          · exact absurd copied List.not_mem_nil
        · exact ih _ _ _ _ (by omega) index later
      · rw [if_neg more] at member
        exact absurd member List.not_mem_nil

theorem optimizeAccesses_merge_lt (rbt : LrcuRangetree) :
    ∀ index ∈ lrcuRangetreeOptimizeAccesses rbt .merge, index < rbt.len := by
  intro index member
  rw [lrcuRangetreeOptimizeAccesses, List.mem_append, sortRangesAccesses] at member
  rcases member with sorting | merging
  · split_ifs at sorting
    · exact absurd sorting List.not_mem_nil
    · exact List.mem_range.mp sorting
  · simp only [lrcuRangetreeRemoveOverlappingAccesses, sortRanges_sorted, if_true,
      sortRanges_len] at merging
    exact compactLoopAccesses_lt _ _ _ _ _ (Nat.le_refl 0) index merging

/-! ## The squeeze reaches one element behind -/

private theorem squeezeIndexLoopAccesses_le {r : Nat → LrcuRange} :
    ∀ i deltaMin, ∀ index ∈ squeezeIndexLoopAccesses r i deltaMin, index ≤ i + 1 := by
  intro i
  induction i with
  | zero => intro _ index member; simp [squeezeIndexLoopAccesses] at member
  | succ i ih =>
      intro deltaMin index member
      simp only [squeezeIndexLoopAccesses, List.mem_append, List.mem_cons] at member
      rcases member with (rfl | rfl | impossible) | later
      · omega
      · omega
      · exact absurd impossible List.not_mem_nil
      · split_ifs at later
        · exact absurd later List.not_mem_nil
        all_goals
          have := ih _ index later
          omega

/-- The squeeze touches the element right behind the counted part, and nothing
further away. -/
theorem squeezeAccesses_spec {rbt : LrcuRangetree} (sorted : rbt.sorted = true)
    (several : 1 < rbt.len) :
    rbt.len ∈ lrcuRangetreeSqueezeAccesses rbt ∧
      ∀ index ∈ lrcuRangetreeSqueezeAccesses rbt, index ≤ rbt.len := by
  have inside := squeezeIndex_lt several
  rw [lrcuRangetreeSqueezeAccesses, if_pos ⟨sorted, several⟩]
  simp only [memmoveAccesses, List.mem_append, List.mem_cons, List.mem_range'_1]
  refine ⟨Or.inr (Or.inl (by omega)), fun index member => ?_⟩
  rcases member with (searched | rfl | rfl | impossible) | moved
  · have := squeezeIndexLoopAccesses_le _ _ index searched
    omega
  · omega
  · omega
  · exact absurd impossible List.not_mem_nil
  · omega

/-! ## One add -/

/-- The merge that an add to a full array starts with frees a slot: two of the
ranges have a value in common. -/
def MergeFrees (rbt : LrcuRangetree) : RangeOp → Prop
  | .add _ _ => rbt.len < rbt.capacity ∨ ¬ Scattered rbt.entries
  | .optimizeMerge => True

private theorem scattered_entries_iff {rbt : LrcuRangetree} (ok : RangesOk rbt) :
    Separated (sortRanges rbt).entries ↔ Scattered rbt.entries := by
  have permuted := entries_sortRanges_perm rbt
  rw [← scattered_perm permuted]
  apply separated_iff_scattered (ascending_entries_sortRanges ok.sortedFlag)
  exact fun range member => ok.inOrder range (permuted.mem_iff.mp member)

theorem optimize_merge_len {rbt merged : LrcuRangetree} {room : Bool} (ok : RangesOk rbt)
    (ran : lrcuRangetreeOptimize rbt .merge = some (merged, room)) :
    merged.len ≤ rbt.len ∧ (merged.len < rbt.len ↔ ¬ Scattered rbt.entries) := by
  have entries := entries_optimize_merge ran
  have lengths : (sortRanges rbt).entries.length = rbt.len := by simp
  have ascending := ascending_entries_sortRanges ok.sortedFlag
  rw [← scattered_entries_iff ok, ← entries_length merged, entries, ← lengths]
  refine ⟨length_mergeSorted_le _, ?_, length_mergeSorted_lt ascending⟩
  intro shorter separated
  rw [mergeSorted_of_separated separated] at shorter
  exact shorter.false

theorem opInBounds_add_iff {rbt : LrcuRangetree} (ok : RangesOk rbt) (room : RangetreeOk rbt)
    (minv maxv : Nat) :
    OpInBounds rbt (.add minv maxv) ↔ MergeFrees rbt (.add minv maxv) := by
  simp only [OpInBounds, MergeFrees, lrcuRangetreeAddAccesses, rangetreeAddRetryAccesses]
  by_cases free : rbt.len < rbt.capacity
  · simp [free]
  have full : rbt.len = rbt.capacity := le_antisymm room.counted (not_lt.mp free)
  obtain ⟨merged, changed, ran⟩ := optimize_merge_completes ok.valid
  have capacity := (optimize_merge_spec room ran 0).2.2.1
  obtain ⟨shorter, frees⟩ := optimize_merge_len ok ran
  have merging : ∀ index ∈ lrcuRangetreeOptimizeAccesses rbt .merge, index < rbt.capacity :=
    fun index member => full ▸ optimizeAccesses_merge_lt rbt index member
  rw [if_neg free, ran]
  simp only [List.mem_append, or_imp, forall_and, or_iff_right free]
  rw [← frees]
  constructor
  · rintro ⟨_, inside⟩
    by_contra nothing
    have several : 1 < merged.len := by
      have := room.capacity
      omega
    have sorted := sorted_of_optimize_merge ran
    have same : sortRanges merged = merged := if_pos sorted
    have reached := (squeezeAccesses_spec sorted several).1
    have outside := inside merged.len
    rw [if_neg (by omega), List.mem_append] at outside
    have := outside (Or.inl (by
      rw [lrcuRangetreeOptimizeAccesses, List.mem_append]
      exact Or.inr (by rwa [same])))
    omega
  · intro freed
    refine ⟨merging, fun index member => ?_⟩
    rw [if_pos (by omega), List.mem_singleton] at member
    omega

/-! ## Sequences of calls -/

/-- Every sequence of calls with proper ranges runs to its end, and it stays
inside the array exactly when no add of it has to squeeze. -/
theorem opInBounds_iff_mergeFrees (ranges : Nat → LrcuRange) (capacity : Nat)
    (ops : List RangeOp) (several : 2 ≤ capacity)
    (proper : ∀ range ∈ addedRanges ops,
      range.minv ≤ range.maxv ∧ range.minv ≠ rangeBintreeEmptyValue) :
    (∃ final, run applyRangeOp (rangeBintreeInit ranges capacity) ops = some final) ∧
      (Meets applyRangeOp OpInBounds (rangeBintreeInit ranges capacity) ops ↔
        Meets applyRangeOp MergeFrees (rangeBintreeInit ranges capacity) ops) := by
  have okInit := rangetreeOk_init ranges several
  constructor
  · obtain ⟨final, ran, _⟩ := run_applyRangeOp_spec 0 ops okInit
      (valid_rangeBintreeInit ranges capacity) (.of_perm (.refl _))
      fun range member => (proper range member).2
    exact ⟨final, ran⟩
  · apply meets_iff_of_invariant fun rbt => RangesOk rbt ∧ RangetreeOk rbt
    · intro rbt op _ ok
      cases op with
      | add minv maxv => exact opInBounds_add_iff ok.1 ok.2 minv maxv
      | optimizeMerge =>
          refine iff_of_true (fun index member => ?_) trivial
          exact (optimizeAccesses_merge_lt rbt index member).trans_le ok.2.counted
    · intro rbt op member next ok stepped
      exact ok.1.step ok.2
        (fun range added => proper range (mem_addedRanges_of_mem member added)) stepped
    · exact ⟨rangesOk_init ranges capacity, okInit⟩

/-- The third reader finds the array of two full, but the first two overlap. -/
theorem opInBounds_of_overlapping_readers :
    Meets applyRangeOp OpInBounds (rangeBintreeInit (fun _ => ⟨0, 0⟩) 2)
      (addAll [⟨1, 3⟩, ⟨2, 3⟩, ⟨5, 5⟩]) := by
  obtain ⟨_, bounds⟩ := opInBounds_iff_mergeFrees (fun _ => ⟨0, 0⟩) 2
    (addAll [⟨1, 3⟩, ⟨2, 3⟩, ⟨5, 5⟩]) (by decide) (by decide)
  refine bounds.mpr (Meets.cons (Or.inl (by decide)) rfl
    (Meets.cons (Or.inl (by decide)) rfl (Meets.cons (Or.inr fun apart => ?_) rfl trivial)))
  have disjoint : ¬ Overlap (⟨1, 3⟩ : LrcuRange) ⟨2, 3⟩ :=
    (List.pairwise_cons.mp apart).1 _ List.mem_cons_self
  exact disjoint ⟨2, by decide, by decide⟩

/-- Three readers apart from each other in an array of two: the third add reads
the element with index `2`. -/
theorem not_opInBounds_of_scattered_readers :
    (∃ rbt, run applyRangeOp (rangeBintreeInit (fun _ => ⟨0, 0⟩) 2)
          (addAll [⟨1, 1⟩, ⟨3, 3⟩]) = some rbt ∧
        rbt.capacity = 2 ∧ 2 ∈ lrcuRangetreeAddAccesses rbt) ∧
      ¬ Meets applyRangeOp OpInBounds (rangeBintreeInit (fun _ => ⟨0, 0⟩) 2)
        (addAll [⟨1, 1⟩, ⟨3, 3⟩, ⟨5, 5⟩]) := by
  obtain ⟨rbt, ran, capacity, reached⟩ :
      ∃ rbt, run applyRangeOp (rangeBintreeInit (fun _ => ⟨0, 0⟩) 2)
          (addAll [⟨1, 1⟩, ⟨3, 3⟩]) = some rbt ∧
        rbt.capacity = 2 ∧ 2 ∈ lrcuRangetreeAddAccesses rbt :=
    ⟨_, rfl, rfl, by decide⟩
  refine ⟨⟨rbt, ran, capacity, reached⟩, fun inBounds => ?_⟩
  have whole : Meets applyRangeOp OpInBounds (rangeBintreeInit (fun _ => ⟨0, 0⟩) 2)
      (addAll [⟨1, 1⟩, ⟨3, 3⟩] ++ addAll [⟨5, 5⟩]) := inBounds
  have third := whole.append_right ran
  have inside : 2 < rbt.capacity := third.1 2 reached
  omega

end LightRcu
