import LightRcu.RangeTreeMerge

/-!
# Adding a range always succeeds

The retry loop of `lrcu_rangetree_add` has no bound of its own.  It ends
because a merge leaves a full array with at least two separated ranges, one of
which the squeeze then frees.  Whatever was covered up to the common upper end
of the inverted ranges stays covered.
-/

namespace LightRcu

open ClosedInterval

/-- The state of a range set between two operations. -/
structure RangetreeOk (rbt : LrcuRangetree) : Prop where
  capacity : 2 ≤ rbt.capacity
  counted : rbt.len ≤ rbt.capacity
  flag : SortedFlag rbt

theorem rangetreeOk_init (ranges : Nat → LrcuRange) {capacity : Nat}
    (several : 2 ≤ capacity) : RangetreeOk (rangeBintreeInit ranges capacity) where
  capacity := several
  counted := Nat.zero_le _
  flag := by simp [SortedFlag, rangeBintreeInit]

@[simp]
theorem entries_rangeBintreeInit (ranges : Nat → LrcuRange) (capacity : Nat) :
    (rangeBintreeInit ranges capacity).entries = [] :=
  rfl

theorem valid_rangeBintreeInit (ranges : Nat → LrcuRange) (capacity : Nat) :
    (rangeBintreeInit ranges capacity).Valid := by
  simp [LrcuRangetree.Valid]

theorem LrcuRangetree.Valid.coarsen {bound : Nat} {first second : LrcuRangetree}
    (valid : first.Valid) (coarsens : CoarsensUpTo bound first.entries second.entries) :
    second.Valid := by
  intro range member
  obtain ⟨origin, inside, equal⟩ := coarsens.starts range member
  exact equal ▸ valid origin inside

variable {rbt : LrcuRangetree}

/-! ## Merge and squeeze -/

theorem optimize_merge_spec {merged : LrcuRangetree} {room : Bool} (ok : RangetreeOk rbt)
    (ran : lrcuRangetreeOptimize rbt .merge = some (merged, room)) (bound : Nat) :
    RangetreeOk merged ∧ merged.sorted = true ∧ merged.capacity = rbt.capacity ∧
      Separated merged.entries ∧ CoarsensUpTo bound rbt.entries merged.entries := by
  simp only [lrcuRangetreeOptimize, Option.map_eq_some_iff, Prod.mk.injEq] at ran
  obtain ⟨_, ran, rfl, _⟩ := ran
  obtain ⟨entries, sorted, capacity⟩ := removeOverlapping_spec ran
  have ascending := ascending_entries_sortRanges ok.flag
  have separated := separated_mergeSorted ascending
  have coarsens := (CoarsensUpTo.of_perm (entries_sortRanges_perm rbt)).trans
    (.of_mergeSorted ascending : CoarsensUpTo bound _ _)
  rw [← entries] at separated coarsens
  rw [sortRanges_capacity] at capacity
  refine ⟨?_, sorted, capacity, separated, coarsens⟩
  have shorter := length_mergeSorted_le (sortRanges rbt).entries
  rw [← entries, entries_length, entries_length, sortRanges_len] at shorter
  exact {
    capacity := capacity.symm ▸ ok.capacity
    counted := shorter.trans (ok.counted.trans capacity.ge)
    flag := fun _ => separated.ascending }

/-- A merge succeeds unless a merged range starts at the reserved value. -/
theorem optimize_merge_completes_iff (flag : SortedFlag rbt) :
    (∃ merged room, lrcuRangetreeOptimize rbt .merge = some (merged, room)) ↔
      rbt.Unreserved := by
  have runs : (∃ merged room, lrcuRangetreeOptimize rbt .merge = some (merged, room)) ↔
      ∃ merged, lrcuRangetreeRemoveOverlapping (sortRanges rbt) = some merged := by
    simp [lrcuRangetreeOptimize]
  rw [runs, removeOverlapping_completes_iff (sortRanges_sorted rbt), LrcuRangetree.Unreserved,
    ← OpensAt.perm (entries_sortRanges_perm rbt),
    ← exists_minv_mergeSorted_iff (ascending_entries_sortRanges flag)]
  simp only [not_exists, not_and, ne_eq]

theorem optimize_merge_completes (valid : rbt.Valid) :
    ∃ merged room, lrcuRangetreeOptimize rbt .merge = some (merged, room) := by
  have passes : ∀ range ∈ mergeSorted (sortRanges rbt).entries,
      range.minv ≠ rangeBintreeEmptyValue := by
    intro range member
    obtain ⟨origin, inside, equal⟩ := minv_mem_mergeSorted member
    exact equal ▸ valid origin ((entries_sortRanges_perm rbt).mem_iff.mp inside)
  obtain ⟨merged, ran⟩ := (removeOverlapping_completes_iff (sortRanges_sorted rbt)).mpr passes
  exact ⟨merged, _, by rw [lrcuRangetreeOptimize, ran]; rfl⟩

theorem optimize_squeeze_spec (ok : RangetreeOk rbt) (sorted : rbt.sorted = true)
    (separated : Separated rbt.entries) (several : 1 < rbt.len) (bound : Nat) :
    ∃ squeezed room, lrcuRangetreeOptimize rbt .squeeze = some (squeezed, room) ∧
      RangetreeOk squeezed ∧ squeezed.capacity = rbt.capacity ∧
      squeezed.len + 1 = rbt.len ∧
      CoarsensUpTo bound rbt.entries squeezed.entries := by
  obtain ⟨squeezed, ran, entries, _, capacity⟩ := squeeze_spec sorted several
  have same : sortRanges rbt = rbt := if_pos sorted
  have shorter : squeezed.len + 1 = rbt.len := by
    have inside : squeezeIndex rbt + 1 < rbt.entries.length := by
      simpa using squeezeIndex_lt several
    have joined := length_joinAt inside
    rwa [← entries, entries_length, entries_length] at joined
  have coarsens : CoarsensUpTo bound rbt.entries squeezed.entries :=
    entries ▸ .of_joinAt separated _
  refine ⟨squeezed, _, by simp [lrcuRangetreeOptimize, same, ran]; rfl, ?_, capacity, shorter,
    coarsens⟩
  have counted := ok.counted
  exact {
    capacity := capacity.symm ▸ ok.capacity
    counted := by omega
    flag := fun _ => entries ▸ pairwise_minv_joinAt separated.ascending }

/-! ## The retry loop -/

theorem rangetreeAddRetry_of_room {minv maxv : Nat} (levels : List OptLevel)
    (room : rbt.len < rbt.capacity) :
    rangetreeAddRetry minv maxv levels rbt = some (appendRange rbt minv maxv) := by
  cases levels <;> exact if_pos room

theorem rangetreeAddRetry_of_full {minv maxv : Nat} {level : OptLevel} (levels : List OptLevel)
    {optimized : LrcuRangetree} {changed : Bool} (full : ¬ rbt.len < rbt.capacity)
    (optimizes : lrcuRangetreeOptimize rbt level = some (optimized, changed)) :
    rangetreeAddRetry minv maxv (level :: levels) rbt =
      rangetreeAddRetry minv maxv levels optimized := by
  rw [rangetreeAddRetry, if_neg full, optimizes, Option.bind_some]

theorem entries_appendRange (minv maxv : Nat) :
    (appendRange rbt minv maxv).entries = rbt.entries ++ [⟨minv, maxv⟩] := by
  simp only [appendRange, LrcuRangetree.entries, List.range_succ, List.map_append,
    List.map_singleton, Function.update_self]
  congr 1
  apply List.map_congr_left
  intro index member
  rw [Function.update_of_ne (List.mem_range.mp member).ne]

theorem rangetreeOk_appendRange {minv maxv : Nat} (ok : RangetreeOk rbt)
    (room : rbt.len < rbt.capacity) : RangetreeOk (appendRange rbt minv maxv) where
  capacity := ok.capacity
  counted := room
  flag := by simp [SortedFlag, appendRange]

/-- An add has to merge the ranges only when the array is full, and to squeeze
them only when the merge has freed nothing. -/
theorem lrcuRangetreeAdd_cases (ok : RangetreeOk rbt) (minv maxv : Nat) (bound : Nat) :
    (lrcuRangetreeAdd rbt minv maxv = none ∧
      lrcuRangetreeOptimize rbt .merge = none) ∨
    ∃ room, RangetreeOk room ∧ room.len < room.capacity ∧ room.capacity = rbt.capacity ∧
      CoarsensUpTo bound rbt.entries room.entries ∧
      lrcuRangetreeAdd rbt minv maxv = some (appendRange room minv maxv) := by
  unfold lrcuRangetreeAdd
  by_cases room : rbt.len < rbt.capacity
  · exact Or.inr ⟨rbt, ok, room, rfl, .of_perm (.refl _), rangetreeAddRetry_of_room _ room⟩
  cases optimized : lrcuRangetreeOptimize rbt .merge with
  | none => exact Or.inl ⟨by rw [rangetreeAddRetry, if_neg room, optimized]; rfl, rfl⟩
  | some result =>
      obtain ⟨merged, changed⟩ := result
      obtain ⟨okMerged, sorted, capacity, separated, coarsens⟩ :=
        optimize_merge_spec ok optimized bound
      rw [rangetreeAddRetry_of_full _ room optimized]
      refine Or.inr ?_
      by_cases freed : merged.len < merged.capacity
      · exact ⟨merged, okMerged, freed, capacity, coarsens, rangetreeAddRetry_of_room _ freed⟩
      · -- the merge freed nothing, so the array is still full
        have several : 1 < merged.len := by
          have := okMerged.capacity
          omega
        obtain ⟨squeezed, _, optimized', okSqueezed, capacity', shorter, coarsens'⟩ :=
          optimize_squeeze_spec okMerged sorted separated several bound
        have room' : squeezed.len < squeezed.capacity := by
          have := okMerged.counted
          omega
        refine ⟨squeezed, okSqueezed, room', capacity'.trans capacity,
          coarsens.trans coarsens', ?_⟩
        rw [rangetreeAddRetry_of_full _ freed optimized']
        exact rangetreeAddRetry_of_room _ room'

/-- The new counted part stands in for the old one with the new range
appended. -/
theorem lrcuRangetreeAdd_spec {added : LrcuRangetree} {minv maxv : Nat}
    (ok : RangetreeOk rbt) (ran : lrcuRangetreeAdd rbt minv maxv = some added) (bound : Nat) :
    RangetreeOk added ∧
      CoarsensUpTo bound (rbt.entries ++ [⟨minv, maxv⟩]) added.entries := by
  rcases lrcuRangetreeAdd_cases ok minv maxv bound with
    ⟨failed, _⟩ | ⟨room, okRoom, freed, _, coarsens, appended⟩
  · exact absurd (failed.symm.trans ran) (by simp)
  · obtain rfl := Option.some.inj (appended.symm.trans ran)
    refine ⟨rangetreeOk_appendRange okRoom freed, ?_⟩
    rw [entries_appendRange]
    exact coarsens.append_right

/-- An add succeeds unless it has to merge and meets the reserved value. -/
theorem lrcuRangetreeAdd_completes_iff (ok : RangetreeOk rbt) (minv maxv : Nat) :
    (∃ added, lrcuRangetreeAdd rbt minv maxv = some added) ↔
      (rbt.len < rbt.capacity ∨ rbt.Unreserved) := by
  by_cases room : rbt.len < rbt.capacity
  · exact iff_of_true ⟨_, rangetreeAddRetry_of_room _ room⟩ (Or.inl room)
  · rw [or_iff_right room, ← optimize_merge_completes_iff ok.flag]
    constructor
    · rintro ⟨added, ran⟩
      cases optimized : lrcuRangetreeOptimize rbt .merge with
      | none => simp [lrcuRangetreeAdd, rangetreeAddRetry, room, optimized] at ran
      | some result => exact ⟨result.1, result.2, rfl⟩
    · rintro ⟨merged, changed, ran⟩
      rcases lrcuRangetreeAdd_cases ok minv maxv 0 with ⟨_, failed⟩ | ⟨_, _, _, _, _, appended⟩
      · exact absurd (failed.symm.trans ran) (by simp)
      · exact ⟨_, appended⟩

theorem lrcuRangetreeAdd_completes (ok : RangetreeOk rbt) (valid : rbt.Valid)
    (minv maxv : Nat) : ∃ added, lrcuRangetreeAdd rbt minv maxv = some added :=
  (lrcuRangetreeAdd_completes_iff ok minv maxv).mpr (Or.inr valid.unreserved)

theorem LrcuRangetree.Valid.add {added : LrcuRangetree} {minv maxv : Nat}
    (ok : RangetreeOk rbt) (valid : rbt.Valid) (new : minv ≠ rangeBintreeEmptyValue)
    (ran : lrcuRangetreeAdd rbt minv maxv = some added) : added.Valid := by
  have coarsens := (lrcuRangetreeAdd_spec ok ran 0).2
  intro range member
  obtain ⟨origin, inside, equal⟩ := coarsens.starts range member
  rw [List.mem_append, List.mem_singleton] at inside
  rcases inside with inside | rfl
  · exact equal ▸ valid origin inside
  · exact equal ▸ new

end LightRcu
