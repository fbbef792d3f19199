import LightRcu.RangeTreeCanonical
import Mathlib.Data.List.Induction

/-!
# The retry loop of an add

An add that finds the array full merges it, and squeezes it when the merge has
freed nothing; then there is room.  This holds in every state that calls with
ranges of the expected shape can reach.  No assertion on the way fails, the
`sorted` flag tells the truth also between the two optimisations, and the least
lower end is never lost.
-/

namespace LightRcu

open ClosedInterval Execution

/-- What `rbt->sorted` promises. -/
def OrderedByCmp (rbt : LrcuRangetree) : Prop :=
  rbt.sorted = true → rbt.entries.Pairwise CmpRangesLe

/-- The ways out of the `retry` loop: at once, after a merge, or after a merge
and a squeeze. -/
inductive LeavesRetry (minv maxv : Nat) (rbt : LrcuRangetree) : LrcuRangetree → Prop
  | atOnce (room : rbt.len < rbt.capacity) :
      LeavesRetry minv maxv rbt (appendRange rbt minv maxv)
  | afterMerge {merged : LrcuRangetree} {changed : Bool} (full : ¬ rbt.len < rbt.capacity)
      (merges : lrcuRangetreeOptimize rbt .merge = some (merged, changed))
      (ordered : OrderedByCmp merged) (room : merged.len < merged.capacity) :
      LeavesRetry minv maxv rbt (appendRange merged minv maxv)
  | afterSqueeze {merged squeezed : LrcuRangetree} {changed changed' : Bool}
      (full : ¬ rbt.len < rbt.capacity)
      (merges : lrcuRangetreeOptimize rbt .merge = some (merged, changed))
      (ordered : OrderedByCmp merged) (stillFull : ¬ merged.len < merged.capacity)
      (squeezes : lrcuRangetreeOptimize merged .squeeze = some (squeezed, changed'))
      (ordered' : OrderedByCmp squeezed) (room : squeezed.len < squeezed.capacity) :
      LeavesRetry minv maxv rbt (appendRange squeezed minv maxv)

variable {minv maxv bound capacity : Nat} {rbt : LrcuRangetree} {added : List LrcuRange}

theorem LeavesRetry.adds {result : LrcuRangetree}
    (leaves : LeavesRetry minv maxv rbt result) :
    lrcuRangetreeAdd rbt minv maxv = some result := by
  unfold lrcuRangetreeAdd
  cases leaves with
  | atOnce room => exact rangetreeAddRetry_of_room _ room
  | afterMerge full merges ordered room =>
      rw [rangetreeAddRetry_of_full _ full merges]
      exact rangetreeAddRetry_of_room _ room
  | afterSqueeze full merges ordered stillFull squeezes ordered' room =>
      rw [rangetreeAddRetry_of_full _ full merges, rangetreeAddRetry_of_full _ stillFull squeezes]
      exact rangetreeAddRetry_of_room _ room

/-! ## The invariant -/

/-- What every call keeps, in terms of the ranges added so far. -/
structure RetryInvariant (bound capacity : Nat) (added : List LrcuRange)
    (rbt : LrcuRangetree) : Prop where
  ok : RangetreeOk rbt
  capacity : rbt.capacity = capacity
  separated : rbt.sorted = true → Separated rbt.entries
  coarsens : CoarsensUpTo bound added rbt.entries
  below : StartsBelow added rbt.entries

theorem retryInvariant_init (ranges : Nat → LrcuRange) (several : 2 ≤ capacity) :
    RetryInvariant bound capacity [] (rangeBintreeInit ranges capacity) where
  ok := rangetreeOk_init ranges several
  capacity := rfl
  separated := by simp [rangeBintreeInit]
  coarsens := .of_perm (.refl _)
  below := .of_perm (.refl _)

/-- The ranges that the calls may add. -/
def AddableUpTo (bound : Nat) (ranges : List LrcuRange) : Prop :=
  ∀ range ∈ ranges, ShapedAt bound range ∧ range.minv ≠ rangeBintreeEmptyValue

/-- Separated ranges may start together only when they are inverted, and then
they also end together. -/
theorem cmpRangesLe_of_shaped {ranges : List LrcuRange} (separated : Separated ranges)
    (shaped : ∀ range ∈ ranges, ShapedAt bound range) : ranges.Pairwise CmpRangesLe := by
  refine List.Pairwise.imp_of_mem ?_ separated
  intro first second inFirst inSecond before
  have firstShape := shaped first inFirst
  have secondShape := shaped second inSecond
  have start := before.1
  have apart := before.2
  rw [cmpRangesLe_iff]
  rcases firstShape with proper | inverted
  · omega
  · rcases secondShape with proper' | inverted' <;> omega

namespace RetryInvariant

variable (invariant : RetryInvariant bound capacity added rbt) (addable : AddableUpTo bound added)
include invariant addable

theorem orderedByCmp : OrderedByCmp rbt := by
  intro sorted
  apply cmpRangesLe_of_shaped (invariant.separated sorted)
  exact invariant.coarsens.shaped fun range member => (addable range member).1

theorem valid : rbt.Valid := by
  intro range member
  obtain ⟨origin, inside, equal⟩ := invariant.coarsens.starts range member
  exact equal ▸ (addable origin inside).2

/-! ## One call -/

theorem optimize_merge : ∃ merged changed,
    lrcuRangetreeOptimize rbt .merge = some (merged, changed) ∧
      RetryInvariant bound capacity added merged ∧ merged.sorted = true := by
  obtain ⟨merged, changed, merges⟩ := optimize_merge_completes (invariant.valid addable)
  obtain ⟨ok, sorted, capacity, separated, coarsens⟩ :=
    optimize_merge_spec invariant.ok merges bound
  have ascending := ascending_entries_sortRanges invariant.ok.flag
  have below : StartsBelow rbt.entries merged.entries := by
    rw [entries_optimize_merge merges]
    exact (StartsBelow.of_perm (entries_sortRanges_perm rbt)).trans
      (startsBelow_mergeSorted ascending)
  refine ⟨merged, changed, merges, ?_, sorted⟩
  exact {
    ok := ok
    capacity := capacity.trans invariant.capacity
    separated := fun _ => separated
    coarsens := invariant.coarsens.trans coarsens
    below := invariant.below.trans below }

omit addable in
theorem optimize_squeeze (sorted : rbt.sorted = true) (several : 1 < rbt.len) :
    ∃ squeezed changed, lrcuRangetreeOptimize rbt .squeeze = some (squeezed, changed) ∧
      RetryInvariant bound capacity added squeezed ∧ squeezed.len + 1 = rbt.len := by
  have separated := invariant.separated sorted
  obtain ⟨squeezed, changed, squeezes, ok, capacity, shorter, coarsens⟩ :=
    optimize_squeeze_spec invariant.ok sorted separated several bound
  have entries : squeezed.entries = joinAt (squeezeIndex rbt) rbt.entries := by
    obtain ⟨joined, ran, entries, _⟩ := squeeze_spec sorted several
    have same : sortRanges rbt = rbt := if_pos sorted
    simp only [lrcuRangetreeOptimize, same, ran, Option.map_some, Option.some.injEq,
      Prod.mk.injEq] at squeezes
    exact squeezes.1 ▸ entries
  refine ⟨squeezed, changed, squeezes, ?_, shorter⟩
  exact {
    ok := ok
    capacity := capacity.trans invariant.capacity
    separated := fun _ => entries ▸ separated_joinAt separated
    coarsens := invariant.coarsens.trans coarsens
    below := invariant.below.trans (entries ▸ startsBelow_joinAt separated.ascending _) }

omit addable in
theorem append (room : rbt.len < rbt.capacity) :
    RetryInvariant bound capacity (added ++ [⟨minv, maxv⟩]) (appendRange rbt minv maxv) where
  ok := rangetreeOk_appendRange invariant.ok room
  capacity := invariant.capacity
  separated := by simp [appendRange]
  coarsens := entries_appendRange minv maxv ▸ invariant.coarsens.append_right
  below := entries_appendRange minv maxv ▸ invariant.below.append_right _

/-- The loop ends after at most one merge and one squeeze. -/
theorem leavesRetry (minv maxv : Nat) : ∃ result, LeavesRetry minv maxv rbt result ∧
    RetryInvariant bound capacity (added ++ [⟨minv, maxv⟩]) result ∧ 1 ≤ result.len := by
  by_cases room : rbt.len < rbt.capacity
  · exact ⟨_, .atOnce room, invariant.append room, Nat.succ_pos _⟩
  obtain ⟨merged, changed, merges, kept, sorted⟩ := invariant.optimize_merge addable
  have ordered := kept.orderedByCmp addable
  by_cases freed : merged.len < merged.capacity
  · exact ⟨_, .afterMerge room merges ordered freed, kept.append freed, Nat.succ_pos _⟩
  -- the merge freed nothing, so at least two separated ranges are left
  have several : 1 < merged.len := by
    have := kept.ok.capacity
    omega
  obtain ⟨squeezed, changed', squeezes, kept', shorter⟩ := kept.optimize_squeeze sorted several
  have freed' : squeezed.len < squeezed.capacity := by
    have counted := kept.ok.counted
    have same := kept'.capacity.trans kept.capacity.symm
    omega
  exact ⟨_, .afterSqueeze room merges ordered freed squeezes (kept'.orderedByCmp addable) freed',
    kept'.append freed', Nat.succ_pos _⟩

end RetryInvariant

/-! ## Every sequence of calls -/

theorem addedRanges_append (front back : List RangeOp) :
    addedRanges (front ++ back) = addedRanges front ++ addedRanges back := by
  induction front with
  | nil => rfl
  | cons op rest ih => cases op <;> simp [addedRanges, ih]

theorem AddableUpTo.front {front back : List RangeOp}
    (addable : AddableUpTo bound (addedRanges (front ++ back))) :
    AddableUpTo bound (addedRanges front) := by
  intro range member
  apply addable range
  rw [addedRanges_append]
  exact List.mem_append_left _ member

theorem RetryInvariant.step (invariant : RetryInvariant bound capacity added rbt)
    (addable : AddableUpTo bound added) (op : RangeOp) :
    ∃ next, applyRangeOp rbt op = some next ∧
      RetryInvariant bound capacity (added ++ addedRanges [op]) next := by
  cases op with
  | add minv maxv =>
      obtain ⟨result, leaves, kept, _⟩ := invariant.leavesRetry addable minv maxv
      exact ⟨result, leaves.adds, kept⟩
  | optimizeMerge =>
      obtain ⟨merged, changed, merges, kept, _⟩ := invariant.optimize_merge addable
      refine ⟨merged, by simp [applyRangeOp, merges], ?_⟩
      simpa [addedRanges] using kept

theorem retryInvariant_of_run (ranges : Nat → LrcuRange) (several : 2 ≤ capacity)
    (ops : List RangeOp) (addable : AddableUpTo bound (addedRanges ops)) :
    ∃ rbt, run applyRangeOp (rangeBintreeInit ranges capacity) ops = some rbt ∧
      RetryInvariant bound capacity (addedRanges ops) rbt := by
  induction ops using List.reverseRecOn with
  | nil => exact ⟨_, rfl, retryInvariant_init ranges several⟩
  | append_singleton front op ih =>
      obtain ⟨rbt, ran, invariant⟩ := ih addable.front
      obtain ⟨next, stepped, kept⟩ := invariant.step addable.front op
      rw [addedRanges_append]
      exact ⟨next, run_concat_eq_some_iff.mpr ⟨rbt, ran, stepped⟩, kept⟩

/-- What is asked of a single call. -/
def CallSucceeds (rbt : LrcuRangetree) : RangeOp → Prop
  | .add minv maxv =>
      ∃ result, lrcuRangetreeAdd rbt minv maxv = some result ∧
        LeavesRetry minv maxv rbt result ∧ 1 ≤ result.len ∧ result.len ≤ result.capacity
  | .optimizeMerge => ∃ merged changed, lrcuRangetreeOptimize rbt .merge = some (merged, changed)

theorem RetryInvariant.callSucceeds (invariant : RetryInvariant bound capacity added rbt)
    (addable : AddableUpTo bound added) (op : RangeOp) : CallSucceeds rbt op := by
  cases op with
  | add minv maxv =>
      obtain ⟨result, leaves, kept, nonempty⟩ := invariant.leavesRetry addable minv maxv
      exact ⟨result, leaves.adds, leaves, nonempty, kept.ok.counted⟩
  | optimizeMerge =>
      obtain ⟨merged, changed, merges, _⟩ := invariant.optimize_merge addable
      exact ⟨merged, changed, merges⟩

/-- After a merge of a non-empty set, its minimum is the least lower end ever
added. -/
theorem RetryInvariant.getmin (invariant : RetryInvariant bound capacity added rbt)
    (addable : AddableUpTo bound added) (nonempty : rbt.len ≠ 0) :
    ∃ merged changed least, lrcuRangetreeOptimize rbt .merge = some (merged, changed) ∧
      lrcuRangetreeGetmin merged = some least ∧
      (∃ range ∈ added, range.minv = least) ∧ ∀ range ∈ added, least ≤ range.minv := by
  obtain ⟨merged, changed, merges, kept, sorted⟩ := invariant.optimize_merge addable
  have several : merged.len ≠ 0 := by
    have starts : StartsIn (fun _ => True) rbt := fun _ _ => trivial
    have := (startsIn_of_optimize starts merges).2 (Nat.pos_of_ne_zero nonempty)
    omega
  have first : merged.r 0 ∈ merged.entries :=
    mem_entries.mpr ⟨0, Nat.pos_of_ne_zero several, rfl⟩
  refine ⟨merged, changed, (merged.r 0).minv, merges, ?_, ?_, fun range member => ?_⟩
  · rw [lrcuRangetreeGetmin, if_pos sorted, if_neg several]
  · obtain ⟨origin, inside, equal⟩ := kept.coarsens.starts _ first
    exact ⟨origin, inside, equal.symm⟩
  · obtain ⟨interval, inside, low⟩ := kept.below range member
    obtain ⟨index, counted, rfl⟩ := mem_entries.mp inside
    refine le_trans ?_ low
    rcases Nat.eq_zero_or_pos index with rfl | later
    · exact le_refl _
    · exact (pairwise_entries (kept.separated sorted) later counted).1

/-- Adding always succeeds: every sequence of adds and merges runs to its end,
each add leaves its loop with room in the array, the flag tells the truth in
every state, and a final merge brings the least lower end to the front. -/
theorem run_applyRangeOp_succeeds (ranges : Nat → LrcuRange) (capacity bound : Nat)
    (ops : List RangeOp) (several : 2 ≤ capacity)
    (addable : AddableUpTo bound (addedRanges ops)) :
    Meets applyRangeOp CallSucceeds (rangeBintreeInit ranges capacity) ops ∧
      Throughout applyRangeOp
        (fun rbt => rbt.capacity = capacity ∧ rbt.len ≤ capacity ∧ OrderedByCmp rbt)
        (rangeBintreeInit ranges capacity) ops ∧
      ∃ rbt, run applyRangeOp (rangeBintreeInit ranges capacity) ops = some rbt ∧
        (rbt.len ≠ 0 → ∃ merged changed least,
          lrcuRangetreeOptimize rbt .merge = some (merged, changed) ∧
            lrcuRangetreeGetmin merged = some least ∧
            (∃ range ∈ addedRanges ops, range.minv = least) ∧
            ∀ range ∈ addedRanges ops, least ≤ range.minv) := by
  have atFront : ∀ front back middle, ops = front ++ back →
      run applyRangeOp (rangeBintreeInit ranges capacity) front = some middle →
      AddableUpTo bound (addedRanges front) ∧
        RetryInvariant bound capacity (addedRanges front) middle := by
    rintro front back middle rfl ran
    obtain ⟨rbt, ran', invariant⟩ := retryInvariant_of_run ranges several front addable.front
    exact ⟨addable.front, Option.some.inj (ran'.symm.trans ran) ▸ invariant⟩
  refine ⟨?_, ?_, ?_⟩
  · apply Meets.of_split
    intro front op back middle split ran
    obtain ⟨addable, invariant⟩ := atFront front (op :: back) middle split ran
    exact invariant.callSucceeds addable op
  · intro front back middle split ran
    obtain ⟨addable, invariant⟩ := atFront front back middle split ran
    have counted := invariant.ok.counted
    rw [invariant.capacity] at counted
    exact ⟨invariant.capacity, counted, invariant.orderedByCmp addable⟩
  · obtain ⟨rbt, ran, invariant⟩ := retryInvariant_of_run ranges several ops addable
    exact ⟨rbt, ran, invariant.getmin addable⟩

/-- Two slots for a reader, two readers that entered after version `5` was
sampled, and a range between them. -/
theorem run_applyRangeOp_succeeds_inverted :
    Meets applyRangeOp CallSucceeds (rangeBintreeInit (fun _ => ⟨0, 0⟩) 2)
      [.add 1 1, .add 9 5, .add 9 5, .optimizeMerge, .add 3 4] :=
  (run_applyRangeOp_succeeds (fun _ => ⟨0, 0⟩) 2 5
    [.add 1 1, .add 9 5, .add 9 5, .optimizeMerge, .add 3 4] (by decide)
    (by unfold AddableUpTo; decide)).1

end LightRcu
