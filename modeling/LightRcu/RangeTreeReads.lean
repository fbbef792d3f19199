import LightRcu.RangeTreeBounds
import LightRcu.RangeTreeExact

/-!
# Nothing outside of the logs matters

The logs of accesses miss no read: two arrays that agree on some cells, among
them all that an add names in its log, still agree there after the add.  So a
range set whose calls stay in bounds does not depend on what lies behind its
array.
-/

namespace LightRcu

open Execution

/-- Two range sets of the same shape whose arrays agree on some cells. -/
structure SameCells (cells : Nat → Prop) (first second : LrcuRangetree) : Prop where
  len : second.len = first.len
  capacity : second.capacity = first.capacity
  sorted : second.sorted = first.sorted
  r : ∀ index, cells index → second.r index = first.r index

variable {cells : Nat → Prop}

/-! ## Merge -/

theorem absorbLoop_congr {r r' : Nat → LrcuRange} :
    ∀ remaining j endOfSegment,
      (∀ index ∈ absorbLoopAccesses r remaining j endOfSegment, r' index = r index) →
      absorbLoop r' remaining j endOfSegment = absorbLoop r remaining j endOfSegment := by
  intro remaining
  induction remaining with
  | zero => intro _ _ _; rfl
  | succ remaining ih =>
      intro j endOfSegment same
      have sameHere : r' j = r j := by
        apply same
        rw [absorbLoopAccesses]
        split_ifs <;> simp
      rw [absorbLoop, absorbLoop, sameHere]
      by_cases behind : endOfSegment < (r j).minv
      · rw [if_pos behind, if_pos behind]
      · rw [if_neg behind, if_neg behind]
        apply ih
        intro index member
        apply same
        rw [absorbLoopAccesses, if_neg behind]
        exact List.mem_cons_of_mem j member

theorem update_congr {r r' : Nat → LrcuRange} (same : ∀ index, cells index → r' index = r index)
    (index : Nat) (range : LrcuRange) :
    ∀ other, cells other →
      Function.update r' index range other = Function.update r index range other := by
  intro other inside
  by_cases here : other = index
  · subst here
    rw [Function.update_self, Function.update_self]
  · rw [Function.update_of_ne here, Function.update_of_ne here, same other inside]

theorem compactLoop_congr {len : Nat} :
    ∀ fuel (r r' : Nat → LrcuRange) (i realIndex realOffset : Nat),
      (∀ index, cells index → r' index = r index) →
      (∀ index ∈ compactLoopAccesses len fuel r i realIndex realOffset, cells index) →
      Option.Rel (fun first second => second.2 = first.2 ∧
          ∀ index, cells index → second.1 index = first.1 index)
        (compactLoop len fuel r i realIndex realOffset)
        (compactLoop len fuel r' i realIndex realOffset) := by
  intro fuel
  induction fuel with
  | zero => intro _ _ _ _ _ _ _; exact .none
  | succ fuel ih =>
      intro r r' i realIndex realOffset same logged
      rw [compactLoopAccesses] at logged
      rw [compactLoop, compactLoop]
      by_cases more : i < len
      · rw [if_pos more] at logged ⊢
        rw [if_pos more]
        have sameOuter : r' i = r i := by
          apply same
          apply logged
          split_ifs <;> simp
        rw [sameOuter]
        by_cases reserved : (r i).minv = rangeBintreeEmptyValue
        · rw [if_pos reserved, if_pos reserved]
          exact .none
        rw [if_neg reserved] at logged ⊢
        rw [if_neg reserved]
        have sameScan : absorbLoop r' (len - (i + 1)) (i + 1) (r i).maxv =
            absorbLoop r (len - (i + 1)) (i + 1) (r i).maxv := by
          apply absorbLoop_congr
          intro index member
          apply same
          apply logged
          simp [member]
        rw [sameScan]
        generalize absorbLoop r (len - (i + 1)) (i + 1) (r i).maxv = stop at logged ⊢
        obtain ⟨j, endOfSegment⟩ := stop
        simp only at logged ⊢
        have updated := update_congr same i ⟨(r i).minv, endOfSegment⟩
        apply ih
        · split_ifs
          · rw [Function.update_self, Function.update_self]
            exact update_congr updated realIndex _
          · exact updated
        · intro index member
          apply logged
          exact List.mem_append_right _ member
      · rw [if_neg more, if_neg more]
        exact .some ⟨rfl, same⟩

/-! ## Squeeze -/

theorem squeezeIndexLoop_congr {r r' : Nat → LrcuRange} :
    ∀ i deltaMin indexSqueeze,
      (∀ index ∈ squeezeIndexLoopAccesses r i deltaMin, r' index = r index) →
      squeezeIndexLoop r' i deltaMin indexSqueeze =
        squeezeIndexLoop r i deltaMin indexSqueeze := by
  intro i
  induction i with
  | zero => intro _ _ _; rfl
  | succ i ih =>
      intro deltaMin indexSqueeze same
      simp only [squeezeIndexLoopAccesses, List.mem_append, List.mem_cons] at same
      have sameNext : r' (i + 2) = r (i + 2) := same _ (Or.inl (Or.inl rfl))
      have sameHere : r' (i + 1) = r (i + 1) := same _ (Or.inl (Or.inr (Or.inl rfl)))
      simp only [squeezeIndexLoop, sameNext, sameHere]
      split_ifs at same ⊢
      · rfl
      · exact ih _ _ fun index member => same index (Or.inr member)
      · exact ih _ _ fun index member => same index (Or.inr member)

namespace SameCells

variable {first second : LrcuRangetree}

theorem merges (same : SameCells cells first second)
    (logged : ∀ index ∈ lrcuRangetreeRemoveOverlappingAccesses first, cells index) :
    Option.Rel (SameCells cells) (lrcuRangetreeRemoveOverlapping first)
      (lrcuRangetreeRemoveOverlapping second) := by
  unfold lrcuRangetreeRemoveOverlapping
  rw [lrcuRangetreeRemoveOverlappingAccesses] at logged
  rw [same.sorted, same.len]
  by_cases sorted : first.sorted = true
  · rw [if_pos sorted] at logged ⊢
    rw [if_pos sorted]
    have compacted := compactLoop_congr (first.len + 1) first.r second.r 0 0 0 same.r logged
    generalize compactLoop first.len (first.len + 1) first.r 0 0 0 = left at compacted ⊢
    generalize compactLoop first.len (first.len + 1) second.r 0 0 0 = right at compacted ⊢
    cases compacted with
    | none => exact .none
    | some agree => exact .some ⟨agree.1, same.capacity, rfl, agree.2⟩
  · rw [if_neg sorted, if_neg sorted]
    exact .none

theorem squeezes (same : SameCells cells first second)
    (logged : ∀ index ∈ lrcuRangetreeSqueezeAccesses first, cells index) :
    Option.Rel (SameCells cells) (lrcuRangetreeSqueeze first) (lrcuRangetreeSqueeze second) := by
  unfold lrcuRangetreeSqueeze
  rw [lrcuRangetreeSqueezeAccesses] at logged
  rw [same.sorted, same.len]
  by_cases several : first.sorted = true ∧ 1 < first.len
  · rw [if_pos several] at logged ⊢
    rw [if_pos several]
    simp only [memmoveAccesses, List.mem_append, List.mem_cons, List.mem_range'_1] at logged
    have sameIndex : squeezeIndex second = squeezeIndex first := by
      rw [squeezeIndex, squeezeIndex, same.len]
      apply squeezeIndexLoop_congr
      exact fun index member => same.r index (logged index (Or.inl (Or.inl member)))
    rw [sameIndex]
    generalize squeezeIndex first = joined at logged ⊢
    have sameHere : second.r joined = first.r joined := same.r _ (logged _ (by simp))
    have sameNext : second.r (joined + 1) = first.r (joined + 1) := same.r _ (logged _ (by simp))
    simp only [sameHere, sameNext]
    have updated := update_congr same.r joined
      ⟨(first.r joined).minv, (first.r (joined + 1)).maxv⟩
    refine .some ⟨rfl, same.capacity, rfl, fun index inside => ?_⟩
    simp only [memmoveRanges]
    split_ifs with moved
    · apply updated
      apply logged
      omega
    · exact updated index inside
  · rw [if_neg several, if_neg several]
    exact .none

/-! ## Adds -/

theorem sorts (same : SameCells cells first second)
    (logged : ∀ index ∈ sortRangesAccesses first, cells index) :
    SameCells cells (sortRanges first) (sortRanges second) := by
  rw [sortRangesAccesses] at logged
  rw [sortRanges, sortRanges, same.sorted]
  by_cases sorted : first.sorted = true
  · rwa [if_pos sorted, if_pos sorted]
  · rw [if_neg sorted] at logged ⊢
    rw [if_neg sorted]
    have counted : (List.range first.len).map second.r = (List.range first.len).map first.r :=
      List.map_congr_left fun index member => same.r index (logged index member)
    refine ⟨same.len, same.capacity, rfl, fun index inside => ?_⟩
    simp only [lrcuQsort, same.len, counted, same.r index inside]

theorem optimizes (same : SameCells cells first second) (optLevel : OptLevel)
    (logged : ∀ index ∈ lrcuRangetreeOptimizeAccesses first optLevel, cells index) :
    Option.Rel (fun left right => SameCells cells left.1 right.1)
      (lrcuRangetreeOptimize first optLevel) (lrcuRangetreeOptimize second optLevel) := by
  simp only [lrcuRangetreeOptimizeAccesses, List.mem_append] at logged
  have sorted := same.sorts fun index member => logged index (Or.inl member)
  unfold lrcuRangetreeOptimize
  cases optLevel with
  | merge =>
      have merged := sorted.merges fun index member => logged index (Or.inr member)
      simp only
      generalize lrcuRangetreeRemoveOverlapping (sortRanges first) = left at merged ⊢
      generalize lrcuRangetreeRemoveOverlapping (sortRanges second) = right at merged ⊢
      cases merged with
      | none => exact .none
      | some agree => exact .some agree
  | squeeze =>
      have squeezed := sorted.squeezes fun index member => logged index (Or.inr member)
      simp only
      generalize lrcuRangetreeSqueeze (sortRanges first) = left at squeezed ⊢
      generalize lrcuRangetreeSqueeze (sortRanges second) = right at squeezed ⊢
      cases squeezed with
      | none => exact .none
      | some agree => exact .some agree

theorem appends (same : SameCells cells first second) (minv maxv : Nat) :
    SameCells cells (appendRange first minv maxv) (appendRange second minv maxv) := by
  refine ⟨?_, same.capacity, rfl, ?_⟩
  · simp only [appendRange, same.len]
  · simp only [appendRange, same.len]
    exact update_congr same.r first.len _

theorem retries {minv maxv : Nat} :
    ∀ levels {first second : LrcuRangetree}, SameCells cells first second →
      (∀ index ∈ rangetreeAddRetryAccesses levels first, cells index) →
      Option.Rel (SameCells cells) (rangetreeAddRetry minv maxv levels first)
        (rangetreeAddRetry minv maxv levels second) := by
  intro levels
  induction levels with
  | nil =>
      intro first second same _
      rw [rangetreeAddRetry, rangetreeAddRetry, same.len, same.capacity]
      split_ifs
      · exact .some (same.appends minv maxv)
      · exact .none
  | cons optLevel levels ih =>
      intro first second same logged
      rw [rangetreeAddRetryAccesses] at logged
      rw [rangetreeAddRetry, rangetreeAddRetry, same.len, same.capacity]
      by_cases room : first.len < first.capacity
      · rw [if_pos room, if_pos room]
        exact .some (same.appends minv maxv)
      · rw [if_neg room] at logged ⊢
        rw [if_neg room]
        have optimized := same.optimizes _ fun index member =>
          logged index (List.mem_append_left _ member)
        generalize lrcuRangetreeOptimize first optLevel = left at logged optimized ⊢
        generalize lrcuRangetreeOptimize second optLevel = right at optimized ⊢
        cases optimized with
        | none => exact .none
        | some agree =>
            exact ih agree fun index member => logged index (List.mem_append_right _ member)

/-- What an add leaves depends on no other cell than those it names in its log. -/
theorem adds (same : SameCells cells first second) (minv maxv : Nat)
    (logged : ∀ index ∈ lrcuRangetreeAddAccesses first, cells index) :
    Option.Rel (SameCells cells) (lrcuRangetreeAdd first minv maxv)
      (lrcuRangetreeAdd second minv maxv) :=
  retries [.merge, .squeeze] same logged

end SameCells

/-! ## Calls in bounds -/

theorem rangetreeOk_of_step {rbt next : LrcuRangetree} {op : RangeOp} (ok : RangetreeOk rbt)
    (stepped : applyRangeOp rbt op = some next) :
    RangetreeOk next ∧ next.capacity = rbt.capacity := by
  cases op with
  | add minv maxv =>
      refine ⟨(lrcuRangetreeAdd_spec ok stepped 0).1, ?_⟩
      rcases lrcuRangetreeAdd_cases ok minv maxv 0 with
        ⟨failed, _⟩ | ⟨room, _, _, capacity, _, appended⟩
      · exact absurd (failed.symm.trans stepped) (by simp)
      · obtain rfl := Option.some.inj (appended.symm.trans stepped)
        exact capacity
  | optimizeMerge =>
      obtain ⟨⟨_, room⟩, optimized, rfl⟩ := Option.map_eq_some_iff.mp stepped
      obtain ⟨okNext, _, capacity, _⟩ := optimize_merge_spec ok optimized 0
      exact ⟨okNext, capacity⟩

namespace SameCells

variable {first second : LrcuRangetree}

theorem step {op : RangeOp} (same : SameCells (· < first.capacity) first second)
    (inside : OpInBounds first op) :
    Option.Rel (SameCells (· < first.capacity)) (applyRangeOp first op)
      (applyRangeOp second op) := by
  cases op with
  | add minv maxv => exact same.adds minv maxv inside
  | optimizeMerge =>
      have merged := same.optimizes .merge inside
      unfold applyRangeOp
      generalize lrcuRangetreeOptimize first .merge = left at merged ⊢
      generalize lrcuRangetreeOptimize second .merge = right at merged ⊢
      cases merged with
      | none => exact .none
      | some agree => exact .some agree

theorem run {ops : List RangeOp} (same : SameCells (· < first.capacity) first second)
    (ok : RangetreeOk first) (inside : Meets applyRangeOp OpInBounds first ops) :
    Option.Rel (fun left right => RangetreeOk left ∧ SameCells (· < left.capacity) left right)
      (Execution.run applyRangeOp first ops) (Execution.run applyRangeOp second ops) := by
  induction ops generalizing first second with
  | nil => exact .some ⟨ok, same⟩
  | cons op rest ih =>
      obtain ⟨here, later⟩ := inside
      have stepped := same.step here
      rw [Execution.run, Execution.run]
      cases left : applyRangeOp first op with
      | none =>
          rw [left] at stepped
          cases right : applyRangeOp second op with
          | none => exact .none
          | some _ => simp [right] at stepped
      | some next =>
          rw [left] at stepped
          cases right : applyRangeOp second op with
          | none => simp [right] at stepped
          | some next' =>
              rw [right, Option.rel_some_some] at stepped
              obtain ⟨okNext, capacity⟩ := rangetreeOk_of_step ok left
              exact ih (capacity ▸ stepped) okNext (later next left)

/-- The search looks at counted ranges, or at the first cell. -/
theorem find (same : SameCells (· < first.capacity) first second) (ok : RangetreeOk first)
    (value : Nat) : lrcuRangetreeFind second value = lrcuRangetreeFind first value := by
  rw [lrcuRangetreeFind, lrcuRangetreeFind, same.len]
  congr 1
  apply bintreeRangeSearch_congr
  intro index read
  apply same.r
  have several := ok.capacity
  have counted := ok.counted
  rcases Nat.eq_zero_or_pos first.len with empty | nonempty
  · rw [empty, bintreeRangeSearchReads_of_empty, List.mem_singleton] at read
    omega
  · have inside := bintreeRangeSearchReads_inside nonempty value index read
    omega

end SameCells

/-- What lies behind the array does not matter to a range set whose calls stay in
bounds. -/
theorem lrcuRangetreeFind_of_inBounds {ranges ranges' : Nat → LrcuRange} {capacity : Nat}
    (several : 2 ≤ capacity) (same : ∀ index < capacity, ranges' index = ranges index)
    {ops : List RangeOp}
    (inside : Meets applyRangeOp OpInBounds (rangeBintreeInit ranges capacity) ops) (value : Nat) :
    (run applyRangeOp (rangeBintreeInit ranges' capacity) ops).map
        (lrcuRangetreeFind · value) =
      (run applyRangeOp (rangeBintreeInit ranges capacity) ops).map
        (lrcuRangetreeFind · value) := by
  have begins : SameCells (· < capacity) (rangeBintreeInit ranges capacity)
      (rangeBintreeInit ranges' capacity) := ⟨rfl, rfl, rfl, same⟩
  have ran := begins.run (rangetreeOk_init ranges several) inside
  generalize run applyRangeOp (rangeBintreeInit ranges capacity) ops = left at ran ⊢
  generalize run applyRangeOp (rangeBintreeInit ranges' capacity) ops = right at ran ⊢
  cases ran with
  | none => rfl
  | some agree => exact congrArg some (agree.2.find agree.1 value)

end LightRcu
