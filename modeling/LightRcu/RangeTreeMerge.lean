import LightRcu.RangeTree

/-!
# The in-place loops of `range.c` on the counted part

The counted part of a range set is a list of intervals.  This file shows that
the sort, the in-place compaction and the squeeze act on that list as a sorted
permutation, a merge and a join of two neighbours.
-/

namespace LightRcu

open ClosedInterval

/-- The counted part of the array. -/
def LrcuRangetree.entries (rbt : LrcuRangetree) : List LrcuRange :=
  (List.range rbt.len).map rbt.r

@[simp]
theorem entries_length (rbt : LrcuRangetree) : rbt.entries.length = rbt.len := by
  simp [LrcuRangetree.entries]

@[simp]
theorem entries_getElem (rbt : LrcuRangetree) (index : Nat)
    (inside : index < rbt.entries.length) :
    rbt.entries[index] = rbt.r index := by
  simp [LrcuRangetree.entries]

theorem mem_entries {rbt : LrcuRangetree} {range : LrcuRange} :
    range ∈ rbt.entries ↔ ∃ index < rbt.len, rbt.r index = range := by
  simp [LrcuRangetree.entries]

/-- A relation between the entries, read off the array. -/
theorem pairwise_entries {rbt : LrcuRangetree} {relation : LrcuRange → LrcuRange → Prop}
    (pairwise : rbt.entries.Pairwise relation) {first second : Nat} (ordered : first < second)
    (inside : second < rbt.len) : relation (rbt.r first) (rbt.r second) := by
  have related := List.pairwise_iff_getElem.mp pairwise first second
    (by simpa using ordered.trans inside) (by simpa using inside) ordered
  simpa using related

/-! ## Sorting -/

theorem cmpRangesLe_iff (r1 r2 : LrcuRange) :
    CmpRangesLe r1 r2 ↔
      r1.minv < r2.minv ∨ r1.minv = r2.minv ∧ r1.maxv ≤ r2.maxv := by
  unfold CmpRangesLe cmpRanges
  split_ifs <;> omega

instance : Std.Total CmpRangesLe where
  total r1 r2 := by
    rw [cmpRangesLe_iff, cmpRangesLe_iff]
    omega

instance : IsTrans LrcuRange CmpRangesLe where
  trans r1 r2 r3 := by
    simp only [cmpRangesLe_iff]
    omega

theorem entries_sortRanges_of_unsorted {rbt : LrcuRangetree}
    (unsorted : ¬ rbt.sorted = true) :
    (sortRanges rbt).entries = rbt.entries.insertionSort CmpRangesLe := by
  apply List.ext_getElem
  · simp [sortRanges, unsorted, List.length_insertionSort]
  · intro index inside _
    have counted : index < rbt.len := by
      simpa [sortRanges, unsorted] using inside
    simp [sortRanges, unsorted, lrcuQsort, LrcuRangetree.entries,
      List.getD_eq_getElem?_getD, List.length_insertionSort, counted]

theorem entries_sortRanges_perm (rbt : LrcuRangetree) :
    (sortRanges rbt).entries.Perm rbt.entries := by
  by_cases sorted : rbt.sorted = true
  · rw [sortRanges, if_pos sorted]
  · rw [entries_sortRanges_of_unsorted sorted]
    exact List.perm_insertionSort _ _

@[simp]
theorem sortRanges_sorted (rbt : LrcuRangetree) : (sortRanges rbt).sorted = true := by
  unfold sortRanges
  split
  · assumption
  · rfl

@[simp]
theorem sortRanges_len (rbt : LrcuRangetree) : (sortRanges rbt).len = rbt.len := by
  unfold sortRanges
  split <;> rfl

@[simp]
theorem sortRanges_capacity (rbt : LrcuRangetree) :
    (sortRanges rbt).capacity = rbt.capacity := by
  unfold sortRanges
  split <;> rfl

theorem ascending_of_cmpRangesLe {ranges : List LrcuRange}
    (sorted : ranges.Pairwise CmpRangesLe) : Ascending ranges := by
  refine sorted.imp fun {r1 r2} ordered => ?_
  rw [cmpRangesLe_iff] at ordered
  omega

/-- What the later steps use of the `sorted` flag. -/
def SortedFlag (rbt : LrcuRangetree) : Prop :=
  rbt.sorted = true → Ascending rbt.entries

theorem ascending_entries_sortRanges {rbt : LrcuRangetree} (flag : SortedFlag rbt) :
    Ascending (sortRanges rbt).entries := by
  by_cases sorted : rbt.sorted = true
  · simpa [sortRanges, sorted] using flag sorted
  · rw [entries_sortRanges_of_unsorted sorted]
    exact ascending_of_cmpRangesLe (List.pairwise_insertionSort _ _)

/-! ## Merging -/

/-- What is left of the array from an index on. -/
def suffix (r : Nat → LrcuRange) (start count : Nat) : List LrcuRange :=
  (List.range' start count).map r

private theorem suffix_succ (r : Nat → LrcuRange) (start count : Nat) :
    suffix r start (count + 1) = r start :: suffix r (start + 1) count :=
  rfl

private theorem suffix_congr {r r' : Nat → LrcuRange} {start count : Nat}
    (same : ∀ index, start ≤ index → index < start + count → r' index = r index) :
    suffix r' start count = suffix r start count := by
  apply List.map_congr_left
  intro index member
  have bounds := List.mem_range'_1.mp member
  exact same index bounds.1 bounds.2

/-- The inner loop absorbs a prefix of what follows and leaves the rest to
the outer loop. -/
theorem absorbLoop_spec (r : Nat → LrcuRange) (minv : Nat) :
    ∀ remaining start endOfSegment,
      let stopped := absorbLoop r remaining start endOfSegment
      start ≤ stopped.1 ∧ stopped.1 ≤ start + remaining ∧
        mergeFrom ⟨minv, endOfSegment⟩ (suffix r start remaining) =
          ⟨minv, stopped.2⟩ ::
            mergeSorted (suffix r stopped.1 (start + remaining - stopped.1)) := by
  intro remaining
  induction remaining with
  | zero =>
      intro start endOfSegment
      simp [absorbLoop, suffix, mergeFrom, mergeSorted]
  | succ remaining ih =>
      intro start endOfSegment
      rw [suffix_succ, mergeFrom, absorbLoop]
      split
      · have all : start + (remaining + 1) - start = remaining + 1 := by omega
        refine ⟨Nat.le_refl start, Nat.le_add_right _ _, ?_⟩
        rw [all, suffix_succ]
        rfl
      · have raised : (if (r start).maxv > endOfSegment then (r start).maxv
            else endOfSegment) = max endOfSegment (r start).maxv := by
          split_ifs <;> omega
        rw [raised]
        obtain ⟨low, high, merged⟩ := ih (start + 1) (max endOfSegment (r start).maxv)
        refine ⟨by omega, by omega, ?_⟩
        rw [merged]
        congr 4
        omega

/-- The outer loop keeps the compacted part in front and merges what is left
behind it; the copy is skipped exactly while both indices agree.  It fails
exactly on a merged range that starts at the reserved value. -/
private theorem compactLoop_cases (len : Nat) :
    ∀ fuel (r : Nat → LrcuRange) (i realIndex realOffset : Nat),
      realIndex + realOffset = i → i ≤ len → len - i < fuel →
      (compactLoop len fuel r i realIndex realOffset = none ∧
        ∃ range ∈ mergeSorted (suffix r i (len - i)), range.minv = rangeBintreeEmptyValue) ∨
      ∃ r' len', compactLoop len fuel r i realIndex realOffset = some (r', len') ∧
        (∀ range ∈ mergeSorted (suffix r i (len - i)), range.minv ≠ rangeBintreeEmptyValue) ∧
          (List.range len').map r' =
            (List.range realIndex).map r ++ mergeSorted (suffix r i (len - i)) := by
  intro fuel
  induction fuel with
  | zero => intro r i realIndex realOffset _ _ enough; omega
  | succ fuel ih =>
      intro r i realIndex realOffset offset within enough
      rw [compactLoop]
      by_cases more : i < len
      · rw [if_pos more]
        obtain ⟨low, high, merged⟩ :=
          absorbLoop_spec r (r i).minv (len - (i + 1)) (i + 1) (r i).maxv
        generalize stopped : absorbLoop r (len - (i + 1)) (i + 1) (r i).maxv = stop
          at low high merged
        obtain ⟨j, endOfSegment⟩ := stop
        simp only at low high merged ⊢
        set outer : LrcuRange := ⟨(r i).minv, endOfSegment⟩ with outerDef
        have split : mergeSorted (suffix r i (len - i)) =
            outer :: mergeSorted (suffix r j (len - j)) := by
          have rest : suffix r i (len - i) = r i :: suffix r (i + 1) (len - (i + 1)) := by
            have counted : len - i = len - (i + 1) + 1 := by omega
            rw [counted, suffix_succ]
          have tail : i + 1 + (len - (i + 1)) - j = len - j := by omega
          rw [rest, mergeSorted, merged, tail]
        rw [split]
        by_cases reserved : (r i).minv = rangeBintreeEmptyValue
        · rw [if_pos reserved]
          exact Or.inl ⟨rfl, outer, List.mem_cons_self, reserved⟩
        rw [if_neg reserved]
        set copied : Nat → LrcuRange :=
          if realOffset ≠ 0 then
            Function.update (Function.update r i outer) realIndex
              (Function.update r i outer i)
          else Function.update r i outer with copiedDef
        have behind : ∀ index, i < index → copied index = r index := by
          intro index later
          have notReal : index ≠ realIndex := by omega
          have notOuter : index ≠ i := by omega
          simp only [copiedDef]
          split_ifs <;> simp [notReal, notOuter]
        have front : (List.range (realIndex + 1)).map copied =
            (List.range realIndex).map r ++ [outer] := by
          have written : copied realIndex = outer := by
            simp only [copiedDef]
            split_ifs with moved
            · simp
            · have same : realIndex = i := by omega
              simp [same]
          have kept : ∀ index < realIndex, copied index = r index := by
            intro index earlier
            have notReal : index ≠ realIndex := by omega
            have notOuter : index ≠ i := by omega
            simp only [copiedDef]
            split_ifs <;> simp [notReal, notOuter]
          rw [List.range_succ, List.map_append, List.map_singleton, written]
          congr 1
          exact List.map_congr_left fun index member => kept index (List.mem_range.mp member)
        have same : suffix copied j (len - j) = suffix r j (len - j) :=
          suffix_congr fun index low' _ => behind index (by omega)
        rcases ih copied j (realIndex + 1) (realOffset + (j - 1 - i)) (by omega) (by omega)
          (by omega) with ⟨failed, range, member, reserved'⟩ | ⟨r', len', ran, passes, entries⟩
        · rw [same] at member
          exact Or.inl ⟨failed, range, List.mem_cons_of_mem outer member, reserved'⟩
        · rw [same] at passes entries
          refine Or.inr ⟨r', len', ran, List.forall_mem_cons.mpr ⟨reserved, passes⟩, ?_⟩
          rw [entries, front, List.append_assoc, List.singleton_append]
      · have finished : len - i = 0 := by omega
        rw [if_neg more]
        exact Or.inr ⟨r, realIndex, rfl, by simp [finished, suffix, mergeSorted],
          by simp [finished, suffix, mergeSorted]⟩

/-- When the compaction of a sorted range set succeeds, it has merged the
counted part. -/
theorem removeOverlapping_spec {rbt merged : LrcuRangetree}
    (ran : lrcuRangetreeRemoveOverlapping rbt = some merged) :
    merged.entries = mergeSorted rbt.entries ∧ merged.sorted = true ∧
      merged.capacity = rbt.capacity := by
  simp only [lrcuRangetreeRemoveOverlapping, Option.ite_none_right_eq_some,
    Option.map_eq_some_iff, Prod.exists] at ran
  obtain ⟨sorted, r, len, compacted, rfl⟩ := ran
  refine ⟨?_, sorted, rfl⟩
  rcases compactLoop_cases rbt.len (rbt.len + 1) rbt.r 0 0 0 rfl (Nat.zero_le _)
      (by omega) with
    ⟨failed, _⟩ | ⟨r', len', ran, _, entries⟩
  · exact absurd (failed.symm.trans compacted) (by simp)
  · obtain ⟨rfl, rfl⟩ := Prod.mk.inj (Option.some.inj (ran.symm.trans compacted))
    simpa [LrcuRangetree.entries, suffix, List.range_eq_range'] using entries

/-- No range of the counted part starts at the reserved value. -/
def LrcuRangetree.Valid (rbt : LrcuRangetree) : Prop :=
  ∀ range ∈ rbt.entries, range.minv ≠ rangeBintreeEmptyValue

theorem removeOverlapping_completes_iff {rbt : LrcuRangetree} (sorted : rbt.sorted = true) :
    (∃ merged, lrcuRangetreeRemoveOverlapping rbt = some merged) ↔
      ∀ range ∈ mergeSorted rbt.entries, range.minv ≠ rangeBintreeEmptyValue := by
  have whole : suffix rbt.r 0 (rbt.len - 0) = rbt.entries := by
    simp [LrcuRangetree.entries, suffix, List.range_eq_range']
  rw [← whole]
  rcases compactLoop_cases rbt.len (rbt.len + 1) rbt.r 0 0 0 rfl (Nat.zero_le _)
      (by omega) with
    ⟨failed, range, member, reserved⟩ | ⟨r, len, ran, passes, _⟩
  · refine iff_of_false ?_ fun passes => passes range member reserved
    simp [lrcuRangetreeRemoveOverlapping, sorted, failed]
  · refine iff_of_true ⟨{ rbt with r := r, len := len }, ?_⟩ passes
    simp [lrcuRangetreeRemoveOverlapping, sorted, ran]

/-- A range starts at the reserved value only where one that starts before it
reaches it. -/
def LrcuRangetree.Unreserved (rbt : LrcuRangetree) : Prop :=
  ¬ OpensAt rbt.entries rangeBintreeEmptyValue

theorem LrcuRangetree.Valid.unreserved {rbt : LrcuRangetree} (valid : rbt.Valid) :
    rbt.Unreserved := by
  rintro ⟨⟨range, member, reserved⟩, _⟩
  exact valid range member reserved

/-! ## Squeezing -/

private theorem squeezeIndexLoop_le (r : Nat → LrcuRange) (bound : Nat) :
    ∀ i deltaMin indexSqueeze, i ≤ bound → indexSqueeze ≤ bound →
      squeezeIndexLoop r i deltaMin indexSqueeze ≤ bound := by
  intro i
  induction i with
  | zero => intro _ indexSqueeze _ within; exact within
  | succ i ih =>
      intro deltaMin indexSqueeze below within
      rw [squeezeIndexLoop]
      split_ifs
      · exact below
      · exact ih _ _ (by omega) below
      · exact ih _ _ (by omega) within

theorem squeezeIndex_lt {rbt : LrcuRangetree} (several : 1 < rbt.len) :
    squeezeIndex rbt + 1 < rbt.len := by
  have within := squeezeIndexLoop_le rbt.r (rbt.len - 2) (rbt.len - 2) (2 ^ 64 - 1)
    (rbt.len - 2) (Nat.le_refl _) (Nat.le_refl _)
  unfold squeezeIndex
  omega

/-- The squeeze joins the two neighbours at the index that the search found. -/
theorem squeeze_spec {rbt : LrcuRangetree} (sorted : rbt.sorted = true)
    (several : 1 < rbt.len) :
    ∃ squeezed, lrcuRangetreeSqueeze rbt = some squeezed ∧
      squeezed.entries = joinAt (squeezeIndex rbt) rbt.entries ∧
      squeezed.sorted = true ∧ squeezed.capacity = rbt.capacity := by
  have inside := squeezeIndex_lt several
  let joined : LrcuRange :=
    ⟨(rbt.r (squeezeIndex rbt)).minv, (rbt.r (squeezeIndex rbt + 1)).maxv⟩
  let moved : Nat → LrcuRange :=
    memmoveRanges (Function.update rbt.r (squeezeIndex rbt) joined)
      (squeezeIndex rbt + 1) (squeezeIndex rbt + 2) (rbt.len - squeezeIndex rbt - 1)
  refine ⟨{ rbt with r := moved, len := rbt.len - 1 }, if_pos ⟨sorted, several⟩, ?_,
    sorted, rfl⟩
  have insideEntries : squeezeIndex rbt + 1 < rbt.entries.length := by simpa using inside
  have shorter := length_joinAt insideEntries
  rw [entries_length] at shorter
  apply List.ext_getElem
  · simp only [entries_length]
    omega
  · intro position counted _
    simp only [entries_length] at counted
    rw [getElem_joinAt insideEntries (length_joinAt insideEntries)]
    simp only [entries_getElem, moved, memmoveRanges]
    rcases lt_trichotomy position (squeezeIndex rbt) with before | rfl | behind
    · rw [if_neg (by omega), if_pos before, Function.update_of_ne (by omega)]
    · rw [if_neg (by omega), if_neg (by omega), if_pos rfl, Function.update_self]
    · have target : position - (squeezeIndex rbt + 1) + (squeezeIndex rbt + 2) =
          position + 1 := by omega
      rw [if_pos (by omega), if_neg (by omega), if_neg (by omega), target,
        Function.update_of_ne (by omega)]

end LightRcu
