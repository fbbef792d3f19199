import LightRcu.RangeTreeMerge

/-!
# Which pair the squeeze joins

The squeeze gives up the values between two neighbours, so it should join the
two that lie closest.  Its backward search compares every pair but the first:
it stops at index `0` before it looks there.  The first pair is joined only
when there is no other one, and the choice is the best one exactly when some
later gap is no larger than the first.
-/

namespace LightRcu

open ClosedInterval

/-- The number of steps from the end of a range to the start of the next. -/
def rangeGap (r : Nat → LrcuRange) (index : Nat) : Nat :=
  (r (index + 1)).minv - (r index).maxv

/-- No pair of neighbours lies closer than the pair at the index. -/
def SmallestGapAt (rbt : LrcuRangetree) (index : Nat) : Prop :=
  ∀ other, other + 1 < rbt.len → rangeGap rbt.r index ≤ rangeGap rbt.r other

/-- The smallest range around two ranges. -/
def rangeHull (first second : LrcuRange) : LrcuRange :=
  ⟨min first.minv second.minv, max first.maxv second.maxv⟩

/-- The pair at the index has become one range from the start of its first to
the end of its second member; the other ranges are the same in the same
order. -/
def JoinsPairAt (rbt squeezed : LrcuRangetree) (index : Nat) : Prop :=
  index + 1 < rbt.len ∧ squeezed.len + 1 = rbt.len ∧
    ∀ position < squeezed.len, squeezed.r position =
      if position < index then rbt.r position
      else if position = index then ⟨(rbt.r index).minv, (rbt.r (index + 1)).maxv⟩
      else rbt.r (position + 1)

variable {rbt squeezed : LrcuRangetree} {index : Nat}

/-- The pair at the index lies closest, and every later pair less close. -/
structure LastClosestAt (rbt : LrcuRangetree) (index : Nat) : Prop where
  inside : index + 1 < rbt.len
  smallest : SmallestGapAt rbt index
  later : ∀ other, index < other → other + 1 < rbt.len →
    rangeGap rbt.r index < rangeGap rbt.r other

theorem LastClosestAt.unique {other : Nat} (closest : LastClosestAt rbt index)
    (closest' : LastClosestAt rbt other) : index = other := by
  rcases lt_trichotomy index other with before | same | behind
  · have apart := closest.later other before closest'.inside
    exact absurd (closest'.smallest index closest.inside) (Nat.not_le.mpr apart)
  · exact same
  · have apart := closest'.later index behind closest.inside
    exact absurd (closest.smallest other closest'.inside) (Nat.not_le.mpr apart)

/-- The joined range is the hull of the pair unless its second member ends before
the first. -/
theorem JoinsPairAt.hull_iff (joins : JoinsPairAt rbt squeezed index)
    (separated : Separated rbt.entries) :
    squeezed.r index = rangeHull (rbt.r index) (rbt.r (index + 1)) ↔
      (rbt.r index).maxv ≤ (rbt.r (index + 1)).maxv := by
  obtain ⟨inside, shorter, cells⟩ := joins
  have before : Before (rbt.r index) (rbt.r (index + 1)) :=
    pairwise_entries separated (Nat.lt_succ_self index) inside
  have start : min (rbt.r index).minv (rbt.r (index + 1)).minv = (rbt.r index).minv :=
    min_eq_left before.1
  rw [cells index (by omega), if_neg (Nat.lt_irrefl index), if_pos rfl, rangeHull, start,
    ClosedInterval.mk.injEq, eq_comm (b := max _ _), max_eq_right_iff]
  exact and_iff_right rfl

theorem ends_of_proper (separated : Separated rbt.entries)
    (proper : ∀ range ∈ rbt.entries, range.minv ≤ range.maxv) (inside : index + 1 < rbt.len) :
    (rbt.r index).maxv ≤ (rbt.r (index + 1)).maxv := by
  have before : Before (rbt.r index) (rbt.r (index + 1)) :=
    pairwise_entries separated (Nat.lt_succ_self index) inside
  exact before.2.le.trans (proper _ (mem_entries.mpr ⟨index + 1, inside, rfl⟩))

theorem joinsPairAt_squeezeIndex (several : 1 < rbt.len)
    (entries : squeezed.entries = joinAt (squeezeIndex rbt) rbt.entries) :
    JoinsPairAt rbt squeezed (squeezeIndex rbt) := by
  have inside : squeezeIndex rbt + 1 < rbt.entries.length := by
    simpa using squeezeIndex_lt several
  have shorter := length_joinAt inside
  have length : squeezed.len + 1 = rbt.len := by
    rwa [← entries, entries_length, entries_length] at shorter
  refine ⟨squeezeIndex_lt several, length, fun position counted => ?_⟩
  have within : position < (joinAt (squeezeIndex rbt) rbt.entries).length := by
    rwa [← entries, entries_length]
  have cell := getElem_joinAt inside shorter within
  simpa [← entries] using cell

/-! ## The backward search -/

theorem u64Sub_of_lt {minuend subtrahend : Nat} (ordered : subtrahend < minuend)
    (machine : minuend < 2 ^ 64) : u64Sub minuend subtrahend = minuend - subtrahend := by
  unfold u64Sub
  omega

private theorem u64Sub_eq_rangeGap (separated : Separated rbt.entries)
    (machine : ∀ range ∈ rbt.entries, range.minv < 2 ^ 64) (inside : index + 1 < rbt.len) :
    u64Sub (rbt.r (index + 1)).minv (rbt.r index).maxv = rangeGap rbt.r index ∧
      0 < rangeGap rbt.r index ∧ rangeGap rbt.r index ≤ 2 ^ 64 - 1 := by
  have before : Before (rbt.r index) (rbt.r (index + 1)) :=
    pairwise_entries separated (Nat.lt_succ_self index) inside
  have word := machine _ (mem_entries.mpr ⟨index + 1, inside, rfl⟩)
  have apart := before.2
  refine ⟨u64Sub_of_lt apart word, ?_, ?_⟩
  · exact Nat.sub_pos_of_lt apart
  · unfold rangeGap
    omega

/-- The search keeps an index whose gap is at most the running minimum, and
lowers both with every closer pair that it meets.  A gap of `1`, at which it
stops early, cannot be beaten. -/
private theorem squeezeIndexLoop_minimal {r : Nat → LrcuRange} :
    ∀ i deltaMin indexSqueeze,
      (∀ other, 0 < other → other ≤ i →
        u64Sub (r (other + 1)).minv (r other).maxv = rangeGap r other ∧ 0 < rangeGap r other) →
      0 < deltaMin → rangeGap r indexSqueeze ≤ deltaMin →
      rangeGap r (squeezeIndexLoop r i deltaMin indexSqueeze) ≤ deltaMin ∧
        ∀ other, 0 < other → other ≤ i →
          rangeGap r (squeezeIndexLoop r i deltaMin indexSqueeze) ≤ rangeGap r other := by
  intro i
  induction i with
  | zero =>
      intro deltaMin indexSqueeze _ _ known
      exact ⟨known, fun other positive below => absurd below (by omega)⟩
  | succ i ih =>
      intro deltaMin indexSqueeze gaps positive known
      have gap := gaps (i + 1) (Nat.succ_pos i) (Nat.le_refl _)
      have earlier : ∀ other, 0 < other → other ≤ i →
          u64Sub (r (other + 1)).minv (r other).maxv = rangeGap r other ∧
            0 < rangeGap r other :=
        fun other above below => gaps other above (below.trans (Nat.le_succ i))
      rw [squeezeIndexLoop, gap.1]
      by_cases touching : rangeGap r (i + 1) = 1
      · rw [if_pos touching]
        refine ⟨by omega, fun other above below => ?_⟩
        have := (gaps other above below).2
        omega
      rw [if_neg touching]
      by_cases closer : rangeGap r (i + 1) < deltaMin
      · rw [if_pos closer]
        obtain ⟨low, least⟩ := ih (rangeGap r (i + 1)) (i + 1) earlier gap.2 (Nat.le_refl _)
        refine ⟨low.trans closer.le, fun other above below => ?_⟩
        rcases Nat.le_succ_iff.mp below with before | rfl
        · exact least other above before
        · exact low
      · rw [if_neg closer]
        obtain ⟨low, least⟩ := ih deltaMin indexSqueeze earlier positive known
        refine ⟨low, fun other above below => ?_⟩
        rcases Nat.le_succ_iff.mp below with before | rfl
        · exact least other above before
        · exact low.trans (not_lt.mp closer)

/-- Behind the index that the search keeps, every gap that it has seen is
larger. -/
private theorem squeezeIndexLoop_last {r : Nat → LrcuRange} {last : Nat} :
    ∀ i deltaMin indexSqueeze,
      (∀ other, 0 < other → other ≤ i →
        u64Sub (r (other + 1)).minv (r other).maxv = rangeGap r other ∧ 0 < rangeGap r other) →
      (∀ other, i < other → other ≤ last → deltaMin ≤ rangeGap r other ∧ 1 < rangeGap r other) →
      (∀ other, indexSqueeze < other → other ≤ last →
        rangeGap r indexSqueeze < rangeGap r other) →
      ∀ other, squeezeIndexLoop r i deltaMin indexSqueeze < other → other ≤ last →
        rangeGap r (squeezeIndexLoop r i deltaMin indexSqueeze) < rangeGap r other := by
  intro i
  induction i with
  | zero => exact fun _ _ _ _ behind => behind
  | succ i ih =>
      intro deltaMin indexSqueeze gaps seen behind
      have gap := gaps (i + 1) (Nat.succ_pos i) (Nat.le_refl _)
      have earlier : ∀ other, 0 < other → other ≤ i →
          u64Sub (r (other + 1)).minv (r other).maxv = rangeGap r other ∧
            0 < rangeGap r other :=
        fun other above below => gaps other above (below.trans (Nat.le_succ i))
      rw [squeezeIndexLoop, gap.1]
      by_cases touching : rangeGap r (i + 1) = 1
      · rw [if_pos touching, touching]
        exact fun other above within => (seen other above within).2
      rw [if_neg touching]
      have wide : 1 < rangeGap r (i + 1) := by
        have := gap.2
        omega
      by_cases closer : rangeGap r (i + 1) < deltaMin
      · rw [if_pos closer]
        apply ih (rangeGap r (i + 1)) (i + 1) earlier
        · intro other above within
          rcases Nat.eq_or_lt_of_le (Nat.succ_le_of_lt above) with rfl | above
          · exact ⟨Nat.le_refl _, wide⟩
          · obtain ⟨low, apart⟩ := seen other above within
            exact ⟨closer.le.trans low, apart⟩
        · exact fun other above within => closer.trans_le (seen other above within).1
      · rw [if_neg closer]
        apply ih deltaMin indexSqueeze earlier _ behind
        intro other above within
        rcases Nat.eq_or_lt_of_le (Nat.succ_le_of_lt above) with rfl | above
        · exact ⟨Nat.not_lt.mp closer, wide⟩
        · exact seen other above within

private theorem squeezeIndexLoop_pos {r : Nat → LrcuRange} :
    ∀ i deltaMin indexSqueeze, 0 < indexSqueeze →
      0 < squeezeIndexLoop r i deltaMin indexSqueeze := by
  intro i
  induction i with
  | zero => exact fun _ _ positive => positive
  | succ i ih =>
      intro deltaMin indexSqueeze positive
      rw [squeezeIndexLoop]
      split_ifs
      · exact Nat.succ_pos i
      · exact ih _ _ (Nat.succ_pos i)
      · exact ih _ _ positive

theorem squeezeIndex_minimal (separated : Separated rbt.entries) (several : 1 < rbt.len)
    (machine : ∀ range ∈ rbt.entries, range.minv < 2 ^ 64) {other : Nat}
    (inside : other + 1 < rbt.len) :
    (0 < other → rangeGap rbt.r (squeezeIndex rbt) ≤ rangeGap rbt.r other) ∧
      (squeezeIndex rbt < other →
        rangeGap rbt.r (squeezeIndex rbt) < rangeGap rbt.r other) := by
  have gaps : ∀ other, 0 < other → other ≤ rbt.len - 2 →
      u64Sub (rbt.r (other + 1)).minv (rbt.r other).maxv = rangeGap rbt.r other ∧
        0 < rangeGap rbt.r other := by
    intro other _ below
    have otherInside : other + 1 < rbt.len := by omega
    have gap := u64Sub_eq_rangeGap separated machine otherInside
    exact ⟨gap.1, gap.2.1⟩
  have lastInside : rbt.len - 2 + 1 < rbt.len := by omega
  have last := u64Sub_eq_rangeGap separated machine lastInside
  refine ⟨fun later => ?_, fun behind => ?_⟩
  · exact (squeezeIndexLoop_minimal (rbt.len - 2) (2 ^ 64 - 1) (rbt.len - 2) gaps
      (by omega) last.2.2).2 other later (by omega)
  · apply squeezeIndexLoop_last (rbt.len - 2) (2 ^ 64 - 1) (rbt.len - 2) gaps _ _ other behind
    · show other ≤ rbt.len - 2
      omega
    · intro other above within
      omega
    · intro other above within
      omega

theorem squeezeIndex_pos (several : 2 < rbt.len) : 0 < squeezeIndex rbt :=
  squeezeIndexLoop_pos _ _ _ (by omega)

/-- The index of the search is the best one exactly when there is only one
pair, or another pair lies at least as close as the first. -/
theorem smallestGapAt_squeezeIndex_iff (separated : Separated rbt.entries)
    (several : 1 < rbt.len) (machine : ∀ range ∈ rbt.entries, range.minv < 2 ^ 64) :
    SmallestGapAt rbt (squeezeIndex rbt) ↔
      (2 < rbt.len → ∃ other, 0 < other ∧ other + 1 < rbt.len ∧
        rangeGap rbt.r other ≤ rangeGap rbt.r 0) := by
  constructor
  · intro smallest several'
    exact ⟨squeezeIndex rbt, squeezeIndex_pos several', squeezeIndex_lt several,
      smallest 0 several⟩
  · intro closer other inside
    rcases Nat.eq_zero_or_pos other with rfl | later
    · by_cases several' : 2 < rbt.len
      · obtain ⟨other, later, inside', close⟩ := closer several'
        exact ((squeezeIndex_minimal separated several machine inside').1 later).trans close
      · -- there is only one pair
        have found := squeezeIndex_lt several
        have first : squeezeIndex rbt = 0 := by omega
        exact le_of_eq (congrArg (rangeGap rbt.r) first)
    · exact (squeezeIndex_minimal separated several machine inside).1 later

/-! ## The squeeze -/

/-- A squeeze of separated ranges joins one pair of neighbours.  It makes the hull
of a closest pair exactly when the first pair is not the only closest one of
several, and in the last of the closest pairs the second range does not end
before the first. -/
theorem lrcuRangetreeSqueeze_smallest_iff (rbt : LrcuRangetree) (sorted : rbt.sorted = true)
    (several : 1 < rbt.len) (separated : Separated rbt.entries)
    (machine : ∀ range ∈ rbt.entries, range.minv < 2 ^ 64) :
    ∃ squeezed, lrcuRangetreeSqueeze rbt = some squeezed ∧
      JoinsPairAt rbt squeezed (squeezeIndex rbt) ∧
      (squeezed.r (squeezeIndex rbt) =
            rangeHull (rbt.r (squeezeIndex rbt)) (rbt.r (squeezeIndex rbt + 1)) ∧
          SmallestGapAt rbt (squeezeIndex rbt) ↔
        (2 < rbt.len → ∃ other, 0 < other ∧ other + 1 < rbt.len ∧
          rangeGap rbt.r other ≤ rangeGap rbt.r 0) ∧
        ∀ index, LastClosestAt rbt index → (rbt.r index).maxv ≤ (rbt.r (index + 1)).maxv) := by
  obtain ⟨squeezed, ran, entries, _, _⟩ := squeeze_spec sorted several
  have joins := joinsPairAt_squeezeIndex several entries
  refine ⟨squeezed, ran, joins, ?_⟩
  rw [joins.hull_iff separated, ← smallestGapAt_squeezeIndex_iff separated several machine,
    and_comm]
  refine and_congr_right fun smallest => ?_
  have closest : LastClosestAt rbt (squeezeIndex rbt) :=
    ⟨squeezeIndex_lt several, smallest, fun other behind inside =>
      (squeezeIndex_minimal separated several machine inside).2 behind⟩
  constructor
  · intro ends index closest'
    exact closest.unique closest' ▸ ends
  · exact fun ends => ends _ closest

/-- A full set of three ranges of one version each. -/
def threeVersions (first second third : Nat) : LrcuRangetree :=
  { len := 3, capacity := 3, sorted := true
    r := fun index => ⟨[first, second, third].getD index 0, [first, second, third].getD index 0⟩ }

theorem lrcuRangetreeSqueeze_smallest_iff_threeVersions :
    ∃ squeezed, lrcuRangetreeSqueeze (threeVersions 1 8 10) = some squeezed ∧
      squeezed.r 1 = ⟨8, 10⟩ ∧ SmallestGapAt (threeVersions 1 8 10) 1 := by
  have separated : Separated (threeVersions 1 8 10).entries := by
    unfold Separated Before
    decide
  obtain ⟨squeezed, ran, _, smallest⟩ := lrcuRangetreeSqueeze_smallest_iff (threeVersions 1 8 10)
    rfl (by decide) separated (by decide)
  obtain ⟨hull, least⟩ := smallest.mpr ⟨fun _ => ⟨1, by decide⟩,
    fun index closest => ends_of_proper separated (by decide) closest.inside⟩
  exact ⟨squeezed, ran, hull, least⟩

/-- The versions `1` and `3` lie closest, but the squeeze joins `3` and
`10`. -/
theorem not_lrcuRangetreeSqueeze_smallest :
    ¬ ∀ rbt : LrcuRangetree, rbt.sorted = true → 1 < rbt.len → Separated rbt.entries →
      (∀ range ∈ rbt.entries, range.minv < 2 ^ 64) →
      ∃ squeezed index, lrcuRangetreeSqueeze rbt = some squeezed ∧
        JoinsPairAt rbt squeezed index ∧ SmallestGapAt rbt index := by
  intro always
  obtain ⟨squeezed, index, ran, ⟨inside, _, cells⟩, smallest⟩ := always (threeVersions 1 3 10)
    rfl (by decide) (by unfold Separated Before; decide) (by decide)
  have joined : squeezed.len = 2 ∧ squeezed.r 1 = ⟨3, 10⟩ := by
    obtain rfl := Option.some.inj ran
    exact ⟨rfl, rfl⟩
  have found := cells 1 (by omega)
  rw [joined.2] at found
  have first := smallest 0 (by decide)
  change index + 1 < 3 at inside
  rcases (by omega : index = 0 ∨ index = 1) with rfl | rfl
  · exact absurd found (by decide)
  · exact absurd first (by decide)

end LightRcu
