import Mathlib.Order.MinMax
import Mathlib.Order.Defs.LinearOrder
import Mathlib.Data.List.Basic

/-!
# Lists of closed intervals

The values covered by a list of intervals, the merge of a list sorted by lower
end, and the join of two neighbours.  Nothing forces the two ends of an
interval to be in order: an inverted interval contains no value, but it can
still be merged or joined, so its effect has to be accounted for.
-/

namespace LightRcu

/-- A closed interval, given by its two ends. -/
structure ClosedInterval (α : Type*) where
  minv : α
  maxv : α
  deriving DecidableEq, Repr

namespace ClosedInterval

variable {α : Type*} [LinearOrder α]

def Contains (interval : ClosedInterval α) (value : α) : Prop :=
  interval.minv ≤ value ∧ value ≤ interval.maxv

instance (interval : ClosedInterval α) (value : α) :
    Decidable (interval.Contains value) :=
  inferInstanceAs (Decidable (_ ∧ _))

/-- Some interval of the list contains the value. -/
def Covered (intervals : List (ClosedInterval α)) (value : α) : Prop :=
  ∃ interval ∈ intervals, interval.Contains value

/-- The list is ordered by lower end. -/
def Ascending (intervals : List (ClosedInterval α)) : Prop :=
  intervals.Pairwise fun first second => first.minv ≤ second.minv

/-- The first interval ends strictly below the lower end of the second. -/
def Before (first second : ClosedInterval α) : Prop :=
  first.minv ≤ second.minv ∧ first.maxv < second.minv

/-- Every interval ends strictly below the lower end of each later one. -/
def Separated (intervals : List (ClosedInterval α)) : Prop :=
  intervals.Pairwise Before

/-- Either in order, or inverted with its upper end exactly at the bound. -/
def ShapedAt (bound : α) (interval : ClosedInterval α) : Prop :=
  interval.minv ≤ interval.maxv ∨
    interval.maxv = bound ∧ bound < interval.minv

instance (bound : α) (interval : ClosedInterval α) : Decidable (ShapedAt bound interval) :=
  inferInstanceAs (Decidable (_ ∨ _))

@[simp]
theorem covered_nil (value : α) : ¬ Covered ([] : List (ClosedInterval α)) value := by
  simp [Covered]

@[simp]
theorem covered_cons (interval : ClosedInterval α) (intervals : List (ClosedInterval α))
    (value : α) :
    Covered (interval :: intervals) value ↔
      interval.Contains value ∨ Covered intervals value := by
  simp [Covered]

theorem covered_append (first second : List (ClosedInterval α)) (value : α) :
    Covered (first ++ second) value ↔
      Covered first value ∨ Covered second value := by
  simp only [Covered, List.mem_append, or_and_right, exists_or]

theorem covered_perm {first second : List (ClosedInterval α)}
    (permuted : first.Perm second) (value : α) :
    Covered first value ↔ Covered second value := by
  simp only [Covered, permuted.mem_iff]

theorem Separated.ascending {intervals : List (ClosedInterval α)}
    (separated : Separated intervals) : Ascending intervals :=
  List.Pairwise.imp (fun before => before.1) separated

/-! ## Merging a sorted list -/

/-- Walk a sorted list, absorbing each interval that starts no later than the
current one ends. -/
def mergeFrom (current : ClosedInterval α) : List (ClosedInterval α) → List (ClosedInterval α)
  | [] => [current]
  | next :: rest =>
      if current.maxv < next.minv then
        current :: mergeFrom next rest
      else
        mergeFrom ⟨current.minv, max current.maxv next.maxv⟩ rest

def mergeSorted : List (ClosedInterval α) → List (ClosedInterval α)
  | [] => []
  | first :: rest => mergeFrom first rest

/-- Absorbing an interval that starts inside or right before the end of
another one adds exactly its values, whatever the order of its own ends. -/
theorem contains_absorb {first second : ClosedInterval α}
    (ordered : first.minv ≤ second.minv)
    (touching : ¬ first.maxv < second.minv) (value : α) :
    Contains ⟨first.minv, max first.maxv second.maxv⟩ value ↔
      first.Contains value ∨ second.Contains value := by
  have reaches : second.minv ≤ first.maxv := not_lt.mp touching
  simp only [Contains, le_max_iff]
  constructor
  · rintro ⟨above, below | below⟩
    · exact Or.inl ⟨above, below⟩
    · rcases le_total value first.maxv with inside | beyond
      · exact Or.inl ⟨above, inside⟩
      · exact Or.inr ⟨reaches.trans beyond, below⟩
  · rintro (⟨above, below⟩ | ⟨above, below⟩)
    · exact ⟨above, Or.inl below⟩
    · exact ⟨ordered.trans above, Or.inr below⟩

private theorem ascending_absorb {current next : ClosedInterval α}
    {rest : List (ClosedInterval α)} (end' : α)
    (ascending : Ascending (current :: next :: rest)) :
    Ascending (⟨current.minv, end'⟩ :: rest) := by
  have ordered := List.pairwise_cons.mp ascending
  exact List.pairwise_cons.mpr
    ⟨fun later member => ordered.1 later (List.mem_cons_of_mem next member),
      (List.pairwise_cons.mp ordered.2).2⟩

/-- Merging changes no covered value. -/
theorem covered_mergeFrom {current : ClosedInterval α} {intervals : List (ClosedInterval α)}
    (ascending : Ascending (current :: intervals)) (value : α) :
    Covered (mergeFrom current intervals) value ↔
      Covered (current :: intervals) value := by
  induction intervals generalizing current with
  | nil => rfl
  | cons next rest ih =>
      have ordered : current.minv ≤ next.minv :=
        (List.pairwise_cons.mp ascending).1 next List.mem_cons_self
      rw [mergeFrom]
      split
      · rw [covered_cons, ih (List.pairwise_cons.mp ascending).2, ← covered_cons]
      · next touching =>
          rw [ih (ascending_absorb _ ascending), covered_cons,
            contains_absorb ordered touching, covered_cons, covered_cons, or_assoc]

theorem covered_mergeSorted {intervals : List (ClosedInterval α)}
    (ascending : Ascending intervals) (value : α) :
    Covered (mergeSorted intervals) value ↔ Covered intervals value := by
  cases intervals with
  | nil => rfl
  | cons first rest => exact covered_mergeFrom ascending value

/-- Lower ends are never invented by a merge. -/
theorem minv_mem_mergeFrom {current merged : ClosedInterval α}
    {intervals : List (ClosedInterval α)}
    (member : merged ∈ mergeFrom current intervals) :
    merged.minv = current.minv ∨
      ∃ interval ∈ intervals, merged.minv = interval.minv := by
  induction intervals generalizing current with
  | nil =>
      rw [mergeFrom, List.mem_singleton] at member
      exact Or.inl (congrArg minv member)
  | cons next rest ih =>
      rw [mergeFrom] at member
      split at member
      · rcases List.mem_cons.mp member with rfl | member
        · exact Or.inl rfl
        · rcases ih member with equal | ⟨interval, inside, equal⟩
          · exact Or.inr ⟨next, List.mem_cons_self, equal⟩
          · exact Or.inr ⟨interval, List.mem_cons_of_mem next inside, equal⟩
      · rcases ih member with equal | ⟨interval, inside, equal⟩
        · exact Or.inl equal
        · exact Or.inr ⟨interval, List.mem_cons_of_mem next inside, equal⟩

theorem minv_mem_mergeSorted {merged : ClosedInterval α} {intervals : List (ClosedInterval α)}
    (member : merged ∈ mergeSorted intervals) :
    ∃ interval ∈ intervals, merged.minv = interval.minv := by
  cases intervals with
  | nil => simp [mergeSorted] at member
  | cons first rest =>
      rcases minv_mem_mergeFrom member with equal | ⟨interval, inside, equal⟩
      · exact ⟨first, List.mem_cons_self, equal⟩
      · exact ⟨interval, List.mem_cons_of_mem first inside, equal⟩

/-- An interval starts at the value, and none that starts before it reaches it. -/
def OpensAt (intervals : List (ClosedInterval α)) (value : α) : Prop :=
  (∃ interval ∈ intervals, interval.minv = value) ∧
    ∀ interval ∈ intervals, interval.minv < value → interval.maxv < value

/-- Absorbing an interval opens nothing and closes nothing. -/
private theorem opensAt_absorb {current next : ClosedInterval α}
    {rest : List (ClosedInterval α)} (ordered : current.minv ≤ next.minv)
    (touching : ¬ current.maxv < next.minv) (value : α) :
    OpensAt (⟨current.minv, max current.maxv next.maxv⟩ :: rest) value ↔
      OpensAt (current :: next :: rest) value := by
  simp only [OpensAt, List.exists_mem_cons_iff, List.forall_mem_cons, max_lt_iff]
  constructor
  · rintro ⟨starts, ends, later⟩
    exact ⟨starts.imp_right Or.inr, fun before => (ends before).1,
      fun before => (ends (ordered.trans_lt before)).2, later⟩
  · rintro ⟨starts, ends, endsNext, later⟩
    refine ⟨?_, fun before => ⟨ends before, ?_⟩, later⟩
    · rcases starts with here | rfl | inside
      · exact Or.inl here
      · -- `current` reaches the start of `next`, so it starts there, too
        exact Or.inl (ordered.eq_of_not_lt fun before => touching (ends before))
      · exact Or.inr inside
    · exact endsNext ((not_lt.mp touching).trans_lt (ends before))

theorem exists_minv_mergeFrom_iff {current : ClosedInterval α}
    {intervals : List (ClosedInterval α)} (ascending : Ascending (current :: intervals))
    (value : α) :
    (∃ merged ∈ mergeFrom current intervals, merged.minv = value) ↔
      OpensAt (current :: intervals) value := by
  induction intervals generalizing current with
  | nil =>
      simp only [mergeFrom, OpensAt, List.mem_singleton, exists_eq_left, forall_eq]
      exact ⟨fun here => ⟨here, fun before => absurd here before.ne⟩, And.left⟩
  | cons next rest ih =>
      have ordered := List.pairwise_cons.mp ascending
      rw [mergeFrom]
      split
      · next apart =>
          rw [List.exists_mem_cons_iff, ih ordered.2]
          constructor
          · rintro (rfl | ⟨⟨interval, inside, rfl⟩, later⟩)
            · refine ⟨⟨current, List.mem_cons_self, rfl⟩, fun interval member before => ?_⟩
              rcases List.mem_cons.mp member with rfl | member
              · exact absurd before (lt_irrefl _)
              · exact absurd before (not_lt.mpr (ordered.1 interval member))
            · have starts : next.minv ≤ interval.minv := by
                rcases List.mem_cons.mp inside with rfl | inside
                · exact le_rfl
                · exact (List.pairwise_cons.mp ordered.2).1 interval inside
              exact ⟨⟨interval, List.mem_cons_of_mem current inside, rfl⟩,
                List.forall_mem_cons.mpr ⟨fun _ => apart.trans_le starts, later⟩⟩
          · rintro ⟨⟨interval, member, here⟩, ends⟩
            have later := (List.forall_mem_cons.mp ends).2
            rcases List.mem_cons.mp member with rfl | inside
            · exact Or.inl here
            · exact Or.inr ⟨⟨interval, inside, here⟩, later⟩
      · next touching =>
          rw [ih (ascending_absorb _ ascending)]
          exact opensAt_absorb (ordered.1 next List.mem_cons_self) touching value

/-- A merged interval starts at a value exactly if the intervals open there. -/
theorem exists_minv_mergeSorted_iff {intervals : List (ClosedInterval α)}
    (ascending : Ascending intervals) (value : α) :
    (∃ merged ∈ mergeSorted intervals, merged.minv = value) ↔ OpensAt intervals value := by
  cases intervals with
  | nil => simp [mergeSorted, OpensAt]
  | cons first rest => exact exists_minv_mergeFrom_iff ascending value

theorem OpensAt.perm {intervals others : List (ClosedInterval α)} {value : α}
    (permuted : intervals.Perm others) : OpensAt intervals value ↔ OpensAt others value := by
  simp only [OpensAt, permuted.mem_iff]

theorem separated_mergeFrom {current : ClosedInterval α} {intervals : List (ClosedInterval α)}
    (ascending : Ascending (current :: intervals)) :
    Separated (mergeFrom current intervals) := by
  induction intervals generalizing current with
  | nil => exact List.pairwise_singleton _ _
  | cons next rest ih =>
      have ordered := List.pairwise_cons.mp ascending
      rw [mergeFrom]
      split
      · next apart =>
          refine List.pairwise_cons.mpr ⟨fun later member => ?_, ih ordered.2⟩
          have starts : next.minv ≤ later.minv := by
            rcases minv_mem_mergeFrom member with equal | ⟨interval, inside, equal⟩
            · exact equal.ge
            · exact ((List.pairwise_cons.mp ordered.2).1 interval inside).trans equal.ge
          exact ⟨(ordered.1 next List.mem_cons_self).trans starts,
            apart.trans_le starts⟩
      · exact ih (ascending_absorb _ ascending)

theorem separated_mergeSorted {intervals : List (ClosedInterval α)}
    (ascending : Ascending intervals) : Separated (mergeSorted intervals) := by
  cases intervals with
  | nil => exact List.Pairwise.nil
  | cons first rest => exact separated_mergeFrom ascending

theorem shapedAt_mergeFrom {bound : α} {current : ClosedInterval α}
    {intervals : List (ClosedInterval α)}
    (ascending : Ascending (current :: intervals))
    (shaped : ∀ interval ∈ current :: intervals, ShapedAt bound interval) :
    ∀ merged ∈ mergeFrom current intervals, ShapedAt bound merged := by
  induction intervals generalizing current with
  | nil => exact shaped
  | cons next rest ih =>
      have ordered : current.minv ≤ next.minv :=
        (List.pairwise_cons.mp ascending).1 next List.mem_cons_self
      have restShaped : ∀ interval ∈ next :: rest, ShapedAt bound interval :=
        fun interval member => shaped interval (List.mem_cons_of_mem _ member)
      rw [mergeFrom]
      split
      · intro merged member
        rcases List.mem_cons.mp member with rfl | member
        · exact shaped merged List.mem_cons_self
        · exact ih (List.pairwise_cons.mp ascending).2 restShaped merged member
      · next touching =>
          apply ih (ascending_absorb _ ascending)
          intro interval member
          rcases List.mem_cons.mp member with rfl | member
          · -- an interval that reaches a later lower end is itself in order
            exact Or.inl ((ordered.trans (not_lt.mp touching)).trans (le_max_left _ _))
          · exact restShaped interval (List.mem_cons_of_mem next member)

theorem shapedAt_mergeSorted {bound : α} {intervals : List (ClosedInterval α)}
    (ascending : Ascending intervals)
    (shaped : ∀ interval ∈ intervals, ShapedAt bound interval) :
    ∀ merged ∈ mergeSorted intervals, ShapedAt bound merged := by
  cases intervals with
  | nil => simp [mergeSorted]
  | cons first rest => exact shapedAt_mergeFrom ascending shaped

theorem length_mergeFrom_le (current : ClosedInterval α) (intervals : List (ClosedInterval α)) :
    (mergeFrom current intervals).length ≤ intervals.length + 1 := by
  induction intervals generalizing current with
  | nil => exact Nat.le_refl 1
  | cons next rest ih =>
      rw [mergeFrom]
      split
      · simpa using ih next
      · exact (ih _).trans (Nat.le_succ _)

theorem length_mergeSorted_le (intervals : List (ClosedInterval α)) :
    (mergeSorted intervals).length ≤ intervals.length := by
  cases intervals with
  | nil => exact Nat.le_refl 0
  | cons first rest => exact length_mergeFrom_le first rest

theorem mergeFrom_of_separated {current : ClosedInterval α}
    {intervals : List (ClosedInterval α)} (separated : Separated (current :: intervals)) :
    mergeFrom current intervals = current :: intervals := by
  induction intervals generalizing current with
  | nil => rfl
  | cons next rest ih =>
      have apart := List.pairwise_cons.mp separated
      rw [mergeFrom, if_pos (apart.1 next List.mem_cons_self).2, ih apart.2]

/-- A merge changes nothing when there is nothing to merge. -/
theorem mergeSorted_of_separated {intervals : List (ClosedInterval α)}
    (separated : Separated intervals) : mergeSorted intervals = intervals := by
  cases intervals with
  | nil => rfl
  | cons first rest => exact mergeFrom_of_separated separated

private theorem length_mergeFrom_lt {current : ClosedInterval α}
    {intervals : List (ClosedInterval α)} (ascending : Ascending (current :: intervals))
    (touching : ¬ Separated (current :: intervals)) :
    (mergeFrom current intervals).length < intervals.length + 1 := by
  induction intervals generalizing current with
  | nil => exact absurd (List.pairwise_singleton _ _) touching
  | cons next rest ih =>
      have ordered := List.pairwise_cons.mp ascending
      rw [mergeFrom]
      split
      · next apart =>
          have later : ¬ Separated (next :: rest) := by
            intro separated
            refine touching (List.pairwise_cons.mpr ⟨fun interval member => ?_, separated⟩)
            have starts : next.minv ≤ interval.minv := by
              rcases List.mem_cons.mp member with rfl | member
              · exact le_refl _
              · exact (List.pairwise_cons.mp ordered.2).1 interval member
            exact ⟨ordered.1 interval member, apart.trans_le starts⟩
          simpa using ih ordered.2 later
      · exact Nat.lt_succ_of_le (length_mergeFrom_le _ rest)

/-- A merge shortens every list in which two intervals touch. -/
theorem length_mergeSorted_lt {intervals : List (ClosedInterval α)}
    (ascending : Ascending intervals) (touching : ¬ Separated intervals) :
    (mergeSorted intervals).length < intervals.length := by
  cases intervals with
  | nil => exact absurd List.Pairwise.nil touching
  | cons first rest => exact length_mergeFrom_lt ascending touching

/-! ## Overlaps -/

/-- Some value lies in both intervals. -/
def Overlap (first second : ClosedInterval α) : Prop :=
  ∃ value, first.Contains value ∧ second.Contains value

theorem overlap_iff_not_before {first second : ClosedInterval α}
    (ordered : first.minv ≤ second.minv) (inOrder : second.minv ≤ second.maxv) :
    Overlap first second ↔ ¬ Before first second := by
  constructor
  · rintro ⟨value, inFirst, inSecond⟩ before
    exact ((inFirst.2.trans_lt before.2).trans_le inSecond.1).false
  · intro touching
    have reaches : second.minv ≤ first.maxv :=
      not_lt.mp fun apart => touching ⟨ordered, apart⟩
    exact ⟨second.minv, ⟨ordered, reaches⟩, ⟨le_refl _, inOrder⟩⟩

/-- No two intervals of the list overlap. -/
def Scattered (intervals : List (ClosedInterval α)) : Prop :=
  intervals.Pairwise fun first second => ¬ Overlap first second

theorem scattered_perm {first second : List (ClosedInterval α)}
    (permuted : first.Perm second) : Scattered first ↔ Scattered second := by
  refine permuted.pairwise_iff ?_
  rintro one other apart ⟨value, inOther, inOne⟩
  exact apart ⟨value, inOne, inOther⟩

/-- In a sorted list of proper intervals only those that overlap can touch. -/
theorem separated_iff_scattered {intervals : List (ClosedInterval α)}
    (ascending : Ascending intervals)
    (inOrder : ∀ interval ∈ intervals, interval.minv ≤ interval.maxv) :
    Separated intervals ↔ Scattered intervals := by
  induction intervals with
  | nil => exact iff_of_true List.Pairwise.nil List.Pairwise.nil
  | cons first rest ih =>
      have ordered := List.pairwise_cons.mp ascending
      have tail := ih ordered.2 fun interval member =>
        inOrder interval (List.mem_cons_of_mem _ member)
      have head : ∀ interval ∈ rest, Before first interval ↔ ¬ Overlap first interval := by
        intro interval member
        rw [overlap_iff_not_before (ordered.1 interval member)
          (inOrder interval (List.mem_cons_of_mem _ member)), not_not]
      simp only [Separated, Scattered, List.pairwise_cons] at tail ⊢
      exact and_congr (forall₂_congr head) tail

/-! ## Joining two neighbours -/

/-- Replace the interval at an index and its successor by one interval from
the lower end of the first to the upper end of the second. -/
def joinAt : Nat → List (ClosedInterval α) → List (ClosedInterval α)
  | 0, first :: second :: rest => ⟨first.minv, second.maxv⟩ :: rest
  | index + 1, first :: rest => first :: joinAt index rest
  | _, intervals => intervals

omit [LinearOrder α] in
theorem length_joinAt {index : Nat} {intervals : List (ClosedInterval α)}
    (inside : index + 1 < intervals.length) :
    (joinAt index intervals).length + 1 = intervals.length := by
  induction intervals generalizing index with
  | nil => simp at inside
  | cons first rest ih =>
      cases index with
      | zero =>
          cases rest with
          | nil => simp at inside
          | cons second rest => simp [joinAt]
      | succ index =>
          have tailInside : index + 1 < rest.length := by simpa using inside
          simpa [joinAt] using ih tailInside

omit [LinearOrder α] in
theorem getElem_joinAt {index position : Nat} {intervals : List (ClosedInterval α)}
    (inside : index + 1 < intervals.length)
    (shorter : (joinAt index intervals).length + 1 = intervals.length)
    (within : position < (joinAt index intervals).length) :
    (joinAt index intervals)[position] =
      if position < index then intervals[position]
      else if position = index then
        ⟨(intervals[index]).minv, (intervals[index + 1]).maxv⟩
      else intervals[position + 1] := by
  induction intervals generalizing index position with
  | nil => simp at inside
  | cons first rest ih =>
      cases index with
      | zero =>
          cases rest with
          | nil => simp at inside
          | cons second rest => cases position <;> simp [joinAt]
      | succ index =>
          cases position with
          | zero => simp [joinAt]
          | succ position =>
              have tailInside : index + 1 < rest.length := by simpa using inside
              simp only [joinAt, List.getElem_cons_succ, Nat.add_lt_add_iff_right,
                Nat.add_right_cancel_iff]
              exact ih tailInside (length_joinAt tailInside) (by simpa [joinAt] using within)

omit [LinearOrder α] in
theorem minv_mem_joinAt {index : Nat} {joined : ClosedInterval α}
    {intervals : List (ClosedInterval α)} (member : joined ∈ joinAt index intervals) :
    ∃ interval ∈ intervals, joined.minv = interval.minv := by
  induction intervals generalizing index with
  | nil => cases index <;> simp [joinAt] at member
  | cons first rest ih =>
      cases index with
      | zero =>
          cases rest with
          | nil => exact ⟨joined, member, rfl⟩
          | cons second rest =>
              rcases List.mem_cons.mp member with rfl | member
              · exact ⟨first, List.mem_cons_self, rfl⟩
              · exact ⟨joined, by simp [member], rfl⟩
      | succ index =>
          rcases List.mem_cons.mp member with rfl | member
          · exact ⟨joined, List.mem_cons_self, rfl⟩
          · obtain ⟨interval, inside, equal⟩ := ih member
            exact ⟨interval, List.mem_cons_of_mem first inside, equal⟩

/-- A join of separated neighbours keeps every covered value up to the bound
at which inverted intervals end. -/
theorem covered_joinAt {bound value : α} (within : value ≤ bound) {index : Nat}
    {intervals : List (ClosedInterval α)} (separated : Separated intervals)
    (shaped : ∀ interval ∈ intervals, ShapedAt bound interval)
    (covered : Covered intervals value) :
    Covered (joinAt index intervals) value := by
  induction intervals generalizing index with
  | nil => exact (covered_nil value covered).elim
  | cons first rest ih =>
      have apart := List.pairwise_cons.mp separated
      cases index with
      | zero =>
          cases rest with
          | nil => exact covered
          | cons second rest =>
              have before := apart.1 second List.mem_cons_self
              rw [covered_cons, covered_cons, ← or_assoc] at covered
              rw [joinAt, covered_cons]
              refine covered.imp_left fun inside => ?_
              rcases inside with inside | inside
              · refine ⟨inside.1, ?_⟩
                rcases shaped second (by simp) with inOrder | inverted
                · exact (inside.2.trans_lt before.2).le.trans inOrder
                · exact within.trans inverted.1.ge
              · exact ⟨before.1.trans inside.1, inside.2⟩
      | succ index =>
          rw [joinAt, covered_cons]
          rw [covered_cons] at covered
          exact covered.imp_right
            (ih apart.2 fun interval member => shaped interval (List.mem_cons_of_mem _ member))

theorem shapedAt_joinAt {bound : α} {index : Nat} {intervals : List (ClosedInterval α)}
    (ascending : Ascending intervals)
    (shaped : ∀ interval ∈ intervals, ShapedAt bound interval) :
    ∀ joined ∈ joinAt index intervals, ShapedAt bound joined := by
  induction intervals generalizing index with
  | nil => cases index <;> simp [joinAt]
  | cons first rest ih =>
      have ordered := List.pairwise_cons.mp ascending
      have restShaped : ∀ interval ∈ rest, ShapedAt bound interval :=
        fun interval member => shaped interval (List.mem_cons_of_mem _ member)
      intro joined member
      cases index with
      | zero =>
          cases rest with
          | nil => exact shaped joined member
          | cons second rest =>
              rcases List.mem_cons.mp member with rfl | member
              · rcases restShaped second List.mem_cons_self with inOrder | inverted
                · exact Or.inl ((ordered.1 second List.mem_cons_self).trans inOrder)
                · rcases le_or_gt first.minv bound with low | high
                  · exact Or.inl (low.trans inverted.1.ge)
                  · exact Or.inr ⟨inverted.1, high⟩
              · exact restShaped joined (List.mem_cons_of_mem _ member)
      | succ index =>
          rcases List.mem_cons.mp member with rfl | member
          · exact shaped joined List.mem_cons_self
          · exact ih ordered.2 restShaped joined member

omit [LinearOrder α] in
theorem pairwise_minv_joinAt {relation : α → α → Prop} {index : Nat}
    {intervals : List (ClosedInterval α)}
    (related : intervals.Pairwise fun first second => relation first.minv second.minv) :
    (joinAt index intervals).Pairwise fun first second =>
      relation first.minv second.minv := by
  induction intervals generalizing index with
  | nil => cases index <;> exact related
  | cons first rest ih =>
      have apart := List.pairwise_cons.mp related
      cases index with
      | zero =>
          cases rest with
          | nil => exact related
          | cons second rest =>
              exact List.pairwise_cons.mpr
                ⟨fun later member => apart.1 later (List.mem_cons_of_mem second member),
                  (List.pairwise_cons.mp apart.2).2⟩
      | succ index =>
          refine List.pairwise_cons.mpr ⟨fun later member => ?_, ih apart.2⟩
          obtain ⟨interval, inside, equal⟩ := minv_mem_joinAt member
          exact equal ▸ apart.1 interval inside

/-! ## Lower ends -/

/-- Every interval of the first list starts no earlier than some interval of
the second. -/
def StartsBelow (first second : List (ClosedInterval α)) : Prop :=
  ∀ origin ∈ first, ∃ interval ∈ second, interval.minv ≤ origin.minv

theorem StartsBelow.of_perm {first second : List (ClosedInterval α)}
    (permuted : second.Perm first) : StartsBelow first second :=
  fun origin member => ⟨origin, permuted.mem_iff.mpr member, le_refl _⟩

theorem StartsBelow.trans {first second third : List (ClosedInterval α)}
    (outer : StartsBelow first second) (inner : StartsBelow second third) :
    StartsBelow first third := by
  intro origin member
  obtain ⟨middle, inside, low⟩ := outer origin member
  obtain ⟨interval, within, lower⟩ := inner middle inside
  exact ⟨interval, within, lower.trans low⟩

theorem StartsBelow.append_right {first second : List (ClosedInterval α)}
    (below : StartsBelow first second) (third : List (ClosedInterval α)) :
    StartsBelow (first ++ third) (second ++ third) := by
  intro origin member
  rcases List.mem_append.mp member with member | member
  · obtain ⟨interval, inside, low⟩ := below origin member
    exact ⟨interval, List.mem_append_left third inside, low⟩
  · exact ⟨origin, List.mem_append_right second member, le_refl _⟩

/-- Of an ascending list it is enough to keep the first lower end. -/
private theorem startsBelow_of_head {first : ClosedInterval α}
    {rest second : List (ClosedInterval α)} (ascending : Ascending (first :: rest))
    (kept : ∃ interval ∈ second, interval.minv = first.minv) :
    StartsBelow (first :: rest) second := by
  obtain ⟨interval, inside, equal⟩ := kept
  intro origin member
  refine ⟨interval, inside, equal.trans_le ?_⟩
  rcases List.mem_cons.mp member with rfl | member
  · exact le_refl _
  · exact (List.pairwise_cons.mp ascending).1 origin member

private theorem minv_kept_mergeFrom (current : ClosedInterval α)
    (intervals : List (ClosedInterval α)) :
    ∃ merged ∈ mergeFrom current intervals, merged.minv = current.minv := by
  induction intervals generalizing current with
  | nil => exact ⟨current, List.mem_singleton_self current, rfl⟩
  | cons next rest ih =>
      rw [mergeFrom]
      split
      · exact ⟨current, List.mem_cons_self, rfl⟩
      · exact ih ⟨current.minv, max current.maxv next.maxv⟩

theorem startsBelow_mergeSorted {intervals : List (ClosedInterval α)}
    (ascending : Ascending intervals) : StartsBelow intervals (mergeSorted intervals) := by
  cases intervals with
  | nil => exact fun _ member => absurd member List.not_mem_nil
  | cons first rest => exact startsBelow_of_head ascending (minv_kept_mergeFrom first rest)

theorem startsBelow_joinAt {intervals : List (ClosedInterval α)}
    (ascending : Ascending intervals) (index : Nat) :
    StartsBelow intervals (joinAt index intervals) := by
  cases intervals with
  | nil => exact fun _ member => absurd member List.not_mem_nil
  | cons first rest =>
      apply startsBelow_of_head ascending
      cases index with
      | zero =>
          cases rest with
          | nil => exact ⟨first, List.mem_singleton_self first, rfl⟩
          | cons second rest => exact ⟨⟨first.minv, second.maxv⟩, List.mem_cons_self, rfl⟩
      | succ index => exact ⟨first, List.mem_cons_self, rfl⟩

/-- A join of two neighbours leaves separated intervals separated. -/
theorem separated_joinAt {index : Nat} {intervals : List (ClosedInterval α)}
    (separated : Separated intervals) : Separated (joinAt index intervals) := by
  induction intervals generalizing index with
  | nil => cases index <;> exact separated
  | cons first rest ih =>
      have apart := List.pairwise_cons.mp separated
      cases index with
      | zero =>
          cases rest with
          | nil => exact separated
          | cons second rest =>
              have later := List.pairwise_cons.mp apart.2
              refine List.pairwise_cons.mpr ⟨fun interval member => ?_, later.2⟩
              exact ⟨(apart.1 interval (List.mem_cons_of_mem second member)).1,
                (later.1 interval member).2⟩
      | succ index =>
          refine List.pairwise_cons.mpr ⟨fun joined member => ?_, ih apart.2⟩
          obtain ⟨interval, inside, equal⟩ := minv_mem_joinAt member
          have before := apart.1 interval inside
          exact ⟨before.1.trans equal.ge, before.2.trans_le equal.ge⟩

/-! ## Coarsening -/

/-- The second list stands in for the first one: it invents no lower end, and
it keeps both the shape of the intervals and every value covered up to the
bound. -/
structure CoarsensUpTo (bound : α) (first second : List (ClosedInterval α)) : Prop where
  starts : ∀ interval ∈ second, ∃ origin ∈ first, interval.minv = origin.minv
  shaped : (∀ interval ∈ first, ShapedAt bound interval) →
    ∀ interval ∈ second, ShapedAt bound interval
  covers : (∀ interval ∈ first, ShapedAt bound interval) →
    ∀ value ≤ bound, Covered first value → Covered second value

namespace CoarsensUpTo

variable {bound : α} {first second third : List (ClosedInterval α)}

theorem trans (outer : CoarsensUpTo bound first second)
    (inner : CoarsensUpTo bound second third) : CoarsensUpTo bound first third where
  starts interval member := by
    obtain ⟨middle, inside, equal⟩ := inner.starts interval member
    obtain ⟨origin, within, same⟩ := outer.starts middle inside
    exact ⟨origin, within, equal.trans same⟩
  shaped shaped := inner.shaped (outer.shaped shaped)
  covers shaped value below covered :=
    inner.covers (outer.shaped shaped) value below
      (outer.covers shaped value below covered)

theorem of_perm (permuted : second.Perm first) : CoarsensUpTo bound first second where
  starts interval member := ⟨interval, permuted.mem_iff.mp member, rfl⟩
  shaped shaped interval member := shaped interval (permuted.mem_iff.mp member)
  covers _ value _ covered := (covered_perm permuted value).mpr covered

theorem append_right (coarsens : CoarsensUpTo bound first second) :
    CoarsensUpTo bound (first ++ third) (second ++ third) where
  starts interval member := by
    rcases List.mem_append.mp member with member | member
    · obtain ⟨origin, inside, equal⟩ := coarsens.starts interval member
      exact ⟨origin, List.mem_append_left third inside, equal⟩
    · exact ⟨interval, List.mem_append_right first member, rfl⟩
  shaped shaped interval member := by
    rcases List.mem_append.mp member with member | member
    · exact coarsens.shaped (fun origin inside =>
        shaped origin (List.mem_append_left third inside)) interval member
    · exact shaped interval (List.mem_append_right first member)
  covers shaped value below covered := by
    rw [covered_append] at covered ⊢
    exact covered.imp_left (coarsens.covers (fun origin inside =>
      shaped origin (List.mem_append_left third inside)) value below)

theorem of_mergeSorted (ascending : Ascending first) :
    CoarsensUpTo bound first (mergeSorted first) where
  starts _ member := minv_mem_mergeSorted member
  shaped shaped := shapedAt_mergeSorted ascending shaped
  covers _ value _ covered := (covered_mergeSorted ascending value).mpr covered

theorem of_joinAt (separated : Separated first) (index : Nat) :
    CoarsensUpTo bound first (joinAt index first) where
  starts _ member := minv_mem_joinAt member
  shaped shaped := shapedAt_joinAt separated.ascending shaped
  covers shaped _ below covered := covered_joinAt below separated shaped covered

/-- Intervals that are all in order stay so: an inverted one would have to end
at every bound. -/
theorem inOrder [Nontrivial α] (coarsens : ∀ bound, CoarsensUpTo bound first second)
    (inOrder : ∀ interval ∈ first, interval.minv ≤ interval.maxv) :
    ∀ interval ∈ second, interval.minv ≤ interval.maxv := by
  intro interval member
  have shaped : ∀ bound, ShapedAt bound interval := fun bound =>
    (coarsens bound).shaped (fun origin inside => Or.inl (inOrder origin inside)) interval member
  obtain ⟨low, high, differ⟩ := exists_pair_ne α
  rcases shaped low with ordered | endsLow
  · exact ordered
  · rcases shaped high with ordered | endsHigh
    · exact ordered
    · exact absurd (endsLow.1.symm.trans endsHigh.1) differ

end CoarsensUpTo

end ClosedInterval

end LightRcu
