import LightRcu.GetSynchronized
import LightRcu.RangeTreeStarts
import Mathlib.Data.List.InsertIdx

/-!
# What a pass holds back

A pass adds ranges for the threads that it samples in a read section and for
no others, so it finds no version below all of theirs, with one exception: the
search of an empty set looks at the first cell of the array, which still holds
what an earlier pass left there.
-/

namespace LightRcu

open ClosedInterval

variable {Ti : Type*} [DecidableEq Ti]

/-! ## Visits -/

/-- A visit adds a range exactly when it samples a thread in a read section,
and that range starts at the sampled version. -/
theorem visit_range (loop : PassLoop) (currentVersion : Nat) (info : LrcuThreadInfo)
    (sample : Sample) :
    (sample.lns.counter = 0 ∧ (loop.visit currentVersion info sample).range = none) ∨
      sample.lns.counter ≠ 0 ∧ ∃ maxv,
        (loop.visit currentVersion info sample).range = some ⟨sample.lns.version, maxv⟩ := by
  by_cases active : sample.lns.counter = 0
  · refine Or.inl ⟨active, ?_⟩
    cases loop <;> simp [PassLoop.visit, visitThread, visitHungThread, active]
  · refine Or.inr ⟨active, ?_⟩
    cases loop with
    | threads => exact ⟨currentVersion, by simp [PassLoop.visit, visitThread, active]⟩
    | hungThreads =>
        simp only [PassLoop.visit, visitHungThread, ne_eq, active, not_false_eq_true, if_true]
        split_ifs
        · exact ⟨currentVersion, rfl⟩
        · exact ⟨info.hungLns.version, rfl⟩

/-- An iteration of a loop visits the next thread, adds its range, and either
keeps the thread and goes on behind it or moves it to the other list. -/
theorem visitNext_cases {loop : PassLoop} {currentVersion : Nat} {pass next : PassState Ti}
    {sample : Sample} (visited : visitNext loop currentVersion pass sample = some next) :
    ∃ ti, (pass.lists.walked loop)[pass.index]? = some ti ∧
      addVisitRange pass.rbt
        (loop.visit currentVersion (pass.lists.info ti) sample).range = some next.rbt ∧
      ((loop.visit currentVersion (pass.lists.info ti) sample).moves = true ∧
          next.index = pass.index ∧
          next.lists = (pass.lists.setInfo ti
            (loop.visit currentVersion (pass.lists.info ti) sample).info).move
              pass.index ti loop ∨
        (loop.visit currentVersion (pass.lists.info ti) sample).moves = false ∧
          next.index = pass.index + 1 ∧
          next.lists = pass.lists.setInfo ti
            (loop.visit currentVersion (pass.lists.info ti) sample).info) := by
  unfold visitNext at visited
  split at visited
  · simp at visited
  next ti found =>
    obtain ⟨rbt, added, rfl⟩ := Option.map_eq_some_iff.mp visited
    refine ⟨ti, found, ?_⟩
    cases moves : (loop.visit currentVersion (pass.lists.info ti) sample).moves with
    | true => exact ⟨added, Or.inl ⟨rfl, rfl, rfl⟩⟩
    | false => exact ⟨added, Or.inr ⟨rfl, rfl, rfl⟩⟩

@[simp]
theorem walked_setInfo (lists : ThreadLists Ti) (ti : Ti) (info : LrcuThreadInfo)
    (loop : PassLoop) : (lists.setInfo ti info).walked loop = lists.walked loop := by
  cases loop <;> rfl

omit [DecidableEq Ti] in
@[simp]
theorem walked_move (lists : ThreadLists Ti) (index : Nat) (ti : Ti) (loop : PassLoop) :
    (lists.move index ti loop).walked loop = (lists.walked loop).eraseIdx index := by
  cases loop <;> rfl

theorem drop_of_visitNext {loop : PassLoop} {currentVersion : Nat} {pass next : PassState Ti}
    {sample : Sample} (visited : visitNext loop currentVersion pass sample = some next) :
    (next.lists.walked loop).drop next.index =
      (pass.lists.walked loop).drop (pass.index + 1) := by
  obtain ⟨ti, found, _, ⟨_, index, lists⟩ | ⟨_, index, lists⟩⟩ := visitNext_cases visited
  · have inside := (List.getElem?_eq_some_iff.mp found).1
    rw [lists, index, walked_move, walked_setInfo, List.eraseIdx_eq_take_drop_succ,
      List.drop_append_of_le_length (by simp [inside.le]), List.drop_take_self, List.nil_append]
  · rw [lists, index, walked_setInfo]

omit [DecidableEq Ti] in
theorem mem_drop_iff {threads : List Ti} {index : Nat} {ti : Ti} :
    ti ∈ threads.drop index ↔ threads[index]? = some ti ∨ ti ∈ threads.drop (index + 1) := by
  rw [List.drop_eq_getElem?_toList_append, List.mem_append, Option.mem_toList]

theorem visitNext_remaining {loop : PassLoop} {currentVersion : Nat}
    {pass next : PassState Ti} {sample : Sample}
    (visited : visitNext loop currentVersion pass sample = some next) :
    (next.lists.walked loop).length - next.index + 1 =
      (pass.lists.walked loop).length - pass.index := by
  obtain ⟨ti, found, _⟩ := visitNext_cases visited
  have inside := (List.getElem?_eq_some_iff.mp found).1
  have left := congrArg List.length (drop_of_visitNext visited)
  rw [List.length_drop, List.length_drop] at left
  omega

variable {property : Nat → Prop}

theorem visitNext_starts {loop : PassLoop} {currentVersion : Nat} {pass next : PassState Ti}
    {sample : Sample} (starts : StartsIn property pass.rbt)
    (sampled : sample.lns.counter ≠ 0 → property sample.lns.version)
    (visited : visitNext loop currentVersion pass sample = some next) :
    StartsIn property next.rbt ∧
      (sample.lns.counter = 0 → next.rbt = pass.rbt) ∧
        (0 < pass.rbt.len ∨ sample.lns.counter ≠ 0 → 0 < next.rbt.len) := by
  obtain ⟨ti, _, added, _⟩ := visitNext_cases visited
  rcases visit_range loop currentVersion (pass.lists.info ti) sample with
    ⟨idle, range⟩ | ⟨active, maxv, range⟩
  · rw [range, addVisitRange, Option.some.injEq] at added
    rw [← added]
    exact ⟨starts, fun _ => rfl, fun nonempty =>
      nonempty.resolve_right (not_not_intro idle)⟩
  · rw [range, addVisitRange] at added
    obtain ⟨kept, nonempty⟩ := startsIn_of_add starts (sampled active) added
    exact ⟨kept, fun idle => absurd idle active, fun _ => nonempty⟩

/-- A loop that samples readers above a bound only adds ranges above it, and
one that samples no reader at all leaves the set alone. -/
theorem visitAll_starts {loop : PassLoop} {currentVersion : Nat} {samples : List Sample}
    {pass final : PassState Ti} (walked : visitAll loop currentVersion samples pass = some final)
    (starts : StartsIn property pass.rbt)
    (sampled : ∀ sample ∈ samples, sample.lns.counter ≠ 0 → property sample.lns.version) :
    StartsIn property final.rbt ∧
      ((∀ sample ∈ samples, sample.lns.counter = 0) → final.rbt = pass.rbt) ∧
        ((0 < pass.rbt.len ∨ ∃ sample ∈ samples, sample.lns.counter ≠ 0) →
          0 < final.rbt.len) := by
  induction samples generalizing pass with
  | nil =>
      rw [visitAll] at walked
      split_ifs at walked
      obtain rfl := Option.some.inj walked
      exact ⟨starts, fun _ => rfl, fun nonempty => by simpa using nonempty⟩
  | cons sample samples ih =>
      obtain ⟨next, visited, walked⟩ := Option.bind_eq_some_iff.mp walked
      obtain ⟨startsNext, same, nonempty⟩ :=
        visitNext_starts starts (sampled sample List.mem_cons_self) visited
      obtain ⟨startsFinal, sameFinal, nonemptyFinal⟩ :=
        ih walked startsNext fun later member => sampled later (List.mem_cons_of_mem _ member)
      refine ⟨startsFinal, fun idle => ?_, fun reason => nonemptyFinal ?_⟩
      · rw [sameFinal fun later member => idle later (List.mem_cons_of_mem _ member)]
        exact same (idle sample List.mem_cons_self)
      · rcases reason with counted | ⟨reader, member, active⟩
        · exact Or.inl (nonempty (Or.inl counted))
        · rcases List.mem_cons.mp member with rfl | later
          · exact Or.inl (nonempty (Or.inr active))
          · exact Or.inr ⟨reader, later, active⟩

/-! ## A pass runs to its end -/

/-- The assertion of the merge that a visit may need: there is room for its range,
or no range of the set starts at the reserved value, unless one that starts
before reaches it. -/
def VisitAsserts (pass : PassState Ti) (sample : Sample) : Prop :=
  sample.lns.counter ≠ 0 → pass.rbt.len < pass.rbt.capacity ∨ pass.rbt.Unreserved

theorem rangetreeOk_addVisitRange {rbt added : LrcuRangetree} {range : Option LrcuRange}
    (ok : RangetreeOk rbt) (adds : addVisitRange rbt range = some added) : RangetreeOk added := by
  cases range with
  | none => exact Option.some.inj adds ▸ ok
  | some range => exact (lrcuRangetreeAdd_spec ok adds 0).1

theorem visitNext_completes_iff (loop : PassLoop) {pass : PassState Ti} (currentVersion : Nat)
    {sample : Sample} (ok : RangetreeOk pass.rbt)
    (inside : pass.index < (pass.lists.walked loop).length) :
    (∃ next, visitNext loop currentVersion pass sample = some next) ↔
      VisitAsserts pass sample := by
  have visits : (∃ next, visitNext loop currentVersion pass sample = some next) ↔
      ∃ rbt, addVisitRange pass.rbt (loop.visit currentVersion
        (pass.lists.info (pass.lists.walked loop)[pass.index]) sample).range = some rbt := by
    simp [visitNext, List.getElem?_eq_getElem inside]
  rw [visits, VisitAsserts]
  rcases visit_range loop currentVersion
    (pass.lists.info (pass.lists.walked loop)[pass.index]) sample with
    ⟨idle, range⟩ | ⟨active, maxv, range⟩
  · rw [range]
    exact iff_of_true ⟨pass.rbt, rfl⟩ fun active => absurd idle active
  · rw [range, addVisitRange, lrcuRangetreeAdd_completes_iff ok]
    exact ⟨fun asserts _ => asserts, fun asserts => asserts active⟩

namespace PassInput

/-- The pass samples some thread in a read section. -/
def AnyReader (input : PassInput Ti) : Prop :=
  ∃ sample ∈ input.samples ++ input.hungSamples, sample.lns.counter ≠ 0

/-- No thread that the pass samples in a read section has a version up to the
given one. -/
def ReadersAfter (input : PassInput Ti) (version : Nat) : Prop :=
  ∀ sample ∈ input.samples ++ input.hungSamples,
    sample.lns.counter ≠ 0 → version < sample.lns.version

instance (input : PassInput Ti) (version : Nat) : Decidable (input.ReadersAfter version) :=
  inferInstanceAs (Decidable (∀ sample ∈ input.samples ++ input.hungSamples, _))

/-- The set of a pass starts where its readers do.  It is empty when there is
none, over the array that the pass was given. -/
theorem starts_of_run {input : PassInput Ti} {ranges : Nat → LrcuRange}
    {lists : ThreadLists Ti} {rbt : LrcuRangetree} (ran : input.run ranges = some (lists, rbt))
    (sampled : ∀ sample ∈ input.samples ++ input.hungSamples,
      sample.lns.counter ≠ 0 → property sample.lns.version) :
    StartsIn property rbt ∧ (input.AnyReader → 0 < rbt.len) ∧
      (¬ input.AnyReader → rbt.len = 0 ∧ rbt.r = ranges) := by
  obtain ⟨pass, walked, ran⟩ := Option.bind_eq_some_iff.mp ran
  obtain ⟨final, walked', ran⟩ := Option.bind_eq_some_iff.mp ran
  obtain ⟨⟨merged, room⟩, optimized, same⟩ := Option.map_eq_some_iff.mp ran
  obtain ⟨-, rfl⟩ := Prod.mk.inj same
  have start : StartsIn property (rangeBintreeInit ranges lrcuThreadsMax) :=
    fun _ inside => absurd inside (Nat.not_lt_zero _)
  obtain ⟨startsPass, samePass, nonemptyPass⟩ := visitAll_starts walked start
    fun sample member => sampled sample (List.mem_append_left _ member)
  obtain ⟨startsFinal, sameFinal, nonemptyFinal⟩ := visitAll_starts walked' startsPass
    fun sample member => sampled sample (List.mem_append_right _ member)
  obtain ⟨starts, counted⟩ := startsIn_of_optimize startsFinal optimized
  refine ⟨starts, fun reader => counted ?_, fun idle => ?_⟩
  · obtain ⟨sample, member, active⟩ := reader
    rcases List.mem_append.mp member with first | second
    · exact nonemptyFinal (Or.inl (nonemptyPass (Or.inr ⟨sample, first, active⟩)))
    · exact nonemptyFinal (Or.inr ⟨sample, second, active⟩)
  · have none : ∀ sample ∈ input.samples ++ input.hungSamples, sample.lns.counter = 0 := by
      intro sample member
      by_contra active
      exact idle ⟨sample, member, active⟩
    have untouched : final.rbt = rangeBintreeInit ranges lrcuThreadsMax := by
      rw [sameFinal fun sample member => none sample (List.mem_append_right _ member)]
      exact samePass fun sample member => none sample (List.mem_append_left _ member)
    obtain ⟨empty, cells⟩ := optimize_merge_of_empty (untouched ▸ rfl) optimized
    exact ⟨empty, by rw [cells, untouched]; rfl⟩

/-- Below the versions of all readers, only the first cell of the array can
make the search succeed, and only when there is no reader. -/
theorem find_iff {input : PassInput Ti} {ranges : Nat → LrcuRange}
    {lists : ThreadLists Ti} {rbt : LrcuRangetree} {version : Nat}
    (ran : input.run ranges = some (lists, rbt)) (later : input.ReadersAfter version) :
    lrcuRangetreeFind rbt version = true ↔
      ¬ input.AnyReader ∧ (ranges 0).Contains version := by
  obtain ⟨starts, nonempty, untouched⟩ := starts_of_run ran later
  by_cases reader : input.AnyReader
  · rw [lrcuRangetreeFind_eq_false (nonempty reader) starts]
    exact iff_of_false (by simp) fun empty => empty.1 reader
  · obtain ⟨empty, cells⟩ := untouched reader
    rw [lrcuRangetreeFind_of_empty empty, cells]
    exact (and_iff_right reader).symm

end PassInput

/-! ## What its callers do -/

theorem workerListLoop_eq {Obj : Type*} (rbt : LrcuRangetree) (callbacks : List (Callback Obj)) :
    workerListLoop rbt callbacks =
      (callbacks.filter fun callback => !lrcuRangetreeFind rbt callback.version,
        callbacks.filter fun callback => lrcuRangetreeFind rbt callback.version) := by
  induction callbacks with
  | nil => rfl
  | cons callback rest ih =>
      rw [workerListLoop, ih]
      split_ifs with held
      · simp [held]
      · simp [held]

theorem forall_take_succ {α : Type*} {passed : α → Prop} {elements : List α} {index : Nat}
    {element : α} (found : elements[index]? = some element) (here : passed element)
    (before : ∀ other ∈ elements.take index, passed other) :
    ∀ other ∈ elements.take (index + 1), passed other := by
  intro other member
  rw [List.take_add_one, found, List.mem_append] at member
  rcases member with earlier | last
  · exact before other earlier
  · obtain rfl := List.mem_singleton.mp last
    exact here

theorem forall_of_take {α : Type*} {passed : α → Prop} {elements : List α} {index : Nat}
    (ended : elements[index]? = none) (before : ∀ other ∈ elements.take index, passed other) :
    ∀ other ∈ elements, passed other := by
  rwa [List.take_of_length_le (List.getElem?_eq_none_iff.mp ended)] at before

theorem forall_take_eraseIdx {α : Type*} {passed : α → Prop} {elements : List α} {index : Nat}
    (before : ∀ other ∈ elements.take index, passed other) :
    ∀ other ∈ (elements.eraseIdx index).take index, passed other := by
  rwa [List.take_eraseIdx_eq_take_of_le _ _ _ (Nat.le_refl index)]

end LightRcu
