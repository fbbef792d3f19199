import LightRcu.Barrier
import LightRcu.WorkerRounds

/-!
# What the processed version bounds

A round of the worker that nobody disturbs stores the minimum of its pass as
`ns->processed_version`.  What it leaves on its lists is held back by the set of
the pass, hence not below the minimum.  But the minimum `0` is taken for the
absence of readers: it also stands for a reader that has not stored its version
yet, and the empty set may hold something back as well.
-/

namespace LightRcu

open ClosedInterval Execution

/-! ## What a pass covers -/

section Coverage

variable {loop : PassLoop} {currentVersion : Nat} {pass final : PassState ReaderId}
  {samples : List Sample}

theorem visitAll_covers (walked : visitAll loop currentVersion samples pass = some final)
    (ok : RangetreeOk pass.rbt)
    (shaped : ∀ range ∈ pass.rbt.entries, ShapedAt currentVersion range) :
    RangetreeOk final.rbt ∧ (∀ range ∈ final.rbt.entries, ShapedAt currentVersion range) ∧
      ∀ version ≤ currentVersion, (Covered pass.rbt.entries version ∨ loop = .threads ∧
          ∃ sample ∈ samples, sample.lns.counter ≠ 0 ∧ sample.lns.version ≤ version) →
        Covered final.rbt.entries version := by
  induction samples generalizing pass with
  | nil =>
      rw [visitAll] at walked
      split_ifs at walked
      obtain rfl := Option.some.inj walked
      exact ⟨ok, shaped, fun version _ reason => reason.resolve_right (by simp)⟩
  | cons sample samples ih =>
      obtain ⟨next, visited, walked⟩ := Option.bind_eq_some_iff.mp walked
      obtain ⟨okNext, shapedNext, covers⟩ := visitNext_spec ok shaped visited
      obtain ⟨okFinal, shapedFinal, coversFinal⟩ := ih walked okNext shapedNext
      refine ⟨okFinal, shapedFinal, fun version le reason => coversFinal version le ?_⟩
      rcases reason with before | ⟨isThreads, reader, member, active, entered⟩
      · exact Or.inl (covers version le (Or.inl before))
      · rcases List.mem_cons.mp member with rfl | later
        · exact Or.inl (covers version le (Or.inr ⟨active, isThreads, entered⟩))
        · exact Or.inr ⟨isThreads, reader, later, active, entered⟩

end Coverage

/-- The set of a pass is in order, and it holds back every version from that of
a reader on `ns->threads` up to the current one. -/
theorem PassInput.covers_of_run {input : PassInput ReaderId} {ranges : Nat → LrcuRange}
    {lists : ThreadLists ReaderId} {rbt : LrcuRangetree}
    (ran : input.run ranges = some (lists, rbt)) :
    Ascending rbt.entries ∧ ∀ sample ∈ input.samples, sample.lns.counter ≠ 0 →
      ∀ version ≤ input.currentVersion, sample.lns.version ≤ version →
        lrcuRangetreeFind rbt version = true := by
  obtain ⟨pass, walked, ran⟩ := Option.bind_eq_some_iff.mp ran
  obtain ⟨final, walked', ran⟩ := Option.bind_eq_some_iff.mp ran
  obtain ⟨⟨merged, room⟩, optimized, same⟩ := Option.map_eq_some_iff.mp ran
  obtain ⟨-, rfl⟩ := Prod.mk.inj same
  obtain ⟨okPass, shapedPass, coversPass⟩ := visitAll_covers walked
    (rangetreeOk_init ranges (by decide)) (by simp [entries_rangeBintreeInit])
  obtain ⟨okFinal, shapedFinal, coversFinal⟩ := visitAll_covers walked' okPass shapedPass
  obtain ⟨_, _, _, separated, coarsens⟩ :=
    optimize_merge_spec okFinal optimized input.currentVersion
  refine ⟨separated.ascending, fun sample member active version le entered => ?_⟩
  have covered := coarsens.covers shapedFinal version le (coversFinal version le (Or.inl
    (coversPass version le (Or.inr ⟨rfl, sample, member, active, entered⟩))))
  have nonempty : 0 < merged.len := by
    obtain ⟨range, inside, _⟩ := covered
    rw [← entries_length]
    exact List.length_pos_of_mem inside
  exact (lrcuRangetreeFind_iff_covered separated nonempty version).mpr covered

/-! ## The bound -/

namespace NamespaceState

/-- The threads that a pass comes to. -/
def registered (state : NamespaceState) : List ReaderId :=
  state.lists.threads ++ state.lists.hungThreads

/-- `processed_version` is a bound below what the worker has left on its
lists. -/
def BoundsProcessed (state : NamespaceState) : Prop :=
  ∀ callback ∈ state.workerCallbacks, state.processedVersion ≤ callback.version

/-- A minimum of `0` means that nothing stays: some thread is in a read section
and no such thread has the version `0`, or no thread is, and the range that
the last pass left first in the array contains the version of no callback. -/
def MinimumTells (state : NamespaceState) : Prop :=
  (∃ ti ∈ state.registered, (state.lns ti).counter ≠ 0) ∧
      (∀ ti ∈ state.registered, (state.lns ti).counter ≠ 0 → (state.lns ti).version ≠ 0) ∨
    (∀ ti ∈ state.registered, (state.lns ti).counter = 0) ∧
      ∀ callback ∈ state.workerCallbacks, ¬ (state.ranges 0).Contains callback.version

end NamespaceState

variable {start final : NamespaceState} {samples hungSamples : List Sample}

theorem UndisturbedSamples.of_registered
    (undisturbed : UndisturbedSamples start samples hungSamples) {ti : ReaderId}
    (member : ti ∈ start.registered) :
    ∃ sample ∈ samples ++ hungSamples, sample.lns = start.lns ti := by
  rcases List.mem_append.mp member with first | second
  · have sampled : start.lns ti ∈ samples.map Sample.lns :=
      undisturbed.threads ▸ List.mem_map_of_mem first
    obtain ⟨sample, taken, same⟩ := List.mem_map.mp sampled
    exact ⟨sample, List.mem_append_left _ taken, same⟩
  · obtain ⟨moved, _, hung⟩ := undisturbed.hungThreads
    have sampled : start.lns ti ∈ hungSamples.map Sample.lns :=
      hung ▸ List.mem_map_of_mem (List.mem_append_right moved second)
    obtain ⟨sample, taken, same⟩ := List.mem_map.mp sampled
    exact ⟨sample, List.mem_append_right _ taken, same⟩

theorem UndisturbedSamples.registered_of
    (undisturbed : UndisturbedSamples start samples hungSamples) {sample : Sample}
    (member : sample ∈ samples ++ hungSamples) :
    ∃ ti ∈ start.registered, sample.lns = start.lns ti := by
  rcases List.mem_append.mp member with first | second
  · have sampled : sample.lns ∈ start.lists.threads.map start.lns :=
      undisturbed.threads ▸ List.mem_map_of_mem first
    obtain ⟨ti, listed, same⟩ := List.mem_map.mp sampled
    exact ⟨ti, List.mem_append_left _ listed, same.symm⟩
  · obtain ⟨moved, inside, hung⟩ := undisturbed.hungThreads
    have sampled : sample.lns ∈ (moved ++ start.lists.hungThreads).map start.lns :=
      hung ▸ List.mem_map_of_mem second
    obtain ⟨ti, listed, same⟩ := List.mem_map.mp sampled
    refine ⟨ti, ?_, same.symm⟩
    rcases List.mem_append.mp listed with earlier | later
    · exact List.mem_append_left _ (inside earlier)
    · exact List.mem_append_right _ later

theorem RoundComputes.kept (computes : RoundComputes start final) :
    ∃ samples hungSamples lists rbt minv, UndisturbedSamples start samples hungSamples ∧
      PassInput.run ⟨start.version, samples, hungSamples, start.lists⟩ start.ranges =
          some (lists, rbt) ∧ lrcuRangetreeGetmin rbt = some minv ∧
        final.workerCallbacks = heldBack rbt start.workerCallbacks ∧
          final.processedVersion = if minv = 0 then u64Succ start.version else minv := by
  obtain ⟨samples, hungSamples, round, undisturbed, computed, list, hlist, processed, _⟩ :=
    computes
  rw [lrcuWorkerRound] at computed
  split_ifs at computed
  · simp at computed
  obtain ⟨⟨lists, rbt⟩, ran, computed⟩ := Option.bind_eq_some_iff.mp computed
  obtain ⟨minv, getmin, same⟩ := Option.map_eq_some_iff.mp computed
  obtain rfl := Option.some.inj same
  refine ⟨samples, hungSamples, lists, rbt, minv, undisturbed, ran, getmin, ?_, processed.symm⟩
  rw [NamespaceState.workerCallbacks, ← list, ← hlist, NamespaceState.workerCallbacks, heldBack,
    List.filter_append]
  exact congrArg₂ (· ++ ·) (congrArg Prod.snd (workerListLoop_eq rbt _))
    (congrArg Prod.snd (workerListLoop_eq rbt _))

theorem anyReader_iff (undisturbed : UndisturbedSamples start samples hungSamples) :
    (PassInput.mk start.version samples hungSamples start.lists).AnyReader ↔
      ∃ ti ∈ start.registered, (start.lns ti).counter ≠ 0 := by
  constructor
  · rintro ⟨sample, member, active⟩
    obtain ⟨ti, listed, same⟩ := undisturbed.registered_of member
    exact ⟨ti, listed, same ▸ active⟩
  · rintro ⟨ti, listed, active⟩
    obtain ⟨sample, member, same⟩ := undisturbed.of_registered listed
    exact ⟨sample, member, same ▸ active⟩

theorem boundsProcessed_of_tells (computes : RoundComputes start final)
    (tells : start.MinimumTells) : final.BoundsProcessed := by
  obtain ⟨samples, hungSamples, lists, rbt, minv, undisturbed, ran, getmin, kept, processed⟩ :=
    computes.kept
  intro callback member
  rw [kept, heldBack, List.mem_filter] at member
  obtain ⟨listed, held⟩ := member
  rcases tells with ⟨reader, versions⟩ | ⟨idle, stale⟩
  · have positive : ∀ sample ∈ samples ++ hungSamples, sample.lns.counter ≠ 0 →
        0 < sample.lns.version := by
      intro sample member active
      obtain ⟨ti, registered, same⟩ := undisturbed.registered_of member
      rw [same] at active ⊢
      exact Nat.pos_of_ne_zero (versions ti registered active)
    obtain ⟨starts, nonempty, _⟩ := PassInput.starts_of_run ran positive
    have counted := nonempty ((anyReader_iff undisturbed).mpr reader)
    have least : minv = (rbt.r 0).minv := by
      simp only [lrcuRangetreeGetmin, Option.ite_none_right_eq_some] at getmin
      rw [if_neg (Nat.ne_of_gt counted)] at getmin
      exact (Option.some.inj getmin.2).symm
    have notZero : minv ≠ 0 := least ▸ Nat.ne_of_gt (starts 0 counted)
    rw [processed, if_neg notZero]
    exact getmin_le_of_find (PassInput.covers_of_run ran).1 getmin held
  · have noReader : ¬ (PassInput.mk start.version samples hungSamples start.lists).AnyReader := by
      rintro reader
      obtain ⟨ti, registered, active⟩ := (anyReader_iff undisturbed).mp reader
      exact active (idle ti registered)
    have later : (PassInput.mk start.version samples hungSamples start.lists).ReadersAfter
        callback.version :=
      fun sample member active => absurd ⟨sample, member, active⟩ noReader
    exact absurd ((PassInput.find_iff ran later).mp held).2 (stale callback listed)

/-- Where it does not tell, `ns->version + 1` is stored above something that
stays, unless the sum wraps or the version `0` is only that of a hung thread. -/
theorem tells_of_boundsProcessed (computes : RoundComputes start final)
    (room : start.version < 2 ^ 64 - 1)
    (stamped : ∀ callback ∈ start.workerCallbacks, callback.version ≤ start.version)
    (needed : NeedsPass start)
    (hung : ∀ ti ∈ start.lists.hungThreads, (start.lns ti).counter ≠ 0 →
      (start.lns ti).version ≠ 0)
    (bounds : final.BoundsProcessed) : start.MinimumTells := by
  obtain ⟨samples, hungSamples, lists, rbt, minv, undisturbed, ran, getmin, kept, processed⟩ :=
    computes.kept
  -- with the minimum `0`, nothing may stay
  have nothing : minv = 0 → ∀ callback ∈ start.workerCallbacks,
      lrcuRangetreeFind rbt callback.version = false := by
    intro zero callback listed
    by_contra held
    rw [Bool.not_eq_false] at held
    have bound := bounds callback (kept ▸ List.mem_filter.mpr ⟨listed, held⟩)
    rw [processed, if_pos zero, u64Succ_of_lt room] at bound
    have := stamped callback listed
    omega
  by_cases reader : ∃ ti ∈ start.registered, (start.lns ti).counter ≠ 0
  · refine Or.inl ⟨reader, fun ti registered active zero => ?_⟩
    have first : ti ∈ start.lists.threads :=
      (List.mem_append.mp registered).resolve_right fun second => hung ti second active zero
    have sampled : start.lns ti ∈ samples.map Sample.lns :=
      undisturbed.threads ▸ List.mem_map_of_mem first
    obtain ⟨sample, taken, same⟩ := List.mem_map.mp sampled
    have found := (PassInput.covers_of_run ran).2 sample taken (same ▸ active)
    rw [same, zero] at found
    have minimum : minv = 0 := Nat.le_zero.mp (getmin_le_of_find
      (PassInput.covers_of_run ran).1 getmin (found 0 (Nat.zero_le _) (Nat.zero_le _)))
    obtain ⟨callback, listed⟩ : ∃ callback, callback ∈ start.workerCallbacks := by
      apply List.exists_mem_of_ne_nil
      intro none
      obtain ⟨list, hlist⟩ := List.append_eq_nil_iff.mp none
      simp [NeedsPass, list, hlist] at needed
    have held := found callback.version (stamped callback listed) (Nat.zero_le _)
    simp [nothing minimum callback listed] at held
  · refine Or.inr ⟨by simpa using reader, fun callback listed contained => ?_⟩
    have noReader : ¬ (PassInput.mk start.version samples hungSamples start.lists).AnyReader :=
      fun any => reader ((anyReader_iff undisturbed).mp any)
    have none : ∀ sample ∈ samples ++ hungSamples, sample.lns.counter ≠ 0 →
        callback.version < sample.lns.version :=
      fun sample member active => absurd ⟨sample, member, active⟩ noReader
    obtain ⟨empty, _⟩ := (PassInput.starts_of_run ran none).2.2 noReader
    have minimum : minv = 0 := by
      simp only [lrcuRangetreeGetmin, Option.ite_none_right_eq_some, if_pos empty] at getmin
      exact (Option.some.inj getmin.2).symm
    have held := (PassInput.find_iff ran none).mpr ⟨noReader, contained⟩
    simp [nothing minimum callback listed] at held

/-- From every reachable state in which the worker is about to run a pass, when
nobody else acts: once the worker has assigned `ns->processed_version`, it
bounds what has stayed on the lists if the minimum of the pass tells, and only
then if the version has not wrapped, nor does the one after it, and no hung
thread is in a read section with the version `0`. -/
theorem processedVersion_bounds_iff {workerTi : ReaderId} {ranges : Nat → LrcuRange}
    {before actions : List NamespaceAction}
    (reached : run namespaceStep (namespaceInit workerTi ranges) before = some start)
    (tests : start.worker = .testWorkerLists) (needed : NeedsPass start)
    (undisturbed : Meets namespaceStep OfRound start actions)
    (ran : run namespaceStep start actions = some final)
    (assigned : final.worker = .writeBarrier) :
    (start.MinimumTells → final.BoundsProcessed) ∧
      (Meets namespaceStep VersionFits (namespaceInit workerTi ranges) before →
        start.version < 2 ^ 64 - 1 →
        (∀ ti ∈ start.lists.hungThreads, (start.lns ti).counter ≠ 0 →
          (start.lns ti).version ≠ 0) →
        final.BoundsProcessed → start.MinimumTells) := by
  have computes := lrcuWorkerRound_of_undisturbed tests needed undisturbed ran assigned
  refine ⟨boundsProcessed_of_tells computes, fun fits room => ?_⟩
  obtain ⟨objects, stamps⟩ : ObjectsOk start ∧ StampsOk start := by
    refine run_preserves_of_meets (fun state => ObjectsOk state ∧ StampsOk state)
      (fun state action next fits ok stepped => ?_) fits
      ⟨.init workerTi ranges, .init workerTi ranges⟩ reached
    exact ⟨ok.1.step stepped, ok.2.step ok.1 fits stepped⟩
  refine tells_of_boundsProcessed computes room ?_ needed
  intro callback listed
  apply stamps callback.obj callback.version
  exact Or.inr (List.mem_append_right _ listed)

/-- An object is queued and spliced while thread `1` takes the given steps. -/
def queueBeside (steps : List ReaderAction) : List NamespaceAction :=
  [.reader 1 .lrcuThreadSetNs] ++ steps.map (.reader 1) ++
    [.call 0 .retire, .call 0 (.loadVersion false), .call 0 .insert, .worker, .worker, .worker]

/-- A round with two threads that keeps one callback, up to the test of the
stored version. -/
def keepingRound : List NamespaceAction :=
  [.worker] ++ passActions .worker 2 ++ [.worker, .worker, .worker, .worker, .worker]

/-- A reader of version `1` holds back the object, and `1` is stored. -/
theorem processedVersion_bounds_iff_of_reader :
    ∃ start, run namespaceStep (namespaceInit 0 fun _ => ⟨0, 0⟩)
          (queueBeside [.lockCount, .lockTest, .lockStore]) = some start ∧
      ∃ final, run namespaceStep start (keepingRound ++ [.worker]) = some final ∧
        final.workerCallbacks = [⟨0, 1⟩] ∧ final.BoundsProcessed := by
  obtain ⟨start, reached, tests, needed, undisturbed, registered, reader, worker, final, ran,
      assigned, kept⟩ :
      ∃ start, run namespaceStep (namespaceInit 0 fun _ => ⟨0, 0⟩)
          (queueBeside [.lockCount, .lockTest, .lockStore]) = some start ∧
        start.worker = .testWorkerLists ∧ NeedsPass start ∧
          Meets namespaceStep OfRound start (keepingRound ++ [.worker]) ∧
            start.registered = [1, 0] ∧ start.lns 1 = ⟨1, 1⟩ ∧ start.lns 0 = ⟨0, 0⟩ ∧
              ∃ final, run namespaceStep start (keepingRound ++ [.worker]) = some final ∧
                final.worker = .writeBarrier ∧ final.workerCallbacks = [⟨0, 1⟩] := by
    refine ⟨_, rfl, rfl, rfl, ?_, rfl, rfl, rfl, _, rfl, rfl, rfl⟩
    iterate 17
      refine Meets.cons (by first
        | exact ⟨Or.inl rfl, nofun⟩
        | exact ⟨Or.inr ⟨_, rfl⟩, nofun⟩) rfl ?_
    trivial
  have tells : start.MinimumTells := by
    refine Or.inl ?_
    rw [registered]
    simp [reader, worker]
  exact ⟨start, reached, final, ran, kept, (processedVersion_bounds_iff reached tests
    needed undisturbed ran assigned).1 tells⟩

/-- Thread `1` is between `lns->counter++` and the store of its version: the set
of the pass starts at `0`, so that version `2` is stored while the callback of
version `1` stays. -/
theorem not_processedVersion_bounds_of_entering :
    ¬ ∀ (workerTi : ReaderId) (ranges : Nat → LrcuRange) (before actions : List NamespaceAction)
      (start final : NamespaceState),
      run namespaceStep (namespaceInit workerTi ranges) before = some start →
        start.worker = .testWorkerLists → NeedsPass start →
          Meets namespaceStep OfRound start actions →
            run namespaceStep start actions = some final → final.worker = .writeBarrier →
              final.BoundsProcessed := by
  intro bounds
  have bounded := bounds 0 (fun _ => ⟨0, 0⟩) (queueBeside [.lockCount])
    (keepingRound ++ [.worker, .worker]) _ _ rfl rfl rfl ?_ rfl rfl ⟨0, 1⟩ List.mem_cons_self
  · exact absurd bounded (by decide)
  · iterate 18
      refine Meets.cons (by first
        | exact ⟨Or.inl rfl, nofun⟩
        | exact ⟨Or.inr ⟨_, rfl⟩, nofun⟩) rfl ?_
    trivial

end LightRcu
