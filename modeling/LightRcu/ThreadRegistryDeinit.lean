import LightRcu.GetSynchronizedReasons
import LightRcu.ThreadRegistry
import Mathlib.Data.List.Perm.Basic

/-!
# What the destructor of a thread leaves behind

The loop of `thread_destructor_callback` stops removing nodes once one was
found, removes one node of a namespace only, and never looks at
`hung_threads`.  A freed `lrcu_thread_info` is unreachable exactly when every
iteration of that loop found all that its namespace had of the thread.
-/

namespace LightRcu

open Execution

variable {Ti : Type*} [DecidableEq Ti]

/-! ## Passes keep the nodes -/

theorem visitNext_perm {loop : PassLoop} {currentVersion : Nat} {pass next : PassState Ti}
    {sample : Sample} (visited : visitNext loop currentVersion pass sample = some next) :
    (next.lists.threads ++ next.lists.hungThreads).Perm
      (pass.lists.threads ++ pass.lists.hungThreads) := by
  obtain ⟨ti, found, _, ⟨_, _, lists⟩ | ⟨_, _, lists⟩⟩ := visitNext_cases visited
  · obtain ⟨inside, rfl⟩ := List.getElem?_eq_some_iff.mp found
    have moved := List.getElem_cons_eraseIdx_perm inside
    rw [lists]
    cases loop with
    | threads =>
        refine List.perm_middle.trans ?_
        rw [← List.cons_append]
        exact moved.append_right _
    | hungThreads =>
        change (_ :: (pass.lists.threads ++ pass.lists.hungThreads.eraseIdx pass.index)).Perm _
        exact List.perm_middle.symm.trans (moved.append_left _)
  · rw [lists]
    exact List.Perm.refl _

theorem visitAll_perm {loop : PassLoop} {currentVersion : Nat} {samples : List Sample}
    {pass final : PassState Ti}
    (walked : visitAll loop currentVersion samples pass = some final) :
    (final.lists.threads ++ final.lists.hungThreads).Perm
      (pass.lists.threads ++ pass.lists.hungThreads) := by
  induction samples generalizing pass with
  | nil =>
      rw [visitAll] at walked
      split_ifs at walked
      exact Option.some.inj walked ▸ List.Perm.refl _
  | cons sample samples ih =>
      obtain ⟨next, visited, walked⟩ := Option.bind_eq_some_iff.mp walked
      exact (ih walked).trans (visitNext_perm visited)

theorem points_run {input : PassInput Ti} {ranges : Nat → LrcuRange}
    {result : ThreadLists Ti × LrcuRangetree} (ran : input.run ranges = some result)
    (ti : Ti) : result.1.Points ti ↔ input.lists.Points ti := by
  obtain ⟨pass, walked, ran⟩ := Option.bind_eq_some_iff.mp ran
  obtain ⟨final, walked', ran⟩ := Option.bind_eq_some_iff.mp ran
  obtain ⟨_, _, rfl⟩ := Option.map_eq_some_iff.mp ran
  have permuted : (final.lists.threads ++ final.lists.hungThreads).Perm
      (input.lists.threads ++ input.lists.hungThreads) :=
    List.Perm.trans (visitAll_perm walked') (visitAll_perm walked)
  simpa only [ThreadLists.Points, List.mem_append] using permuted.mem_iff (a := ti)

/-! ## Single steps -/

theorem points_threadRemoveFromNs (lists : ThreadLists Ti) {ti other : Ti}
    (apart : other ≠ ti) :
    (threadRemoveFromNs lists ti).1.Points other ↔ lists.Points other := by
  unfold threadRemoveFromNs
  split_ifs
  · simp only [ThreadLists.Points, List.mem_erase_of_ne apart]
  · rfl

/-- After its iteration nothing points to the thread, exactly if the namespace
had no more of it than the iteration could find. -/
theorem points_threadDestructorIteration (lists : ThreadLists Ti) (ti : Ti) (found : Bool) :
    ¬ (threadDestructorIteration lists ti found).1.Points ti ↔
      lists.threads.count ti ≤ (if found then 0 else 1) ∧ ti ∉ lists.hungThreads := by
  cases found with
  | true =>
      simp [threadDestructorIteration, ThreadLists.Points, List.count_eq_zero]
  | false =>
      simp only [threadDestructorIteration, threadRemoveFromNs, Bool.false_eq_true, if_false]
      split_ifs with member
      · have positive := List.count_pos_iff.mpr member
        simp only [ThreadLists.Points, not_or, ← List.count_eq_zero, List.count_erase_self]
        omega
      · simp only [ThreadLists.Points, not_or, ← List.count_eq_zero] at member ⊢
        omega

/-- What a step does, with what it requires. -/
inductive RegistryMove (nsMax : Nat) (state : RegistryState Ti) :
    RegistryAction Ti → RegistryState Ti → Prop
  | lrcuThreadInit (ti : Ti) (unused : state.status ti = .unused) :
      RegistryMove nsMax state (.lrcuThreadInit ti) (state.setStatus ti .live)
  | lrcuThreadSetNs (ti : Ti) (nsId : NsId) (live : state.status ti = .live) :
      RegistryMove nsMax state (.lrcuThreadSetNs ti nsId) (state.setLists nsId
        { state.lists nsId with threads := ti :: (state.lists nsId).threads })
  | lrcuThreadDelNs (ti : Ti) (nsId : NsId) (live : state.status ti = .live) :
      RegistryMove nsMax state (.lrcuThreadDelNs ti nsId)
        (state.setLists nsId (threadRemoveFromNs (state.lists nsId) ti).1)
  | lrcuReadLockNs (ti : Ti) (nsId : NsId) (counter : Nat) :
      RegistryMove nsMax state (.lrcuReadLockNs ti nsId) (state.setCounter ti nsId counter)
  | lrcuReadUnlockNs (ti : Ti) (nsId : NsId) (counter : Nat) :
      RegistryMove nsMax state (.lrcuReadUnlockNs ti nsId) (state.setCounter ti nsId counter)
  | pass (nsId : NsId) (currentVersion : Nat) (samples hungSamples : List Sample)
      (ranges : Nat → LrcuRange) (result : ThreadLists Ti × LrcuRangetree)
      (ran : PassInput.run ⟨currentVersion, samples, hungSamples, state.lists nsId⟩ ranges =
        some result) :
      RegistryMove nsMax state (.pass nsId currentVersion samples hungSamples ranges)
        (state.setLists nsId result.1)
  | deinitLock (ti : Ti) (live : state.status ti = .live) :
      RegistryMove nsMax state (.deinitLock ti)
        { state.setStatus ti (.exiting 0 false) with nsLock := some ti }
  | deinitVisit (ti : Ti) (i : Nat) (found : Bool) (exits : state.status ti = .exiting i found)
      (inside : i < nsMax) (found' : Bool) :
      RegistryMove nsMax state (.deinitVisit ti)
        ((state.setLists i (threadDestructorIteration (state.lists i) ti found).1).setStatus ti
          (.exiting (i + 1) found'))
  | deinitFree (ti : Ti) (i : Nat) (found : Bool) (exits : state.status ti = .exiting i found)
      (all : nsMax ≤ i) :
      RegistryMove nsMax state (.deinitFree ti)
        { state.setStatus ti .freed with nsLock := none }

variable {state next : RegistryState Ti} {nsMax : Nat} {ti : Ti}

theorem registryMove_of_step {action : RegistryAction Ti}
    (stepped : registryStep nsMax state action = some next) :
    RegistryMove nsMax state action next := by
  cases action with
  | lrcuThreadInit ti =>
      simp only [registryStep, Option.ite_none_right_eq_some, Option.some.injEq] at stepped
      obtain ⟨unused, rfl⟩ := stepped
      exact .lrcuThreadInit ti unused
  | lrcuThreadSetNs ti nsId =>
      simp only [registryStep, Option.ite_none_right_eq_some, Option.some.injEq] at stepped
      obtain ⟨⟨live, _⟩, rfl⟩ := stepped
      exact .lrcuThreadSetNs ti nsId live
  | lrcuThreadDelNs ti nsId =>
      simp only [registryStep, Option.ite_none_right_eq_some, Option.some.injEq] at stepped
      obtain ⟨⟨live, _⟩, rfl⟩ := stepped
      exact .lrcuThreadDelNs ti nsId live
  | lrcuReadLockNs ti nsId =>
      simp only [registryStep, Option.ite_none_right_eq_some, Option.some.injEq] at stepped
      obtain ⟨_, rfl⟩ := stepped
      exact .lrcuReadLockNs ti nsId _
  | lrcuReadUnlockNs ti nsId =>
      simp only [registryStep, Option.ite_none_right_eq_some, Option.some.injEq] at stepped
      obtain ⟨_, rfl⟩ := stepped
      exact .lrcuReadUnlockNs ti nsId _
  | pass nsId currentVersion samples hungSamples ranges =>
      simp only [registryStep, Option.ite_none_right_eq_some, Option.map_eq_some_iff] at stepped
      obtain ⟨_, result, ran, rfl⟩ := stepped
      exact .pass nsId currentVersion samples hungSamples ranges result ran
  | deinitLock ti =>
      simp only [registryStep, Option.ite_none_right_eq_some, Option.some.injEq] at stepped
      obtain ⟨⟨live, _⟩, rfl⟩ := stepped
      exact .deinitLock ti live
  | deinitVisit ti =>
      simp only [registryStep] at stepped
      split at stepped
      next i found exits =>
        simp only [Option.ite_none_right_eq_some, Option.some.injEq] at stepped
        obtain ⟨inside, rfl⟩ := stepped
        exact .deinitVisit ti i found exits inside _
      next => simp at stepped
  | deinitFree ti =>
      simp only [registryStep] at stepped
      split at stepped
      next i found exits =>
        split_ifs at stepped with inside
        obtain rfl := Option.some.inj stepped
        exact .deinitFree ti i found exits (Nat.le_of_not_lt inside)
      next => simp at stepped

/-- Only the iterations of its own destructor change whether a namespace
points to a thread that is not live. -/
theorem points_iff_of_step {action : RegistryAction Ti}
    (stepped : registryStep nsMax state action = some next) (gone : state.status ti ≠ .live)
    {nsId : NsId}
    (elsewhere : ∀ found, action = .deinitVisit ti → state.status ti ≠ .exiting nsId found) :
    (next.lists nsId).Points ti ↔ (state.lists nsId).Points ti := by
  have updated : ∀ {id lists}, (id = nsId → (lists.Points ti ↔ (state.lists id).Points ti)) →
      (((state.setLists id lists).lists nsId).Points ti ↔ (state.lists nsId).Points ti) := by
    intro id lists same
    rcases eq_or_ne nsId id with rfl | apart
    · simpa [RegistryState.setLists] using same rfl
    · simp [RegistryState.setLists, apart]
  have apart_of_live : ∀ {other}, state.status other = .live → ti ≠ other := by
    rintro other live rfl
    exact gone live
  cases registryMove_of_step stepped with
  | lrcuThreadInit | lrcuReadLockNs | lrcuReadUnlockNs | deinitLock | deinitFree => rfl
  | lrcuThreadSetNs other id live =>
      exact updated fun _ => by simp [ThreadLists.Points, apart_of_live live]
  | lrcuThreadDelNs other id live =>
      exact updated fun _ => points_threadRemoveFromNs _ (apart_of_live live)
  | pass id currentVersion samples hungSamples ranges result ran =>
      exact updated fun _ => points_run ran ti
  | deinitVisit other i found exits inside found' =>
      refine updated fun same => ?_
      have apart : ti ≠ other := by
        rintro rfl
        exact elsewhere found rfl (same ▸ exits)
      unfold threadDestructorIteration
      split_ifs
      · rfl
      · exact points_threadRemoveFromNs _ apart

theorem status_of_step {action : RegistryAction Ti}
    (stepped : registryStep nsMax state action = some next) (ti : Ti) :
    (next.status ti = state.status ti ∧ action ≠ .deinitVisit ti) ∨
      (state.status ti = .unused ∧ next.status ti = .live) ∨
      (state.status ti = .live ∧ next.status ti = .exiting 0 false) ∨
      (∃ i found, action = .deinitVisit ti ∧ state.status ti = .exiting i found ∧ i < nsMax ∧
        next.lists i = (threadDestructorIteration (state.lists i) ti found).1 ∧
        ∃ found', next.status ti = .exiting (i + 1) found') ∨
      ∃ i found, state.status ti = .exiting i found ∧ nsMax ≤ i ∧ next.status ti = .freed := by
  have unchanged : ∀ {other : Ti} {status : TiStatus}, ti ≠ other →
      (state.setStatus other status).status ti = state.status ti := by
    intro other status apart
    simp [RegistryState.setStatus, apart]
  cases registryMove_of_step stepped with
  | lrcuThreadSetNs | lrcuThreadDelNs | lrcuReadLockNs | lrcuReadUnlockNs | pass =>
      exact Or.inl ⟨rfl, by simp⟩
  | lrcuThreadInit other unused =>
      rcases eq_or_ne ti other with rfl | apart
      · exact Or.inr (Or.inl ⟨unused, by simp [RegistryState.setStatus]⟩)
      · exact Or.inl ⟨unchanged apart, by simp⟩
  | deinitLock other live =>
      rcases eq_or_ne ti other with rfl | apart
      · exact Or.inr (Or.inr (Or.inl ⟨live, by simp [RegistryState.setStatus]⟩))
      · exact Or.inl ⟨unchanged apart, by simp⟩
  | deinitVisit other i found exits inside found' =>
      rcases eq_or_ne ti other with rfl | apart
      · refine Or.inr (Or.inr (Or.inr (Or.inl ⟨i, found, rfl, exits, inside, ?_, found', ?_⟩)))
        · simp [RegistryState.setStatus, RegistryState.setLists]
        · simp [RegistryState.setStatus]
      · refine Or.inl ⟨unchanged apart, ?_⟩
        rintro ⟨⟩
        exact apart rfl
  | deinitFree other i found exits all =>
      rcases eq_or_ne ti other with rfl | apart
      · exact Or.inr (Or.inr (Or.inr (Or.inr
          ⟨i, found, exits, all, by simp [RegistryState.setStatus]⟩)))
      · exact Or.inl ⟨unchanged apart, by simp⟩

/-! ## Whole runs -/

/-- The destructor of the thread has done with the namespace. -/
def RegistryState.Visited (state : RegistryState Ti) (ti : Ti) (nsId : NsId) : Prop :=
  state.status ti = .freed ∨ ∃ i found, state.status ti = .exiting i found ∧ nsId < i

omit [DecidableEq Ti] in
theorem RegistryState.Visited.not_live {nsId : NsId} (visited : state.Visited ti nsId) :
    state.status ti ≠ .live := by
  rcases visited with freed | ⟨i, found, exits, _⟩
  · simp [freed]
  · simp [exits]

omit [DecidableEq Ti] in
theorem RegistryState.Visited.not_exiting {nsId : NsId} (visited : state.Visited ti nsId)
    (found : Bool) : state.status ti ≠ .exiting nsId found := by
  rcases visited with freed | ⟨i, found', exits, passed⟩
  · simp [freed]
  · rw [exits]
    rintro ⟨⟩
    exact Nat.lt_irrefl _ passed

/-- An iteration that finds all that its namespace has of the thread leaves no
node behind in the namespaces that are done. -/
theorem visited_unreachable_of_step {action : RegistryAction Ti}
    (findsAll : VisitFindsAll ti state action)
    (unreachable : ∀ nsId < nsMax, state.Visited ti nsId → ¬ (state.lists nsId).Points ti)
    (stepped : registryStep nsMax state action = some next) :
    ∀ nsId < nsMax, next.Visited ti nsId → ¬ (next.lists nsId).Points ti := by
  intro nsId inside visited
  have kept : state.Visited ti nsId → ¬ (next.lists nsId).Points ti := by
    intro before
    rw [points_iff_of_step stepped before.not_live fun found _ => before.not_exiting found]
    exact unreachable nsId inside before
  rcases status_of_step stepped ti with ⟨same, _⟩ | ⟨_, live⟩ | ⟨_, exits⟩ |
    ⟨i, found, rfl, exits, _, lists, found', exits'⟩ | ⟨i, found, exits, all, _⟩
  · exact kept (by simpa only [RegistryState.Visited, same] using visited)
  · exact absurd live visited.not_live
  · rcases visited with freed | ⟨i, found, exits', passed⟩
    · simp [exits] at freed
    · obtain ⟨rfl, _⟩ := TiStatus.exiting.inj (exits.symm.trans exits')
      exact absurd passed (Nat.not_lt_zero _)
  · rcases visited with freed | ⟨i', found'', exits'', passed⟩
    · simp [exits'] at freed
    · obtain ⟨rfl, _⟩ := TiStatus.exiting.inj (exits'.symm.trans exits'')
      rcases Nat.lt_succ_iff_lt_or_eq.mp passed with earlier | rfl
      · exact kept (Or.inr ⟨i, found, exits, earlier⟩)
      · rw [lists]
        exact (points_threadDestructorIteration _ ti found).mpr
          (findsAll nsId found rfl exits)
  · exact kept (Or.inr ⟨i, found, exits, inside.trans_le all⟩)

theorem leftover_of_step {action : RegistryAction Ti} {nsId : NsId}
    (leftover : state.Visited ti nsId ∧ (state.lists nsId).Points ti)
    (stepped : registryStep nsMax state action = some next) :
    next.Visited ti nsId ∧ (next.lists nsId).Points ti := by
  obtain ⟨visited, points⟩ := leftover
  refine ⟨?_, (points_iff_of_step stepped visited.not_live
    fun found _ => visited.not_exiting found).mpr points⟩
  rcases status_of_step stepped ti with ⟨same, _⟩ | ⟨unused, _⟩ | ⟨live, _⟩ |
    ⟨i, found, _, exits, _, _, found', exits'⟩ | ⟨_, _, _, _, freed⟩
  · simpa only [RegistryState.Visited, same] using visited
  · rcases visited with freed | ⟨i, found, exits, _⟩
    · simp [unused] at freed
    · simp [unused] at exits
  · exact absurd live visited.not_live
  · rcases visited with freed | ⟨i', found'', exits'', passed⟩
    · simp [exits] at freed
    · obtain ⟨rfl, _⟩ := TiStatus.exiting.inj (exits.symm.trans exits'')
      exact Or.inr ⟨i + 1, found', exits', Nat.lt_succ_of_lt passed⟩
  · exact Or.inl freed

/-- Once a thread is freed, no node points to it if and only if every iteration
of its destructor found all that its namespace had of it. -/
theorem freed_unreachable_iff {workerTi : Ti} {actions : List (RegistryAction Ti)}
    {state : RegistryState Ti} {ti : Ti}
    (ran : run (registryStep nsMax) (registryInit workerTi) actions = some state)
    (freed : state.status ti = .freed) :
    (∀ nsId < nsMax, ¬ (state.lists nsId).Points ti) ↔
      Meets (registryStep nsMax) (VisitFindsAll ti) (registryInit workerTi) actions := by
  constructor
  · intro unreachable
    refine Meets.of_split fun front action back middle split ranFront => ?_
    rintro i found rfl exits
    by_contra missed
    subst split
    rw [run_append, ranFront, Option.bind_some] at ran
    obtain ⟨next, stepped, ran⟩ := run_cons_eq_some_iff.mp ran
    obtain ⟨inside, left⟩ : i < nsMax ∧ next.Visited ti i ∧ (next.lists i).Points ti := by
      rcases status_of_step stepped ti with ⟨_, others⟩ | ⟨unused, _⟩ | ⟨live, _⟩ |
        ⟨i', found', _, exits', inside, lists, found'', next'⟩ | ⟨i', found', exits', all, _⟩
      · exact absurd rfl others
      · simp [unused] at exits
      · simp [live] at exits
      · obtain ⟨rfl, rfl⟩ := TiStatus.exiting.inj (exits.symm.trans exits')
        refine ⟨inside, Or.inr ⟨i + 1, found'', next', Nat.lt_succ_self i⟩, ?_⟩
        rw [lists]
        by_contra none
        exact missed ((points_threadDestructorIteration _ ti found).mp none)
      · obtain ⟨rfl, _⟩ := TiStatus.exiting.inj (exits.symm.trans exits')
        simp [registryStep, exits, Nat.not_lt.mpr all] at stepped
    exact unreachable i inside
      (run_preserves (fun later => later.Visited ti i ∧ (later.lists i).Points ti)
        (fun _ _ _ leftover stepped => leftover_of_step leftover stepped) left ran).2
  · intro findsAll nsId inside
    refine run_preserves_of_meets
      (fun later => ∀ nsId < nsMax, later.Visited ti nsId →
        ¬ (later.lists nsId).Points ti)
      (fun _ _ _ met unreachable stepped => visited_unreachable_of_step met unreachable stepped)
      findsAll ?_ ran nsId inside (Or.inl freed)
    intro nsId _ visited
    rcases visited with gone | ⟨i, found, exits, _⟩
    · by_cases worker : ti = workerTi <;> simp [registryInit, worker] at gone
    · by_cases worker : ti = workerTi <;> simp [registryInit, worker] at exits

/-- A thread that is registered once, with one of two namespaces. -/
theorem freed_unreachable_iff_of_one_namespace :
    ∃ state, run (registryStep 2) (registryInit (0 : Fin 2))
        [.lrcuThreadInit 1, .lrcuThreadSetNs 1 1, .deinitLock 1, .deinitVisit 1,
          .deinitVisit 1, .deinitFree 1] = some state ∧
      ((∀ nsId < 2, ¬ (state.lists nsId).Points 1) ↔
        Meets (registryStep 2) (VisitFindsAll 1) (registryInit (0 : Fin 2))
          [.lrcuThreadInit 1, .lrcuThreadSetNs 1 1, .deinitLock 1, .deinitVisit 1,
            .deinitVisit 1, .deinitFree 1]) :=
  ⟨_, rfl, freed_unreachable_iff rfl rfl⟩

/-- A thread that is registered with two namespaces stays on the list of the
second one. -/
theorem freed_reachable_of_two_namespaces :
    ¬ ∀ (nsMax : Nat) (actions : List (RegistryAction (Fin 2))) (state : RegistryState (Fin 2))
      (ti : Fin 2), run (registryStep nsMax) (registryInit 0) actions = some state →
        state.status ti = .freed → ∀ nsId < nsMax, ¬ (state.lists nsId).Points ti := by
  intro unreachable
  have gone := unreachable 2
    [.lrcuThreadInit 1, .lrcuThreadSetNs 1 0, .lrcuThreadSetNs 1 1, .deinitLock 1,
      .deinitVisit 1, .deinitVisit 1, .deinitFree 1] _ 1 rfl rfl 1 (by decide)
  exact gone (by decide)

end LightRcu
