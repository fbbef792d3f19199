import LightRcu.ObjectStages
import LightRcu.PassCoverage

/-!
# What a barrier waits for

`lrcu_barrier_ns` takes `processed_version` for a bound below every callback
that is still pending.  The worker keeps this up for the callbacks on its own
lists.  It says nothing about those that reached a free list after the splice,
nor does it always look at what it stores against its lists, so the bound is as
good as the moments at which the worker stores it.
-/

namespace LightRcu

open ClosedInterval Execution

variable {state next : NamespaceState}

/-! ## The stores of the processed version -/

/-- The object is stamped and the worker has not taken over its callback. -/
def NamespaceState.Unspliced (state : NamespaceState) (obj : ObjId) (version : Nat) : Prop :=
  (∃ head, state.stage obj = .calling version head) ∨
    ⟨obj, version⟩ ∈ state.freeList ++ state.freeHlist

theorem stamped_iff {obj : ObjId} {version : Nat} :
    state.Stamped obj version ↔
      state.Unspliced obj version ∨ ⟨obj, version⟩ ∈ state.workerCallbacks := by
  rw [NamespaceState.Stamped, NamespaceState.callbacks, List.mem_append, ← or_assoc]
  rfl

/-- No step takes `processed_version` past a pending callback that the worker
has not looked at: the minimum of a pass is at most the version of every
callback that is not spliced yet, `ns->version + 1` is stored when nothing older
is pending, `ns->version` is stored when nothing older is unspliced, and a call
loads no version that is already processed. -/
def BarrierGuard (state : NamespaceState) : NamespaceAction → Prop
  | .call _ (.loadVersion _) => state.processedVersion ≤ state.version
  | .worker =>
      match state.worker with
      | .storeMin rbt => ∀ minv ∈ lrcuRangetreeGetmin rbt, ∀ obj version,
          state.Unspliced obj version → minv ≤ version
      | .storeNext last => ∀ obj version, state.Stamped obj version → last < version
      | .storeVersion last => ∀ obj version, state.Unspliced obj version → last ≤ version
      | _ => True
  | _ => True

/-- What a walk leaves behind is held back by the tree of its pass. -/
def WalkOk (workerList workerHlist : List (Callback ObjId)) : WorkerPc → Prop
  | .walkList index rbt =>
      Ascending rbt.entries ∧
        ∀ callback ∈ workerList.take index, lrcuRangetreeFind rbt callback.version = true
  | .walkHlist index rbt =>
      Ascending rbt.entries ∧
        ∀ callback ∈ workerList ++ workerHlist.take index,
          lrcuRangetreeFind rbt callback.version = true
  | .storeMin rbt =>
      Ascending rbt.entries ∧
        ∀ callback ∈ workerList ++ workerHlist, lrcuRangetreeFind rbt callback.version = true
  | .storeVersion _ => workerList = [] ∧ workerHlist = []
  | _ => True

/-- `processed_version` is a bound below every pending callback. -/
structure BarrierOk (state : NamespaceState) : Prop where
  ahead : ∀ obj version, state.Stamped obj version → state.processedVersion ≤ version
  walked : WalkOk state.workerList state.workerHlist state.worker

/-! ## Every step keeps the bound -/

/-- The tree holds nothing back below its minimum. -/
theorem getmin_le_of_find {rbt : LrcuRangetree} {minv version : Nat}
    (ascending : Ascending rbt.entries) (getmin : lrcuRangetreeGetmin rbt = some minv)
    (held : lrcuRangetreeFind rbt version = true) : minv ≤ version := by
  simp only [lrcuRangetreeGetmin, Option.ite_none_right_eq_some] at getmin
  obtain ⟨_, getmin⟩ := getmin
  split_ifs at getmin with empty
  · obtain rfl := Option.some.inj getmin
    exact Nat.zero_le version
  · obtain rfl := Option.some.inj getmin
    have nonempty : 0 < rbt.len := Nat.pos_of_ne_zero empty
    by_contra below
    have starts : StartsIn (version < ·) rbt := by
      intro index inside
      rcases Nat.eq_zero_or_pos index with rfl | later
      · exact Nat.lt_of_not_le below
      · exact (Nat.lt_of_not_le below).trans_le (pairwise_entries ascending later inside)
    simp [lrcuRangetreeFind_eq_false nonempty starts] at held

private theorem walked_of_workerMove (passes : ∀ pass, state.worker = .passing pass → PassOk pass)
    (walked : WalkOk state.workerList state.workerHlist state.worker)
    (move : WorkerMove state next) : WalkOk next.workerList next.workerHlist next.worker := by
  cases move
  case endPass rbt pc => exact ⟨(passes _ pc).2, by simp⟩
  case keep index rbt pc callback found held =>
    rw [pc] at walked
    exact ⟨walked.1, forall_take_succ found held walked.2⟩
  case destroy index rbt pc callback found free =>
    rw [pc] at walked
    change WalkOk _ _ state.worker
    rw [pc]
    exact ⟨walked.1, forall_take_eraseIdx walked.2⟩
  case leaveList index rbt pc ended =>
    rw [pc] at walked
    refine ⟨walked.1, ?_⟩
    simpa using forall_of_take ended walked.2
  case keepHead index rbt pc callback found held =>
    rw [pc] at walked
    obtain ⟨ascending, behind⟩ := walked
    obtain ⟨list, before⟩ := List.forall_mem_append.mp behind
    exact ⟨ascending, List.forall_mem_append.mpr ⟨list, forall_take_succ found held before⟩⟩
  case destroyHead index rbt pc callback found free =>
    rw [pc] at walked
    obtain ⟨ascending, behind⟩ := walked
    obtain ⟨list, before⟩ := List.forall_mem_append.mp behind
    change WalkOk _ _ state.worker
    rw [pc]
    exact ⟨ascending, List.forall_mem_append.mpr ⟨list, forall_take_eraseIdx before⟩⟩
  case leaveHlist index rbt pc ended =>
    rw [pc] at walked
    obtain ⟨ascending, behind⟩ := walked
    obtain ⟨list, before⟩ := List.forall_mem_append.mp behind
    exact ⟨ascending, List.forall_mem_append.mpr ⟨list, forall_of_take ended before⟩⟩
  case testEmpty pc empty => exact empty
  all_goals trivial

namespace BarrierOk

theorem init (workerTi : ReaderId) (ranges : Nat → LrcuRange) :
    BarrierOk (namespaceInit workerTi ranges) where
  ahead _ _ _ := Nat.zero_le _
  walked := trivial

private theorem ahead_of_workerMove (barrier : BarrierOk state)
    (guard : BarrierGuard state .worker) (move : WorkerMove state next) {obj : ObjId}
    {version : Nat} (stamped : state.Stamped obj version) :
    next.processedVersion ≤ version := by
  have walked := barrier.walked
  cases move
  case storeMin rbt pc minv getmin =>
    rw [BarrierGuard, pc] at guard
    rw [pc] at walked
    rcases stamped_iff.mp stamped with unspliced | listed
    · exact guard minv getmin obj version unspliced
    · exact getmin_le_of_find walked.1 getmin (walked.2 _ listed)
  case storeNext last pc =>
    rw [BarrierGuard, pc] at guard
    exact (u64Succ_le last).trans (guard obj version stamped)
  case storeVersion last pc =>
    rw [BarrierGuard, pc] at guard
    rw [pc] at walked
    rcases stamped_iff.mp stamped with unspliced | listed
    · exact guard obj version unspliced
    · simp [NamespaceState.workerCallbacks, walked.1, walked.2] at listed
  all_goals exact barrier.ahead obj version stamped

theorem step {action : NamespaceAction} (barrier : BarrierOk state) (ok : NamespaceOk state)
    (objects : ObjectsOk state) (guard : BarrierGuard state action)
    (stepped : namespaceStep state action = some next) : BarrierOk next := by
  by_cases own : action = .worker
  · subst own
    have move := workerMove_of_step stepped
    refine ⟨fun obj version stamped => ?_, ?_⟩
    · rcases stamped_of_step objects stepped stamped with before | ⟨_, _, _, other⟩
      · exact barrier.ahead_of_workerMove guard move before
      · simp at other
    · exact walked_of_workerMove (fun pass pc => ok.passes .worker pass (passOf_worker.mpr pc))
        barrier.walked move
  · obtain ⟨list, hlist, processed, worker⟩ := worker_of_step stepped own
    refine ⟨fun obj version stamped => ?_, ?_⟩
    · rw [processed]
      rcases stamped_of_step objects stepped stamped with before | ⟨rfl, _, head, rfl⟩
      · exact barrier.ahead obj version before
      · exact guard
    · rw [list, hlist]
      rcases worker with same | ⟨pass', passing⟩
      · rw [same]
        exact barrier.walked
      · rw [passing]
        trivial

end BarrierOk

/-! ## The contract of a barrier -/

/-- Along a run, whenever a call of `lrcu_barrier_ns` returns, every object that
had been passed to `lrcu_call_ns` or `lrcu_call_head_ns` before it was entered
is destroyed. -/
def BarrierFlushes (start : NamespaceState) (actions : List NamespaceAction) : Prop :=
  ∀ front c ranges middle back entered begun before after currentVersion,
    actions = front ++ .enter c true ranges :: (middle ++ .caller c :: back) →
      run namespaceStep start front = some entered →
        namespaceStep entered (.enter c true ranges) = some begun →
          run namespaceStep begun middle = some before →
            before.caller c = .polling currentVersion →
              namespaceStep before (.caller c) = some after → after.caller c = .idle →
                ∀ obj, entered.stage obj = .queued ∨ entered.stage obj = .destroyed →
                  after.stage obj = .destroyed

/-- What a call of `lrcu_barrier_ns` knows that was entered at a version: it
polls for no earlier one, and the callback of an object is still on a list. -/
structure FlushPending (c : CallerId) (entry : Nat) (obj : ObjId) (state : NamespaceState) :
    Prop where
  version : entry ≤ state.version
  polling : ∀ currentVersion, state.caller c = .polling currentVersion → entry ≤ currentVersion
  pending : state.stage obj = .destroyed ∨ ∃ version ≤ entry, ⟨obj, version⟩ ∈ state.callbacks

theorem destroyed_of_step {action : NamespaceAction} {obj : ObjId} (objects : ObjectsOk state)
    (stepped : namespaceStep state action = some next) (destroyed : state.stage obj = .destroyed) :
    next.stage obj = .destroyed := by
  rcases stage_of_step objects stepped obj with same | move
  · rw [same, destroyed]
  · rw [destroyed] at move
    generalize next.stage obj = after at move
    cases move with
    | destroy => rfl

theorem FlushPending.step {c : CallerId} {entry : Nat} {obj : ObjId}
    {action : NamespaceAction} (pending : FlushPending c entry obj state)
    (objects : ObjectsOk state) (fits : VersionFits state action)
    (stepped : namespaceStep state action = some next) : FlushPending c entry obj next where
  version := pending.version.trans (version_le_of_step fits stepped)
  polling currentVersion its := by
    rcases caller_of_step c stepped with
      same | ⟨_, _, _, _, _, moved⟩ | move | ⟨_, _, _, _, fresh⟩
    · exact pending.polling currentVersion (same.symm.trans its)
    · simp [its] at moved
    · rw [its] at move
      generalize before : state.caller c = pc at move
      cases move with
      | loadBarrier => exact pending.version
      | poll => exact pending.polling currentVersion before
    · simp [its] at fresh
  pending := by
    rcases pending.pending with destroyed | ⟨version, le, listed⟩
    · exact Or.inl (destroyed_of_step objects stepped destroyed)
    · exact (callbacks_of_step stepped listed).symm.imp_right fun kept => ⟨version, le, kept⟩

/-- What holds in a run that keeps the guard and in which the version does not
wrap. -/
structure BarrierKept (state : NamespaceState) : Prop where
  ok : NamespaceOk state
  objects : ObjectsOk state
  stamps : StampsOk state
  barrier : BarrierOk state

theorem BarrierKept.step {action : NamespaceAction}
    (kept : BarrierKept state) (met : BarrierGuard state action ∧ VersionFits state action)
    (stepped : namespaceStep state action = some next) : BarrierKept next where
  ok := kept.ok.step stepped
  objects := kept.objects.step stepped
  stamps := kept.stamps.step kept.objects met.2 stepped
  barrier := kept.barrier.step kept.ok kept.objects met.1 stepped

/-- In a run that keeps the guard, barriers do what they promise, as long as the
version does not wrap. -/
theorem barrierFlushes_of_guarded {workerTi : ReaderId} {ranges : Nat → LrcuRange}
    {actions : List NamespaceAction}
    (guarded : Meets namespaceStep BarrierGuard (namespaceInit workerTi ranges) actions)
    (fits : Meets namespaceStep VersionFits (namespaceInit workerTi ranges) actions) :
    BarrierFlushes (namespaceInit workerTi ranges) actions := by
  rintro front c localRanges middle back entered begun before after currentVersion rfl reached
    enters ran polling returned idle obj called
  have met := guarded.and fits
  have start : BarrierKept (namespaceInit workerTi ranges) :=
    ⟨.init workerTi ranges, .init workerTi ranges, .init workerTi ranges, .init workerTi ranges⟩
  have kept := run_preserves_of_meets BarrierKept
    (fun _ _ _ met kept stepped => kept.step met stepped) met.append_left start reached
  have metCall := met.append_right reached
  have called : FlushPending c entered.version obj begun := by
    obtain ⟨_, rfl⟩ := enter_shape enters
    refine ⟨Nat.le_refl _, fun currentVersion its => ?_, ?_⟩
    · simp [NamespaceState.setCaller] at its
    · refine called.symm.imp_right fun queued => ?_
      obtain ⟨version, listed⟩ := kept.objects.queued obj queued
      exact ⟨version, kept.stamps obj version (Or.inr listed), listed⟩
  obtain ⟨last, waited⟩ := run_preserves_of_meets
    (fun state => BarrierKept state ∧ FlushPending c entered.version obj state)
    (fun _ _ _ met holds stepped =>
      ⟨holds.1.step met stepped, holds.2.step holds.1.objects met.2 stepped⟩)
    (metCall.2 begun enters).append_left ⟨kept.step metCall.1 enters, called⟩ ran
  refine destroyed_of_step last.objects returned
    (waited.pending.resolve_right ?_)
  rintro ⟨version, le, listed⟩
  -- the callback would be older than what the caller polls for, which is processed
  have processed := last.barrier.ahead obj version (Or.inr listed)
  have entry := waited.polling currentVersion polling
  obtain ⟨pc, move, rfl⟩ := callerMove_of_step returned
  rw [polling] at move
  cases move with
  | passBarrier _ done => omega
  | poll => simp [NamespaceState.setCaller] at idle

/-- When no object is on the way, the worker may store what it likes. -/
theorem barrierGuard_of_idle
    (idle : ∀ obj, state.stage obj = .unused ∨ state.stage obj = .destroyed)
    (empty : state.callbacks = []) : BarrierGuard state .worker := by
  have free : ∀ obj version, ¬ state.Stamped obj version := by
    rintro obj version (⟨head, calling⟩ | listed)
    · rcases idle obj with stage | stage
      · simp [stage] at calling
      · simp [stage] at calling
    · simp [empty] at listed
  unfold BarrierGuard
  cases state.worker with
  | storeMin rbt =>
      exact fun _ _ obj version unspliced =>
        absurd (stamped_iff.mpr (Or.inl unspliced)) (free obj version)
  | storeNext last => exact fun obj version stamped => absurd stamped (free obj version)
  | storeVersion last =>
      exact fun obj version unspliced =>
        absurd (stamped_iff.mpr (Or.inl unspliced)) (free obj version)
  | _ => trivial

/-- Object `0` is queued before the barrier is entered, and the worker takes it
over and destroys it before the barrier returns. -/
def flushActions : List NamespaceAction :=
  [.call 0 .retire, .call 0 (.loadVersion false), .call 0 .insert,
    .enter 0 true fun _ => ⟨0, 0⟩, .caller 0] ++ passActions (.caller 0) 1 ++
    [.caller 0, .caller 0, .worker, .worker, .worker, .worker] ++ passActions .worker 1 ++
    [.worker, .worker, .worker, .worker, .worker, .worker, .worker, .caller 0]

theorem barrierFlushes_of_guarded_of_flush :
    ∃ final, run namespaceStep (namespaceInit 0 fun _ => ⟨0, 0⟩) flushActions = some final ∧
      final.stage 0 = .destroyed ∧
        BarrierFlushes (namespaceInit 0 fun _ => ⟨0, 0⟩) flushActions := by
  refine ⟨_, rfl, rfl, barrierFlushes_of_guarded ?_ ?_⟩
  · repeat' first
      | exact True.intro
      | exact Nat.zero_le _
      | refine Meets.cons ?_ rfl ?_
    -- the minimum of the pass and the version after it
    · exact barrierGuard_of_idle (fun | 0 => Or.inr rfl | _ + 1 => Or.inl rfl) rfl
    · exact barrierGuard_of_idle (fun | 0 => Or.inr rfl | _ + 1 => Or.inl rfl) rfl
  · repeat' first
      | exact True.intro
      | refine Meets.cons (fun _ => by decide) rfl ?_

/-- The worker has tested its lists before object `0` is queued, and stores the
next version as processed while the object is on the free list. -/
theorem barrierFlushes_fails_of_late_call :
    ¬ ∀ (workerTi : ReaderId) (ranges : Nat → LrcuRange) (actions : List NamespaceAction)
      (final : NamespaceState),
      run namespaceStep (namespaceInit workerTi ranges) actions = some final →
        BarrierFlushes (namespaceInit workerTi ranges) actions := by
  intro flushes
  have destroyed := flushes 0 (fun _ => ⟨0, 0⟩) _ _ rfl
    [.worker, .call 0 .retire, .call 0 (.loadVersion false), .call 0 .insert]
    0 (fun _ => ⟨0, 0⟩)
    ([.caller 0] ++ passActions (.caller 0) 1 ++
      [.caller 0, .caller 0, .worker, .worker, .worker, .worker, .worker])
    [] _ _ _ _ _ rfl rfl rfl rfl rfl rfl rfl 0 (Or.inl rfl)
  exact absurd destroyed (by decide)

end LightRcu
