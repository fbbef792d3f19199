import LightRcu.Reclamation

/-!
# Barriers return

Behind a pass the worker stores the least version that a reader holds back, and
if there is none, it stores zero and then the version after the current one.  An
iteration that begins when a caller of `lrcu_barrier_ns` polls, and whose pass
meets only newer readers, ends with a processed version that lets the caller go.
Iterations after it can take that version back only between their two stores.
-/

namespace LightRcu

open ClosedInterval Execution

variable {state next : NamespaceState} {version : Nat}

/-! ## The processed version -/

/-- The worker is between the two stores to `ns->processed_version` behind its
pass, the first of which may store zero. -/
def WorkerPc.BetweenStores : WorkerPc → Prop
  | .testProcessed | .storeNext _ => True
  | _ => False

/-- When the iteration ends, the processed version will be greater than the
version, unless the iteration has still to begin. -/
def ProcessesBeyond (version : Nat) (state : NamespaceState) : Prop :=
  match state.worker with
  | .passing pass => StartsIn (version < ·) pass.rbt
  | .walkList _ rbt | .walkHlist _ rbt | .storeMin rbt => StartsIn (version < ·) rbt
  | .testProcessed => state.processedVersion = 0 ∨ version < state.processedVersion
  | .storeNext loaded => version ≤ loaded ∧ loaded < 2 ^ 64 - 1
  | .writeBarrier => state.workerCallbacks = [] ∨ version < state.processedVersion
  | .testEmpty =>
      version < state.version ∧
        (state.workerCallbacks = [] ∨ version < state.processedVersion)
  | .storeVersion loaded => version < loaded
  | _ => True

/-- The processed version is greater than the version, or it will be with the
next store. -/
def Processed (version : Nat) (state : NamespaceState) : Prop :=
  state.worker.BetweenStores ∨ version < state.processedVersion

theorem getmin_cases {rbt : LrcuRangetree} {minv : Nat} (starts : StartsIn (version < ·) rbt)
    (getmin : lrcuRangetreeGetmin rbt = some minv) : minv = 0 ∨ version < minv := by
  simp only [lrcuRangetreeGetmin, Option.ite_none_right_eq_some] at getmin
  obtain ⟨_, getmin⟩ := getmin
  split_ifs at getmin with empty
  · exact Or.inl (Option.some.inj getmin).symm
  · right
    rw [← Option.some.inj getmin]
    exact starts 0 (Nat.pos_of_ne_zero empty)

private theorem workerCallbacks_eq_nil_iff :
    state.workerCallbacks = [] ↔
      (state.workerList.isEmpty && state.workerHlist.isEmpty) = true := by
  rw [NamespaceState.workerCallbacks, List.append_eq_nil_iff, Bool.and_eq_true,
    List.isEmpty_iff, List.isEmpty_iff]

theorem ProcessesBeyond.worker_step (beyond : ProcessesBeyond version state)
    (current : version ≤ state.version) (room : state.version < 2 ^ 64 - 1)
    (stepped : workerStep state = some next) :
    ProcessesBeyond version next ∧
      (next.worker = .testFreeList → version < next.processedVersion) ∧
        (Processed version state → Processed version next) := by
  unfold ProcessesBeyond at beyond
  unfold workerStep at stepped
  cases pc : state.worker with
  | testFreeList | testFreeHlist =>
      simp only [pc] at stepped
      split_ifs at stepped
      · obtain rfl := Option.some.inj stepped
        simp [ProcessesBeyond, Processed, WorkerPc.BetweenStores, pc]
      · obtain rfl := Option.some.inj stepped
        simp [ProcessesBeyond, Processed, WorkerPc.BetweenStores, pc]
  | spliceFreeList | spliceFreeHlist =>
      simp only [pc] at stepped
      obtain rfl := Option.some.inj stepped
      simp [ProcessesBeyond, Processed, WorkerPc.BetweenStores, pc]
  | testWorkerLists =>
      simp only [pc] at stepped
      split_ifs at stepped with empty
      · obtain rfl := Option.some.inj stepped
        refine ⟨Or.inl (workerCallbacks_eq_nil_iff.mpr empty), by simp, ?_⟩
        simp [Processed, WorkerPc.BetweenStores, pc]
      · obtain rfl := Option.some.inj stepped
        simp [ProcessesBeyond, Processed, WorkerPc.BetweenStores, pc, StartsIn, PassPc.rbt,
          rangeBintreeInit]
  | passing pass =>
      rw [pc] at beyond
      cases pass with
      | finished rbt =>
          simp only [pc] at stepped
          obtain rfl := Option.some.inj stepped
          simpa [ProcessesBeyond, Processed, WorkerPc.BetweenStores, pc, PassPc.rbt] using beyond
      | loadVersion => simp [pc] at stepped
      | lockThreads => simp [pc] at stepped
      | visiting => simp [pc] at stepped
  | walkList index rbt | walkHlist index rbt =>
      rw [pc] at beyond
      simp only [pc] at stepped
      split at stepped
      next ended =>
        obtain rfl := Option.some.inj stepped
        simpa [ProcessesBeyond, Processed, WorkerPc.BetweenStores, pc] using beyond
      next callback found =>
        split_ifs at stepped with held
        · obtain rfl := Option.some.inj stepped
          simpa [ProcessesBeyond, Processed, WorkerPc.BetweenStores, pc] using beyond
        · obtain rfl := Option.some.inj stepped
          simpa [ProcessesBeyond, Processed, WorkerPc.BetweenStores, pc, NamespaceState.setStage]
          using beyond
  | storeMin rbt =>
      rw [pc] at beyond
      simp only [pc] at stepped
      obtain ⟨minv, getmin, rfl⟩ := Option.map_eq_some_iff.mp stepped
      simpa [ProcessesBeyond, Processed, WorkerPc.BetweenStores, pc]
        using getmin_cases beyond getmin
  | testProcessed =>
      rw [pc] at beyond
      simp only [pc] at stepped
      split_ifs at stepped with zero
      · obtain rfl := Option.some.inj stepped
        simpa [ProcessesBeyond, Processed, WorkerPc.BetweenStores, pc] using ⟨current, room⟩
      · obtain rfl := Option.some.inj stepped
        have greater := beyond.resolve_left zero
        simp [ProcessesBeyond, Processed, WorkerPc.BetweenStores, greater]
  | storeNext loaded =>
      rw [pc] at beyond
      simp only [pc] at stepped
      obtain rfl := Option.some.inj stepped
      have greater : version < u64Succ loaded := by
        rw [u64Succ_of_lt beyond.2]
        exact Nat.lt_succ_of_le beyond.1
      simp [ProcessesBeyond, Processed, WorkerPc.BetweenStores, greater]
  | writeBarrier =>
      rw [pc] at beyond
      simp only [pc] at stepped
      obtain rfl := Option.some.inj stepped
      have greater : version < u64Succ state.version := by
        rw [u64Succ_of_lt room]
        exact Nat.lt_succ_of_le current
      refine ⟨⟨greater, beyond⟩, by simp, ?_⟩
      simp [Processed, WorkerPc.BetweenStores, pc]
  | testEmpty =>
      rw [pc] at beyond
      simp only [pc] at stepped
      split_ifs at stepped with empty
      · obtain rfl := Option.some.inj stepped
        simpa [ProcessesBeyond, Processed, WorkerPc.BetweenStores, pc] using beyond.1
      · obtain rfl := Option.some.inj stepped
        have greater := beyond.2.resolve_left
          (fun none => empty (workerCallbacks_eq_nil_iff.mp none))
        simp [ProcessesBeyond, Processed, WorkerPc.BetweenStores, greater]
  | storeVersion loaded =>
      rw [pc] at beyond
      simp only [pc] at stepped
      obtain rfl := Option.some.inj stepped
      have greater : version < loaded := beyond
      simp [ProcessesBeyond, Processed, greater]

/-- An iteration whose pass meets only newer readers keeps its promise, whatever
others do. -/
theorem ProcessesBeyond.step {action : NamespaceAction} (beyond : ProcessesBeyond version state)
    (current : version ≤ state.version) (room : state.version < 2 ^ 64 - 1)
    (newer : MeetsNewer .worker version state action)
    (stepped : namespaceStep state action = some next) :
    ProcessesBeyond version next ∧
      (action = .worker → next.worker = .testFreeList → version < next.processedVersion) ∧
        (Processed version state → Processed version next) := by
  cases own : action.byWorker with
  | false =>
      have others : action ≠ .worker := by
        rintro rfl
        simp [NamespaceAction.byWorker] at own
      obtain ⟨list, hlist, processed, _⟩ := worker_of_step stepped others
      have worker := (worker_of_foreign_step stepped own).1
      have grown := version_le_of_step (fun _ => room) stepped
      refine ⟨?_, fun its => absurd its others, ?_⟩
      · unfold ProcessesBeyond NamespaceState.workerCallbacks at beyond ⊢
        rw [worker, list, hlist, processed]
        cases pc : state.worker with
        | testEmpty =>
            rw [pc] at beyond
            exact ⟨beyond.1.trans_le grown, beyond.2⟩
        | _ =>
            rw [pc] at beyond
            exact beyond
      · rw [Processed, Processed, worker, processed]
        exact id
  | true =>
      cases action with
      | worker =>
          obtain ⟨after, ended, told⟩ := beyond.worker_step current room stepped
          exact ⟨after, fun _ => ended, told⟩
      | pass owner action =>
          obtain rfl : owner = .worker := by cases owner <;> simp_all [NamespaceAction.byWorker]
          obtain ⟨pass, middle, pass', found, move, rfl⟩ := passAction_cases stepped
          have pc := passOf_worker.mp found
          rw [ProcessesBeyond, pc] at beyond
          refine ⟨move.startsIn beyond newer found, by simp, ?_⟩
          obtain ⟨lists, lock, rfl⟩ := move.shape
          simp only [Processed, pc, NamespaceState.setPass]
          exact id
      | reader | writer | call | enter | caller => simp [NamespaceAction.byWorker] at own

/-! ## The steps of a caller -/

theorem caller_of_foreign_step {action : NamespaceAction} {c : CallerId}
    (stepped : namespaceStep state action = some next) (foreign : ¬ action.byCaller c)
    (away : state.caller c ≠ .idle) : next.caller c = state.caller c := by
  cases action with
  | reader i action =>
      obtain ⟨_, _, _, _, rfl, _⟩ := (readerMove_of_step stepped).shape
      rfl
  | writer action =>
      obtain ⟨_, _, _, _, rfl⟩ := (writerMove_of_step stepped).shape
      rfl
  | call obj action =>
      obtain ⟨_, _, _, rfl⟩ := (callMove_of_step stepped).shape
      rfl
  | pass owner action =>
      obtain ⟨pass, middle, pass', found, move, rfl⟩ := passAction_cases stepped
      obtain ⟨lists, lock, rfl⟩ := move.shape
      cases owner with
      | worker => rfl
      | caller c' =>
          obtain ⟨barrier, currentVersion, waiting⟩ := passOf_caller.mp found
          simp only [NamespaceState.setPass, waiting, NamespaceState.setCaller]
          exact Function.update_of_ne (Ne.symm foreign) _ _
  | worker => exact congrFun (workerMove_of_step stepped).frame.caller c
  | enter c' barrier ranges =>
      obtain ⟨idle, rfl⟩ := enter_shape stepped
      refine Function.update_of_ne ?_ _ _
      rintro rfl
      exact away idle
  | caller c' =>
      obtain ⟨pc, move, rfl⟩ := callerMove_of_step stepped
      exact Function.update_of_ne (Ne.symm foreign) _ _

theorem callerStep_of_own {action : NamespaceAction} {c : CallerId}
    (stepped : namespaceStep state action = some next) (own : action.byCaller c)
    (outside : state.passOf (.caller c) = none) : callerStep state c = some next := by
  cases action with
  | caller c' =>
      obtain rfl : c' = c := own
      exact stepped
  | pass owner action =>
      cases owner with
      | worker => exact own.elim
      | caller c' =>
          obtain rfl : c' = c := own
          obtain ⟨pass, _, _, found, _⟩ := passAction_cases stepped
          simp [outside] at found
  | reader | writer | call | worker | enter => exact own.elim

theorem idle_of_poll {action : NamespaceAction} {c : CallerId}
    (polls : state.caller c = .polling version) (processed : version < state.processedVersion)
    (stepped : namespaceStep state action = some next) (own : action.byCaller c) :
    next.caller c = .idle := by
  have step := callerStep_of_own stepped own (by simp [NamespaceState.passOf, polls])
  simp only [callerStep, polls, if_pos processed, Option.some.injEq] at step
  subst step
  exact Function.update_self _ _ _

/-- Behind the wait for the readers a caller of `lrcu_barrier_ns` loads the
version that it polls for. -/
theorem polling_of_loadBarrier {action : NamespaceAction} {c : CallerId}
    (loads : state.caller c = .loadBarrier)
    (stepped : namespaceStep state action = some next) (own : action.byCaller c) :
    next.caller c = .polling state.version ∧ next.version = state.version := by
  have step := callerStep_of_own stepped own (by simp [NamespaceState.passOf, loads])
  simp only [callerStep, loads, Option.some.injEq] at step
  subst step
  exact ⟨Function.update_self _ _ _, rfl⟩

/-! ## The return of a caller -/

/-- No pass finds a thread that the caller has to wait for: neither do its own
passes, nor those of the worker while it polls. -/
def MeetsNewerThanAwaited (c : CallerId) (state : NamespaceState) (action : NamespaceAction) :
    Prop :=
  (∀ barrier version pass, state.caller c = .waiting barrier version pass →
      MeetsNewer (.caller c) version state action) ∧
    ∀ version, state.caller c = .polling version → MeetsNewer .worker version state action

/-- As long as it has not returned, the caller takes steps, and not only while
the worker is between its two stores. -/
def StepsOutsideStores (c : CallerId) (infinite : InfiniteRun namespaceStep) : Prop :=
  ∀ now, (infinite.states now).caller c ≠ .idle →
    ∃ wait, (infinite.actions (now + wait)).byCaller c ∧
      ¬ (infinite.states (now + wait)).worker.BetweenStores

def NamespaceState.Polls (state : NamespaceState) (c : CallerId) : Prop :=
  ∃ loaded, state.caller c = .polling loaded

/-- The caller takes a step outside of the two stores, and behind an iteration of
the worker that began while the caller was polling. -/
structure PollsBehindIteration (c : CallerId) (infinite : InfiniteRun namespaceStep)
    (turn : Nat) : Prop where
  own : (infinite.actions turn).byCaller c
  outside : ¬ (infinite.states turn).worker.BetweenStores
  iteration : ∃ begins ends, begins ≤ ends ∧ ends < turn ∧ (infinite.states begins).Polls c ∧
    (infinite.states begins).worker = .testFreeList ∧ infinite.actions ends = .worker ∧
      (infinite.states (ends + 1)).worker = .testFreeList

/-- While the caller polls, `ns->version` stays below the last `u64`, up to the
first step of the caller behind a whole iteration. -/
def RoomForIteration (c : CallerId) (infinite : InfiniteRun namespaceStep) : Prop :=
  ∀ now, (∀ earlier ≤ now, (infinite.states earlier).caller c ≠ .idle) →
    (infinite.states now).Polls c → (∀ turn < now, ¬ PollsBehindIteration c infinite turn) →
      (infinite.states now).version < 2 ^ 64 - 1

variable {infinite : InfiniteRun namespaceStep} {workerTi : ReaderId} {ranges : Nat → LrcuRange}
  {front : List NamespaceAction} {c : CallerId} {start : Nat}

private theorem polling_or_returned (polls : (infinite.states start).caller c = .polling version)
    {now : Nat} (le : start ≤ now) :
    (∃ later, (infinite.states later).caller c = .idle) ∨
      (infinite.states now).caller c = .polling version := by
  induction now, le using Nat.le_induction with
  | base => exact Or.inr polls
  | succ now le ih =>
      rcases ih with returned | polls
      · exact Or.inl returned
      · rcases caller_of_step c (infinite.steps now) with
          same | ⟨_, _, _, _, waits, _⟩ | move | idle
        · exact Or.inr (same.trans polls)
        · simp [polls] at waits
        · rw [polls] at move
          generalize after : (infinite.states (now + 1)).caller c = pc at move
          cases move with
          | passBarrier => exact Or.inl ⟨now + 1, after⟩
          | poll => exact Or.inr rfl
        · simp [polls] at idle

/-- The worker that goes on comes back to the head of its loop. -/
theorem iteration_ends_by_step
    (reached : run namespaceStep (namespaceInit workerTi ranges) front =
      some (infinite.states 0))
    (works : infinite.RecursUntil start (fun _ => False) (·.byWorker = true)) :
    ∃ ends, start ≤ ends ∧ infinite.actions ends = .worker ∧
      (infinite.states (ends + 1)).worker = .testFreeList := by
  by_contra never
  have goesOn : infinite.MeetsFrom start fun state action => ∀ next,
      namespaceStep state action = some next →
        ¬ (action = .worker ∧ next.worker = .testFreeList) := by
    rintro now le next stepped ⟨own, ended⟩
    obtain rfl := Option.some.inj ((infinite.steps now).symm.trans stepped)
    exact never ⟨now, le, own, ended⟩
  obtain ⟨_, _, impossible⟩ : ∃ later, start ≤ later ∧ False := by
    apply InfiniteRun.reaches (fun _ => False) NamespaceOk workerRank _ works goesOn
      (namespaceOk_of_infiniteRun reached start)
    intro state action next goesOn ok stepped
    have lower := (workerRank_of_step ok stepped).resolve_left (goesOn next stepped)
    exact Or.inr ⟨ok.step stepped, lower⟩
  exact impossible

theorem exists_pollsBehindIteration
    (reached : run namespaceStep (namespaceInit workerTi ranges) front =
      some (infinite.states 0))
    (polling : ∀ now, start ≤ now → (infinite.states now).caller c = .polling version)
    (works : infinite.RecursUntil start (fun _ => False) (·.byWorker = true))
    (turns : StepsOutsideStores c infinite) :
    ∃ turn, PollsBehindIteration c infinite turn := by
  obtain ⟨begins, le, head⟩ := iteration_ends reached fun now le _ => works now le id
  obtain ⟨ends, le', worker, ended⟩ := iteration_ends_by_step reached (works.later le)
  have polls : (infinite.states (ends + 1)).caller c = .polling version :=
    polling (ends + 1) (by omega)
  obtain ⟨wait, own, outside⟩ := turns (ends + 1) (by simp [polls])
  exact ⟨ends + 1 + wait, own, outside, begins, ends, le', by omega,
    ⟨version, polling begins le⟩, head, worker, ended⟩

/-- Behind an iteration that has begun while a caller polls, the processed version
lets it go. -/
theorem processed_behind_iteration {begins ends turn : Nat}
    (current : version ≤ (infinite.states begins).version)
    (head : (infinite.states begins).worker = .testFreeList) (le : begins ≤ ends)
    (less : ends < turn) (worker : infinite.actions ends = .worker)
    (ended : (infinite.states (ends + 1)).worker = .testFreeList)
    (meets : infinite.MeetsWithin begins turn fun state action =>
      state.version < 2 ^ 64 - 1 ∧ MeetsNewer .worker version state action) :
    Processed version (infinite.states turn) := by
  have beyond : ProcessesBeyond version (infinite.states begins) := by
    rw [ProcessesBeyond, head]
    trivial
  have keeps : ∀ state action next,
      state.version < 2 ^ 64 - 1 ∧ MeetsNewer .worker version state action →
      version ≤ state.version ∧ ProcessesBeyond version state →
      namespaceStep state action = some next →
        version ≤ next.version ∧ ProcessesBeyond version next := by
    rintro state action next ⟨room, newer⟩ ⟨current, beyond⟩ stepped
    exact ⟨current.trans (version_le_of_step (fun _ => room) stepped),
      (beyond.step current room newer stepped).1⟩
  obtain ⟨currentEnds, beyondEnds⟩ := InfiniteRun.invariant_within _ keeps
    (meets.mono le_rfl less.le) ⟨current, beyond⟩ le
  obtain ⟨room, newer⟩ := meets ends le less
  obtain ⟨beyondNext, ends', _⟩ := beyondEnds.step currentEnds room newer (infinite.steps ends)
  have currentNext := currentEnds.trans (version_le_of_step (fun _ => room) (infinite.steps ends))
  have processed : Processed version (infinite.states (ends + 1)) := Or.inr (ends' worker ended)
  obtain ⟨_, told⟩ : (version ≤ (infinite.states turn).version ∧
      ProcessesBeyond version (infinite.states turn)) ∧
        Processed version (infinite.states turn) := by
    apply InfiniteRun.invariant_within (fun state =>
      (version ≤ state.version ∧ ProcessesBeyond version state) ∧ Processed version state) _
      (meets.mono (le.trans (Nat.le_succ ends)) le_rfl) ⟨⟨currentNext, beyondNext⟩, processed⟩ less
    rintro state action next met ⟨kept, told⟩ stepped
    exact ⟨keeps state action next met kept stepped,
      (kept.2.step kept.1 met.1 met.2 stepped).2.2 told⟩
  exact told

theorem polling_returns
    (reached : run namespaceStep (namespaceInit workerTi ranges) front =
      some (infinite.states 0))
    (loads : (infinite.states start).caller c = .loadBarrier)
    (polls : (infinite.states (start + 1)).caller c = .polling version)
    (current : version ≤ (infinite.states (start + 1)).version)
    (works : infinite.RecursUntil (start + 1) (fun state => state.caller c = .idle)
      (·.byWorker = true))
    (turns : StepsOutsideStores c infinite) (room : RoomForIteration c infinite)
    (newer : infinite.MeetsFrom (start + 1) (MeetsNewerThanAwaited c)) :
    ∃ later, (infinite.states later).caller c = .idle := by
  by_contra never
  have polling : ∀ now, start + 1 ≤ now → (infinite.states now).caller c = .polling version :=
    fun now le => (polling_or_returned polls le).resolve_left never
  obtain ⟨turn, turned, first⟩ : ∃ turn, PollsBehindIteration c infinite turn ∧
      ∀ earlier < turn, ¬ PollsBehindIteration c infinite earlier := by
    classical
    have some := exists_pollsBehindIteration reached polling
      (fun now le _ => works now le fun idle => never ⟨now, idle⟩) turns
    exact ⟨Nat.find some, Nat.find_spec some, fun _ => Nat.find_min some⟩
  obtain ⟨own, outside, begins, ends, le, less, ⟨loaded, pollsThen⟩, head, worker, ended⟩ := turned
  have late : start + 1 ≤ begins := by
    by_contra early
    have still := (polling_or_returned pollsThen (by omega : begins ≤ start)).resolve_left never
    simp [loads] at still
  have meets : infinite.MeetsWithin (start + 1) turn fun state action =>
      state.version < 2 ^ 64 - 1 ∧ MeetsNewer .worker version state action := by
    intro now le less
    refine ⟨room now (fun earlier _ idle => never ⟨earlier, idle⟩) ⟨version, polling now le⟩ ?_,
      (newer now le).2 version (polling now le)⟩
    exact fun earlier before => first earlier (before.trans less)
  have currentThen : version ≤ (infinite.states begins).version :=
    InfiniteRun.invariant_within (fun state => version ≤ state.version)
      (fun _ _ _ met current stepped =>
        current.trans (version_le_of_step (fun _ => met.1) stepped))
      (meets.mono le_rfl (le.trans less.le)) current late
  have told := processed_behind_iteration currentThen head le less worker ended
    (meets.mono late le_rfl)
  have lateTurn : start + 1 ≤ turn := late.trans (le.trans less.le)
  exact never ⟨turn + 1, idle_of_poll (polling turn lateTurn) (told.resolve_left outside)
    (infinite.steps turn) own⟩

/-- A caller of `lrcu_barrier_ns` returns, if its array does not hold the version
back that it has loaded, no pass finds a thread that it has to wait for, and the
version leaves room for one iteration of the worker while it polls. -/
theorem barrier_returns
    (reached : run namespaceStep (namespaceInit workerTi ranges) front =
      some (infinite.states 0)) {rbt : LrcuRangetree}
    (waits : (infinite.states 0).caller c = .waiting true version (.loadVersion rbt))
    (outside : ¬ (rbt.r 0).Contains version)
    (works : infinite.RecursUntil 0 (fun state => state.caller c = .idle) (·.byWorker = true))
    (turns : StepsOutsideStores c infinite)
    (room : RoomForIteration c infinite)
    (newer : infinite.MeetsFrom 0 (MeetsNewerThanAwaited c)) :
    ∃ later, (infinite.states later).caller c = .idle := by
  by_contra never
  have ok := namespaceOk_of_infiniteRun reached
  have recurs : ∀ start, ∃ wait, (infinite.actions (start + wait)).byCaller c := by
    intro start
    obtain ⟨wait, own, _⟩ := turns start fun idle => never ⟨start, idle⟩
    exact ⟨wait, own⟩
  have found := passOf_caller.mpr ⟨true, version, waits⟩
  have empty : rbt.len = 0 := by
    rw [← entries_length, ((ok 0).passes _ _ found).2, List.length_nil]
  have clear : CallerClear true version c (infinite.states 0) :=
    ⟨_, waits, fun _ inside => absurd inside (by simp [PassPc.rbt, empty]), fun _ => outside⟩
  obtain ⟨leaves, _, left⟩ : ∃ leaves, 0 ≤ leaves ∧
      (infinite.states leaves).caller c = .loadBarrier := by
    apply InfiniteRun.reaches (fun state => state.caller c = .loadBarrier)
      (fun state => NamespaceOk state ∧ CallerClear true version c state) (callerRank c)
      _ (fun now _ _ => recurs now) newer ⟨ok 0, clear⟩
    rintro state action next newer ⟨ok, pass, waiting, free⟩ stepped
    have clear : CallerClear true version c state := ⟨pass, waiting, free⟩
    rcases clear.step ok (newer.1 true version pass waiting) stepped with
      arrived | ⟨clear, le, lower⟩
    · exact Or.inl arrived
    · exact Or.inr ⟨⟨ok.step stepped, clear⟩, le, lower⟩
  obtain ⟨wait, turn⟩ := recurs leaves
  have stays : ∀ now, (infinite.states now).caller c = .loadBarrier →
      ¬ (infinite.actions now).byCaller c → (infinite.states (now + 1)).caller c = .loadBarrier :=
    fun now loading foreign =>
      (caller_of_foreign_step (infinite.steps now) foreign (by simp [loading])).trans loading
  obtain ⟨loads, _, loading, own⟩ := InfiniteRun.holds_until (NamespaceAction.byCaller c)
    (fun state : NamespaceState => state.caller c = .loadBarrier) stays left turn
  obtain ⟨polls, same⟩ := polling_of_loadBarrier loading (infinite.steps loads) own
  exact never (polling_returns reached loading polls same.ge (works.later (Nat.zero_le _)) turns
    room (newer.later (Nat.zero_le _)))

/-- A caller of `lrcu_barrier_ns` makes its pass and begins to poll, and the
worker goes through an iteration on empty lists. -/
def barrierActions : List NamespaceAction :=
  passActions (.caller 0) 1 ++ [.caller 0, .caller 0] ++ List.replicate 6 NamespaceAction.worker

theorem barrier_returns_of_nobody :
    ∃ infinite : InfiniteRun namespaceStep,
      run namespaceStep (namespaceInit 0 fun _ => ⟨0, 0⟩)
          [.enter 0 true fun _ => ⟨0, 0⟩, .caller 0] = some (infinite.states 0) ∧
        ∃ later, (infinite.states later).caller 0 = .idle := by
  obtain ⟨waiting, polling, returned, final, reached, ranPolling, ranReturned, ran, waits,
      version, starts, ended, idle, stays, outside⟩ :
      ∃ waiting polling returned final, run namespaceStep (namespaceInit 0 fun _ => ⟨0, 0⟩)
          [.enter 0 true fun _ => ⟨0, 0⟩, .caller 0] = some waiting ∧
        run namespaceStep waiting barrierActions = some polling ∧
        run namespaceStep waiting (barrierActions ++ [.caller 0]) = some returned ∧
        run namespaceStep waiting (barrierActions ++ [.caller 0] ++ [.worker]) = some final ∧
          waiting.caller 0 =
              .waiting true 1 (.loadVersion (rangeBintreeInit (fun _ => ⟨0, 0⟩) lrcuThreadsMax)) ∧
            waiting.version = 1 ∧ waiting.worker = .testFreeList ∧
              polling.worker = .testFreeList ∧ returned.caller 0 = .idle ∧
                final.caller 0 = .idle ∧ NobodyInside waiting :=
    ⟨_, _, _, _, rfl, rfl, rfl, rfl, rfl, rfl, rfl, rfl, rfl, rfl, fun _ => rfl⟩
  obtain ⟨infinite, begins, listed, follows, outsideAlways⟩ :=
    exists_infiniteRun ran outside (by decide)
  subst begins
  refine ⟨infinite, reached, ?_⟩
  have listedReturned : ∀ index action, (barrierActions ++ [.caller 0])[index]? = some action →
      infinite.actions index = action := by
    intro index action found
    apply listed
    rw [List.getElem?_append_left (List.getElem?_eq_some_iff.mp found).1, found]
  have listedPolling : ∀ index action, barrierActions[index]? = some action →
      infinite.actions index = action := by
    intro index action found
    apply listedReturned
    rw [List.getElem?_append_left (List.getElem?_eq_some_iff.mp found).1, found]
  have atPoll := InfiniteRun.states_of_run listedPolling ranPolling
  have atReturn := InfiniteRun.states_of_run listedReturned ranReturned
  have arrives : ∀ now, (barrierActions ++ [NamespaceAction.caller 0]).length < now →
      (infinite.states now).caller 0 = .idle := by
    intro now late
    obtain ⟨wait, rfl⟩ := Nat.exists_eq_add_of_le late
    have after := follows wait
    rw [List.length_append, List.length_singleton] at after
    rw [Nat.succ_eq_add_one, after]
    exact stays
  have works : infinite.RecursUntil 0 (fun state => state.caller 0 = .idle)
      (·.byWorker = true) := InfiniteRun.recursUntil_of_last listed rfl arrives
  have early : ∀ now, (infinite.states now).caller 0 ≠ .idle → now ≤ barrierActions.length := by
    intro now away
    by_contra late
    rw [not_le, ← Nat.succ_le_iff, le_iff_lt_or_eq] at late
    rcases late with late | rfl
    · exact away (arrives now (by simpa using late))
    · apply away
      rw [List.length_append, List.length_singleton] at atReturn
      rw [Nat.succ_eq_add_one, atReturn, idle]
  have room : RoomForIteration 0 infinite := by
    intro now away _ _
    have counted := version_le_add infinite now
    rw [version] at counted
    have soon := early now (away now le_rfl)
    exact counted.trans_lt ((Nat.add_le_add_left soon 1).trans_lt (by decide))
  have turns : StepsOutsideStores 0 infinite := by
    intro now away
    obtain ⟨wait, turn⟩ := Nat.exists_eq_add_of_le (early now away)
    refine ⟨wait, ?_, ?_⟩
    · rw [← turn, listedReturned barrierActions.length (NamespaceAction.caller 0) (by simp)]
      rfl
    · rw [← turn, atPoll, ended]
      exact id
  have alone : ∀ owner, infinite.MeetsFrom 0 (MeetsNobody owner) :=
    fun _ now _ _ _ _ _ _ ti _ _ _ => outsideAlways now ti
  have zeroCaller : LoadsZero (.caller 0) (infinite.states 0) := by
    intro _ _ _ _ _ _ visiting
    simp [passOf_caller, waits] at visiting
  have zeroWorker : LoadsZero .worker (infinite.states 0) := by
    intro _ _ _ _ _ _ visiting
    simp [passOf_worker, starts] at visiting
  have newer : infinite.MeetsFrom 0 (MeetsNewerThanAwaited 0) := by
    refine fun now le => ⟨fun _ _ _ _ => ?_, fun _ _ => ?_⟩
    · exact meetsNewer_of_nobody zeroCaller (alone _) now le
    · exact meetsNewer_of_nobody zeroWorker (alone _) now le
  exact barrier_returns reached waits (by decide) works turns room newer

end LightRcu
