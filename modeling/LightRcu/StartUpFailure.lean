import LightRcu.FairSchedules
import LightRcu.StartUp

/-!
# Which failures start-up survives

When nothing fails, `lrcu_init` returns a handler whose worker runs and whose
default namespace is installed, under every schedule that lets both threads go
on.  Every single failure ends in an assertion: the clean-up paths are there,
but `lrcu_init` asserts that `__lrcu_init` has returned a handler, the worker
asserts that it has got its `lrcu_thread_info`, and the worker that
`lrcu_deinit` stops asserts that every namespace is there to be left.
-/

namespace LightRcu

open Execution

/-- What `lrcu_init` leaves behind when it returns, a handler if `h` is set. -/
def StartUpState.Outcome (state : StartUpState) (h : Bool) : Prop :=
  if h then
    state.handler = true ∧ state.workerState = .running ∧
      state.ns lrcuNsDefault = true ∧ state.workerNs lrcuNsDefault = true ∧
      state.registered = true
  else state.handler = false ∧ (state.worker = .notCreated ∨ state.worker = .finished)

/-- No assertion fails, whichever way the threads interleave, and `lrcu_init`
returns what it should, which it does under every fair schedule. -/
def StartsUp (nsMax : Nat) (failures : StartUpFailures) : Prop :=
  (∀ actions state, run (startUpStep nsMax failures) startUpInit actions = some state →
    state.failed = false ∧ ∀ h, state.pc = .returned h → state.Outcome h) ∧
  ∀ schedule, Fair schedule → ∃ turns h,
    (follow (startUpStep nsMax failures) startUpInit schedule turns).pc = .returned h

/-! ## Start-up without a failure -/

/-- The state that only the initialising thread writes to, unless the worker
stops. -/
structure StartUpStage where
  handler : Bool
  nsLock : Option StartUpAgent
  registered : Bool
  ns : NsId → Bool
  workerNs : NsId → Bool

def StartUpState.stage (state : StartUpState) : StartUpStage :=
  ⟨state.handler, state.nsLock, state.registered, state.ns, state.workerNs⟩

def noNs : NsId → Bool := fun _ => false

def onlyDefaultNs : NsId → Bool := Function.update noNs lrcuNsDefault true

/-- What the initialising thread has done when it gets to an access, which it
does not get to without a failure when there is no value. -/
def StartUpPc.stage : StartUpPc → Option StartUpStage
  | .callocHandler | .storeRun | .setHandler => some ⟨false, none, false, noNs, noNs⟩
  | .createThread | .waitForWorker | .testRunning | .assertHandler true
  | .assertGlobalHandler | .lockNs => some ⟨true, none, false, noNs, noNs⟩
  | .assertNoNs | .assertWorkerTi | .testWorkerNs | .callocNs | .addWorkerTi =>
      some ⟨true, some .initialiser, false, noNs, noNs⟩
  | .installNs => some ⟨true, some .initialiser, true, noNs, noNs⟩
  | .installWorkerNs => some ⟨true, some .initialiser, true, onlyDefaultNs, noNs⟩
  | .unlockNs true => some ⟨true, some .initialiser, true, onlyDefaultNs, onlyDefaultNs⟩
  | .returned true => some ⟨true, none, true, onlyDefaultNs, onlyDefaultNs⟩
  | _ => none

/-- The state of the worker that is not there yet when the initialising thread
gets to an access. -/
def StartUpPc.beforeWorker : StartUpPc → Option LrcuWorkerState
  | .callocHandler | .storeRun => some .ready
  | .setHandler | .createThread => some .run
  | _ => none

/-- What holds when the worker gets to an access.  Until it stores `RUNNING` the
initialising thread waits. -/
def StartUpState.WorkerPrepared (state : StartUpState) : Prop :=
  let starts := state.workerState = .run ∧ state.pc = .waitForWorker
  let runs := state.workerState = .running ∧ state.workerTi = true ∧
    state.pc.beforeWorker = none
  match state.worker with
  | .notCreated => state.pc.beforeWorker = some state.workerState
  | .assertHandler | .callocTi => starts
  | .storeTi ti => starts ∧ ti = true
  | .assertTi | .storeRunning => starts ∧ state.workerTi = true
  | .testStop | .loadNs _ => runs
  | .loadWorkerNs i | .barrierHandler i | .barrierNs i => runs ∧ state.workerNs i = true
  | .compareNs i workerNs => runs ∧ state.workerNs i = true ∧ workerNs = true
  | _ => False

structure StartUpInvariant (state : StartUpState) : Prop where
  failed : state.failed = false
  stage : state.pc.stage = some state.stage
  worker : state.WorkerPrepared

/-- The accesses that the initialising thread has still to make. -/
def StartUpPc.remaining : StartUpPc → Nat
  | .callocHandler => 17
  | .storeRun => 16
  | .setHandler => 15
  | .createThread => 14
  | .waitForWorker => 13
  | .testRunning => 12
  | .assertHandler _ => 11
  | .assertGlobalHandler => 10
  | .lockNs => 9
  | .assertNoNs => 8
  | .assertWorkerTi => 7
  | .testWorkerNs => 6
  | .callocNs => 5
  | .addWorkerTi => 4
  | .installNs => 3
  | .installWorkerNs => 2
  | .unlockNs _ => 1
  | _ => 0

/-- The accesses that the worker has still to make until it stores `RUNNING`,
with its creation. -/
def StartUpWorkerPc.remaining : StartUpWorkerPc → Nat
  | .notCreated => 6
  | .assertHandler => 5
  | .callocTi => 4
  | .storeTi _ => 3
  | .assertTi => 2
  | .storeRunning => 1
  | _ => 0

/-- The worker's accesses count less than any single access of the initialising
thread, and only while that thread may have to wait for them. -/
def StartUpState.remaining (state : StartUpState) : Nat :=
  7 * state.pc.remaining + if state.workerState = .run then state.worker.remaining else 0

variable {state next : StartUpState}

theorem StartUpState.WorkerPrepared.running (prepared : state.WorkerPrepared)
    (created : state.pc.beforeWorker = none)
    (waited : ¬ (state.workerState = .run ∧ state.pc = .waitForWorker)) :
    state.workerState = .running ∧ state.workerTi = true := by
  unfold WorkerPrepared at prepared
  cases worker : state.worker <;> simp_all

theorem StartUpState.WorkerPrepared.of_running (prepared : state.WorkerPrepared)
    (running : state.workerState = .running) (wasCreated : state.pc.beforeWorker = none)
    (created : next.pc.beforeWorker = none)
    (sameState : next.workerState = state.workerState)
    (sameTi : next.workerTi = state.workerTi) (sameWorker : next.worker = state.worker)
    (kept : ∀ i, state.workerNs i = true → next.workerNs i = true) :
    next.WorkerPrepared := by
  unfold WorkerPrepared at prepared ⊢
  rw [sameWorker, sameState, sameTi]
  cases worker : state.worker <;> simp_all

theorem StartUpWorkerPc.remaining_le (worker : StartUpWorkerPc) : worker.remaining ≤ 6 := by
  cases worker <;> simp [remaining]

theorem StartUpState.remaining_lt_of_pc
    (closer : next.pc.remaining + 1 = state.pc.remaining) :
    next.remaining < state.remaining := by
  have counted := next.worker.remaining_le
  unfold remaining
  split_ifs <;> omega

theorem StartUpState.remaining_lt_of_worker (starts : state.workerState = .run)
    (samePc : next.pc = state.pc)
    (closer : next.worker.remaining + 1 = state.worker.remaining) :
    next.remaining < state.remaining := by
  unfold remaining
  rw [samePc, if_pos starts]
  split_ifs <;> omega

/-- The initialising thread comes closer to its return. -/
def StartUpState.Advances (state : StartUpState) : Prop :=
  ∃ next, initialiserStep noFailures state = some next ∧ StartUpInvariant next ∧
    next.remaining < state.remaining

theorem StartUpInvariant.advances_before_worker (invariant : StartUpInvariant state)
    (before : state.pc.beforeWorker ≠ none) : state.Advances := by
  obtain ⟨failed, stage, prepared⟩ := invariant
  have notCreated : state.worker = .notCreated := by
    unfold StartUpState.WorkerPrepared at prepared
    cases worker : state.worker <;> simp_all [StartUpPc.beforeWorker]
  obtain ⟨handler, workerState, workerTi, ns, workerNs, registered, nsLock, tls, pc, worker,
    failed⟩ := state
  subst failed notCreated
  cases pc with
  | callocHandler | storeRun | setHandler =>
      cases stage
      cases prepared
      exact ⟨_, rfl, ⟨rfl, rfl, rfl⟩, StartUpState.remaining_lt_of_pc rfl⟩
  | createThread =>
      cases stage
      cases prepared
      exact ⟨_, rfl, ⟨rfl, rfl, rfl, rfl⟩, StartUpState.remaining_lt_of_pc rfl⟩
  | _ => exact absurd rfl before

/-- Every test that the initialising thread makes is decided by its stage. -/
theorem StartUpInvariant.advances_of_running (invariant : StartUpInvariant state)
    (created : state.pc.beforeWorker = none) (running : state.workerState = .running)
    (ti : state.workerTi = true) (returns : state.pc ≠ .returned true) : state.Advances := by
  obtain ⟨failed, stage, prepared⟩ := invariant
  obtain ⟨handler, workerState, workerTi, ns, workerNs, registered, nsLock, tls, pc, worker,
    failed⟩ := state
  subst failed running ti
  cases pc with
  | callocHandler | storeRun | setHandler | createThread => cases created
  | returned h => cases h <;> simp [StartUpPc.stage] at stage returns
  | unlockNs h | assertHandler h =>
      cases h <;> cases stage
      exact ⟨_, rfl, ⟨rfl, rfl, prepared.of_running rfl rfl rfl rfl rfl rfl fun _ set => set⟩,
        StartUpState.remaining_lt_of_pc rfl⟩
  | installWorkerNs =>
      cases stage
      refine ⟨_, rfl, ⟨rfl, rfl, prepared.of_running rfl rfl rfl rfl rfl rfl ?_⟩,
        StartUpState.remaining_lt_of_pc rfl⟩
      exact fun _ set => absurd set Bool.false_ne_true
  | delHandler | findWorkerTi | reinstallNs | assertDeinit | storeStop | join | delHandlerAfter =>
      cases stage
  | _ =>
      cases stage
      exact ⟨_, rfl, ⟨rfl, rfl, prepared.of_running rfl rfl rfl rfl rfl rfl fun _ set => set⟩,
        StartUpState.remaining_lt_of_pc rfl⟩

theorem StartUpInvariant.initialiser_moves (invariant : StartUpInvariant state) :
    (state.pc = .returned true ∧ initialiserStep noFailures state = none) ∨
    (state.pc = .waitForWorker ∧ state.workerState = .run ∧
      initialiserStep noFailures state = some state) ∨ state.Advances := by
  by_cases created : state.pc.beforeWorker = none
  · by_cases waits : state.workerState = .run ∧ state.pc = .waitForWorker
    · obtain ⟨starts, atPc⟩ := waits
      refine Or.inr (Or.inl ⟨atPc, starts, ?_⟩)
      simp only [initialiserStep, atPc, starts, if_true]
    · obtain ⟨running, ti⟩ := invariant.worker.running created waits
      by_cases returns : state.pc = .returned true
      · refine Or.inl ⟨returns, ?_⟩
        simp only [initialiserStep, returns]
      · exact Or.inr (Or.inr (invariant.advances_of_running created running ti returns))
  · exact Or.inr (Or.inr (invariant.advances_before_worker created))

/-- The handler is set before the worker is created, and `h->worker_ns` after
`h->ns`. -/
theorem StartUpPc.stage_of_created {pc : StartUpPc} {stage : StartUpStage}
    (reached : pc.stage = some stage) (created : pc.beforeWorker = none) :
    stage.handler = true ∧ ∀ i, stage.workerNs i = true → stage.ns i = true := by
  cases pc with
  | callocHandler | storeRun | setHandler | createThread => cases created
  | assertHandler h | unlockNs h | returned h =>
      cases h <;> cases reached
      exact ⟨rfl, fun _ set => set⟩
  | installWorkerNs =>
      cases reached
      exact ⟨rfl, fun _ set => absurd set Bool.false_ne_true⟩
  | _ => cases reached <;> exact ⟨rfl, fun _ set => set⟩

theorem StartUpInvariant.worker_starts (invariant : StartUpInvariant state) (nsMax : Nat)
    (starts : state.workerState = .run) (created : state.worker ≠ .notCreated) :
    ∃ next, startUpWorkerStep nsMax noFailures state = some next ∧ StartUpInvariant next ∧
      next.remaining < state.remaining := by
  obtain ⟨failed, stage, prepared⟩ := invariant
  have waits : state.pc = .waitForWorker := by
    unfold StartUpState.WorkerPrepared at prepared
    cases worker : state.worker <;> simp_all
  obtain ⟨handler, workerState, workerTi, ns, workerNs, registered, nsLock, tls, pc, worker,
    failed⟩ := state
  subst failed starts waits
  cases stage
  cases worker with
  | notCreated => exact absurd rfl created
  | assertHandler =>
      exact ⟨_, rfl, ⟨rfl, rfl, prepared⟩, StartUpState.remaining_lt_of_worker rfl rfl rfl⟩
  | callocTi =>
      exact ⟨_, rfl, ⟨rfl, rfl, prepared, rfl⟩, StartUpState.remaining_lt_of_worker rfl rfl rfl⟩
  | storeTi ti =>
      obtain ⟨prepared, rfl⟩ := prepared
      exact ⟨_, rfl, ⟨rfl, rfl, prepared, rfl⟩, StartUpState.remaining_lt_of_worker rfl rfl rfl⟩
  | assertTi =>
      obtain ⟨prepared, set⟩ := prepared
      subst set
      exact ⟨_, rfl, ⟨rfl, rfl, prepared, rfl⟩, StartUpState.remaining_lt_of_worker rfl rfl rfl⟩
  | storeRunning =>
      obtain ⟨prepared, set⟩ := prepared
      exact ⟨_, rfl, ⟨rfl, rfl, rfl, set, rfl⟩, StartUpState.remaining_lt_of_worker rfl rfl rfl⟩
  | _ => simp [StartUpState.WorkerPrepared] at prepared

/-- The running worker goes round the namespaces without touching what the
initialising thread relies on. -/
theorem StartUpInvariant.worker_runs (invariant : StartUpInvariant state) (nsMax : Nat)
    (running : state.workerState = .running) (created : state.pc.beforeWorker = none)
    (there : state.worker ≠ .notCreated) :
    ∃ next, startUpWorkerStep nsMax noFailures state = some next ∧ StartUpInvariant next ∧
      next.pc = state.pc ∧ next.workerState = state.workerState := by
  obtain ⟨handlerSet, installed⟩ := StartUpPc.stage_of_created invariant.stage created
  obtain ⟨failed, stage, prepared⟩ := invariant
  have goesTo : ∀ worker : StartUpWorkerPc,
      startUpWorkerStep nsMax noFailures state = some (state.workerGoto worker) →
      (state.workerGoto worker).WorkerPrepared →
      ∃ next, startUpWorkerStep nsMax noFailures state = some next ∧ StartUpInvariant next ∧
        next.pc = state.pc ∧ next.workerState = state.workerState :=
    fun _ stepped prepared => ⟨_, stepped, ⟨failed, stage, prepared⟩, rfl, rfl⟩
  cases atWorker : state.worker with
  | notCreated => exact absurd atWorker there
  | testStop =>
      simp only [StartUpState.WorkerPrepared, atWorker] at prepared
      apply goesTo (.loadNs 0)
      · simp [startUpWorkerStep, atWorker, running]
      · exact prepared
  | loadNs i =>
      simp only [StartUpState.WorkerPrepared, atWorker] at prepared
      by_cases more : i < nsMax
      · cases set : state.workerNs i with
        | false =>
          apply goesTo (.loadNs (i + 1))
          · simp [startUpWorkerStep, atWorker, more, set]
          · exact prepared
        | true =>
          apply goesTo (.loadWorkerNs i)
          · simp [startUpWorkerStep, atWorker, more, set]
          · exact ⟨prepared, set⟩
      · apply goesTo .testStop
        · simp [startUpWorkerStep, atWorker, more]
        · exact prepared
  | loadWorkerNs i =>
      simp only [StartUpState.WorkerPrepared, atWorker] at prepared
      apply goesTo (.compareNs i true)
      · simp [startUpWorkerStep, atWorker, prepared.2]
      · exact ⟨prepared.1, prepared.2, rfl⟩
  | compareNs i workerNs =>
      simp only [StartUpState.WorkerPrepared, atWorker] at prepared
      obtain ⟨runs, set, rfl⟩ := prepared
      have nsSet : state.ns i = true := installed i set
      apply goesTo (.barrierHandler i)
      · simp [startUpWorkerStep, atWorker, nsSet]
      · exact ⟨runs, set⟩
  | barrierHandler i =>
      simp only [StartUpState.WorkerPrepared, atWorker] at prepared
      have handlerSet : state.handler = true := handlerSet
      apply goesTo (.barrierNs i)
      · simp [startUpWorkerStep, atWorker, StartUpState.workerAssert, handlerSet]
      · exact prepared
  | barrierNs i =>
      simp only [StartUpState.WorkerPrepared, atWorker] at prepared
      have nsSet : state.ns i = true := installed i prepared.2
      apply goesTo (.loadNs (i + 1))
      · simp [startUpWorkerStep, atWorker, StartUpState.workerAssert, nsSet]
      · exact prepared.1
  | _ => simp [StartUpState.WorkerPrepared, atWorker, running] at prepared

theorem StartUpState.WorkerPrepared.created (prepared : state.WorkerPrepared)
    (there : state.worker ≠ .notCreated) : state.pc.beforeWorker = none := by
  unfold WorkerPrepared at prepared
  cases worker : state.worker <;> simp_all [StartUpPc.beforeWorker]

/-- The thread that the other one may be waiting for. -/
def StartUpState.helpful (state : StartUpState) : StartUpAgent :=
  if state.pc = .waitForWorker ∧ state.workerState = .run then .worker else .initialiser

theorem StartUpInvariant.moves {nsMax : Nat} {agent : StartUpAgent}
    (invariant : StartUpInvariant state)
    (stepped : startUpStep nsMax noFailures state agent = some next) :
    StartUpInvariant next ∧ (next.remaining < state.remaining ∨
      next.remaining = state.remaining ∧ next.helpful = state.helpful) := by
  have alive := invariant.failed
  cases agent with
  | initialiser =>
      simp only [startUpStep, alive, Bool.false_eq_true, if_false] at stepped
      rcases invariant.initialiser_moves with ⟨_, returned⟩ | ⟨_, _, waits⟩ |
        ⟨other, advances, kept, lower⟩
      · rw [returned] at stepped
        cases stepped
      · rw [waits] at stepped
        cases stepped
        exact ⟨invariant, Or.inr ⟨rfl, rfl⟩⟩
      · rw [advances] at stepped
        cases stepped
        exact ⟨kept, Or.inl lower⟩
  | worker =>
      simp only [startUpStep, alive, Bool.false_eq_true, if_false] at stepped
      have there : state.worker ≠ .notCreated := by
        intro notCreated
        simp only [startUpWorkerStep, notCreated] at stepped
        cases stepped
      by_cases starts : state.workerState = .run
      · obtain ⟨other, moves, kept, lower⟩ := invariant.worker_starts nsMax starts there
        rw [moves] at stepped
        cases stepped
        exact ⟨kept, Or.inl lower⟩
      · have created := invariant.worker.created there
        obtain ⟨running, -⟩ := invariant.worker.running created fun waits => starts waits.1
        obtain ⟨other, moves, kept, samePc, sameState⟩ :=
          invariant.worker_runs nsMax running created there
        rw [moves] at stepped
        cases stepped
        refine ⟨kept, Or.inr ⟨?_, ?_⟩⟩
        · simp only [StartUpState.remaining, samePc, sameState, starts, if_false]
        · simp only [StartUpState.helpful, samePc, sameState]

/-- The helpful thread can always move, and the return of `lrcu_init` comes
closer. -/
theorem StartUpInvariant.helps (invariant : StartUpInvariant state) (nsMax : Nat)
    (returns : state.pc ≠ .returned true) :
    ∃ next, startUpStep nsMax noFailures state state.helpful = some next ∧
      next.remaining < state.remaining := by
  have alive := invariant.failed
  unfold StartUpState.helpful
  split_ifs with waits
  · have there : state.worker ≠ .notCreated := by
      intro notCreated
      have prepared := invariant.worker
      simp [StartUpState.WorkerPrepared, notCreated, waits.1, StartUpPc.beforeWorker] at prepared
    obtain ⟨next, moves, _, lower⟩ := invariant.worker_starts nsMax waits.2 there
    exact ⟨next, by simpa [startUpStep, alive] using moves, lower⟩
  · rcases invariant.initialiser_moves with ⟨returned, _⟩ | ⟨atPc, starts, _⟩ |
      ⟨next, advances, _, lower⟩
    · exact absurd returned returns
    · exact absurd ⟨atPc, starts⟩ waits
    · exact ⟨next, by simpa [startUpStep, alive] using advances, lower⟩

theorem startUpInvariant_init : StartUpInvariant startUpInit :=
  ⟨rfl, rfl, rfl⟩

theorem StartUpInvariant.outcome (invariant : StartUpInvariant state) {h : Bool}
    (returned : state.pc = .returned h) : state.Outcome h := by
  have stage := invariant.stage
  rw [returned] at stage
  cases h with
  | false => cases stage
  | true =>
      obtain ⟨running, -⟩ := invariant.worker.running (by rw [returned]; rfl)
        fun waits => by rw [returned] at waits; cases waits.2
      simp only [StartUpPc.stage, StartUpState.stage, Option.some.injEq,
        StartUpStage.mk.injEq] at stage
      obtain ⟨handler, _, registered, ns, workerNs⟩ := stage
      exact ⟨handler.symm, running, by rw [← ns]; rfl, by rw [← workerNs]; rfl, registered.symm⟩

theorem startsUp_noFailures (nsMax : Nat) : StartsUp nsMax noFailures := by
  have preserves : ∀ state agent next, StartUpInvariant state →
      startUpStep nsMax noFailures state agent = some next → StartUpInvariant next :=
    fun state agent next invariant stepped => (invariant.moves stepped).1
  constructor
  · intro actions state ran
    have invariant := run_preserves StartUpInvariant preserves startUpInvariant_init ran
    exact ⟨invariant.failed, fun h returned => invariant.outcome returned⟩
  · intro schedule fair
    obtain ⟨turns, returned⟩ := fair.reaches
      (fun next : StartUpState => next.pc = .returned true)
      StartUpInvariant StartUpState.remaining StartUpState.helpful preserves
      (fun state agent next invariant _ stepped => (invariant.moves stepped).2)
      (fun state invariant returns => invariant.helps nsMax returns) startUpInvariant_init
    exact ⟨turns, true, returned⟩

/-! ## Start-up with a failure -/

/-- The initialising thread creates the worker. -/
def creationActions : List StartUpAgent :=
  List.replicate 4 .initialiser

/-- The worker gets as far as the initialising thread waits for. -/
def startActions : List StartUpAgent :=
  creationActions ++ List.replicate 5 .worker

/-- The initialising thread stops the worker after that many accesses, and the
worker leaves its first namespace. -/
def cleanUpActions (accesses : Nat) : List StartUpAgent :=
  startActions ++ List.replicate accesses .initialiser ++ List.replicate 4 .worker

/-- Whatever fails, some assertion does so too. -/
theorem exists_run_failed {nsMax : Nat} {failures : StartUpFailures}
    (default : lrcuNsDefault < nsMax) (failing : failures ≠ noFailures) :
    ∃ actions state, run (startUpStep nsMax failures) startUpInit actions = some state ∧
      state.failed = true := by
  obtain ⟨nsMax, rfl⟩ := Nat.exists_eq_succ_of_ne_zero (Nat.ne_of_gt default)
  rcases failures with ⟨_ | _, thread, threadInfo, ns, node⟩
  · rcases thread with _ | _
    · rcases threadInfo with _ | _
      · rcases ns with _ | _
        · rcases node with _ | _
          · exact absurd rfl failing
          · -- the namespace is freed again, and `lrcu_deinit` stops the worker
            exact ⟨cleanUpActions 13, _, rfl, rfl⟩
        · exact ⟨cleanUpActions 12, _, rfl, rfl⟩
      · -- the worker has no `lrcu_thread_info`
        exact ⟨creationActions ++ List.replicate 4 .worker, _, rfl, rfl⟩
    · -- `__lrcu_init` cleans up and returns no handler
      exact ⟨creationActions ++ List.replicate 2 .initialiser, _, rfl, rfl⟩
  · exact ⟨List.replicate 2 .initialiser, _, rfl, rfl⟩

/-- Start-up works whichever way the threads interleave exactly when none of its
calls fails. -/
theorem startsUp_iff {nsMax : Nat} {failures : StartUpFailures}
    (default : lrcuNsDefault < nsMax) :
    StartsUp nsMax failures ↔ failures = noFailures := by
  constructor
  · intro starts
    by_contra failing
    obtain ⟨actions, state, ran, failed⟩ := exists_run_failed default failing
    have alive : state.failed = false := (starts.1 actions state ran).1
    rw [failed] at alive
    cases alive
  · rintro rfl
    exact startsUp_noFailures nsMax

/-- The allocation of the default namespace fails. -/
def nsFails : StartUpFailures :=
  { noFailures with ns := true }

theorem startsUp_iff_nsFails :
    lrcuNsDefault < 1 ∧ (StartsUp 1 nsFails ↔ nsFails = noFailures) :=
  ⟨by decide, startsUp_iff (by decide)⟩

/-- The clean-up after a failed `lrcu_ns_init` is fatal to the worker. -/
theorem not_startsUp : ¬ ∀ failures, StartsUp 1 failures := by
  intro starts
  have alive := ((starts nsFails).1 (cleanUpActions 12) _ rfl).1
  cases alive

end LightRcu
