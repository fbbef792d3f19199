import LightRcu.Execution
import LightRcu.VersionClock

/-!
# Starting up

`lrcu_init` allocates the handler, starts the worker, waits until it runs and
installs the default namespace; when that fails it stops the worker again.  The
two threads are modelled access by access, with any allocation failing that may
fail.  No other thread is there yet, so no callback is queued and no thread but
the worker's has a `lrcu_thread_info`.  Only `lrcu_ns_init` allocates a
namespace, and only once, so a pointer to a namespace is given by whether it is
set.
-/

namespace LightRcu

open Execution

/-- Which of the calls that may fail do fail. -/
structure StartUpFailures where
  /-- `LRCU_CALLOC(1, sizeof(struct lrcu_handler))` -/
  handler : Bool
  /-- `LRCU_THREAD_CREATE` -/
  thread : Bool
  /-- `LRCU_CALLOC(1, sizeof(struct lrcu_thread_info))` in the worker -/
  threadInfo : Bool
  /-- `LRCU_CALLOC(1, sizeof(struct lrcu_namespace))` -/
  ns : Bool
  /-- `lrcu_list_add(&ns->threads, h->worker_ti)` -/
  node : Bool
  deriving DecidableEq, Repr

def noFailures : StartUpFailures :=
  ⟨false, false, false, false, false⟩

/-- `LRCU_NS_DEFAULT`. -/
def lrcuNsDefault : NsId := 0

inductive LrcuWorkerState
  | ready
  | run
  | running
  | stop
  | done
  deriving DecidableEq, Repr

/-- Where the initialising thread is. -/
inductive StartUpPc
  -- `__lrcu_init`
  | callocHandler
  | storeRun
  | setHandler
  | createThread
  | waitForWorker
  | testRunning
  | delHandler
  /-- `LRCU_ASSERT(h)` in `lrcu_init` -/
  | assertHandler (h : Bool)
  -- `lrcu_ns_init`
  | assertGlobalHandler
  | lockNs
  | assertNoNs
  | assertWorkerTi
  | testWorkerNs
  | findWorkerTi
  | reinstallNs
  | callocNs
  | addWorkerTi
  | installNs
  | installWorkerNs
  | unlockNs (ns : Bool)
  -- `lrcu_deinit`
  | assertDeinit
  | storeStop
  | join
  | delHandlerAfter
  | returned (h : Bool)
  deriving DecidableEq, Repr

/-- Where the worker is. -/
inductive StartUpWorkerPc
  | notCreated
  -- `__lrcu_thread_init`
  | assertHandler
  | callocTi
  -- `lrcu_worker`
  | storeTi (ti : Bool)
  | assertTi
  | storeRunning
  | testStop
  | loadNs (i : NsId)
  | loadWorkerNs (i : NsId)
  | compareNs (i : NsId) (workerNs : Bool)
  | lockReclaim (i : NsId)
  | reclaim (i : NsId)
  | unlockReclaim (i : NsId) (freed : Bool)
  | barrierHandler (i : NsId)
  | barrierNs (i : NsId)
  -- `lrcu_thread_deinit`
  | assertTls
  | lockDestructor
  | removeFromNs (i : NsId) (found : Bool)
  | unlockDestructor
  | delTi
  | storeDone
  | finished
  deriving DecidableEq, Repr

inductive StartUpAgent
  | initialiser
  | worker
  deriving DecidableEq, Repr

structure StartUpState where
  /-- `__lrcu_handler` is set. -/
  handler : Bool
  workerState : LrcuWorkerState
  workerTi : Bool
  ns : NsId → Bool
  workerNs : NsId → Bool
  /-- `worker_ti` is on the list `threads` of the namespace. -/
  registered : Bool
  nsLock : Option StartUpAgent
  /-- `LRCU_GET_TI()` of the worker is set. -/
  tls : Bool
  pc : StartUpPc
  worker : StartUpWorkerPc
  /-- An assertion has failed, which stops the process. -/
  failed : Bool

def startUpInit : StartUpState where
  handler := false
  workerState := .ready
  workerTi := false
  ns _ := false
  workerNs _ := false
  registered := false
  nsLock := none
  tls := false
  pc := .callocHandler
  worker := .notCreated
  failed := false

namespace StartUpState

def fail (state : StartUpState) : StartUpState :=
  { state with failed := true }

def goto (state : StartUpState) (pc : StartUpPc) : StartUpState :=
  { state with pc := pc }

def workerGoto (state : StartUpState) (pc : StartUpWorkerPc) : StartUpState :=
  { state with worker := pc }

/-- `LRCU_ASSERT(cond)` of the initialising thread. -/
def assert (state : StartUpState) (cond : Bool) (pc : StartUpPc) : StartUpState :=
  if cond then state.goto pc else state.fail

/-- `LRCU_ASSERT(cond)` of the worker. -/
def workerAssert (state : StartUpState) (cond : Bool) (pc : StartUpWorkerPc) : StartUpState :=
  if cond then state.workerGoto pc else state.fail

end StartUpState

/-- The next access of the initialising thread. -/
def initialiserStep (failures : StartUpFailures) (state : StartUpState) :
    Option StartUpState :=
  match state.pc with
  | .callocHandler =>
      some (state.goto (if failures.handler then .assertHandler false else .storeRun))
  | .storeRun => some ({ state with workerState := .run }.goto .setHandler)
  | .setHandler => some ({ state with handler := true }.goto .createThread)
  | .createThread =>
      if failures.thread then some (state.goto .delHandler)
      else some ((state.goto .waitForWorker).workerGoto .assertHandler)
  | .waitForWorker =>
      some (if state.workerState = .run then state else state.goto .testRunning)
  | .testRunning =>
      some (state.goto (if state.workerState = .running then .assertHandler true else .delHandler))
  -- `out:`, which also frees `h`
  | .delHandler => some ({ state with handler := false }.goto (.assertHandler false))
  | .assertHandler h => some (state.assert h .assertGlobalHandler)
  | .assertGlobalHandler => some (state.assert state.handler .lockNs)
  | .lockNs =>
      if state.nsLock = none then
        some ({ state with nsLock := some .initialiser }.goto .assertNoNs)
      else none
  | .assertNoNs => some (state.assert (!state.ns lrcuNsDefault) .assertWorkerTi)
  | .assertWorkerTi => some (state.assert state.workerTi .testWorkerNs)
  | .testWorkerNs =>
      some (state.goto (if state.workerNs lrcuNsDefault then .findWorkerTi else .callocNs))
  -- the namespace is pending removal
  | .findWorkerTi => some (state.assert state.registered .reinstallNs)
  | .reinstallNs =>
      some ({ state with ns := Function.update state.ns lrcuNsDefault true }.goto
        (.unlockNs true))
  | .callocNs => some (state.goto (if failures.ns then .unlockNs false else .addWorkerTi))
  | .addWorkerTi =>
      -- on failure the namespace is freed
      if failures.node then some (state.goto (.unlockNs false))
      else some ({ state with registered := true }.goto .installNs)
  | .installNs =>
      some ({ state with ns := Function.update state.ns lrcuNsDefault true }.goto
        .installWorkerNs)
  | .installWorkerNs =>
      some ({ state with workerNs := Function.update state.workerNs lrcuNsDefault true }.goto
        (.unlockNs true))
  | .unlockNs ns =>
      some ({ state with nsLock := none }.goto (if ns then .returned true else .assertDeinit))
  | .assertDeinit => some (state.assert state.handler .storeStop)
  | .storeStop => some ({ state with workerState := .stop }.goto .join)
  | .join => if state.worker = .finished then some (state.goto .delHandlerAfter) else none
  | .delHandlerAfter => some ({ state with handler := false }.goto (.returned false))
  | .returned _ => none

/-- The next access of the worker.  All lists of callbacks are empty, no thread
has ever entered a section, and `ns->version` is at least `1`, so that
`lrcu_ns_destructor(ns, false)` unlinks no thread. -/
def startUpWorkerStep (nsMax : Nat) (failures : StartUpFailures) (state : StartUpState) :
    Option StartUpState :=
  match state.worker with
  | .notCreated => none
  | .assertHandler => some (state.workerAssert state.handler .callocTi)
  | .callocTi =>
      if failures.threadInfo then some (state.workerGoto (.storeTi false))
      else some ({ state with tls := true }.workerGoto (.storeTi true))
  | .storeTi ti => some ({ state with workerTi := ti }.workerGoto .assertTi)
  | .assertTi => some (state.workerAssert state.workerTi .storeRunning)
  | .storeRunning => some ({ state with workerState := .running }.workerGoto .testStop)
  | .testStop =>
      some (state.workerGoto (if state.workerState = .stop then .assertTls else .loadNs 0))
  | .loadNs i =>
      some (state.workerGoto
        (if i < nsMax then
          if state.workerNs i then .loadWorkerNs i else .loadNs (i + 1)
        else .testStop))
  -- `h->worker_ns[i] != h->ns[i]`
  | .loadWorkerNs i => some (state.workerGoto (.compareNs i (state.workerNs i)))
  | .compareNs i workerNs =>
      some (state.workerGoto
        (if workerNs ≠ state.ns i then .lockReclaim i else .barrierHandler i))
  | .lockReclaim i =>
      if state.nsLock = none then
        some ({ state with nsLock := some .worker }.workerGoto (.reclaim i))
      else none
  | .reclaim i =>
      if state.workerNs i ≠ state.ns i ∧ state.registered = false then
        some ({ state with workerNs := Function.update state.workerNs i false }.workerGoto
          (.unlockReclaim i true))
      else some (state.workerGoto (.unlockReclaim i false))
  | .unlockReclaim i freed =>
      some ({ state with nsLock := none }.workerGoto
        (if freed then .loadNs (i + 1) else .barrierHandler i))
  -- `lrcu_write_barrier_ns(i)`
  | .barrierHandler i => some (state.workerAssert state.handler (.barrierNs i))
  | .barrierNs i => some (state.workerAssert (state.ns i) (.loadNs (i + 1)))
  | .assertTls => some (state.workerAssert state.tls .lockDestructor)
  | .lockDestructor =>
      if state.nsLock = none then
        some ({ state with nsLock := some .worker }.workerGoto (.removeFromNs 0 false))
      else none
  -- `found = found || thread_remove_from_ns(ti, i)`
  | .removeFromNs i found =>
      if i < nsMax then
        if found then some (state.workerGoto (.removeFromNs (i + 1) true))
        else
          some ({ state with registered := false }.workerAssert (state.workerNs i)
            (.removeFromNs (i + 1) state.registered))
      else some (state.workerGoto .unlockDestructor)
  | .unlockDestructor => some ({ state with nsLock := none }.workerGoto .delTi)
  | .delTi => some ({ state with tls := false }.workerGoto .storeDone)
  | .storeDone => some ({ state with workerState := .done }.workerGoto .finished)
  | .finished => none

/-- One access of either thread, with `nsMax` namespaces. -/
def startUpStep (nsMax : Nat) (failures : StartUpFailures) (state : StartUpState)
    (agent : StartUpAgent) : Option StartUpState :=
  if state.failed then none
  else
    match agent with
    | .initialiser => initialiserStep failures state
    | .worker => startUpWorkerStep nsMax failures state

end LightRcu
