import LightRcu.MachineIntegers
import LightRcu.RangeTreeCoverage

/-!
# One pass over the registered threads

`__lrcu_get_synchronized` walks `ns->threads` and `ns->hung_threads` under
`threads_lock` and adds a range of versions for every thread that it finds in a
read section.  The readers run on meanwhile, so each visit works on a sample of
the local namespace of its thread.  Everything else that a visit reads or
writes belongs to the passes alone.
-/

namespace LightRcu

/-- `struct lrcu_local_namespace`, with a `u64` and an `i32`. -/
structure LrcuLocalNamespace where
  version : Nat
  counter : Int
  deriving DecidableEq, Repr

/-- The fields of `struct lrcu_thread_info` for one namespace that only the
passes touch.  A time is a number of microseconds, `0` while it is not set. -/
structure LrcuThreadInfo where
  timeval : Nat
  hungLns : LrcuLocalNamespace
  deriving DecidableEq, Repr

/-- `LRCU_THREADS_MAX`. -/
def lrcuThreadsMax : Nat := 128

/-- `LRCU_HANG_TIMEOUT_S` seconds. -/
def lrcuHangTimeout : Nat := 600 * 10 ^ 6

/-- `LRCU_TIMER_ISSET`. -/
def lrcuTimerIsset (timeval : Nat) : Bool :=
  timeval != 0

/-- What a visit reads while the thread runs on, and the time it asks for. -/
structure Sample where
  lns : LrcuLocalNamespace
  now : Nat

/-- What a visit does: the range that it adds, the fields that it leaves in
the thread, and whether the thread moves to the other list. -/
structure Visit where
  range : Option LrcuRange
  info : LrcuThreadInfo
  moves : Bool

/-- The hang test: the timer of a thread that has not entered a new section
since the last visit is set and has expired. -/
def hangTest (info : LrcuThreadInfo) (sample : Sample) : Bool :=
  lrcuTimerIsset info.timeval && decide (sample.lns.version ≤ info.hungLns.version) &&
    !decide (sample.now < info.timeval + lrcuHangTimeout)

/-- The body of the loop over `ns->threads`. -/
def visitThread (currentVersion : Nat) (info : LrcuThreadInfo) (sample : Sample) : Visit :=
  if sample.lns.counter ≠ 0 then
    { range := some ⟨sample.lns.version, currentVersion⟩
      info :=
        { timeval := if lrcuTimerIsset info.timeval then info.timeval else sample.now
          hungLns := { sample.lns with version := currentVersion } }
      moves := hangTest info sample }
  else
    { range := none
      info := { info with timeval := 0 }
      moves := false }

/-- The body of the loop over `ns->hung_threads`. -/
def visitHungThread (currentVersion : Nat) (info : LrcuThreadInfo) (sample : Sample) :
    Visit :=
  { range :=
      if sample.lns.counter ≠ 0 then
        if sample.lns.version > info.hungLns.version then
          some ⟨sample.lns.version, currentVersion⟩
        else some ⟨sample.lns.version, info.hungLns.version⟩
      else none
    info := info
    moves := decide (sample.lns.version > info.hungLns.version) ||
      decide (sample.lns.counter = 0) }

def addVisitRange (rbt : LrcuRangetree) : Option LrcuRange → Option LrcuRangetree
  | none => some rbt
  | some range => lrcuRangetreeAdd rbt range.minv range.maxv

/-! ## The two loops -/

/-- The two lists of a namespace, with the data of the threads on them. -/
structure ThreadLists (Ti : Type*) where
  threads : List Ti
  hungThreads : List Ti
  info : Ti → LrcuThreadInfo

/-- Which of the two lists a loop walks. -/
inductive PassLoop
  | threads
  | hungThreads
  deriving DecidableEq, Repr

variable {Ti : Type*} [DecidableEq Ti]

def ThreadLists.walked (lists : ThreadLists Ti) : PassLoop → List Ti
  | .threads => lists.threads
  | .hungThreads => lists.hungThreads

/-- `lrcu_list_unlink_next` on the list that the loop walks, and
`lrcu_list_insert` on the other one. -/
def ThreadLists.move (lists : ThreadLists Ti) (index : Nat) (ti : Ti) :
    PassLoop → ThreadLists Ti
  | .threads =>
      { lists with
        threads := lists.threads.eraseIdx index
        hungThreads := ti :: lists.hungThreads }
  | .hungThreads =>
      { lists with
        threads := ti :: lists.threads
        hungThreads := lists.hungThreads.eraseIdx index }

def ThreadLists.setInfo (lists : ThreadLists Ti) (ti : Ti) (info : LrcuThreadInfo) :
    ThreadLists Ti :=
  { lists with info := Function.update lists.info ti info }

def PassLoop.visit (loop : PassLoop) :
    Nat → LrcuThreadInfo → Sample → Visit :=
  match loop with
  | .threads => visitThread
  | .hungThreads => visitHungThread

/-- A pass between two visits: the walk has kept `index` threads on the list
it walks. -/
structure PassState (Ti : Type*) where
  lists : ThreadLists Ti
  index : Nat
  rbt : LrcuRangetree

/-- One iteration of either loop. -/
def visitNext (loop : PassLoop) (currentVersion : Nat) (pass : PassState Ti)
    (sample : Sample) : Option (PassState Ti) :=
  match (pass.lists.walked loop)[pass.index]? with
  | none => none
  | some ti =>
      let visit := loop.visit currentVersion (pass.lists.info ti) sample
      (addVisitRange pass.rbt visit.range).map fun rbt =>
        let lists := pass.lists.setInfo ti visit.info
        if visit.moves then
          { lists := lists.move pass.index ti loop, index := pass.index, rbt := rbt }
        else
          { lists := lists, index := pass.index + 1, rbt := rbt }

/-- A whole loop, given the samples that its visits take. -/
def visitAll (loop : PassLoop) (currentVersion : Nat) :
    List Sample → PassState Ti → Option (PassState Ti)
  | [], pass =>
      if pass.index < (pass.lists.walked loop).length then none else some pass
  | sample :: samples, pass =>
      (visitNext loop currentVersion pass sample).bind
        (visitAll loop currentVersion samples)

/-- `__lrcu_get_synchronized`, with the version that it loads first and the
samples that its two loops take. -/
def lrcuGetSynchronized (currentVersion : Nat) (samples hungSamples : List Sample)
    (lists : ThreadLists Ti) (rbt : LrcuRangetree) :
    Option (ThreadLists Ti × LrcuRangetree) :=
  (visitAll .threads currentVersion samples ⟨lists, 0, rbt⟩).bind fun pass =>
    (visitAll .hungThreads currentVersion hungSamples { pass with index := 0 }).bind
      fun pass =>
        (lrcuRangetreeOptimize pass.rbt .merge).map fun (rbt, _) => (pass.lists, rbt)

/-! ## The callers of the pass -/

/-- What one call of `__lrcu_get_synchronized` finds. -/
structure PassInput (Ti : Type*) where
  currentVersion : Nat
  samples : List Sample
  hungSamples : List Sample
  lists : ThreadLists Ti

/-- `RANGE_BINTREE_INIT(ranges, LRCU_THREADS_MAX)` and the pass that fills it. -/
def PassInput.run (input : PassInput Ti) (ranges : Nat → LrcuRange) :
    Option (ThreadLists Ti × LrcuRangetree) :=
  lrcuGetSynchronized input.currentVersion input.samples input.hungSamples input.lists
    (rangeBintreeInit ranges lrcuThreadsMax)

/-- An object queued by `lrcu_call_ns` or `lrcu_call_head_ns`. -/
structure Callback (Obj : Type*) where
  obj : Obj
  version : Nat
  deriving DecidableEq, Repr

/-- A loop of `lrcu_worker` over one of its lists: the callbacks that it
destroys and those that it leaves on the list. -/
def workerListLoop {Obj : Type*} (rbt : LrcuRangetree) :
    List (Callback Obj) → List (Callback Obj) × List (Callback Obj)
  | [] => ([], [])
  | callback :: rest =>
      let (destroyed, kept) := workerListLoop rbt rest
      if lrcuRangetreeFind rbt callback.version then (destroyed, callback :: kept)
      else (callback :: destroyed, kept)

/-- The part of an iteration of `lrcu_worker` that needs a pass. -/
structure WorkerRound (Obj : Type*) where
  destroyed : List (Callback Obj)
  workerList : List (Callback Obj)
  destroyedHeads : List (Callback Obj)
  workerHlist : List (Callback Obj)
  processedVersion : Nat
  ranges : Nat → LrcuRange

/-- The iteration of `lrcu_worker` once the free lists are spliced: `none` in
the inner result stands for two empty lists, which need no pass.  The version
that `ns->version + 1` reads at the end is `lastVersion`. -/
def lrcuWorkerRound {Obj : Type*} (input : PassInput Ti) (lastVersion : Nat)
    (workerList workerHlist : List (Callback Obj)) (ranges : Nat → LrcuRange) :
    Option (Option (WorkerRound Obj)) :=
  if workerList.isEmpty && workerHlist.isEmpty then some none
  else
    (input.run ranges).bind fun (_, rbt) =>
      (lrcuRangetreeGetmin rbt).map fun minv =>
        let (destroyed, kept) := workerListLoop rbt workerList
        let (destroyedHeads, keptHeads) := workerListLoop rbt workerHlist
        some {
          destroyed := destroyed
          workerList := kept
          destroyedHeads := destroyedHeads
          workerHlist := keptHeads
          processedVersion := if minv = 0 then u64Succ lastVersion else minv
          ranges := rbt.r }

end LightRcu
