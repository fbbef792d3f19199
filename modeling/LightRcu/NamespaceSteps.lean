import LightRcu.GetSynchronized

/-!
# A namespace and the threads around it

The readers, the writers, the callers of `lrcu_call_ns`, `lrcu_synchronize_ns`
and `lrcu_barrier_ns`, and the worker of one namespace.  Each load or store of a
variable that another thread may change is a step of its own; an increment of
`ns->version` is a single step.  What a lock protects from everybody else
changes in one step.  Memory is sequentially consistent.  Versions and nesting
depths wrap at the ends of `u64` and `i32`.

Two kinds of assertions are not part of the steps: those that
`lrcu_list_check_loop` makes in the operations of `list.h`, and that of the callers
on `counter`.  `NamespaceState.ChecksPass` says of a step that they hold in it.
-/

namespace LightRcu

abbrev ReaderId := Nat
abbrev CallerId := Nat
/-- A pointer variable that readers dereference. -/
abbrev CellId := Nat
abbrev ObjId := Nat

/-! ## The state -/

/-- Where a thread is in `lrcu_read_lock_ns`. -/
inductive ReaderPc
  | idle
  /-- behind `lns->counter++` -/
  | entered
  /-- between the load of `ns->version` and the store to `lns->version` -/
  | storing (version : Nat)
  deriving DecidableEq, Repr

/-- The life of an object. -/
inductive ObjStage
  | unused
  | published
  /-- replaced by a writer, or never published, and not yet passed on -/
  | retired
  /-- in `lrcu_call_ns`, or else in `lrcu_call_head_ns`, with the loaded version -/
  | calling (version : Nat) (head : Bool)
  | queued
  | destroyed
  deriving DecidableEq, Repr

/-- Where the holder of `write_lock` is. -/
inductive WriterPc
  | locked
  | inside
  /-- between the write barrier and the store of an assignment -/
  | assigning (cell : CellId) (new : Option ObjId)
  deriving DecidableEq, Repr

/-- Who runs `__lrcu_get_synchronized`. -/
inductive PassOwner
  | worker
  | caller (c : CallerId)
  deriving DecidableEq, Repr

/-- Where a pass is.  While it visits a thread, it has loaded none, one or both
of the two fields of the local namespace. -/
inductive PassPc
  | loadVersion (rbt : LrcuRangetree)
  | lockThreads (currentVersion : Nat) (rbt : LrcuRangetree)
  | visiting (loop : PassLoop) (currentVersion index : Nat) (version : Option Nat)
      (counter : Option Int) (rbt : LrcuRangetree)
  | finished (rbt : LrcuRangetree)

/-- Where the worker is in its loop. -/
inductive WorkerPc
  | testFreeList
  | spliceFreeList
  | testFreeHlist
  | spliceFreeHlist
  | testWorkerLists
  | passing (pass : PassPc)
  | walkList (index : Nat) (rbt : LrcuRangetree)
  | walkHlist (index : Nat) (rbt : LrcuRangetree)
  | storeMin (rbt : LrcuRangetree)
  | testProcessed
  | storeNext (version : Nat)
  | writeBarrier
  | testEmpty
  | storeVersion (version : Nat)

/-- Where a caller of `lrcu_synchronize_ns` is, or of `lrcu_barrier_ns`, which
begins with the former. -/
inductive CallerPc
  | idle
  | loadVersion (barrier : Bool) (ranges : Nat → LrcuRange)
  | waiting (barrier : Bool) (currentVersion : Nat) (pass : PassPc)
  | loadBarrier
  | polling (currentVersion : Nat)

structure NamespaceState where
  version : Nat
  processedVersion : Nat
  lns : ReaderId → LrcuLocalNamespace
  reader : ReaderId → ReaderPc
  /-- The objects that a thread has dereferenced since it entered its outermost
  read section. -/
  held : ReaderId → List ObjId
  lists : ThreadLists ReaderId
  threadsLock : Option PassOwner
  cell : CellId → Option ObjId
  stage : ObjId → ObjStage
  writer : Option WriterPc
  freeList : List (Callback ObjId)
  freeHlist : List (Callback ObjId)
  workerList : List (Callback ObjId)
  workerHlist : List (Callback ObjId)
  worker : WorkerPc
  /-- The local array of `lrcu_worker`, between two passes. -/
  ranges : Nat → LrcuRange
  caller : CallerId → CallerPc

/-- The state that `lrcu_ns_init` leaves, with only the worker registered. -/
def namespaceInit (workerTi : ReaderId) (ranges : Nat → LrcuRange) : NamespaceState where
  version := 1
  processedVersion := 0
  lns := fun _ => ⟨0, 0⟩
  reader := fun _ => .idle
  held := fun _ => []
  lists := ⟨[workerTi], [], fun _ => ⟨0, ⟨0, 0⟩⟩⟩
  threadsLock := none
  cell := fun _ => none
  stage := fun _ => .unused
  writer := none
  freeList := []
  freeHlist := []
  workerList := []
  workerHlist := []
  worker := .testFreeList
  ranges := ranges
  caller := fun _ => .idle

/-! ## Actions -/

inductive ReaderAction
  | lockCount
  | lockTest
  | lockStore
  | lrcuDereference (cell : CellId)
  | lrcuReadUnlockNs
  | lrcuThreadSetNs
  | lrcuThreadDelNs
  deriving DecidableEq

inductive WriterAction
  | lrcuSpinLock
  | bumpVersion
  | assignBarrier (cell : CellId) (new : Option ObjId)
  | assignStore
  | lrcuWriteUnlockNs
  /-- `lrcu_write_barrier_ns`, by any thread -/
  | lrcuWriteBarrierNs
  deriving DecidableEq

inductive CallAction
  /-- an object that was never published is about to be passed to a call -/
  | retire
  | loadVersion (head : Bool)
  | insert
  deriving DecidableEq

inductive PassAction
  | loadVersion
  | lockThreads
  | loadLnsVersion
  | loadLnsCounter
  | visit (now : Nat)
  | nextLoop
  | unlockThreads
  deriving DecidableEq

inductive NamespaceAction
  | reader (i : ReaderId) (action : ReaderAction)
  | writer (action : WriterAction)
  | call (obj : ObjId) (action : CallAction)
  | pass (owner : PassOwner) (action : PassAction)
  | worker
  /-- the entry into `lrcu_synchronize_ns` or `lrcu_barrier_ns`, whose local
  array is not initialised -/
  | enter (c : CallerId) (barrier : Bool) (ranges : Nat → LrcuRange)
  | caller (c : CallerId)

/-! ## Steps -/

namespace NamespaceState

def setReader (state : NamespaceState) (i : ReaderId) (pc : ReaderPc) : NamespaceState :=
  { state with reader := Function.update state.reader i pc }

def setLns (state : NamespaceState) (i : ReaderId) (lns : LrcuLocalNamespace) :
    NamespaceState :=
  { state with lns := Function.update state.lns i lns }

def setHeld (state : NamespaceState) (i : ReaderId) (held : List ObjId) : NamespaceState :=
  { state with held := Function.update state.held i held }

def setStage (state : NamespaceState) (obj : ObjId) (stage : ObjStage) : NamespaceState :=
  { state with stage := Function.update state.stage obj stage }

def setThreads (state : NamespaceState) (threads : List ReaderId) : NamespaceState :=
  { state with lists := { state.lists with threads := threads } }

def setCaller (state : NamespaceState) (c : CallerId) (pc : CallerPc) : NamespaceState :=
  { state with caller := Function.update state.caller c pc }

end NamespaceState

/-- A registered thread in and out of its read sections. -/
def readerStep (state : NamespaceState) (i : ReaderId) :
    ReaderAction → Option NamespaceState
  | .lockCount =>
      if state.reader i = .idle ∧
          (i ∈ state.lists.threads ∨ i ∈ state.lists.hungThreads) then
        some ((state.setLns i
          { state.lns i with counter := i32Succ (state.lns i).counter }).setReader i .entered)
      else none
  | .lockTest =>
      if state.reader i = .entered then
        if (state.lns i).counter = 1 then some (state.setReader i (.storing state.version))
        else some (state.setReader i .idle)
      else none
  | .lockStore =>
      match state.reader i with
      | .storing version =>
          some ((state.setLns i { state.lns i with version := version }).setReader i .idle)
      | _ => none
  | .lrcuDereference cell =>
      if state.reader i = .idle ∧ (state.lns i).counter ≠ 0 then
        match state.cell cell with
        | some obj => some (state.setHeld i (obj :: state.held i))
        | none => some state
      else none
  | .lrcuReadUnlockNs =>
      let counter := i32Pred (state.lns i).counter
      -- `LRCU_ASSERT(lns->counter >= 0)`
      if state.reader i = .idle ∧ 0 ≤ counter then
        let left := state.setLns i { state.lns i with counter := counter }
        if (state.lns i).counter = 1 then some (left.setHeld i []) else some left
      else none
  | .lrcuThreadSetNs =>
      if state.threadsLock = none then some (state.setThreads (i :: state.lists.threads))
      else none
  | .lrcuThreadDelNs =>
      if state.threadsLock = none ∧ state.reader i = .idle ∧ (state.lns i).counter = 0 then
        some (state.setThreads (state.lists.threads.erase i))
      else none

/-- Writers exclude each other, and an object is published once.  The object
that an assignment replaces is retired. -/
def writerStep (state : NamespaceState) : WriterAction → Option NamespaceState
  | .lrcuSpinLock =>
      if state.writer = none then some { state with writer := some .locked } else none
  | .bumpVersion =>
      if state.writer = some .locked then
        some { state with version := u64Succ state.version, writer := some .inside }
      else none
  | .assignBarrier cell new =>
      if state.writer = some .inside then
        some { state with
          version := u64Succ state.version
          writer := some (.assigning cell new) }
      else none
  | .assignStore =>
      match state.writer with
      | some (.assigning cell new) =>
          if ∀ obj ∈ new, state.stage obj = .unused then
            let stored := { state with
              cell := Function.update state.cell cell new
              writer := some .inside }
            let published := new.elim stored fun obj => stored.setStage obj .published
            some ((state.cell cell).elim published fun obj => published.setStage obj .retired)
          else none
      | _ => none
  | .lrcuWriteUnlockNs =>
      if state.writer = some .inside then some { state with writer := none } else none
  | .lrcuWriteBarrierNs => some { state with version := u64Succ state.version }

/-- `lrcu_call_ns` and `lrcu_call_head_ns`, without the debug check behind the
insert. -/
def callStep (state : NamespaceState) (obj : ObjId) : CallAction → Option NamespaceState
  | .retire =>
      if state.stage obj = .unused then some (state.setStage obj .retired) else none
  | .loadVersion head =>
      if state.stage obj = .retired then
        some (state.setStage obj (.calling state.version head))
      else none
  | .insert =>
      match state.stage obj with
      | .calling version head =>
          let queued := state.setStage obj .queued
          if head then some { queued with freeHlist := ⟨obj, version⟩ :: state.freeHlist }
          else some { queued with freeList := ⟨obj, version⟩ :: state.freeList }
      | _ => none

/-- One step of `__lrcu_get_synchronized`: the namespace and the pass after
it. -/
def passStep (state : NamespaceState) (owner : PassOwner) (pass : PassPc) :
    PassAction → Option (NamespaceState × PassPc)
  | .loadVersion =>
      match pass with
      | .loadVersion rbt => some (state, .lockThreads state.version rbt)
      | _ => none
  | .lockThreads =>
      match pass with
      | .lockThreads currentVersion rbt =>
          if state.threadsLock = none then
            some ({ state with threadsLock := some owner },
              .visiting .threads currentVersion 0 none none rbt)
          else none
      | _ => none
  | .loadLnsVersion =>
      match pass with
      | .visiting loop currentVersion index none counter rbt =>
          ((state.lists.walked loop)[index]?).map fun ti =>
            (state, .visiting loop currentVersion index (some (state.lns ti).version) counter rbt)
      | _ => none
  | .loadLnsCounter =>
      match pass with
      | .visiting loop currentVersion index version none rbt =>
          ((state.lists.walked loop)[index]?).map fun ti =>
            (state, .visiting loop currentVersion index version (some (state.lns ti).counter) rbt)
      | _ => none
  | .visit now =>
      match pass with
      | .visiting loop currentVersion index (some version) (some counter) rbt =>
          (visitNext loop currentVersion ⟨state.lists, index, rbt⟩
              ⟨⟨version, counter⟩, now⟩).map fun next =>
            ({ state with lists := next.lists },
              .visiting loop currentVersion next.index none none next.rbt)
      | _ => none
  | .nextLoop =>
      match pass with
      | .visiting .threads currentVersion index none none rbt =>
          if index < state.lists.threads.length then none
          else some (state, .visiting .hungThreads currentVersion 0 none none rbt)
      | _ => none
  | .unlockThreads =>
      match pass with
      | .visiting .hungThreads _ index none none rbt =>
          if index < state.lists.hungThreads.length then none
          else
            (lrcuRangetreeOptimize rbt .merge).map fun (rbt, _) =>
              ({ state with threadsLock := none }, .finished rbt)
      | _ => none

/-- One step of `lrcu_worker`, apart from those of its pass and without the debug
checks of its lists.  The namespace stays installed, so that it is never
reclaimed. -/
def workerStep (state : NamespaceState) : Option NamespaceState :=
  match state.worker with
  | .testFreeList =>
      if state.freeList.isEmpty then some { state with worker := .testFreeHlist }
      else some { state with worker := .spliceFreeList }
  | .spliceFreeList =>
      some { state with
        workerList := state.workerList ++ state.freeList
        freeList := []
        worker := .testFreeHlist }
  | .testFreeHlist =>
      if state.freeHlist.isEmpty then some { state with worker := .testWorkerLists }
      else some { state with worker := .spliceFreeHlist }
  | .spliceFreeHlist =>
      some { state with
        workerHlist := state.workerHlist ++ state.freeHlist
        freeHlist := []
        worker := .testWorkerLists }
  | .testWorkerLists =>
      if state.workerList.isEmpty && state.workerHlist.isEmpty then
        some { state with worker := .writeBarrier }
      else
        some { state with
          worker := .passing (.loadVersion (rangeBintreeInit state.ranges lrcuThreadsMax)) }
  | .passing (.finished rbt) => some { state with worker := .walkList 0 rbt }
  | .passing _ => none
  | .walkList index rbt =>
      match state.workerList[index]? with
      | none => some { state with worker := .walkHlist 0 rbt }
      | some callback =>
          if lrcuRangetreeFind rbt callback.version then
            some { state with worker := .walkList (index + 1) rbt }
          else
            some { state.setStage callback.obj .destroyed with
              workerList := state.workerList.eraseIdx index }
  | .walkHlist index rbt =>
      match state.workerHlist[index]? with
      | none => some { state with worker := .storeMin rbt }
      | some callback =>
          if lrcuRangetreeFind rbt callback.version then
            some { state with worker := .walkHlist (index + 1) rbt }
          else
            some { state.setStage callback.obj .destroyed with
              workerHlist := state.workerHlist.eraseIdx index }
  | .storeMin rbt =>
      (lrcuRangetreeGetmin rbt).map fun minv =>
        { state with
          processedVersion := minv
          ranges := rbt.r
          worker := .testProcessed }
  | .testProcessed =>
      if state.processedVersion = 0 then
        some { state with worker := .storeNext state.version }
      else some { state with worker := .writeBarrier }
  | .storeNext version =>
      some { state with processedVersion := u64Succ version, worker := .writeBarrier }
  | .writeBarrier =>
      some { state with version := u64Succ state.version, worker := .testEmpty }
  | .testEmpty =>
      if state.workerList.isEmpty && state.workerHlist.isEmpty then
        some { state with worker := .storeVersion state.version }
      else some { state with worker := .testFreeList }
  | .storeVersion version =>
      some { state with processedVersion := version, worker := .testFreeList }

/-- One step of `lrcu_synchronize_ns` or `lrcu_barrier_ns`, apart from those of
a pass and without `LRCU_ASSERT(counter == 0)`. -/
def callerStep (state : NamespaceState) (c : CallerId) : Option NamespaceState :=
  match state.caller c with
  | .idle => none
  | .loadVersion barrier ranges =>
      some (state.setCaller c (.waiting barrier state.version
        (.loadVersion (rangeBintreeInit ranges lrcuThreadsMax))))
  | .waiting barrier currentVersion (.finished rbt) =>
      if lrcuRangetreeFind rbt currentVersion then
        some (state.setCaller c (.waiting barrier currentVersion
          (.loadVersion (rangeBintreeInit rbt.r lrcuThreadsMax))))
      else if barrier then some (state.setCaller c .loadBarrier)
      else some (state.setCaller c .idle)
  | .waiting _ _ _ => none
  | .loadBarrier => some (state.setCaller c (.polling state.version))
  | .polling currentVersion =>
      if currentVersion < state.processedVersion then some (state.setCaller c .idle)
      else some state

/-- The pass that somebody is in. -/
def NamespaceState.passOf (state : NamespaceState) : PassOwner → Option PassPc
  | .worker =>
      match state.worker with
      | .passing pass => some pass
      | _ => none
  | .caller c =>
      match state.caller c with
      | .waiting _ _ pass => some pass
      | _ => none

def NamespaceState.setPass (state : NamespaceState) (owner : PassOwner) (pass : PassPc) :
    NamespaceState :=
  match owner with
  | .worker => { state with worker := .passing pass }
  | .caller c =>
      match state.caller c with
      | .waiting barrier currentVersion _ =>
          state.setCaller c (.waiting barrier currentVersion pass)
      | _ => state

def namespaceStep (state : NamespaceState) : NamespaceAction → Option NamespaceState
  | .reader i action => readerStep state i action
  | .writer action => writerStep state action
  | .call obj action => callStep state obj action
  | .pass owner action =>
      (state.passOf owner).bind fun pass =>
        (passStep state owner pass action).map fun (next, pass) => next.setPass owner pass
  | .worker => workerStep state
  | .enter c barrier ranges =>
      match state.caller c with
      | .idle => some (state.setCaller c (.loadVersion barrier ranges))
      | _ => none
  | .caller c => callerStep state c

/-! ## Read sections and destructors -/

/-- The thread is inside a read section whose outermost `lrcu_read_lock_ns` has
returned. -/
def NamespaceState.Inside (state : NamespaceState) (i : ReaderId) : Prop :=
  state.reader i = .idle ∧ 1 ≤ (state.lns i).counter ∨
    state.reader i = .entered ∧ 2 ≤ (state.lns i).counter

/-- The object whose destructor the next step of the worker invokes. -/
def NamespaceState.destroys (state : NamespaceState) : Option ObjId :=
  match state.worker with
  | .walkList index rbt =>
      (state.workerList[index]?).bind fun callback =>
        if lrcuRangetreeFind rbt callback.version then none else some callback.obj
  | .walkHlist index rbt =>
      (state.workerHlist[index]?).bind fun callback =>
        if lrcuRangetreeFind rbt callback.version then none else some callback.obj
  | _ => none

/-- The step increments `ns->version`. -/
def NamespaceState.bumps (state : NamespaceState) : NamespaceAction → Bool
  | .writer .bumpVersion | .writer (.assignBarrier ..) | .writer .lrcuWriteBarrierNs => true
  | .worker =>
      match state.worker with
      | .writeBarrier => true
      | _ => false
  | _ => false

/-- The step does not carry `ns->version` past the last `u64`. -/
def VersionFits (state : NamespaceState) (action : NamespaceAction) : Prop :=
  state.bumps action = true → state.version < 2 ^ 64 - 1

/-- The step does not nest read sections deeper than an `i32` counts. -/
def DepthFits (state : NamespaceState) (action : NamespaceAction) : Prop :=
  ∀ i, action = .reader i .lockCount → (state.lns i).counter < 2 ^ 31 - 1

/-- The hang test of a visit does not succeed. -/
def HangTestFails (state : NamespaceState) (action : NamespaceAction) : Prop :=
  ∀ owner now currentVersion index version counter rbt ti,
    action = .pass owner (.visit now) →
    state.passOf owner =
      some (.visiting .threads currentVersion index (some version) (some counter) rbt) →
    state.lists.threads[index]? = some ti →
    hangTest (state.lists.info ti) ⟨⟨version, counter⟩, now⟩ = false

end LightRcu
